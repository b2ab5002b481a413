import PrlMiner.Cuda.TranscriptGrid
import PrlMiner.Cuda.Warp

/-! Output tiles of a grid of warps. A block splits its tile among its warps, a warp
accumulates several 16x8 multiplies, and every accumulator is stored at a place of
its own. The operands are packed byte by byte. -/
namespace Cuda

open FixedWidth LittleEndian ParallelWrites Reduction Reference

/-- `pk(v[t*4+off], ..., v[t*4+off+3])`. -/
def packWord (v : Buffer I8) (t off : Nat) : U32 :=
  pk (v (t * 4 + off)) (v (t * 4 + off + 1)) (v (t * 4 + off + 2)) (v (t * 4 + off + 3))

/-- Registers `a0, ..., a3`, packed from the rows `g` and `g + 8`. -/
def packA (row : Nat → Buffer I8) : Nat → Nat → U32 := fun lane reg =>
  packWord (row (lane / 4 + 8 * (reg % 2))) (lane % 4) (16 * (reg / 2))

/-- Registers `b0` and `b1`, packed from the column `g`. -/
def packB (col : Nat → Buffer I8) : Nat → Nat → U32 := fun lane reg =>
  packWord (col (lane / 4)) (lane % 4) (16 * reg)

theorem wordByte_packWord (v : Buffer I8) (t off : Nat) {x : Nat} (hx : x < 4) :
    wordByte (packWord v t off) x = v (t * 4 + off + x) :=
  wordByte_leWord (fun x => v (t * 4 + off + x)) hx

theorem elemA_packA (rows : Nat → Buffer I8) {row kk : Nat} (hRow : row < 16) :
    elemA (packA rows) row kk = rows row kk := by
  have hGroup : (row % 8 * 4 + kk % 16 / 4) / 4 + 8 * ((row / 8 + 2 * (kk / 16)) % 2) = row := by omega
  have hByte : (row % 8 * 4 + kk % 16 / 4) % 4 * 4 + 16 * ((row / 8 + 2 * (kk / 16)) / 2) + kk % 4 = kk := by
    omega
  rw [elemA, packA, wordByte_packWord _ _ _ (Nat.mod_lt _ (by decide)), hGroup, hByte]

theorem elemB_packB (cols : Nat → Buffer I8) (kk col : Nat) : elemB (packB cols) kk col = cols col kk := by
  have hGroup : (col * 4 + kk % 16 / 4) / 4 = col := by omega
  have hByte : (col * 4 + kk % 16 / 4) % 4 * 4 + 16 * (kk / 16) + kk % 4 = kk := by omega
  rw [elemB, packB, wordByte_packWord _ _ _ (Nat.mod_lt _ (by decide)), hGroup, hByte]

/-- The stores of one lane, `C[(row + g) * n + (col + t*2 + 0)] = c0` and so on. -/
def storeFragment (n row col lane : Nat) (c : Nat → I32) : List (Write I32) :=
  let g := lane / 4
  let t := lane % 4
  [store (idx (row + g) (col + t * 2 + 0) n) (c 0), store (idx (row + g) (col + t * 2 + 1) n) (c 1),
    store (idx (row + g + 8) (col + t * 2 + 0) n) (c 2), store (idx (row + g + 8) (col + t * 2 + 1) n) (c 3)]

/-- A lane stores its four accumulators at the rows and columns that the instruction
assigns to it. -/
theorem storeFragment_eq (n row col lane : Nat) (c : Nat → I32) :
    storeFragment n row col lane c = (List.range 4).map fun e =>
      store (idx (row + accRow lane e) (col + accCol lane e) n) (c e) := by
  simp [storeFragment, accRow, accCol, List.range_succ, Nat.add_assoc]

/-- A block of `warpRows x warpCols` warps, each with `mrows x ncols` multiplies. -/
structure WarpTiling where
  mrows : Nat
  ncols : Nat
  warpRows : Nat
  warpCols : Nat

namespace WarpTiling

variable (T : WarpTiling)

def blockRows : Nat := T.warpRows * T.mrows * 16
def blockCols : Nat := T.warpCols * T.ncols * 8
def threads : Nat := T.warpRows * T.warpCols * 32

/-- Top left corner of the multiply `(mrow, ncol)` of a warp in its block. -/
def tileRow (wid mrow : Nat) : Nat := wid / T.warpCols * (T.mrows * 16) + mrow * 16
def tileCol (wid ncol : Nat) : Nat := wid % T.warpCols * (T.ncols * 8) + ncol * 8

/-- The multiplies of all warps at one step, given their operands. -/
def mmaStep (a b : Nat → Nat → Nat → Nat → U32) (acc : Nat → Nat → Nat → Nat → I32) :
    Nat → Nat → Nat → Nat → I32 := fun tid mrow ncol =>
  let wid := tid / 32
  mma (a wid mrow) (b wid ncol) (fun lane => acc (wid * 32 + lane) mrow ncol) (tid % 32)

/-- The stores of a thread once the loop is over. -/
def storeAcc (n br bc tid : Nat) (acc : Nat → Nat → Nat → I32) : List (Write I32) :=
  (List.range T.mrows).flatMap fun mrow => (List.range T.ncols).flatMap fun ncol =>
    storeFragment n (br + T.tileRow (tid / 32) mrow) (bc + T.tileCol (tid / 32) ncol) (tid % 32)
      (acc mrow ncol)

/-- Every accumulator of the block holds its entry of `A[:, :p] @ B[:p, :]`. -/
def Accumulates (A B : Mat I8) (br bc p : Nat) (acc : Nat → Nat → Nat → Nat → I32) : Prop :=
  ∀ tid < T.threads, ∀ mrow < T.mrows, ∀ ncol < T.ncols, ∀ e < 4, acc tid mrow ncol e =
    prefixProduct A B p (br + T.tileRow (tid / 32) mrow + accRow (tid % 32) e)
      (bc + T.tileCol (tid / 32) ncol + accCol (tid % 32) e)

variable {T}

theorem accumulates_zero (A B : Mat I8) (br bc : Nat) : T.Accumulates A B br bc 0 (fun _ _ _ _ => 0) :=
  fun _ _ _ _ _ _ _ _ => rfl

/-- One step of multiplies adds 32 columns to every accumulator. -/
theorem Accumulates.step {A B : Mat I8} {br bc p : Nat} {acc : Nat → Nat → Nat → Nat → I32}
    (h : T.Accumulates A B br bc p acc) {a b : Nat → Nat → Nat → Nat → U32}
    (hA : ∀ wid < T.warpRows * T.warpCols, ∀ mrow < T.mrows, ∀ row < 16, ∀ kk < 32,
      elemA (a wid mrow) row kk = A (br + T.tileRow wid mrow + row) (p + kk))
    (hB : ∀ wid < T.warpRows * T.warpCols, ∀ ncol < T.ncols, ∀ kk < 32, ∀ col < 8,
      elemB (b wid ncol) kk col = B (p + kk) (bc + T.tileCol wid ncol + col)) :
    T.Accumulates A B br bc (p + 32) (mmaStep a b acc) := by
  intro tid htid mrow hmrow ncol hncol e he
  have hWid : tid / 32 < T.warpRows * T.warpCols := by
    rw [threads] at htid
    exact Nat.div_lt_of_lt_mul (by omega)
  exact mma_accumulates (fun tid => acc tid mrow ncol) he (hA _ hWid mrow hmrow) (hB _ hWid ncol hncol)
    (h tid htid mrow hmrow ncol hncol e he)

/-- Row and column of an accumulator in the output, as mixed-radix numbers. -/
theorem row_eq (x tid mrow e : Nat) :
    x * T.blockRows + T.tileRow (tid / 32) mrow + accRow (tid % 32) e =
      idx (idx (idx x (tid / 32 / T.warpCols) T.warpRows) mrow T.mrows) (accRow (tid % 32) e) 16 := by
  simp only [idx, blockRows, tileRow]
  ring

theorem col_eq (y tid ncol e : Nat) :
    y * T.blockCols + T.tileCol (tid / 32) ncol + accCol (tid % 32) e =
      idx (idx (idx y (tid / 32 % T.warpCols) T.warpCols) ncol T.ncols) (accCol (tid % 32) e) 8 := by
  simp only [idx, blockCols, tileCol]
  ring

/-- One accumulator of one thread of the grid. -/
structure Place where
  thread : GridThread
  mrow : Nat
  ncol : Nat
  e : Nat

namespace Place

/-- The place exists in a launch over an `m x n` output. -/
structure In (T : WarpTiling) (m n : Nat) (p : Place) : Prop where
  thread : p.thread.In (m / T.blockRows) (n / T.blockCols) 1 T.threads
  mrow : p.mrow < T.mrows
  ncol : p.ncol < T.ncols
  e : p.e < 4

def row (T : WarpTiling) (p : Place) : Nat :=
  p.thread.x * T.blockRows + T.tileRow (p.thread.tid / 32) p.mrow + accRow (p.thread.tid % 32) p.e
def col (T : WarpTiling) (p : Place) : Nat :=
  p.thread.y * T.blockCols + T.tileCol (p.thread.tid / 32) p.ncol + accCol (p.thread.tid % 32) p.e

variable {m n : Nat} {p q : Place}

theorem accRow_lt {lane e : Nat} (hLane : lane < 32) (he : e < 4) : accRow lane e < 16 := by
  rw [accRow]
  omega

theorem accCol_lt (lane e : Nat) : accCol lane e < 8 := by
  rw [accCol]
  omega

theorem In.warp (h : p.In T m n) :
    p.thread.tid / 32 / T.warpCols < T.warpRows ∧ p.thread.tid / 32 % T.warpCols < T.warpCols := by
  have hTid := h.thread.2.2.2
  rw [threads] at hTid
  have hWid : p.thread.tid / 32 < T.warpCols * T.warpRows := by
    rw [Nat.mul_comm T.warpCols]
    exact Nat.div_lt_of_lt_mul (by omega)
  have hPos : 0 < T.warpCols := Nat.pos_of_ne_zero fun h0 => by simp [h0] at hWid
  exact ⟨Nat.div_lt_of_lt_mul hWid, Nat.mod_lt _ hPos⟩

/-- Every store lies inside the output. -/
theorem In.col_lt (hn : T.blockCols ∣ n) (h : p.In T m n) : p.col T < n := by
  have hLt := idx_lt (idx_lt (idx_lt h.thread.2.1 h.warp.2) h.ncol) (accCol_lt (p.thread.tid % 32) p.e)
  have hSize : n / T.blockCols * T.warpCols * T.ncols * 8 = n := by
    obtain ⟨blocks, rfl⟩ := hn
    have hPos : 0 < T.blockCols := Nat.pos_of_ne_zero fun h0 => by
      have := h.thread.2.1
      simp [h0] at this
    rw [Nat.mul_div_cancel_left _ hPos, blockCols]
    ring
  rwa [hSize, ← col_eq] at hLt

/-- Different places store to different entries. -/
theorem In.inj (hp : p.In T m n) (hq : q.In T m n) (hRow : p.row T = q.row T) (hCol : p.col T = q.col T) :
    p = q := by
  have hLane (p : Place) : p.thread.tid % 32 < 32 := Nat.mod_lt _ (by decide)
  rw [row, row, row_eq, row_eq] at hRow
  rw [col, col, col_eq, col_eq] at hCol
  obtain ⟨hRow, hAccRow⟩ := idx_inj (accRow_lt (hLane p) hp.e) (accRow_lt (hLane q) hq.e) hRow
  obtain ⟨hRow, hMrow⟩ := idx_inj hp.mrow hq.mrow hRow
  obtain ⟨hX, hWarpRow⟩ := idx_inj hp.warp.1 hq.warp.1 hRow
  obtain ⟨hCol, hAccCol⟩ := idx_inj (accCol_lt _ _) (accCol_lt _ _) hCol
  obtain ⟨hCol, hNcol⟩ := idx_inj hp.ncol hq.ncol hCol
  obtain ⟨hY, hWarpCol⟩ := idx_inj hp.warp.2 hq.warp.2 hCol
  have hWid : p.thread.tid / 32 = q.thread.tid / 32 := by
    rw [← Nat.div_add_mod (p.thread.tid / 32) T.warpCols, hWarpRow, hWarpCol, Nat.div_add_mod]
  have hpe := hp.e
  have hqe := hq.e
  have hpz := hp.thread.2.2.1
  have hqz := hq.thread.2.2.1
  obtain ⟨⟨px, py, pz, ptid⟩, pmrow, pncol, pe⟩ := p
  obtain ⟨⟨qx, qy, qz, qtid⟩, qmrow, qncol, qe⟩ := q
  simp only [accRow, accCol] at *
  obtain rfl : ptid = qtid := by omega
  obtain rfl : pe = qe := by omega
  obtain rfl : pz = qz := by omega
  subst hX hY hMrow hNcol
  rfl

/-- Every entry of the output has its place. -/
theorem exists_of_entry (hm : T.blockRows ∣ m) (hn : T.blockCols ∣ n) {i j : Nat} (hi : i < m) (hj : j < n) :
    ∃ p : Place, p.In T m n ∧ p.row T = i ∧ p.col T = j := by
  obtain ⟨rowBlocks, rfl⟩ := hm
  obtain ⟨colBlocks, rfl⟩ := hn
  have hRows : 0 < T.blockRows := Nat.pos_of_ne_zero fun h0 => by simp [h0] at hi
  have hCols : 0 < T.blockCols := Nat.pos_of_ne_zero fun h0 => by simp [h0] at hj
  have hWarpRows : 0 < T.warpRows := Nat.pos_of_ne_zero fun h0 => by simp [blockRows, h0] at hRows
  have hMrows : 0 < T.mrows := Nat.pos_of_ne_zero fun h0 => by simp [blockRows, h0] at hRows
  have hWarpCols : 0 < T.warpCols := Nat.pos_of_ne_zero fun h0 => by simp [blockCols, h0] at hCols
  have hNcols : 0 < T.ncols := Nat.pos_of_ne_zero fun h0 => by simp [blockCols, h0] at hCols
  -- the digits of the row and the column, lowest first
  let wr := i / 16 / T.mrows % T.warpRows
  let wc := j / 8 / T.ncols % T.warpCols
  let lane := i % 8 * 4 + j % 8 / 2
  let tid := idx (idx wr wc T.warpCols) lane 32
  have hLane : lane < 32 := by omega
  have hWr : wr < T.warpRows := Nat.mod_lt _ hWarpRows
  have hWc : wc < T.warpCols := Nat.mod_lt _ hWarpCols
  have hWid : tid / 32 = idx wr wc T.warpCols := idx_div hLane
  have hTidLane : tid % 32 = lane := idx_mod hLane
  have hAccRow : accRow lane (i % 16 / 8 * 2 + j % 2) = i % 16 := by
    simp only [accRow, lane]
    omega
  have hAccCol : accCol lane (i % 16 / 8 * 2 + j % 2) = j % 8 := by
    simp only [accCol, lane]
    omega
  refine ⟨⟨⟨i / 16 / T.mrows / T.warpRows, j / 8 / T.ncols / T.warpCols, 0, tid⟩, i / 16 % T.mrows,
    j / 8 % T.ncols, i % 16 / 8 * 2 + j % 2⟩, ⟨⟨?_, ?_, Nat.one_pos, ?_⟩, Nat.mod_lt _ hMrows,
    Nat.mod_lt _ hNcols, by dsimp only; omega⟩, ?_, ?_⟩
  · dsimp only
    rw [Nat.mul_div_cancel_left _ hRows, Nat.div_div_eq_div_mul, Nat.div_div_eq_div_mul]
    apply Nat.div_lt_of_lt_mul
    calc i < T.blockRows * rowBlocks := hi
      _ = 16 * (T.mrows * T.warpRows) * rowBlocks := by
        rw [blockRows]
        ring
  · dsimp only
    rw [Nat.mul_div_cancel_left _ hCols, Nat.div_div_eq_div_mul, Nat.div_div_eq_div_mul]
    apply Nat.div_lt_of_lt_mul
    calc j < T.blockCols * colBlocks := hj
      _ = 8 * (T.ncols * T.warpCols) * colBlocks := by
        rw [blockCols]
        ring
  · exact idx_lt (idx_lt hWr hWc) hLane
  · rw [row, row_eq]
    dsimp only
    rw [hWid, hTidLane, idx_div hWc, hAccRow, idx_div_mod, idx_div_mod, idx_div_mod]
  · rw [col, col_eq]
    dsimp only
    rw [hWid, hTidLane, idx_mod hWc, hAccCol, idx_div_mod, idx_div_mod, idx_div_mod]

/-- The address of the entry a place stores to. -/
def addr (T : WarpTiling) (n : Nat) (p : Place) : Nat := idx (p.row T) (p.col T) n

/-- Two accumulators of a launch share an address only when they are the same accumulator
of the same lane. -/
theorem In.addr_inj (hn : T.blockCols ∣ n) (hp : p.In T m n) (hq : q.In T m n)
    (h : p.addr T n = q.addr T n) : p = q := by
  obtain ⟨hRow, hCol⟩ := idx_inj (hp.col_lt hn) (hq.col_lt hn) h
  exact hp.inj hq hRow hCol

end Place

section Stores

variable {m n : Nat}

/-- A thread stores at its own places. -/
theorem mem_storeAcc {t : GridThread} (ht : t.In (m / T.blockRows) (n / T.blockCols) 1 T.threads)
    {acc : Nat → Nat → Nat → I32} {w : Write I32} :
    w ∈ T.storeAcc n (t.x * T.blockRows) (t.y * T.blockCols) t.tid acc ↔
      ∃ p : Place, p.In T m n ∧ p.thread = t ∧ w = store (p.addr T n) (acc p.mrow p.ncol p.e) := by
  simp only [storeAcc, storeFragment_eq, List.mem_flatMap, List.mem_map, List.mem_range]
  constructor
  · rintro ⟨mrow, hMrow, ncol, hNcol, e, he, rfl⟩
    exact ⟨⟨t, mrow, ncol, e⟩, ⟨ht, hMrow, hNcol, he⟩, rfl, rfl⟩
  · rintro ⟨p, hp, rfl, rfl⟩
    exact ⟨p.mrow, hp.mrow, p.ncol, hp.ncol, p.e, hp.e, rfl⟩

/-- A place is stored to once by its thread. -/
theorem updatesAt_storeAcc (hn : T.blockCols ∣ n) {p : Place} (hp : p.In T m n)
    (acc : Nat → Nat → Nat → I32) :
    updatesAt (p.addr T n)
      (T.storeAcc n (p.thread.x * T.blockRows) (p.thread.y * T.blockCols) p.thread.tid acc) =
      [fun _ => acc p.mrow p.ncol p.e] := by
  have hOnly {mrow ncol e : Nat} (hMrow : mrow < T.mrows) (hNcol : ncol < T.ncols) (he : e < 4)
      (hAddr : Place.addr T n ⟨p.thread, mrow, ncol, e⟩ = p.addr T n) :
      mrow = p.mrow ∧ ncol = p.ncol ∧ e = p.e := by
    have hq : Place.In T m n ⟨p.thread, mrow, ncol, e⟩ := ⟨hp.thread, hMrow, hNcol, he⟩
    rw [← hq.addr_inj hn hp hAddr]
    exact ⟨rfl, rfl, rfl⟩
  simp only [storeAcc, storeFragment_eq]
  rw [updatesAt_flatMap_range hp.mrow, updatesAt_flatMap_range hp.ncol, updatesAt_map_range hp.e]
  · rfl
  · rfl
  · intro e he hAddr
    exact (hOnly hp.mrow hp.ncol he hAddr).2.2
  · intro ncol hNcol hNe w hw hAddr
    obtain ⟨e, he, rfl⟩ := List.mem_map.mp hw
    exact hNe (hOnly hp.mrow hNcol (List.mem_range.mp he) hAddr).2.1
  · intro mrow hMrow hNe w hw hAddr
    obtain ⟨ncol, hNcol, hw⟩ := List.mem_flatMap.mp hw
    obtain ⟨e, he, rfl⟩ := List.mem_map.mp hw
    exact hNe (hOnly hMrow (List.mem_range.mp hNcol) (List.mem_range.mp he) hAddr).1

/-- The stores of a whole grid: every entry once, with the value its place accumulated. -/
theorem storeAcc_grid (hm : T.blockRows ∣ m) (hn : T.blockCols ∣ n)
    {kernel : Nat → Nat → Nat → List (Write I32)} {acc : Nat → Nat → Nat → Nat → Nat → Nat → I32}
    {value : Mat I32}
    (hKernel : ∀ t : GridThread, t.In (m / T.blockRows) (n / T.blockCols) 1 T.threads →
      kernel t.x t.y t.tid =
        T.storeAcc n (t.x * T.blockRows) (t.y * T.blockCols) t.tid (acc t.x t.y t.tid))
    (hAcc : ∀ p : Place, p.In T m n →
      acc p.thread.x p.thread.y p.thread.tid p.mrow p.ncol p.e = value (p.row T) (p.col T))
    {i j : Nat} (hi : i < m) (hj : j < n) :
    UpdatedOnce (idx i j n) (fun t : GridThread => t.In (m / T.blockRows) (n / T.blockCols) 1 T.threads)
        (fun t => kernel t.x t.y t.tid) ∧
      ∀ s C, matrixOf n (launchGrid s (m / T.blockRows) (n / T.blockCols) 1 T.threads
        (fun x y _ tid => kernel x y tid) C) i j = value i j := by
  obtain ⟨p, hp, rfl, rfl⟩ := Place.exists_of_entry hm hn hi hj
  have hOwner (t : GridThread) (ht : t.In (m / T.blockRows) (n / T.blockCols) 1 T.threads)
      (w : Write I32) (hw : w ∈ kernel t.x t.y t.tid) (hAddr : w.addr = p.addr T n) : t = p.thread := by
    rw [hKernel t ht] at hw
    obtain ⟨q, hq, rfl, rfl⟩ := (mem_storeAcc ht).mp hw
    rw [hq.addr_inj hn hp hAddr]
  have hUpdates : updatesAt (p.addr T n) (kernel p.thread.x p.thread.y p.thread.tid) =
      [fun _ => value (p.row T) (p.col T)] := by
    rw [hKernel _ hp.thread, updatesAt_storeAcc hn hp, hAcc p hp]
  refine ⟨⟨p.thread, hp.thread, ?_, hOwner⟩, fun s C => ?_⟩
  · exact congrArg List.length hUpdates
  · rw [matrixOf, launchGrid_of_owner s p.thread.x p.thread.y 0 p.thread.tid hp.thread.1 hp.thread.2.1
      Nat.one_pos hp.thread.2.2.2]
    · rw [applyAll_apply]
      exact congrArg (List.foldl (fun x f => f x) (C (p.addr T n))) hUpdates
    · intro x hx y hy z hz' tid htid w hw hAddr
      have hSame := hOwner ⟨x, y, z, tid⟩ ⟨hx, hy, hz', htid⟩ w hw hAddr
      simp [← hSame, Nat.lt_one_iff.mp hz']

end Stores

end WarpTiling

end Cuda
