import PrlMiner.Cuda.TilePipeline
import PrlMiner.Cuda.TranscriptGrid
import PrlMiner.Cuda.Warp

/-! `k_mine2`: the noised product on tensor cores, 2x64 tiles hashed straight from
the accumulator registers at the end of each 128-wide chunk. -/
namespace Cuda

open FixedWidth LittleEndian ParallelWrites Reduction Reference

/-- Start of half `s` in `int8_t Bst[2][128*36]`. -/
def halfT (s : Nat) : Nat := s * 4608

/-- The variables of a block after some steps: accumulators by thread, `mrow`,
`ncol` and register, and each thread's accesses to the transcripts so far. -/
structure Mine2State where
  staging : Staging
  Bst : Buffer I8
  acc : Nat → Nat → Nat → Nat → I32
  accesses : Nat → List (Write U32)

/-- One thread of the transpose to stride 36. -/
def transposeThread (Bs : Buffer I8) (cur tid : Nat) : List (Write I8) :=
  (List.range 16).map fun i =>
    let x := tid + i * 256
    let kk := x / 128
    let nn := x % 128
    store (halfT cur + nn * 36 + kk) (Bs (half cur + kk * 128 + nn))

/-- Registers `bf0[ncol]` and `bf1[ncol]` of a warp. -/
def mine2B (Bst : Buffer I8) (cur wc ncol : Nat) : Nat → Nat → U32 := fun lane reg =>
  load32 Bst (halfT cur + (wc * 64 + ncol * 8 + lane / 4) * 36 + lane % 4 * 4 + 16 * reg)

/-- Registers `a0, ..., a3` of a warp for one `mrow`. -/
def mine2A (As : Buffer I8) (cur wr mrow : Nat) : Nat → Nat → U32 :=
  ldmatrix As fun lane =>
    let alo := if lane < 16 then lane else lane - 16
    let akoff := if lane < 16 then 0 else 16
    half cur + (wr * 32 + mrow * 16 + alo) * 32 + akoff

/-- `pe` (registers 0 and 1) or `po` (registers 2 and 3) of each lane before the shuffles. -/
def rowXor (acc : Nat → Nat → Nat → I32) (e : Nat) : Nat → U32 := fun lane =>
  reduce (· ^^^ ·) 0 8 fun ncol => acc lane ncol e ^^^ acc lane ncol (e + 1)

/-- The accesses of a thread at the end of a chunk, given its shuffled words. -/
def mine2Accesses (m n bx by' att slot tid : Nat) (pe po : Nat → U32) : List (Write U32) :=
  let lane := tid % 32
  let wid := tid / 32
  let wr := wid / 2
  let wc := wid % 2
  let base := att * (m / 2) * (n / 64) * 16
  if lane % 8 = 0 then
    (List.range 2).flatMap fun mrow =>
      let a := lane / 8
      let srb := bx * 128 / 2 + wr * 16 + mrow * 8
      let gsc := by' * 128 / 64 + wc
      [⟨base + ((srb + a) * (n / 64) + gsc) * 16 + slot, foldWord (pe mrow)⟩,
        ⟨base + ((srb + 4 + a) * (n / 64) + gsc) * 16 + slot, foldWord (po mrow)⟩]
  else []

/-- One step of the K loop. -/
def mine2Step (env : BlockEnv) (An Bn : Buffer I8) (m k n bx by' att : Nat) (st : Mine2State)
    (ks : Nat) : Mine2State :=
  let cur := ks % 2
  let staging := stageStep env An Bn k n (bx * 128) (by' * 128) (k / 32) ks st.staging
  let Bst := launch (env.transposing ks) 256 (transposeThread staging.Bs cur) st.Bst
  let acc := fun tid mrow ncol =>
    let wid := tid / 32
    mma (mine2A staging.As cur (wid / 2) mrow) (mine2B Bst cur (wid % 2) ncol)
      (fun lane => st.acc (wid * 32 + lane) mrow ncol) (tid % 32)
  let accesses := fun tid =>
    let warp := fun mrow lane => acc (tid / 32 * 32 + lane) mrow
    if (ks + 1) % 4 = 0 then
      st.accesses tid ++ mine2Accesses m n bx by' att (((ks + 1) / 4 - 1) % 16) tid
        (fun mrow => xorDown (rowXor (warp mrow) 0) (tid % 32))
        (fun mrow => xorDown (rowXor (warp mrow) 2) (tid % 32))
    else st.accesses tid
  ⟨staging, Bst, acc, accesses⟩

/-- The variables of block `(bx, by', att)` after `q` steps. -/
def mine2Run (env : BlockEnv) (An Bn : Buffer I8) (m k n bx by' att q : Nat) : Mine2State :=
  let An := offset An (att * m * k)
  let Bn := offset Bn (att * k * n)
  (List.range q).foldl (mine2Step env An Bn m k n bx by' att)
    ⟨startStaging env An Bn k n (bx * 128) (by' * 128), env.Bst, fun _ _ _ _ => 0, fun _ => []⟩

/-- The accesses of every thread of block `(bx, by', att)` to the transcripts. -/
def kMine2 (env : BlockEnv) (An Bn : Buffer I8) (m k n bx by' att : Nat) : Nat → List (Write U32) :=
  let An := offset An (att * m * k)
  let Bn := offset Bn (att * k * n)
  let start : Mine2State :=
    ⟨startStaging env An Bn k n (bx * 128) (by' * 128), env.Bst, fun _ _ _ _ => 0, fun _ => []⟩
  ((List.range (k / 32)).foldl (mine2Step env An Bn m k n bx by' att) start).accesses

/-- The transposed half holds columns 36 bytes apart. -/
theorem transpose_Bst (s : Scheduler) (Bs mem : Buffer I8) (cur : Nat) {kk nn : Nat} (hkk : kk < 32)
    (hnn : nn < 128) :
    launch s 256 (transposeThread Bs cur) mem (halfT cur + nn * 36 + kk) =
      Bs (half cur + kk * 128 + nn) := by
  have hRun := launch_stores s (n := 256) (c := 16) (t := (kk * 128 + nn) % 256)
    (i := (kk * 128 + nn) / 256)
    (fun tid i => halfT cur + (tid + i * 256) % 128 * 36 + (tid + i * 256) / 128)
    (fun tid i => Bs (half cur + (tid + i * 256) / 128 * 128 + (tid + i * 256) % 128)) mem
    (by omega) (by omega) (fun u hu j hj h => by
      have hIdx : idx ((u + j * 256) % 128) ((u + j * 256) / 128) 36 = idx nn kk 36 := by
        rw [idx, idx]
        omega
      obtain ⟨hCol, hRow⟩ := idx_inj (by omega) (by omega) hIdx
      omega)
  have hSum : (kk * 128 + nn) % 256 + (kk * 128 + nn) / 256 * 256 = kk * 128 + nn := by omega
  have hRow : (kk * 128 + nn) / 128 = kk := by omega
  have hCol : (kk * 128 + nn) % 128 = nn := by omega
  simp only [hSum, hRow, hCol] at hRun
  exact hRun

theorem elemA_mine2A (As : Buffer I8) (cur wr mrow : Nat) {row kk : Nat} (hRow : row < 16)
    (hkk : kk < 32) : elemA (mine2A As cur wr mrow) row kk =
      As (half cur + ((wr * 32 + mrow * 16 + row) * 32 + kk)) := by
  have hForm := elemA_ldmatrix As (half cur + (wr * 32 + mrow * 16) * 32) hRow hkk
  have hAddr : half cur + (wr * 32 + mrow * 16) * 32 + row * 32 + kk =
      half cur + ((wr * 32 + mrow * 16 + row) * 32 + kk) := by ring
  have hLanes : mine2A As cur wr mrow = ldmatrix As fun lane => half cur + (wr * 32 + mrow * 16) * 32 +
      (if lane < 16 then lane else lane - 16) * 32 + (if lane < 16 then 0 else 16) :=
    congrArg (ldmatrix As) (funext fun lane => by ring)
  rw [hLanes, hForm, hAddr]

theorem elemB_mine2B (Bst : Buffer I8) (cur wc ncol kk col : Nat) :
    elemB (mine2B Bst cur wc ncol) kk col =
      Bst (halfT cur + (wc * 64 + ncol * 8 + col) * 36 + kk) := by
  have hForm := elemB_load32 Bst (halfT cur + (wc * 64 + ncol * 8) * 36) 36 kk col
  have hAddr : halfT cur + (wc * 64 + ncol * 8) * 36 + col * 36 + kk =
      halfT cur + (wc * 64 + ncol * 8 + col) * 36 + kk := by ring
  have hRegs : mine2B Bst cur wc ncol = fun lane reg => load32 Bst
      (halfT cur + (wc * 64 + ncol * 8) * 36 + lane / 4 * 36 + lane % 4 * 4 + 16 * reg) :=
    funext fun lane => funext fun reg => congrArg (load32 Bst) (by ring)
  rw [hRegs, hForm, hAddr]

/-- The sixteen columns of four lanes are the 64 columns of a row. -/
theorem reduce_lanes (f : Nat → U32) :
    reduce (· ^^^ ·) 0 4 (fun t => reduce (· ^^^ ·) 0 8 fun ncol =>
      f (ncol * 8 + t * 2) ^^^ f (ncol * 8 + (t * 2 + 1))) = reduce (· ^^^ ·) 0 64 f := by
  have hPairs (ncol : Nat) : reduce (· ^^^ ·) 0 4 (fun t =>
      f (ncol * 8 + t * 2) ^^^ f (ncol * 8 + (t * 2 + 1))) =
        reduce (· ^^^ ·) 0 8 (fun x => f (ncol * 8 + x)) := by
    rw [reduce_mul 4 2]
    apply reduce_congr
    intro t _
    rw [reduce_pair]
    rfl
  rw [reduce_comm, reduce_mul 8 8]
  exact reduce_congr (fun ncol _ => hPairs ncol)

/-- Shuffled row words of an accumulated block are the hashes of its 2x64 tiles. -/
theorem xorDown_rowXor {A B : Mat I8} {acc : Nat → Nat → Nat → I32} {p e a : Nat} (row col : Nat)
    (he : e = 0 ∨ e = 2) (ha : a < 4)
    (hAcc : ∀ lane < 32, ∀ ncol < 8, ∀ e < 4, acc lane ncol e =
      prefixProduct A B p (row + accRow lane e) (col + ncol * 8 + accCol lane e)) :
    xorDown (rowXor acc e) (8 * a) = tileHash A B 2 64 (row + 2 * a + 4 * e) col p := by
  rw [xorDown_segment _ ha, tileHash, innerHashTile_eq_nested, reduce_mul 2 4]
  apply reduce_congr
  intro u hu
  rw [← reduce_lanes]
  apply reduce_congr
  intro t ht
  apply reduce_congr
  intro ncol hncol
  rw [hAcc _ (by omega) _ hncol _ (by omega), hAcc _ (by omega) _ hncol _ (by omega)]
  have hRow : row + accRow (8 * a + (u * 4 + t)) e = row + 2 * a + 4 * e + u := by
    rw [accRow]
    omega
  have hRow' : row + accRow (8 * a + (u * 4 + t)) (e + 1) = row + 2 * a + 4 * e + u := by
    rw [accRow]
    omega
  have hCol : col + ncol * 8 + accCol (8 * a + (u * 4 + t)) e = col + (ncol * 8 + t * 2) := by
    rw [accCol]
    omega
  have hCol' : col + ncol * 8 + accCol (8 * a + (u * 4 + t)) (e + 1) = col + (ncol * 8 + (t * 2 + 1)) := by
    rw [accCol]
    omega
  rw [hRow, hRow', hCol, hCol']

section Block

variable (env : BlockEnv) (An Bn : Buffer I8) (m k n bx by' att : Nat)

/-- The accesses of a thread for chunk `c`, with the hashes of the reference. -/
def chunkAccesses (A B : Mat I8) (tid c : Nat) : List (Write U32) :=
  let row := fun mrow => bx * 128 + tid / 32 / 2 * 32 + mrow * 16 + 2 * (tid % 32 / 8)
  let col := by' * 128 + tid / 32 % 2 * 64
  mine2Accesses m n bx by' att (c % 16) tid
    (fun mrow => tileHash A B 2 64 (row mrow) col (128 * (c + 1)))
    (fun mrow => tileHash A B 2 64 (row mrow + 8) col (128 * (c + 1)))

/-- The loop invariant after `q` steps. -/
structure Mine2Inv (q : Nat) (st : Mine2State) : Prop where
  staged : Staged An Bn k n (bx * 128) (by' * 128) (k / 32) q st.staging
  acc : ∀ tid < 256, ∀ mrow < 2, ∀ ncol < 8, ∀ e < 4, st.acc tid mrow ncol e =
    prefixProduct (matrixOf k An) (matrixOf n Bn) (q * 32)
      (bx * 128 + tid / 32 / 2 * 32 + mrow * 16 + accRow (tid % 32) e)
      (by' * 128 + tid / 32 % 2 * 64 + ncol * 8 + accCol (tid % 32) e)
  accesses : ∀ tid < 256, st.accesses tid = (List.range (q / 4)).flatMap
    (chunkAccesses m n bx by' att (matrixOf k An) (matrixOf n Bn) tid)

variable {An Bn m k n bx by' att}

/-- The multiplies of one step add 32 columns to every accumulator. -/
theorem mine2Step_acc {q : Nat} {st : Mine2State} (hq : q < k / 32)
    (hInv : Mine2Inv An Bn m k n bx by' att q st) :
    ∀ tid < 256, ∀ mrow < 2, ∀ ncol < 8, ∀ e < 4,
      (mine2Step env An Bn m k n bx by' att st q).acc tid mrow ncol e =
        prefixProduct (matrixOf k An) (matrixOf n Bn) ((q + 1) * 32)
          (bx * 128 + tid / 32 / 2 * 32 + mrow * 16 + accRow (tid % 32) e)
          (by' * 128 + tid / 32 % 2 * 64 + ncol * 8 + accCol (tid % 32) e) := by
  obtain ⟨-, hAs, hBs⟩ := stageStep_spec env hq hInv.staged
  intro tid htid mrow hmrow ncol hncol e he
  have hA : ∀ row < 16, ∀ kk < 32, elemA (mine2A (stageStep env An Bn k n (bx * 128) (by' * 128)
      (k / 32) q st.staging).As (q % 2) (tid / 32 / 2) mrow) row kk =
        matrixOf k An (bx * 128 + tid / 32 / 2 * 32 + mrow * 16 + row) (q * 32 + kk) := by
    intro row hRow kk hkk
    rw [elemA_mine2A _ _ _ _ hRow hkk, hAs _ (by omega), matrixOf]
    congr 2 <;> omega
  have hB : ∀ kk < 32, ∀ col < 8, elemB (mine2B (launch (env.transposing q) 256 (transposeThread
      (stageStep env An Bn k n (bx * 128) (by' * 128) (k / 32) q st.staging).Bs (q % 2)) st.Bst)
        (q % 2) (tid / 32 % 2) ncol) kk col =
        matrixOf n Bn (q * 32 + kk) (by' * 128 + tid / 32 % 2 * 64 + ncol * 8 + col) := by
    intro kk hkk col hcol
    rw [elemB_mine2B, transpose_Bst _ _ _ _ hkk (by omega), Nat.add_assoc, hBs _ (by omega), matrixOf]
    congr 2 <;> omega
  rw [Nat.succ_mul]
  exact mma_accumulates (fun tid => st.acc tid mrow ncol) he hA hB
    (hInv.acc tid htid mrow hmrow ncol hncol e he)

/-- The shuffled words of the first lane of a segment are the hashes of two tiles. -/
theorem mine2_hash {q : Nat} {acc : Nat → Nat → Nat → Nat → I32} {A B : Mat I8}
    (hAcc : ∀ tid < 256, ∀ mrow < 2, ∀ ncol < 8, ∀ e < 4, acc tid mrow ncol e =
      prefixProduct A B (q * 32) (bx * 128 + tid / 32 / 2 * 32 + mrow * 16 + accRow (tid % 32) e)
        (by' * 128 + tid / 32 % 2 * 64 + ncol * 8 + accCol (tid % 32) e))
    {tid mrow e : Nat} (htid : tid < 256) (hmrow : mrow < 2) (he : e = 0 ∨ e = 2)
    (hLane : tid % 32 % 8 = 0) :
    xorDown (rowXor (fun lane => acc (tid / 32 * 32 + lane) mrow) e) (tid % 32) =
      tileHash A B 2 64 (bx * 128 + tid / 32 / 2 * 32 + mrow * 16 + 2 * (tid % 32 / 8) + 4 * e)
        (by' * 128 + tid / 32 % 2 * 64) (q * 32) := by
  have hSegment : tid % 32 = 8 * (tid % 32 / 8) := by omega
  rw [hSegment, xorDown_rowXor (A := A) (B := B) (p := q * 32)
    (bx * 128 + tid / 32 / 2 * 32 + mrow * 16) (by' * 128 + tid / 32 % 2 * 64) he (by omega)]
  · rw [← hSegment]
  · intro lane hLt ncol hncol e he
    have hDiv : (tid / 32 * 32 + lane) / 32 = tid / 32 := by omega
    have hMod : (tid / 32 * 32 + lane) % 32 = lane := by omega
    rw [hAcc _ (by omega) mrow hmrow ncol hncol e he, hDiv, hMod]

/-- One step keeps the invariant. -/
theorem mine2Step_inv {q : Nat} {st : Mine2State} (hq : q < k / 32)
    (hInv : Mine2Inv An Bn m k n bx by' att q st) :
    Mine2Inv An Bn m k n bx by' att (q + 1) (mine2Step env An Bn m k n bx by' att st q) := by
  have hAcc := mine2Step_acc env hq hInv
  refine ⟨(stageStep_spec env hq hInv.staged).1, hAcc, fun tid htid => ?_⟩
  refine Search.flatMap_range_every _ (hInv.accesses tid htid) (fun hEnd => ?_) fun hElse => if_neg hElse
  have hSlot : ((q + 1) / 4 - 1) % 16 = q / 4 % 16 := by omega
  have hWidth : (q + 1) * 32 = 128 * (q / 4 + 1) := by omega
  refine (if_pos hEnd).trans (congrArg (st.accesses tid ++ ·) ?_)
  change mine2Accesses m n bx by' att _ tid
    (fun mrow => xorDown (rowXor (fun lane =>
      (mine2Step env An Bn m k n bx by' att st q).acc (tid / 32 * 32 + lane) mrow) 0) (tid % 32))
    (fun mrow => xorDown (rowXor (fun lane =>
      (mine2Step env An Bn m k n bx by' att st q).acc (tid / 32 * 32 + lane) mrow) 2) (tid % 32)) = _
  rw [hSlot, chunkAccesses, mine2Accesses, mine2Accesses]
  by_cases hLane : tid % 32 % 8 = 0
  · rw [if_pos hLane, if_pos hLane]
    apply List.flatMap_congr
    intro mrow hmrow
    have hLt : mrow < 2 := List.mem_range.mp hmrow
    have hpe := mine2_hash hAcc htid hLt (Or.inl rfl) hLane
    have hpo := mine2_hash hAcc htid hLt (Or.inr rfl) hLane
    rw [hWidth] at hpe hpo
    rw [hpe, hpo]
    rfl
  · rw [if_neg hLane, if_neg hLane]

/-- The loop keeps the invariant. -/
theorem mine2Run_inv (hk : 32 ≤ k) {q : Nat} (hq : q ≤ k / 32) :
    Mine2Inv (offset An (att * m * k)) (offset Bn (att * k * n)) m k n bx by' att q
      (mine2Run env An Bn m k n bx by' att q) := by
  induction q with
  | zero =>
      refine ⟨staged_start env _ _ k n _ _ (by omega), ?_, ?_⟩
      · intro tid _ mrow _ ncol _ e _
        rw [Nat.zero_mul]
        rfl
      · intro tid _
        rfl
  | succ q ih =>
      rw [mine2Run, List.range_succ, List.foldl_append]
      exact mine2Step_inv env (by omega) (ih (by omega))

/-- Every thread makes its accesses for every chunk, in order. -/
theorem kMine2_eq (hk : 128 ∣ k) {tid : Nat} (htid : tid < 256) :
    kMine2 env An Bn m k n bx by' att tid = (List.range (k / 128)).flatMap
      (chunkAccesses m n bx by' att (matrixOf k (offset An (att * m * k)))
        (matrixOf n (offset Bn (att * k * n))) tid) := by
  obtain rfl | hPos := Nat.eq_zero_or_pos k
  · rfl
  have hLast : Mine2Inv (offset An (att * m * k)) (offset Bn (att * k * n)) m k n bx by' att (k / 32)
      (mine2Run env An Bn m k n bx by' att (k / 32)) := mine2Run_inv env (by omega) (Nat.le_refl _)
  have hChunks : k / 32 / 4 = k / 128 := by omega
  rw [← hChunks]
  exact hLast.accesses tid htid

end Block

section Launch

variable {m n bx by' att : Nat} {A B : Mat I8}

/-- The accesses of a chunk by absolute sub-tile: four rows for the first lane of
each segment, none for the others. -/
theorem chunkAccesses_eq (tid c : Nat) :
    chunkAccesses m n bx by' att A B tid c =
      if tid % 8 = 0 then
        (List.range 4).map fun x =>
          let sr := bx * 64 + tid / 64 * 16 + x * 4 + tid % 32 / 8
          let sc := by' * 2 + tid / 32 % 2
          ⟨wordAddr (m / 2) (n / 64) att sr sc (c % 16),
            foldWord (tileHash A B 2 64 (sr * 2) (sc * 64) (128 * (c + 1)))⟩
      else [] := by
  have hLane : tid % 32 % 8 = 0 ↔ tid % 8 = 0 := by omega
  have hWarp : tid / 32 / 2 = tid / 64 := by omega
  have hRows : bx * 128 / 2 = bx * 64 := by omega
  have hCols : by' * 128 / 64 = by' * 2 := by omega
  have hCol : by' * 128 + tid / 32 % 2 * 64 = (by' * 2 + tid / 32 % 2) * 64 := by ring
  simp only [chunkAccesses, mine2Accesses, hLane, hWarp, hRows, hCols, hCol]
  by_cases hFirst : tid % 8 = 0
  · rw [if_pos hFirst, if_pos hFirst]
    -- two accesses for each `mrow`, at the rows `mrow * 8` and `mrow * 8 + 4`
    let access (x : Nat) : Write U32 :=
      ⟨wordAddr (m / 2) (n / 64) att (bx * 64 + tid / 64 * 16 + x * 4 + tid % 32 / 8)
          (by' * 2 + tid / 32 % 2) (c % 16),
        foldWord (tileHash A B 2 64 ((bx * 64 + tid / 64 * 16 + x * 4 + tid % 32 / 8) * 2)
          ((by' * 2 + tid / 32 % 2) * 64) (128 * (c + 1)))⟩
    have hFour : ((List.range 2).flatMap fun mrow => [access (mrow * 2), access (mrow * 2 + 1)]) =
      (List.range 4).map access := rfl
    refine Eq.trans (List.flatMap_congr fun mrow _ => ?_) hFour
    simp only [access, List.cons.injEq, Write.mk.injEq, and_true, wordAddr, idx]
    refine ⟨⟨by ring, ?_⟩, by ring, ?_⟩
    · congr 2
      ring
    · congr 2
      ring
  · rw [if_neg hFirst, if_neg hFirst]

/-- Where the accesses of a thread go. -/
theorem chunkAccesses_addr (hm : 128 ∣ m) (hn : 128 ∣ n) (hbx : bx < m / 128) (hby : by' < n / 128)
    {tid c sr sc s : Nat} (htid : tid < 256) (hsr : sr < m / 2) (hsc : sc < n / 64) (hs : s < 16)
    {att' : Nat} {w : Write U32} (hw : w ∈ chunkAccesses m n bx by' att' A B tid c)
    (hAddr : w.addr = wordAddr (m / 2) (n / 64) att sr sc s) :
    att' = att ∧ bx = sr / 64 ∧ by' = sc / 2 ∧ tid = (sr % 64 / 16 * 2 + sc % 2) * 32 + sr % 4 * 8 ∧
      c % 16 = s := by
  rw [chunkAccesses_eq] at hw
  obtain ⟨hFirst, hw⟩ := List.mem_ite_nil_right.mp hw
  obtain ⟨x, hx, rfl⟩ := List.mem_map.mp hw
  have hLt : x < 4 := List.mem_range.mp hx
  obtain ⟨hAtt, hRow, hCol, hSlot⟩ := wordAddr_inj (by omega) hsr (by omega) hsc
    (Nat.mod_lt _ (by decide)) hs hAddr
  refine ⟨hAtt, by omega, by omega, by omega, hSlot⟩

/-- What the owner of a word does to it in one chunk. -/
theorem updatesAt_chunkAccesses {sr sc s : Nat} (hm : 128 ∣ m) (hn : 128 ∣ n) (hsr : sr < m / 2)
    (hsc : sc < n / 64) (hs : s < 16) (c : Nat) :
    updatesAt (wordAddr (m / 2) (n / 64) att sr sc s) (chunkAccesses m n (sr / 64) (sc / 2) att A B
        ((sr % 64 / 16 * 2 + sc % 2) * 32 + sr % 4 * 8) c) =
      if c % 16 = s then [foldWord (tileHash A B 2 64 (sr * 2) (sc * 64) (128 * (c + 1)))] else [] := by
  by_cases hSlot : c % 16 = s
  · have hFirst : ((sr % 64 / 16 * 2 + sc % 2) * 32 + sr % 4 * 8) % 8 = 0 := by omega
    have hRow : sr / 64 * 64 + ((sr % 64 / 16 * 2 + sc % 2) * 32 + sr % 4 * 8) / 64 * 16 +
        sr % 16 / 4 * 4 + ((sr % 64 / 16 * 2 + sc % 2) * 32 + sr % 4 * 8) % 32 / 8 = sr := by omega
    have hCol : sc / 2 * 2 + ((sr % 64 / 16 * 2 + sc % 2) * 32 + sr % 4 * 8) / 32 % 2 = sc := by omega
    rw [if_pos hSlot, chunkAccesses_eq, if_pos hFirst, updatesAt_map_range (i := sr % 16 / 4) (by omega)]
    · simp only [hRow, hCol]
    · simp only [hRow, hCol, hSlot]
    · intro j hj hAddr
      obtain ⟨-, hRow', -, -⟩ := wordAddr_inj (by omega) hsr (by omega) hsc
        (Nat.mod_lt _ (by decide)) hs hAddr
      omega
  · rw [if_neg hSlot]
    apply updatesAt_eq_nil
    intro w hw hAddr
    exact hSlot (chunkAccesses_addr hm hn (by omega) (by omega) (by omega) hsr hsc hs hw hAddr).2.2.2.2

/-- From zeroed words the launch leaves the reference transcripts, for every
order of the threads and whatever shared memory held. -/
theorem launch_kMine2 {k : Nat} (s : Scheduler) (env : Nat → Nat → Nat → BlockEnv)
    (An Bn : Buffer I8) (mem : Buffer U32) (hm : 128 ∣ m) (hn : 128 ∣ n) (hk : 128 ∣ k)
    {natt sr sc w : Nat} (hAtt : att < natt) (hsr : sr < m / 2) (hsc : sc < n / 64) (hw : w < 16)
    (hZero : mem (wordAddr (m / 2) (n / 64) att sr sc w) = 0) :
    launchGrid s (m / 128) (n / 128) natt 256
        (fun bx by' att => kMine2 (env bx by' att) An Bn m k n bx by' att) mem
        (wordAddr (m / 2) (n / 64) att sr sc w) =
      transcript (matrixOf k (offset An (att * m * k))) (matrixOf n (offset Bn (att * k * n))) 128 2 64
        (k / 128) (sr * 2) (sc * 64) w := by
  rw [launchGrid_of_owner s (sr / 64) (sc / 2) att
    ((sr % 64 / 16 * 2 + sc % 2) * 32 + sr % 4 * 8) (by omega) (by omega) hAtt (by omega)]
  · rw [kMine2_eq _ hk (by omega), applyAll_chunks hZero
      (fun c _ => updatesAt_chunkAccesses hm hn hsr hsc hw c)]
    rfl
  · intro bx hbx by' hby att' _ tid htid a ha hAddr
    rw [kMine2_eq _ hk htid] at ha
    obtain ⟨c, -, hMem⟩ := List.mem_flatMap.mp ha
    obtain ⟨h1, h2, h3, h4, -⟩ := chunkAccesses_addr hm hn hbx hby htid hsr hsc hw hMem hAddr
    exact ⟨h2, h3, h1, h4⟩

end Launch

end Cuda
