import PrlMiner.Cuda.NaiveRun
import PrlMiner.Library.MachineInt

/-! The `int` expressions of `prl_naive_run` and its kernels: allocation and copy
sizes, launch bounds, thread guards and element indices. The model above computes
them over the naturals; here is when the 32-bit arithmetic of the source agrees. -/
namespace Cuda.Naive

open MachineInt IntExpr

/-- `IDX(r, c, ld)`. -/
def idxExpr (r c ld : IntExpr) : IntExpr := r * ld + c

/-- Expressions of a kernel with one thread for each entry of a `rows x cols` output
and an inner dimension, and of its launch. -/
inductive ElementwiseExpr (rows cols inner : Nat) : IntExpr → Prop where
  | guard : ElementwiseExpr rows cols inner (rows * cols)
  | blocks : ElementwiseExpr rows cols inner ((rows * cols + 256 - 1) / 256)
  | thread {b t : Nat} (hb : b < gridFor (rows * cols) 256) (ht : t < 256) :
      ElementwiseExpr rows cols inner (b * 256 + t)
  | row {x : Nat} (hx : x < rows * cols) : ElementwiseExpr rows cols inner (x / cols)
  | col {x : Nat} (hx : x < rows * cols) : ElementwiseExpr rows cols inner (x % cols)
  | left {i c : Nat} (hi : i < rows) (hc : c < inner) :
      ElementwiseExpr rows cols inner (idxExpr i c inner)
  | right {c j : Nat} (hc : c < inner) (hj : j < cols) :
      ElementwiseExpr rows cols inner (idxExpr c j cols)

/-- Expressions of `k_noised_transcript`, by output tile `(ti, tj)`, entry `e` of a tile,
chunk `pc` and sub-tile `(hi, wi)`. -/
inductive TranscriptExpr (m k n r th tw : Nat) : IntExpr → Prop where
  | i0 {ti : Nat} (hti : ti < m / r) : TranscriptExpr m k n r th tw (ti * r)
  | j0 {tj : Nat} (htj : tj < n / r) : TranscriptExpr m k n r th tw (tj * r)
  | nsub_h : TranscriptExpr m k n r th tw (r / th)
  | nsub_w : TranscriptExpr m k n r th tw (r / tw)
  | st_cols : TranscriptExpr m k n r th tw (n / tw)
  | nchunks : TranscriptExpr m k n r th tw (k / r)
  | area : TranscriptExpr m k n r th tw (r * r)
  | stride {e : Nat} (he : e < r * r) : TranscriptExpr m k n r th tw (e + 256)
  | entryRow {e : Nat} (he : e < r * r) : TranscriptExpr m k n r th tw (e / r)
  | entryCol {e : Nat} (he : e < r * r) : TranscriptExpr m k n r th tw (e % r)
  | p {pc : Nat} (hpc : pc < k / r) : TranscriptExpr m k n r th tw (pc * r)
  | scratch {ti tj a b : Nat} (hti : ti < m / r) (htj : tj < n / r) (ha : a < r) (hb : b < r) :
      TranscriptExpr m k n r th tw (idxExpr ((ti * r : Nat) + a) ((tj * r : Nat) + b) n)
  | left {ti pc a c : Nat} (hti : ti < m / r) (hpc : pc < k / r) (ha : a < r) (hc : c < r) :
      TranscriptExpr m k n r th tw (idxExpr ((ti * r : Nat) + a) ((pc * r : Nat) + c) k)
  | right {tj pc b c : Nat} (htj : tj < n / r) (hpc : pc < k / r) (hb : b < r) (hc : c < r) :
      TranscriptExpr m k n r th tw (idxExpr ((pc * r : Nat) + c) ((tj * r : Nat) + b) n)
  | nsub : TranscriptExpr m k n r th tw ((r / th : Nat) * (r / tw : Nat))
  | substride {st : Nat} (hst : st < r / th * (r / tw)) : TranscriptExpr m k n r th tw (st + 256)
  | hi {st : Nat} (hst : st < r / th * (r / tw)) : TranscriptExpr m k n r th tw (st / (r / tw : Nat))
  | wi {st : Nat} (hst : st < r / th * (r / tw)) : TranscriptExpr m k n r th tw (st % (r / tw : Nat))
  | hashed {ti tj hi wi a b : Nat} (hti : ti < m / r) (htj : tj < n / r) (hhi : hi < r / th)
      (hwi : wi < r / tw) (ha : a < th) (hb : b < tw) :
      TranscriptExpr m k n r th tw
        (idxExpr ((ti * r : Nat) + hi * th + a) ((tj * r : Nat) + wi * tw + b) n)
  | sr {ti hi : Nat} (hti : ti < m / r) (hhi : hi < r / th) :
      TranscriptExpr m k n r th tw (((ti * r : Nat) + hi * th) / th)
  | sc {tj wi : Nat} (htj : tj < n / r) (hwi : wi < r / tw) :
      TranscriptExpr m k n r th tw (((tj * r : Nat) + wi * tw) / tw)
  | words {ti tj hi wi : Nat} (hti : ti < m / r) (htj : tj < n / r) (hhi : hi < r / th)
      (hwi : wi < r / tw) :
      TranscriptExpr m k n r th tw
        ((((ti * r + hi * th) / th : Nat) * (n / tw : Nat) + ((tj * r + wi * tw) / tw : Nat)) * 16)

/-- Expressions of `k_pow_scan`, at the sub-tiles its loops visit. -/
inductive ScanExpr (m n r th tw : Nat) : IntExpr → Prop where
  | st_cols : ScanExpr m n r th tw (n / tw)
  | rows : ScanExpr m n r th tw (m / r)
  | cols : ScanExpr m n r th tw (n / r)
  | sh : ScanExpr m n r th tw (r / th)
  | sw : ScanExpr m n r th tw (r / tw)
  | sr {ti hi : Nat} (hti : ti < m / r) (hhi : hi < r / th) :
      ScanExpr m n r th tw (ti * (r / th : Nat) + hi)
  | sc {tj wi : Nat} (htj : tj < n / r) (hwi : wi < r / tw) :
      ScanExpr m n r th tw (tj * (r / tw : Nat) + wi)
  | words {ti tj hi wi : Nat} (hti : ti < m / r) (htj : tj < n / r) (hhi : hi < r / th)
      (hwi : wi < r / tw) :
      ScanExpr m n r th tw
        (((ti * (r / th) + hi : Nat) * (n / tw : Nat) + (tj * (r / tw) + wi : Nat)) * 16)
  | aRow {ti hi : Nat} (hti : ti < m / r) (hhi : hi < r / th) :
      ScanExpr m n r th tw ((ti * (r / th) + hi : Nat) * th)
  | bCol {tj wi : Nat} (htj : tj < n / r) (hwi : wi < r / tw) :
      ScanExpr m n r th tw ((tj * (r / tw) + wi : Nat) * tw)

/-- Rows, columns and inner dimension of `k_noiseA`, `k_noiseB` and `k_gemm_plain`. -/
def elementwiseKernels (m k n r : Nat) : List (Nat × Nat × Nat) := [(m, k, r), (k, n, r), (m, n, k)]

/-- Rows and columns of the matrices `prl_naive_run` allocates and copies. -/
def matrices (m k n r : Nat) : List (Nat × Nat) :=
  [(m, k), (k, n), (m, r), (r, k), (k, r), (r, n), (m, n)]

/-- All of them. -/
inductive NaiveExpr (m k n r th tw : Nat) : IntExpr → Prop where
  | tileRows : NaiveExpr m k n r th tw (m / th)
  | tileCols : NaiveExpr m k n r th tw (n / tw)
  | size {rows cols : Nat} (h : (rows, cols) ∈ matrices m k n r) : NaiveExpr m k n r th tw (rows * cols)
  | gridX : NaiveExpr m k n r th tw (m / r)
  | gridY : NaiveExpr m k n r th tw (n / r)
  | elementwise {rows cols inner : Nat} {e : IntExpr}
      (h : (rows, cols, inner) ∈ elementwiseKernels m k n r) (he : ElementwiseExpr rows cols inner e) :
      NaiveExpr m k n r th tw e
  | transcript {e : IntExpr} (he : TranscriptExpr m k n r th tw e) : NaiveExpr m k n r th tw e
  | scan {e : IntExpr} (he : ScanExpr m n r th tw e) : NaiveExpr m k n r th tw e

/-- Positive shapes that pass the check of `prl_naive_run`. -/
structure Admitted (m k n r th tw : Nat) : Prop where
  m_pos : 0 < m
  k_pos : 0 < k
  n_pos : 0 < n
  r_pos : 0 < r
  th_pos : 0 < th
  tw_pos : 0 < tw
  divides : m % r = 0 ∧ n % r = 0 ∧ k % r = 0 ∧ r % th = 0 ∧ r % tw = 0

/-- The launches of the three products fit, and so does the last transcript index. -/
structure NaiveFits (m k n th tw : Nat) : Prop where
  sizeA : m * k + 256 < 2 ^ 31
  sizeB : k * n + 256 < 2 ^ 31
  sizeC : m * n + 256 < 2 ^ 31
  transcripts : m / th * (n / tw) ≤ 2 ^ 27

section Fits

variable {m k n r th tw rows cols inner : Nat}

/-- `x < 2 ^ 31` is what a 32-bit `int` can hold. -/
theorem natInRange_int {x : Nat} (h : x < 2 ^ 31) : NatInRange 32 x := by
  rw [NatInRange]
  omega

theorem lt_of_natInRange {x : Nat} (h : NatInRange 32 x) : x < 2 ^ 31 := by
  rw [NatInRange] at h
  omega

/-- Literals and variables. -/
theorem yields_int {x : Nat} (h : x < 2 ^ 31) : Yields 32 (x : IntExpr) x := yields_val (natInRange_int h)

theorem yields_256 : Yields 32 256 256 := yields_int (by decide)

theorem yields_add {x y bound : Nat} (hSum : x + y < bound) (hBound : bound ≤ 2 ^ 31) :
    Yields 32 ((x : IntExpr) + y) (x + y) :=
  (yields_int (by omega)).add (yields_int (by omega)) (natInRange_int (by omega))

theorem yields_mul {x y : Nat} (hx : x < 2 ^ 31) (hy : y < 2 ^ 31) (h : x * y < 2 ^ 31) :
    Yields 32 ((x : IntExpr) * y) (x * y) := (yields_int hx).mul (yields_int hy) (natInRange_int h)

theorem yields_div {x y : Nat} (hx : x < 2 ^ 31) (hy : y < 2 ^ 31) : Yields 32 ((x : IntExpr) / y) (x / y) :=
  (yields_int hx).div (yields_int hy)

theorem yields_mod {x y : Nat} (hx : x < 2 ^ 31) (hy : y < 2 ^ 31) : Yields 32 ((x : IntExpr) % y) (x % y) :=
  (yields_int hx).mod (yields_int hy)

theorem yields_mul_add {x y c : Nat} (hy : 0 < y) (hyLt : y < 2 ^ 31) (h : x * y + c < 2 ^ 31) :
    Yields 32 ((x : IntExpr) * y + c) (x * y + c) := by
  have hx : x ≤ x * y := Nat.le_mul_of_pos_right x hy
  exact (yields_mul (by omega) hyLt (by omega)).add (yields_int (by omega)) (natInRange_int h)

/-- An index into a matrix whose size fits is what the model uses. -/
theorem yields_idx {r c ld : Nat} {er ec : IntExpr} (hr : r < rows) (hc : c < ld)
    (hSize : rows * ld < 2 ^ 31) (hRow : Yields 32 er r) (hCol : Yields 32 ec c) :
    Yields 32 (idxExpr er ec ld) (idx r c ld) := by
  have hIdx : r * ld + c < rows * ld := idx_lt hr hc
  have hLd : ld ≤ rows * ld := Nat.le_mul_of_pos_left ld (by omega)
  exact (hRow.mul (yields_int (by omega)) (natInRange_int (by omega))).add hCol (natInRange_int (by omega))

/-- The last block reaches less than one block past the end. -/
theorem thread_lt {size b t : Nat} (hb : b < gridFor size 256) (ht : t < 256) : b * 256 + t < size + 255 := by
  have hBlocks : gridFor size 256 * 256 ≤ size + 255 := Nat.div_mul_le_self _ _
  have hThreads : b * 256 + t < gridFor size 256 * 256 := idx_lt hb ht
  exact hThreads.trans_le hBlocks

/-- One thread an entry: everything follows from three sizes. -/
theorem elementwise_exact {e : IntExpr} (hRows : 0 < rows) (hCols : 0 < cols)
    (hOut : rows * cols + 256 < 2 ^ 31) (hLeft : rows * inner < 2 ^ 31) (hRight : inner * cols < 2 ^ 31)
    (he : ElementwiseExpr rows cols inner e) : e.Exact 32 := by
  have hRowsLe : rows ≤ rows * cols := Nat.le_mul_of_pos_right rows hCols
  have hColsLe : cols ≤ rows * cols := Nat.le_mul_of_pos_left cols hRows
  have hSize : Yields 32 ((rows : IntExpr) * cols) (rows * cols) :=
    yields_mul (by omega) (by omega) (by omega)
  cases he with
  | guard => exact hSize.1
  | blocks =>
      have hOne : Yields 32 1 1 := yields_int (by decide)
      exact (((hSize.add yields_256 (natInRange_int hOut)).sub hOne (by omega)).div yields_256).1
  | @thread b t hb ht =>
      have hThread := thread_lt hb ht
      have hLast : b * 256 + t < 2 ^ 31 := by omega
      have hFirst : b * 256 < 2 ^ 31 := (Nat.le_add_right _ t).trans_lt hLast
      have hBase : Yields 32 ((b : IntExpr) * 256) (b * 256) :=
        (yields_int (by omega)).mul yields_256 (natInRange_int hFirst)
      exact (hBase.add (yields_int (by omega)) (natInRange_int hLast)).1
  | row hx => exact (yields_div (by omega) (by omega)).1
  | col hx => exact (yields_mod (by omega) (by omega)).1
  | @left i c hi hc =>
      have hInner : inner ≤ rows * inner := Nat.le_mul_of_pos_left inner hRows
      exact (yields_idx hi hc hLeft (yields_int (by omega)) (yields_int (by omega))).1
  | @right c j hc hj =>
      have hInner : inner ≤ inner * cols := Nat.le_mul_of_pos_right inner hCols
      exact (yields_idx hc hj hRight (yields_int (by omega)) (yields_int (by omega))).1

namespace Admitted

theorem r_dvd_m (h : Admitted m k n r th tw) : r ∣ m := Nat.dvd_of_mod_eq_zero h.divides.1

theorem r_dvd_n (h : Admitted m k n r th tw) : r ∣ n := Nat.dvd_of_mod_eq_zero h.divides.2.1

theorem r_dvd_k (h : Admitted m k n r th tw) : r ∣ k := Nat.dvd_of_mod_eq_zero h.divides.2.2.1

theorem th_dvd_r (h : Admitted m k n r th tw) : th ∣ r := Nat.dvd_of_mod_eq_zero h.divides.2.2.2.1

theorem tw_dvd_r (h : Admitted m k n r th tw) : tw ∣ r := Nat.dvd_of_mod_eq_zero h.divides.2.2.2.2

/-- The rank is at most each dimension, the sides of a tile at most the rank. -/
theorem le (h : Admitted m k n r th tw) : r ≤ m ∧ r ≤ k ∧ r ≤ n ∧ th ≤ r ∧ tw ≤ r :=
  ⟨Nat.le_of_dvd h.m_pos h.r_dvd_m, Nat.le_of_dvd h.k_pos h.r_dvd_k, Nat.le_of_dvd h.n_pos h.r_dvd_n,
    Nat.le_of_dvd h.r_pos h.th_dvd_r, Nat.le_of_dvd h.r_pos h.tw_dvd_r⟩

/-- Dimensions and products that occur, below the three big products. -/
theorem sizes (h : Admitted m k n r th tw) (hFits : NaiveFits m k n th tw) :
    (m < 2 ^ 31 ∧ k < 2 ^ 31 ∧ n < 2 ^ 31) ∧ (m * r ≤ m * k ∧ r * k ≤ m * k ∧ r * r ≤ m * k) ∧
      k * r ≤ k * n ∧ r * n ≤ k * n := by
  obtain ⟨hm, hk, hn, -, -⟩ := h.le
  have hA := hFits.sizeA
  have hB := hFits.sizeB
  have hmA : m ≤ m * k := Nat.le_mul_of_pos_right m h.k_pos
  have hkA : k ≤ m * k := Nat.le_mul_of_pos_left k h.m_pos
  have hnB : n ≤ k * n := Nat.le_mul_of_pos_left n h.k_pos
  refine ⟨⟨by omega, by omega, by omega⟩, ⟨Nat.mul_le_mul_left m hk, Nat.mul_le_mul_right k hm,
    Nat.mul_le_mul hm hk⟩, Nat.mul_le_mul_left k hn, Nat.mul_le_mul_right n hk⟩

end Admitted

/-- A place in a tile, counted from the start of the extent. -/
theorem tile_lt {extent size t x : Nat} (ht : t < extent / size) (hx : x < size) :
    t * size + x < extent := (idx_lt ht hx).trans_le (Nat.div_mul_le_self extent size)

/-- Sub-tiles of all tiles together are the sub-tiles of the extent. -/
theorem tiles_mul_subtiles {extent size sub : Nat} (hSize : size ∣ extent) (hSub : sub ∣ size)
    (hPos : 0 < size) : extent / size * (size / sub) = extent / sub := by
  rw [Nat.div_mul_div_comm hSize hSub, Nat.mul_comm size sub, Nat.mul_div_mul_right _ _ hPos]

/-- An entry of a sub-tile of a tile. -/
theorem subtile_line_lt {extent size sub t hi a : Nat} (ht : t < extent / size) (hh : hi < size / sub)
    (ha : a < sub) : t * size + hi * sub + a < extent := by
  have hIn : hi * sub + a < size := tile_lt hh ha
  have hLt : t * size + (hi * sub + a) < extent := tile_lt ht hIn
  omega

/-- The first line of a sub-tile. -/
theorem yields_start {extent base hi sub : Nat} (hExtent : extent < 2 ^ 31) (hSub : 0 < sub)
    (hSubLt : sub < 2 ^ 31) (hLt : base + hi * sub < extent) :
    Yields 32 ((base : IntExpr) + hi * sub) (base + hi * sub) := by
  have hHi : hi ≤ hi * sub := Nat.le_mul_of_pos_right hi hSub
  have hLines : Yields 32 ((hi : IntExpr) * sub) (hi * sub) := yields_mul (by omega) (by omega) (by omega)
  exact (yields_int (by omega)).add hLines (natInRange_int (by omega))

/-- Place of a transcript among all of them, in words. -/
theorem yields_words {rows cols sr sc : Nat} (hr : sr < rows) (hc : sc < cols) (hWords : rows * cols ≤ 2 ^ 27) :
    Yields 32 (((sr : IntExpr) * cols + sc) * 16) ((sr * cols + sc) * 16) := by
  have hIdx : sr * cols + sc < rows * cols := idx_lt hr hc
  have hRows : rows ≤ rows * cols := Nat.le_mul_of_pos_right rows (by omega)
  have hCols : cols ≤ rows * cols := Nat.le_mul_of_pos_left cols (by omega)
  have hRow : Yields 32 ((sr : IntExpr) * cols) (sr * cols) := yields_mul (by omega) (by omega) (by omega)
  have hAll : Yields 32 ((sr : IntExpr) * cols + sc) (sr * cols + sc) :=
    hRow.add (yields_int (by omega)) (natInRange_int (by omega))
  exact hAll.mul (yields_int (by decide)) (natInRange_int (by omega))

section Kernels

variable (h : Admitted m k n r th tw) (hFits : NaiveFits m k n th tw)
include h hFits

/-- Every index expression of the transcript kernel stays within 32 bits under the checks
of the entry point and the size bound. -/
theorem transcript_exact {e : IntExpr} (he : TranscriptExpr m k n r th tw e) : e.Exact 32 := by
  obtain ⟨⟨hm, hk, hn⟩, ⟨-, -, hArea⟩, -⟩ := h.sizes hFits
  obtain ⟨hrm, hrk, hrn, hth, htw⟩ := h.le
  obtain ⟨hA, hB, hC, hWords⟩ := hFits
  have hSubs : r / th * (r / tw) ≤ r * r :=
    Nat.mul_le_mul (Nat.div_le_self r th) (Nat.div_le_self r tw)
  have hSubH : r / th ≤ r := Nat.div_le_self r th
  have hSubW : r / tw ≤ r := Nat.div_le_self r tw
  cases he with
  | i0 hti =>
      have hLt := tile_lt hti h.r_pos
      have hTiles := Nat.div_le_self m r
      exact (yields_mul (by omega) (by omega) (by omega)).1
  | j0 htj =>
      have hLt := tile_lt htj h.r_pos
      have hTiles := Nat.div_le_self n r
      exact (yields_mul (by omega) (by omega) (by omega)).1
  | nsub_h => exact (yields_div (by omega) (by omega)).1
  | nsub_w => exact (yields_div (by omega) (by omega)).1
  | st_cols => exact (yields_div (by omega) (by omega)).1
  | nchunks => exact (yields_div (by omega) (by omega)).1
  | area => exact (yields_mul (by omega) (by omega) (by omega)).1
  | stride he => exact ((yields_int (by omega)).add yields_256 (natInRange_int (by omega))).1
  | entryRow he => exact (yields_div (by omega) (by omega)).1
  | entryCol he => exact (yields_mod (by omega) (by omega)).1
  | p hpc =>
      have hLt := tile_lt hpc h.r_pos
      have hChunks := Nat.div_le_self k r
      exact (yields_mul (by omega) (by omega) (by omega)).1
  | scratch hti htj ha hb =>
      exact (yields_idx (tile_lt hti ha) (tile_lt htj hb) (by omega) (yields_add (tile_lt hti ha) hm.le)
        (yields_add (tile_lt htj hb) hn.le)).1
  | left hti hpc ha hc =>
      exact (yields_idx (tile_lt hti ha) (tile_lt hpc hc) (by omega) (yields_add (tile_lt hti ha) hm.le)
        (yields_add (tile_lt hpc hc) hk.le)).1
  | right htj hpc hb hc =>
      exact (yields_idx (tile_lt hpc hc) (tile_lt htj hb) (by omega) (yields_add (tile_lt hpc hc) hk.le)
        (yields_add (tile_lt htj hb) hn.le)).1
  | nsub => exact (yields_mul (by omega) (by omega) (by omega)).1
  | substride hst => exact ((yields_int (by omega)).add yields_256 (natInRange_int (by omega))).1
  | hi hst => exact (yields_div (by omega) (by omega)).1
  | wi hst => exact (yields_mod (by omega) (by omega)).1
  | @hashed ti tj hi wi a b hti htj hhi hwi ha hb =>
      have hRow : ti * r + hi * th + a < m := subtile_line_lt hti hhi ha
      have hCol : tj * r + wi * tw + b < n := subtile_line_lt htj hwi hb
      have hRowBase := yields_start hm h.th_pos (by omega) ((Nat.le_add_right _ a).trans_lt hRow)
      have hColBase := yields_start hn h.tw_pos (by omega) ((Nat.le_add_right _ b).trans_lt hCol)
      exact (yields_idx hRow hCol (by omega)
        (hRowBase.add (yields_int (by omega)) (natInRange_int (by omega)))
        (hColBase.add (yields_int (by omega)) (natInRange_int (by omega)))).1
  | @sr ti hi hti hhi =>
      have hRow : ti * r + hi * th < m := subtile_line_lt hti hhi h.th_pos
      exact ((yields_start hm h.th_pos (by omega) hRow).div (yields_int (by omega))).1
  | @sc tj wi htj hwi =>
      have hCol : tj * r + wi * tw < n := subtile_line_lt htj hwi h.tw_pos
      exact ((yields_start hn h.tw_pos (by omega) hCol).div (yields_int (by omega))).1
  | words hti htj hhi hwi =>
      have hRow := subtile_line_lt hti hhi h.th_pos
      have hCol := subtile_line_lt htj hwi h.tw_pos
      have hSr := Nat.div_lt_div_of_lt_of_dvd (h.th_dvd_r.trans h.r_dvd_m) hRow
      have hSc := Nat.div_lt_div_of_lt_of_dvd (h.tw_dvd_r.trans h.r_dvd_n) hCol
      exact (yields_words hSr hSc hWords).1

/-- Every index expression of the scan kernel does too. -/
theorem scan_exact {e : IntExpr} (he : ScanExpr m n r th tw e) : e.Exact 32 := by
  obtain ⟨⟨hm, hk, hn⟩, -, -⟩ := h.sizes hFits
  obtain ⟨hrm, -, hrn, hth, htw⟩ := h.le
  have hWords := hFits.transcripts
  have hSubH : r / th ≤ r := Nat.div_le_self r th
  have hSubW : r / tw ≤ r := Nat.div_le_self r tw
  have hSubRows : m / th ≤ m := Nat.div_le_self m th
  have hSubCols : n / tw ≤ n := Nat.div_le_self n tw
  have hRow {ti hi : Nat} (hti : ti < m / r) (hhi : hi < r / th) : ti * (r / th) + hi < m / th := by
    rw [← tiles_mul_subtiles h.r_dvd_m h.th_dvd_r h.r_pos]
    exact idx_lt hti hhi
  have hCol {tj wi : Nat} (htj : tj < n / r) (hwi : wi < r / tw) : tj * (r / tw) + wi < n / tw := by
    rw [← tiles_mul_subtiles h.r_dvd_n h.tw_dvd_r h.r_pos]
    exact idx_lt htj hwi
  cases he with
  | st_cols => exact (yields_div (by omega) (by omega)).1
  | rows => exact (yields_div (by omega) (by omega)).1
  | cols => exact (yields_div (by omega) (by omega)).1
  | sh => exact (yields_div (by omega) (by omega)).1
  | sw => exact (yields_div (by omega) (by omega)).1
  | sr hti hhi =>
      have hLt := hRow hti hhi
      exact (yields_mul_add (Nat.div_pos hth h.th_pos) (by omega) (by omega)).1
  | sc htj hwi =>
      have hLt := hCol htj hwi
      exact (yields_mul_add (Nat.div_pos htw h.tw_pos) (by omega) (by omega)).1
  | words hti htj hhi hwi => exact (yields_words (hRow hti hhi) (hCol htj hwi) hWords).1
  | aRow hti hhi =>
      have hLt := tile_lt (hRow hti hhi) h.th_pos
      have hIdx := hRow hti hhi
      exact (yields_mul (by omega) (by omega) (by omega)).1
  | bCol htj hwi =>
      have hLt := tile_lt (hCol htj hwi) h.tw_pos
      have hIdx := hCol htj hwi
      exact (yields_mul (by omega) (by omega) (by omega)).1

/-- All of them: the tile counts, the grid, the matrix sizes and the indices of the
kernels wrap nowhere under the bound. -/
theorem naive_exact {e : IntExpr} (he : NaiveExpr m k n r th tw e) : e.Exact 32 := by
  obtain ⟨⟨hm, hk, hn⟩, ⟨hmr, hrk, -⟩, hkr, hrn⟩ := h.sizes hFits
  obtain ⟨hrm, hrk', hrn', hth, htw⟩ := h.le
  obtain ⟨hA, hB, hC, -⟩ := id hFits
  cases he with
  | tileRows => exact (yields_div hm (by omega)).1
  | tileCols => exact (yields_div hn (by omega)).1
  | gridX => exact (yields_div hm (by omega)).1
  | gridY => exact (yields_div hn (by omega)).1
  | size hMem =>
      simp only [matrices, List.mem_cons, Prod.mk.injEq, List.not_mem_nil, or_false] at hMem
      obtain ⟨rfl, rfl⟩ | ⟨rfl, rfl⟩ | ⟨rfl, rfl⟩ | ⟨rfl, rfl⟩ | ⟨rfl, rfl⟩ | ⟨rfl, rfl⟩ | ⟨rfl, rfl⟩ := hMem
      all_goals exact (yields_mul (by omega) (by omega) (by omega)).1
  | elementwise hMem he =>
      simp only [elementwiseKernels, List.mem_cons, Prod.mk.injEq, List.not_mem_nil, or_false] at hMem
      obtain ⟨rfl, rfl, rfl⟩ | ⟨rfl, rfl, rfl⟩ | ⟨rfl, rfl, rfl⟩ := hMem
      · exact elementwise_exact h.m_pos h.k_pos hA (by omega) (by omega) he
      · exact elementwise_exact h.k_pos h.n_pos hB (by omega) (by omega) he
      · exact elementwise_exact h.m_pos h.n_pos hC (by omega) (by omega) he
  | transcript he => exact transcript_exact h hFits he
  | scan he => exact scan_exact h hFits he

end Kernels

/-- The launch bound alone needs a size up to one block short of the limit. -/
theorem lt_of_blocks_exact (h : ((rows * cols + 256 - 1) / 256 : IntExpr).Exact 32) :
    rows * cols + 256 < 2 ^ 31 := by
  have hSum : ((rows * cols + 256 : IntExpr)).Exact 32 := (exact_op.mp (exact_op.mp h).1).1
  have hRange : InRange 32 ((rows * cols + 256 : Nat) : Int) := (exact_op.mp hSum).2.2
  exact lt_of_natInRange (inRange_natCast.mp hRange)

theorem pred_mul_add_pred {a b : Nat} (ha : 0 < a) (hb : 0 < b) : (a - 1) * b + (b - 1) = a * b - 1 := by
  have hLe : b ≤ a * b := Nat.le_mul_of_pos_left b ha
  rw [Nat.sub_one_mul]
  omega

/-- The last sub-tile of the last tile. -/
theorem last_subtile {extent size sub : Nat} (hSize : size ∣ extent) (hSub : sub ∣ size) (hPos : 0 < size)
    (hTiles : 0 < extent / size) (hSubs : 0 < size / sub) :
    (extent / size - 1) * (size / sub) + (size / sub - 1) = extent / sub - 1 := by
  rw [pred_mul_add_pred hTiles hSubs, tiles_mul_subtiles hSize hSub hPos]

/-- The index of the last transcript bounds their number. -/
theorem transcripts_le_of_exact (h : Admitted m k n r th tw)
    (hExact : ∀ e, ScanExpr m n r th tw e → e.Exact 32) : m / th * (n / tw) ≤ 2 ^ 27 := by
  obtain ⟨hm, -, hn, hth, htw⟩ := h.le
  have hTi : 0 < m / r := Nat.div_pos hm h.r_pos
  have hTj : 0 < n / r := Nat.div_pos hn h.r_pos
  have hSubH : 0 < r / th := Nat.div_pos hth h.th_pos
  have hSubW : 0 < r / tw := Nat.div_pos htw h.tw_pos
  have hLast := hExact _ (.words (Nat.sub_one_lt_of_lt hTi) (Nat.sub_one_lt_of_lt hTj)
    (Nat.sub_one_lt_of_lt hSubH) (Nat.sub_one_lt_of_lt hSubW))
  rw [last_subtile h.r_dvd_m h.th_dvd_r h.r_pos hTi hSubH,
    last_subtile h.r_dvd_n h.tw_dvd_r h.r_pos hTj hSubW] at hLast
  have hRange : InRange 32 ((((m / th - 1) * (n / tw) + (n / tw - 1)) * 16 : Nat) : Int) :=
    (exact_op.mp hLast).2.2
  have hLt := lt_of_natInRange (inRange_natCast.mp hRange)
  rw [pred_mul_add_pred (Nat.div_pos (hth.trans hm) h.th_pos) (Nat.div_pos (htw.trans hn) h.tw_pos)] at hLt
  omega

/-- The `int` arithmetic of the pipeline is exact at a shape its check admits if and
only if the three products leave room for a block and the transcripts for their words. -/
theorem naive_indices_exact_iff (m k n r th tw : Nat) (h : Admitted m k n r th tw) :
    (∀ e, NaiveExpr m k n r th tw e → e.Exact 32) ↔ NaiveFits m k n th tw := by
  constructor
  · intro hExact
    have hBlocks {rows cols : Nat} (inner : Nat) (hMem : (rows, cols, inner) ∈ elementwiseKernels m k n r) :
        rows * cols + 256 < 2 ^ 31 := lt_of_blocks_exact (hExact _ (.elementwise hMem .blocks))
    exact {
      sizeA := hBlocks r (by simp [elementwiseKernels])
      sizeB := hBlocks r (by simp [elementwiseKernels])
      sizeC := hBlocks k (by simp [elementwiseKernels])
      transcripts := transcripts_le_of_exact h fun e he => hExact e (.scan he) }
  · intro hFits e he
    exact naive_exact h hFits he

/-- The shape of the backend. -/
theorem naive_indices_exact_iff_backend :
    Admitted 128 256 256 128 16 16 ∧
      ((∀ e, NaiveExpr 128 256 256 128 16 16 e → e.Exact 32) ↔ NaiveFits 128 256 256 16 16) :=
  ⟨⟨by decide, by decide, by decide, by decide, by decide, by decide, by decide⟩,
    naive_indices_exact_iff 128 256 256 128 16 16
      ⟨by decide, by decide, by decide, by decide, by decide, by decide, by decide⟩⟩

/-- At the shape a pool announces the product has `2 ^ 34` entries, and `m * n` is zero. -/
theorem naive_wraps_at_pool_shape :
    Admitted 131072 4096 131072 128 16 16 ∧
      ((131072 : Nat) * (131072 : Nat) : IntExpr).eval 32 = 0 ∧
      ¬ ∀ m k n r th tw, Admitted m k n r th tw → ∀ e, NaiveExpr m k n r th tw e → e.Exact 32 := by
  have hShape : Admitted 131072 4096 131072 128 16 16 :=
    ⟨by decide, by decide, by decide, by decide, by decide, by decide, by decide⟩
  refine ⟨hShape, by decide, fun hAll => ?_⟩
  have hMem : (131072, 131072) ∈ matrices 131072 4096 131072 128 := by simp [matrices]
  have hSize := (hAll _ _ _ _ _ _ hShape _ (.size hMem)).eval_eq
  revert hSize
  decide

end Fits

end Cuda.Naive
