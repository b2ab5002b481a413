import PrlMiner.Cuda.Blake3Block
import PrlMiner.Library.Search
import PrlMiner.Reference.Transcript

/-! The proof-of-work scans: every thread hashes one sub-tile and offers its
index to an atomic minimum, then one thread reads the winner out. -/
namespace Cuda

open FixedWidth LittleEndian ParallelWrites Search Reference

/-- Sub-tile row and column of a flat index, `wi` moving first, then `hi`, `tj`, `ti`. -/
def powScanIndexToTile (i TJ SH SW : Nat) : Nat × Nat :=
  let wi := i % SW
  let i := i / SW
  let hi := i % SH
  let i := i / SH
  let tj := i % TJ
  let ti := i / TJ
  (ti * SH + hi, tj * SW + wi)

/-- The loop over the limbs `l - 1, ..., 0`. -/
def limbsLe (digest target : Nat → U32) : Nat → Bool
  | 0 => true
  | l + 1 =>
      if digest l < target l then true
      else if digest l > target l then false
      else limbsLe digest target l

def digestLeTarget (digest target : Nat → U32) : Bool := limbsLe digest target 8

/-- What `cudaMemset(dBest, 0x7f, 4)` leaves. -/
def sentinel : Nat := 0x7f7f7f7f

/-- `atomicMin(&best[addr], v)`. -/
def atomicMin (addr : Nat) (v : Int) : Write Int := ⟨addr, fun old => min old v⟩

/-- Number of sub-tiles, `TI * TJ * SH * SW`. -/
def totalTiles (m n r th tw : Nat) : Nat := m / r * (n / r) * (r / th) * (r / tw)

/-- The sixteen words of a sub-tile. -/
def tileWords (transcripts : Buffer U32) (n tw sr sc : Nat) : Buffer U32 :=
  offset transcripts ((sr * (n / tw) + sc) * 16)

/-- The output variables of a scan. -/
structure ScanOut where
  found : Int
  aRow : Int
  bCol : Int
  trOut : Buffer U32

def kPowScanFind (transcripts key target : Buffer U32) (m n r th tw blockDim blockIdx threadIdx : Nat) :
    List (Write Int) :=
  let i := blockIdx * blockDim + threadIdx
  if i ≥ totalTiles m n r th tw then []
  else
    let (sr, sc) := powScanIndexToTile i (n / r) (r / th) (r / tw)
    let dig := blake3KeyedBlock (tileWords transcripts n tw sr sc) key
    if digestLeTarget dig target then [atomicMin 0 i] else []

def kPowScanEmit (transcripts : Buffer U32) (m n r th tw : Nat) (bestIdx : Int) (out : ScanOut) : ScanOut :=
  if bestIdx ≥ totalTiles m n r th tw then { out with found := 0, aRow := -1, bCol := -1 }
  else
    let (sr, sc) := powScanIndexToTile bestIdx.toNat (n / r) (r / th) (r / tw)
    { found := 1
      aRow := sr * th
      bCol := sc * tw
      trOut := memcpy out.trOut (tileWords transcripts n tw sr sc) 16 }

/-- One thread for each attempt and sub-tile, each attempt under its own key. -/
def kPowScanFindBatched (transcripts keys target : Buffer U32) (m n r th tw natt : Nat)
    (blockDim blockIdx threadIdx : Nat) : List (Write Int) :=
  let per := totalTiles m n r th tw
  let gid := blockIdx * blockDim + threadIdx
  if gid ≥ natt * per then []
  else
    let att := gid / per
    let (sr, sc) := powScanIndexToTile (gid % per) (n / r) (r / th) (r / tw)
    let tr := offset transcripts ((att * per + (sr * (n / tw) + sc)) * 16)
    let dig := blake3KeyedBlock tr (offset keys (att * 8))
    if digestLeTarget dig target then [atomicMin 0 gid] else []

/-- `found` is the attempt here. -/
def kPowScanEmitBatched (transcripts : Buffer U32) (m n r th tw natt : Nat) (best : Int) (out : ScanOut) :
    ScanOut :=
  let per := totalTiles m n r th tw
  if best < 0 ∨ best ≥ natt * per then { out with found := -1, aRow := -1, bCol := -1 }
  else
    let att := best.toNat / per
    let (sr, sc) := powScanIndexToTile (best.toNat % per) (n / r) (r / th) (r / tw)
    { found := att
      aRow := sr * th
      bCol := sc * tw
      trOut := memcpy out.trOut (offset transcripts ((att * per + (sr * (n / tw) + sc)) * 16)) 16 }

/-- Limb by limb from the top is the order of the numbers. -/
theorem limbsLe_eq (digest target : Nat → U32) (n : Nat) :
    limbsLe digest target n = decide (ofDigits n digest ≤ ofDigits n target) := by
  induction n with
  | zero => simp [limbsLe, ofDigits]
  | succ n ih =>
      rw [limbsLe, ih, Bool.eq_iff_iff, decide_eq_true_iff, ofDigits_succ_le_iff]
      rcases Nat.lt_trichotomy (digest n).toNat (target n).toNat with h | h | h
      · have hLt : digest n < target n := h
        simp [hLt]
      · have hEq : digest n = target n := BitVec.eq_of_toNat_eq h
        simp [hEq]
      · have hGt : target n < digest n := h
        have hNotLt : ¬ digest n < target n := by simpa [BitVec.lt_def] using h.le
        have hNe : digest n ≠ target n := fun hEq => by simp [hEq] at h
        simp [hGt, hNotLt, hNe]

/-- The device decides the comparison of the reference. -/
theorem digestLeTarget_eq_checkPowTarget (words : Nat → U32) (key : Bytes 32) {target : Nat}
    (hTarget : target < 2 ^ 256) :
    digestLeTarget (blake3KeyedBlock words (wordAt key)) (wordAt (toBytes 32 target)) =
      NoisyGemm.checkPowTarget Blake3.keyedHash words key target := by
  have hDigest : ofDigits 8 (blake3KeyedBlock words (wordAt key)) =
      fromBytes (Blake3.keyedHash (packWords 64 words) key) := by
    rw [← blake3KeyedBlock_eq]
    exact (fromBytes_packWords 8 _).symm
  have hNumber : ofDigits 8 (wordAt (toBytes 32 target)) = target := by
    rw [← fromBytes_eq_ofDigits_wordAt 8]
    exact fromBytes_toBytes hTarget
  rw [digestLeTarget, limbsLe_eq, hDigest, hNumber, NoisyGemm.checkPowTarget]
  simp only [Nat.cast_le]

/-- A launch in which thread `i` offers `i` to the minimum if it hits. -/
theorem launch1_atomicMin (s : Scheduler) {size threads : Nat} (hThreads : 0 < threads)
    {kernel : Nat → Nat → List (Write Int)} {p : Nat → Bool} {mem : Buffer Int}
    (hMem : mem 0 = sentinel)
    (hKernel : ∀ b t, kernel b t = if b * threads + t < size ∧ p (b * threads + t) then
      [atomicMin 0 (b * threads + t : Nat)] else []) :
    launch1 s (gridFor size threads) threads kernel mem 0 = leastHit p sentinel (List.range size) := by
  let hits (t : Nat) : List (Write Int) := if t < size ∧ p t then [atomicMin 0 t] else []
  have hFlat : (fun t => kernel (t / threads) (t % threads)) = hits := by
    funext t
    have hIndex : t / threads * threads + t % threads = t := idx_div_mod t threads
    rw [hKernel, hIndex]
  have hHit (t : Nat) (w : Write Int) (hw : w ∈ hits t) : w = atomicMin 0 t := by
    by_cases h : t < size ∧ p t
    · simpa [hits, h] using hw
    · simp [hits, h] at hw
  rw [launch1, hFlat, launch_of_commute]
  · have hRun (n : Nat) : applyAll mem ((List.range n).flatMap hits) 0 =
        leastHit p sentinel (List.range (min n size)) := by
      induction n with
      | zero => simpa [applyAll, leastHit] using hMem
      | succ n ih =>
          rw [List.range_succ, List.flatMap_append, List.flatMap_singleton, applyAll_append]
          by_cases hn : n < size
          · rw [Nat.min_eq_left (by omega : n ≤ size)] at ih
            rw [Nat.min_eq_left (by omega : n + 1 ≤ size), leastHit_range_succ]
            by_cases hp : p n
            · rw [if_pos hp, Nat.cast_min, ← ih]
              simp [hits, hn, hp, applyAll, applyWrite, atomicMin]
            · rw [if_neg hp, ← ih]
              simp [hits, hp, applyAll]
          · rw [Nat.min_eq_right (by omega : size ≤ n)] at ih
            rw [Nat.min_eq_right (by omega : size ≤ n + 1), ← ih]
            simp [hits, hn, applyAll]
    rw [hRun, Nat.min_eq_right (le_gridFor_mul size hThreads)]
  · intro t _ u _ w hw x hx
    rw [hHit t w hw, hHit u x hx]
    funext old
    exact min_right_comm old _ _

end Cuda
