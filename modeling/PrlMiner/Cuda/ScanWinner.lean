import PrlMiner.Cuda.PowScan
import PrlMiner.Reference.Run

/-! What the scans report: the first winning sub-tile in the order of the
reference, and in a batch that of the first attempt that has one. -/
namespace Cuda

open FixedWidth LittleEndian ParallelWrites Search Reference

/-- The sub-tile at a flat index wins. -/
def tileWins (transcripts key target : Buffer U32) (n r th tw x : Nat) : Bool :=
  let tile := powScanIndexToTile x (n / r) (r / th) (r / tw)
  digestLeTarget (blake3KeyedBlock (tileWords transcripts n tw tile.1 tile.2) key) target

/-- The first winner of one attempt. -/
def winner (transcripts key target : Buffer U32) (m n r th tw : Nat) : Option Nat :=
  (List.range (totalTiles m n r th tw)).find? (tileWins transcripts key target n r th tw)

/-- The outputs for a winning sub-tile. -/
def emitTile (transcripts : Buffer U32) (n r th tw : Nat) (found : Int) (x : Nat) (out : ScanOut) :
    ScanOut :=
  let tile := powScanIndexToTile x (n / r) (r / th) (r / tw)
  { found := found
    aRow := (tile.1 * th : Nat)
    bCol := (tile.2 * tw : Nat)
    trOut := memcpy out.trOut (tileWords transcripts n tw tile.1 tile.2) 16 }

/-- The fill of `dBest` and `k_pow_scan_find`. -/
def scanFind (s : Scheduler) (dTr dKey dTgt : Buffer U32) (m n r th tw : Nat) (dBest : Buffer Int) :
    Buffer Int :=
  let dBest := memset dBest (sentinel : Int) 1
  launch1 s (gridFor (totalTiles m n r th tw) 256) 256 (kPowScanFind dTr dKey dTgt m n r th tw 256) dBest

/-- The same, then `k_pow_scan_emit`. -/
def scan (s : Scheduler) (dTr dKey dTgt : Buffer U32) (m n r th tw : Nat) (dBest : Buffer Int)
    (out : ScanOut) : ScanOut :=
  kPowScanEmit dTr m n r th tw (scanFind s dTr dKey dTgt m n r th tw dBest 0) out

/-- The fill of `dBest`, `k_pow_scan_find_batched` and `k_pow_scan_emit_batched`. -/
def scanBatched (s : Scheduler) (dTr dKeys dTgt : Buffer U32) (m n r th tw natt : Nat)
    (dBest : Buffer Int) (out : ScanOut) : ScanOut :=
  let dBest := memset dBest (sentinel : Int) 1
  let dBest := launch1 s (gridFor (natt * totalTiles m n r th tw) 256) 256
    (kPowScanFindBatched dTr dKeys dTgt m n r th tw natt 256) dBest
  kPowScanEmitBatched dTr m n r th tw natt (dBest 0) out

theorem offset_offset {α : Type} (b : Buffer α) (i j : Nat) : offset (offset b i) j = offset b (i + j) := by
  funext x
  rw [offset, offset, offset, Nat.add_assoc]

theorem limbsLe_congr {d d' t t' : Nat → U32} {l : Nat} (hd : ∀ i < l, d i = d' i)
    (ht : ∀ i < l, t i = t' i) : limbsLe d t l = limbsLe d' t' l := by
  induction l with
  | zero => rfl
  | succ l ih =>
      rw [limbsLe, limbsLe, hd l (by omega), ht l (by omega), ih (fun i hi => hd i (by omega))
        (fun i hi => ht i (by omega))]

/-- Only the words of the sub-tile, the key and the target are read. -/
theorem tileWins_congr {dTr dTr' key key' target target' : Buffer U32} {n r th tw x : Nat}
    (hTr : let tile := powScanIndexToTile x (n / r) (r / th) (r / tw)
      ∀ s < 16, tileWords dTr n tw tile.1 tile.2 s = tileWords dTr' n tw tile.1 tile.2 s)
    (hKey : ∀ i < 8, key i = key' i) (hTarget : ∀ i < 8, target i = target' i) :
    tileWins dTr key target n r th tw x = tileWins dTr' key' target' n r th tw x := by
  simp only [tileWins, digestLeTarget]
  rw [blake3KeyedBlock_congr hTr hKey]
  exact limbsLe_congr (fun _ _ => rfl) hTarget

/-- The minimum does not depend on the order of the threads. -/
theorem scanFind_eq (s : Scheduler) (dTr dKey dTgt : Buffer U32) (m n r th tw : Nat)
    (dBest : Buffer Int) : scanFind s dTr dKey dTgt m n r th tw dBest 0 =
      (leastHit (tileWins dTr dKey dTgt n r th tw) sentinel (List.range (totalTiles m n r th tw)) : Nat) := by
  apply launch1_atomicMin s (by decide) (memset_of_lt (by decide))
  intro b t
  rw [kPowScanFind]
  by_cases hIn : b * 256 + t < totalTiles m n r th tw
  · by_cases hWins : tileWins dTr dKey dTgt n r th tw (b * 256 + t)
    · rw [if_neg (by omega), if_pos ⟨hIn, hWins⟩]
      exact if_pos hWins
    · rw [if_neg (by omega), if_neg (fun h => hWins h.2)]
      exact if_neg hWins
  · rw [if_pos (by omega), if_neg (fun h => hIn h.1)]

/-- Whatever the order of the threads, a batched scan emits the least flat index below the
sentinel that meets the target, and no tile where none does. -/
theorem scanBatched_eq (s : Scheduler) (dTr dKeys dTgt : Buffer U32) (m n r th tw natt : Nat)
    (dBest : Buffer Int) (out : ScanOut) : scanBatched s dTr dKeys dTgt m n r th tw natt dBest out =
      kPowScanEmitBatched dTr m n r th tw natt (leastHit (fun gid =>
        tileWins (offset dTr (gid / totalTiles m n r th tw * (totalTiles m n r th tw * 16)))
          (offset dKeys (gid / totalTiles m n r th tw * 8)) dTgt n r th tw
          (gid % totalTiles m n r th tw)) sentinel
        (List.range (natt * totalTiles m n r th tw)) : Nat) out := by
  rw [scanBatched]
  congr 1
  apply launch1_atomicMin s (by decide) (memset_of_lt (by decide))
  intro b t
  rw [kPowScanFindBatched]
  generalize hPer : totalTiles m n r th tw = per
  have hTile (att sr sc : Nat) : offset dTr ((att * per + (sr * (n / tw) + sc)) * 16) =
      tileWords (offset dTr (att * (per * 16))) n tw sr sc := by
    rw [tileWords, offset_offset]
    congr 1
    ring
  simp only [hTile]
  by_cases hIn : b * 256 + t < natt * per
  · by_cases hWins : tileWins (offset dTr ((b * 256 + t) / per * (per * 16)))
        (offset dKeys ((b * 256 + t) / per * 8)) dTgt n r th tw ((b * 256 + t) % per)
    · refine (if_neg (Nat.not_le.mpr hIn)).trans (Eq.trans (if_pos hWins) ?_)
      exact (if_pos ⟨hIn, hWins⟩).symm
    · refine (if_neg (Nat.not_le.mpr hIn)).trans (Eq.trans (if_neg hWins) ?_)
      exact (if_neg (fun h => hWins h.2)).symm
  · refine (if_pos (Nat.not_lt.mp hIn)).trans ?_
    exact (if_neg (fun h => hIn h.1)).symm

/-- A scan reports the first winner. -/
theorem scan_eq_winner (s : Scheduler) (dTr dKey dTgt : Buffer U32) {m n r th tw : Nat}
    (dBest : Buffer Int) (out : ScanOut) (hBound : totalTiles m n r th tw ≤ sentinel) :
    scan s dTr dKey dTgt m n r th tw dBest out =
      match winner dTr dKey dTgt m n r th tw with
      | none => { out with found := 0, aRow := -1, bCol := -1 }
      | some x => emitTile dTr n r th tw 1 x out := by
  rw [scan, scanFind_eq, leastHit_eq_find? _ hBound (.refl _), ← winner, kPowScanEmit]
  cases hWinner : winner dTr dKey dTgt m n r th tw with
  | none =>
      rw [Option.getD_none, if_pos (by omega)]
  | some x =>
      have hLt : x < totalTiles m n r th tw := by
        simpa using List.mem_of_find?_eq_some hWinner
      rw [Option.getD_some, if_neg (by omega)]
      rfl

/-- A batched scan reports the winner of the first attempt that has one. -/
theorem scanBatched_eq_winner (s : Scheduler) (dTr dKeys dTgt : Buffer U32) {m n r th tw natt : Nat}
    (dBest : Buffer Int) (out : ScanOut) (hBound : natt * totalTiles m n r th tw ≤ sentinel) :
    scanBatched s dTr dKeys dTgt m n r th tw natt dBest out =
      match (List.range natt).findSome? (fun j =>
        (winner (offset dTr (j * (totalTiles m n r th tw * 16))) (offset dKeys (j * 8)) dTgt m n r th
          tw).map (j, ·)) with
      | none => { out with found := -1, aRow := -1, bCol := -1 }
      | some (j, x) => emitTile (offset dTr (j * (totalTiles m n r th tw * 16))) n r th tw j x out := by
  rw [scanBatched_eq, leastHit_eq_find? _ hBound (.refl _),
    find?_range_mul natt _ fun j x => tileWins (offset dTr (j * (totalTiles m n r th tw * 16)))
      (offset dKeys (j * 8)) dTgt n r th tw x]
  generalize hPer : totalTiles m n r th tw = per
  have hFlat : ((List.range natt).findSome? fun j => ((List.range per).find? (tileWins
        (offset dTr (j * (per * 16))) (offset dKeys (j * 8)) dTgt n r th tw)).map (j * per + ·)) =
      ((List.range natt).findSome? fun j =>
        (winner (offset dTr (j * (per * 16))) (offset dKeys (j * 8)) dTgt m n r th tw).map (j, ·)).map
        fun jx => jx.1 * per + jx.2 := by
    rw [List.map_findSome?]
    apply findSome?_congr
    intro j _
    simp only [Function.comp_apply, winner, hPer, Option.map_map]
    rfl
  rw [hFlat, kPowScanEmitBatched, hPer]
  cases hWinner : (List.range natt).findSome? fun j =>
      (winner (offset dTr (j * (per * 16))) (offset dKeys (j * 8)) dTgt m n r th tw).map (j, ·) with
  | none =>
      rw [Option.map_none, Option.getD_none, if_pos (Or.inr (by rw [← hPer]; exact_mod_cast hBound))]
  | some jx =>
      obtain ⟨j, x⟩ := jx
      obtain ⟨i, hi, hMap⟩ := List.exists_of_findSome?_eq_some hWinner
      obtain ⟨y, hy, hEq⟩ := Option.map_eq_some_iff.mp hMap
      obtain ⟨rfl, rfl⟩ := Prod.mk.inj hEq
      have hj : i < natt := List.mem_range.mp hi
      have hx : y < per := by
        rw [← hPer]
        simpa using List.mem_of_find?_eq_some hy
      have hLt : idx i y per < natt * per := idx_lt hj hx
      have hDiv : (i * per + y) / per = i := idx_div hx
      have hMod : (i * per + y) % per = y := idx_mod hx
      rw [Option.map_some, Option.getD_some, if_neg (by rw [idx] at hLt; push_cast; omega)]
      simp only [Int.toNat_natCast, hDiv, hMod, emitTile, tileWords, offset_offset]
      congr 3
      ring

end Cuda
