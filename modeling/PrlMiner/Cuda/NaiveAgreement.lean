import PrlMiner.Cuda.MineKernel
import PrlMiner.Cuda.NaiveRun

/-! The kernels of `mine_sm86.cu` against those of `naive_sm86.cu`: the same words
from `k_mine` as from `k_noised_transcript`, and the same report from the parallel
scan as from the serial one. -/
namespace Cuda

open FixedWidth LittleEndian ParallelWrites Search Reference

variable {m k n r th tw : Nat}

/-- Where a buffer holds the transcripts, its words are decided. -/
theorem HoldsTranscripts.eq {mem mem' : Buffer U32} {A B : Mat I8} (h : HoldsTranscripts mem A B m k n r th tw)
    (h' : HoldsTranscripts mem' A B m k n r th tw) {x : Nat} (hx : x < m / th * (n / tw) * 16) :
    mem x = mem' x := by
  have hTile : x / 16 < n / tw * (m / th) := by
    rw [Nat.mul_comm (n / tw)]
    omega
  have hCol : x / 16 % (n / tw) < n / tw := by
    refine Nat.mod_lt _ (Nat.pos_of_ne_zero fun hZero => ?_)
    rw [hZero, Nat.zero_mul] at hTile
    omega
  have hAddr : (x / 16 / (n / tw) * (n / tw) + x / 16 % (n / tw)) * 16 + x % 16 = x := by
    rw [Nat.div_add_mod']
    omega
  have hWord := h _ (Nat.div_lt_of_lt_mul hTile) _ hCol _ (Nat.mod_lt x (by decide))
  have hWord' := h' _ (Nat.div_lt_of_lt_mul hTile) _ hCol _ (Nat.mod_lt x (by decide))
  rw [hAddr] at hWord hWord'
  rw [hWord, hWord']

/-- From zeroed transcripts `k_mine` leaves word for word what `k_noised_transcript`
leaves with rank 128 and 16x16 tiles. -/
theorem k_mine_eq_k_noised_transcript (s s' : Scheduler) (env : Nat → Nat → BlockEnv)
    (views : Nat → Nat → Nat → Naive.ScratchView) (An Bn : Buffer I8) (Cscr : Buffer I32) (mem : Buffer U32)
    {m k n : Nat} (hm : 128 ∣ m) (hk : 128 ∣ k) (hn : 128 ∣ n)
    (hZero : ∀ x < m / 16 * (n / 16) * 16, mem x = 0) :
    ∀ x < m / 16 * (n / 16) * 16,
      launchGrid s (m / 128) (n / 128) 1 256 (fun bx by' _ => kMine (env bx by') An Bn k n bx by') mem x =
        launchGrid s' (m / 128) (n / 128) 1 256 (fun ti tj _ tid =>
          Naive.kNoisedTranscript (views ti tj) An Bn Cscr m k n 128 16 16 ti tj tid) mem x := by
  have shape : TileShape m n 128 16 16 := ⟨by decide, hm, hn, by decide, by decide, by decide, by decide⟩
  have hFilled : memset mem 0 (m / 16 * (n / 16) * 16) = mem := by
    funext x
    by_cases hx : x < m / 16 * (n / 16) * 16
    · rw [memset_of_lt hx, hZero x hx]
    · exact if_neg hx
  have hNaive := Naive.launch_kNoisedTranscript shape s' views An Bn Cscr (k := k) mem
  rw [hFilled] at hNaive
  intro x hx
  exact (launch_kMine s env An Bn mem hm hn hk hZero).eq hNaive hx

/-- Seventeen chunks of 128 columns, so that slot 0 of tile 9 is used twice. -/
theorem k_mine_eq_k_noised_transcript_seventeen :
    launchGrid default (128 / 128) (128 / 128) 1 256
        (fun bx by' _ => kMine default (fun x => BitVec.ofNat 8 x) (fun _ => 4) 2176 128 bx by') (fun _ => 0) 144 =
      launchGrid default (128 / 128) (128 / 128) 1 256 (fun ti tj _ tid =>
        Naive.kNoisedTranscript default (fun x => BitVec.ofNat 8 x) (fun _ => 4) (fun _ => 7) 128 2176 128 128 16
          16 ti tj tid) (fun _ => 0) 144 := by
  have hEqual := k_mine_eq_k_noised_transcript default default (fun _ _ => default) (fun _ _ => default)
    (fun x => BitVec.ofNat 8 x) (fun _ => 4) (fun _ => 7) (fun _ => 0) (dvd_refl 128) ⟨17, rfl⟩ (dvd_refl 128)
    (fun _ _ => rfl) 144 (by decide)
  exact hEqual

/-- The sub-tiles in the order of the four nested loops over `ti`, `tj`, `hi` and `wi`. -/
def loopOrder (m n r th tw : Nat) : List (Nat × Nat) :=
  (List.range (m / r)).flatMap fun ti => (List.range (n / r)).flatMap fun tj =>
    (List.range (r / th)).flatMap fun hi => (List.range (r / tw)).map fun wi =>
      (ti * (r / th) + hi, tj * (r / tw) + wi)

/-- The flat index visits the sub-tiles in the order of the loops. -/
theorem map_powScanIndexToTile (m n r th tw : Nat) :
    (List.range (totalTiles m n r th tw)).map (powScanIndexToTile · (n / r) (r / th) (r / tw)) =
      loopOrder m n r th tw := by
  rw [loopOrder, flatMap_range_mul, flatMap_range_mul, flatMap_range_map]
  rfl

/-- Different flat indices decode to different sub-tiles. -/
theorem powScanIndexToTile_inj {TJ SH SW x y : Nat} (hSH : 0 < SH) (hSW : 0 < SW)
    (h : powScanIndexToTile x TJ SH SW = powScanIndexToTile y TJ SH SW) : x = y := by
  obtain ⟨hRow, hCol⟩ := Prod.mk.inj h
  obtain ⟨hTi, hHi⟩ := idx_inj (Nat.mod_lt _ hSH) (Nat.mod_lt _ hSH) hRow
  obtain ⟨hTj, hWi⟩ := idx_inj (Nat.mod_lt _ hSW) (Nat.mod_lt _ hSW) hCol
  have hOuter : x / SW / SH = y / SW / SH := by
    rw [← idx_div_mod (x / SW / SH) TJ, ← idx_div_mod (y / SW / SH) TJ, hTi, hTj]
  have hMiddle : x / SW = y / SW := by
    rw [← idx_div_mod (x / SW) SH, ← idx_div_mod (y / SW) SH, hOuter, hHi]
  rw [← idx_div_mod x SW, ← idx_div_mod y SW, hMiddle, hWi]

theorem loopOrder_nodup (m n r th tw : Nat) : (loopOrder m n r th tw).Nodup := by
  rw [← map_powScanIndexToTile]
  refine List.Nodup.map_on (fun x hx y _ h => ?_) List.nodup_range
  have hPos : m / r * (n / r) * (r / th) * (r / tw) ≠ 0 := Nat.ne_zero_of_lt (List.mem_range.mp hx)
  simp only [ne_eq, mul_eq_zero, not_or] at hPos
  obtain ⟨⟨-, hSH⟩, hSW⟩ := hPos
  exact powScanIndexToTile_inj (Nat.pos_of_ne_zero hSH) (Nat.pos_of_ne_zero hSW) h

theorem mem_loopOrder (shape : TileShape m n r th tw) {sr sc : Nat} :
    (sr, sc) ∈ loopOrder m n r th tw ↔ sr < m / th ∧ sc < n / tw := by
  simp only [loopOrder, List.mem_flatMap, List.mem_map, List.mem_range, Prod.mk.injEq]
  constructor
  · rintro ⟨ti, hti, tj, htj, hi, hhi, wi, hwi, rfl, rfl⟩
    rw [← shape.rows, ← shape.cols]
    exact ⟨idx_lt hti hhi, idx_lt htj hwi⟩
  · intro ⟨hsr, hsc⟩
    rw [← shape.rows, Nat.mul_comm] at hsr
    rw [← shape.cols, Nat.mul_comm] at hsc
    exact ⟨sr / (r / th), Nat.div_lt_of_lt_mul hsr, sc / (r / tw), Nat.div_lt_of_lt_mul hsc,
      sr % (r / th), Nat.mod_lt _ shape.tilesHPos, sc % (r / tw), Nat.mod_lt _ shape.tilesWPos,
      Nat.div_add_mod' .., Nat.div_add_mod' ..⟩

/-- The keyed digest of a sub-tile as a little-endian number is at most the target. -/
def meetsTarget (transcripts key target : Buffer U32) (n tw : Nat) (tile : Nat × Nat) : Bool :=
  decide (fromBytes (Blake3.keyedHash (packWords 64 (tileWords transcripts n tw tile.1 tile.2)) (packWords 32 key)) ≤
    fromBytes (packWords 32 target))

/-- The limb-wise comparison is that of the numbers. -/
theorem digestLeTarget_eq (words key target : Buffer U32) :
    digestLeTarget (blake3KeyedBlock words key) target =
      decide (fromBytes (Blake3.keyedHash (packWords 64 words) (packWords 32 key)) ≤
        fromBytes (packWords 32 target)) := by
  have hDigest : fromBytes (packWords 32 (blake3KeyedBlock words key)) =
      ofDigits 8 (blake3KeyedBlock words key) := fromBytes_packWords 8 _
  have hTarget : fromBytes (packWords 32 target) = ofDigits 8 target := fromBytes_packWords 8 target
  rw [digestLeTarget, limbsLe_eq, ← blake3KeyedBlock_words, hDigest, hTarget]

/-- The first winner of the flat order is that of the loops. -/
theorem winner_eq_loopOrder (dTr key target : Buffer U32) (m n r th tw : Nat) :
    (winner dTr key target m n r th tw).map (powScanIndexToTile · (n / r) (r / th) (r / tw)) =
      (loopOrder m n r th tw).find? (meetsTarget dTr key target n tw) := by
  rw [← map_powScanIndexToTile, List.find?_map, winner]
  congr 1
  apply List.find?_congr
  intro x _
  rw [Function.comp_apply, meetsTarget, ← digestLeTarget_eq, tileWins]

/-- The outputs of a scan for the sub-tile it stops at, if it stops. -/
def Reports (transcripts : Buffer U32) (n th tw : Nat) (tile : Option (Nat × Nat)) (out : ScanOut) : Prop :=
  match tile with
  | none => out.found = 0 ∧ out.aRow = -1 ∧ out.bCol = -1
  | some (sr, sc) => out.found = 1 ∧ out.aRow = (sr * th : Nat) ∧ out.bCol = (sc * tw : Nat) ∧
      ∀ x < 16, out.trOut x = transcripts ((sr * (n / tw) + sc) * 16 + x)

theorem Reports.agrees {dTr : Buffer U32} {tile : Option (Nat × Nat)} {out out' : ScanOut}
    (h : Reports dTr n th tw tile out) (h' : Reports dTr n th tw tile out') :
    out.found = out'.found ∧ out.aRow = out'.aRow ∧ out.bCol = out'.bCol ∧
      (out.found = 1 → ∀ x < 16, out.trOut x = out'.trOut x) := by
  cases tile with
  | none =>
      obtain ⟨hFound, hRow, hCol⟩ := h
      obtain ⟨hFound', hRow', hCol'⟩ := h'
      rw [hFound, hRow, hCol, hFound', hRow', hCol']
      exact ⟨rfl, rfl, rfl, fun hOne => by cases hOne⟩
  | some tile =>
      obtain ⟨hFound, hRow, hCol, hWords⟩ := h
      obtain ⟨hFound', hRow', hCol', hWords'⟩ := h'
      rw [hFound, hRow, hCol, hFound', hRow', hCol']
      exact ⟨rfl, rfl, rfl, fun _ x hx => (hWords x hx).trans (hWords' x hx).symm⟩

theorem scan_reports (s : Scheduler) (dTr key target : Buffer U32) (dBest : Buffer Int) (out : ScanOut)
    (hBound : totalTiles m n r th tw ≤ sentinel) :
    Reports dTr n th tw ((loopOrder m n r th tw).find? (meetsTarget dTr key target n tw))
      (scan s dTr key target m n r th tw dBest out) := by
  rw [← winner_eq_loopOrder, scan_eq_winner s dTr key target dBest out hBound]
  cases winner dTr key target m n r th tw with
  | none => exact ⟨rfl, rfl, rfl⟩
  | some x => exact ⟨rfl, rfl, rfl, fun i hi => memcpy_of_lt hi⟩

theorem kPowScan_reports (dTr key target : Buffer U32) (m n r th tw : Nat) (out : ScanOut) :
    Reports dTr n th tw ((loopOrder m n r th tw).find? (meetsTarget dTr key target n tw))
      (Naive.kPowScan dTr key target m n r th tw out) := by
  rw [← winner_eq_loopOrder, Naive.kPowScan, Naive.firstSubtile_eq]
  cases winner dTr key target m n r th tw with
  | none => exact ⟨rfl, rfl, rfl⟩
  | some x => exact ⟨rfl, rfl, rfl, fun i hi => memcpy_of_lt hi⟩

/-- A rank of zero leaves no sub-tile. -/
theorem totalTiles_eq (hRows : r ∣ m) (hCols : r ∣ n) (hH : th ∣ r) (hW : tw ∣ r) :
    TileShape m n r th tw ∧ totalTiles m n r th tw = m / th * (n / tw) ∨
      m = 0 ∧ n = 0 ∧ loopOrder m n r th tw = [] ∧ totalTiles m n r th tw = 0 := by
  rcases Nat.eq_zero_or_pos r with rfl | hPos
  · refine .inr ⟨zero_dvd_iff.mp hRows, zero_dvd_iff.mp hCols, ?_, ?_⟩
    · simp [loopOrder]
    · rw [totalTiles, Nat.div_zero, Nat.zero_mul, Nat.zero_mul, Nat.zero_mul]
  · have shape : TileShape m n r th tw := ⟨hPos, hRows, hCols, Nat.pos_of_dvd_of_pos hH hPos,
      Nat.pos_of_dvd_of_pos hW hPos, hH, hW⟩
    refine .inl ⟨shape, ?_⟩
    rw [totalTiles, ← shape.rows, ← shape.cols]
    ring

/-- The parallel scan reports what the serial one reports, in every order of the
threads: the first sub-tile in the order of the loops that meets the target. The
flat index visits every sub-tile once, and in that order. -/
theorem pow_scan_eq_serial (s : Scheduler) (dTr key target : Buffer U32) (dBest : Buffer Int) (out out' : ScanOut)
    {m n r th tw : Nat} (hRows : r ∣ m) (hCols : r ∣ n) (hH : th ∣ r) (hW : tw ∣ r)
    (hBound : 16 * (m / th) * (n / tw) < 2 ^ 31) :
    let parallel := scan s dTr key target m n r th tw dBest out
    let serial := Naive.kPowScan dTr key target m n r th tw out'
    (parallel.found = serial.found ∧ parallel.aRow = serial.aRow ∧ parallel.bCol = serial.bCol ∧
      (parallel.found = 1 → ∀ x < 16, parallel.trOut x = serial.trOut x)) ∧
    Reports dTr n th tw ((loopOrder m n r th tw).find? (meetsTarget dTr key target n tw)) parallel ∧
    (List.range (totalTiles m n r th tw)).map (powScanIndexToTile · (n / r) (r / th) (r / tw)) =
      loopOrder m n r th tw ∧
    (loopOrder m n r th tw).Nodup ∧
    ∀ sr sc, (sr, sc) ∈ loopOrder m n r th tw ↔ sr < m / th ∧ sc < n / tw := by
  intro parallel serial
  have hTiles : totalTiles m n r th tw ≤ sentinel ∧
      ∀ sr sc, (sr, sc) ∈ loopOrder m n r th tw ↔ sr < m / th ∧ sc < n / tw := by
    obtain ⟨shape, hTotal⟩ | ⟨rfl, rfl, hNone, hTotal⟩ := totalTiles_eq hRows hCols hH hW
    · refine ⟨?_, fun sr sc => mem_loopOrder shape⟩
      rw [Nat.mul_assoc] at hBound
      rw [hTotal, sentinel]
      omega
    · refine ⟨hTotal.trans_le (Nat.zero_le _), fun sr sc => ?_⟩
      rw [hNone, Nat.zero_div]
      simp
  have hParallel := scan_reports s dTr key target dBest out hTiles.1
  refine ⟨hParallel.agrees (kPowScan_reports dTr key target m n r th tw out'), hParallel, ?_, ?_, hTiles.2⟩
  · exact map_powScanIndexToTile m n r th tw
  · exact loopOrder_nodup m n r th tw

/-- Two tiles high, three tiles wide, of 8x16 sub-tiles. -/
theorem pow_scan_eq_serial_six :
    (scan default (fun x => BitVec.ofNat 32 x) (fun _ => 5) (fun _ => 0x7fffffff) 32 48 16 8 16 (fun _ => 0)
      ⟨0, 0, 0, fun _ => 0⟩).aRow =
    (Naive.kPowScan (fun x => BitVec.ofNat 32 x) (fun _ => 5) (fun _ => 0x7fffffff) 32 48 16 8 16
      ⟨9, 9, 9, fun _ => 9⟩).aRow := by
  obtain ⟨⟨-, hRow, -⟩, -⟩ := pow_scan_eq_serial default (fun x => BitVec.ofNat 32 x) (fun _ => 5)
    (fun _ => 0x7fffffff) (fun _ => 0) ⟨0, 0, 0, fun _ => 0⟩ ⟨9, 9, 9, fun _ => 9⟩
    (show 16 ∣ 32 from ⟨2, rfl⟩) (show 16 ∣ 48 from ⟨3, rfl⟩) (show 8 ∣ 16 from ⟨2, rfl⟩)
    (show 16 ∣ 16 from ⟨1, rfl⟩) (by decide)
  exact hRow

end Cuda
