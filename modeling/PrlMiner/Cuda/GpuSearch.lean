import PrlMiner.Cuda.Mine2Entry

/-! The batched entry points against single attempts, and the search of the miner
against the reference. -/
namespace Cuda

open FixedWidth LittleEndian ParallelWrites Search Reference

/-- The keys of a batch, one after the other. -/
def joinKeys (keys : Nat → Bytes 32) : Buffer Byte := fun x => byteAt (keys (x / 32)) (x % 32)

/-- `gpu_search` of `fast_mine.py`. A return code other than 0 ends the process. -/
def gpuSearch (d : Device) (An_stack Bn_stack : Buffer I8) (keys_bytes target_le : Buffer Byte)
    (m k n natt : Nat) : Except Nat (Int × Int × Int × List U32) := do
  let res ← prlMine2Search d An_stack Bn_stack m k n natt keys_bytes target_le
  return (res.found, res.aRow, res.bCol, res.trOut)

/-- The words of the fresh `dTrOut`, which are handed out when nothing wins. -/
def freshWords (d : Device) : List U32 := (List.range 16).map (d.mallocU32 3)

/-- The words that the device reads for attempt `j` are those of the `j`-th key in the
joined buffer. -/
theorem asWords_joinKeys (keys : Nat → Bytes 32) (j : Nat) {i : Nat} (hi : i < 8) :
    asWords (offset (joinKeys keys) (j * 32)) i = wordAt (keys j) i := by
  rw [asWords, wordAt]
  apply leWord_congr
  intro x hx
  have hByte : 4 * i + x < 32 := by omega
  have hKey : (j * 32 + (4 * i + x)) / 32 = j := idx_div hByte
  have hIndex : (j * 32 + (4 * i + x)) % 32 = 4 * i + x := idx_mod hByte
  rw [offset, joinKeys, hKey, hIndex]

variable {m k n natt : Nat}

/-- A call that the entry point accepts answers what the latch and the read-back buffers
hold, as the wrapper packs them. -/
theorem gpuSearch_of_ok {d : Device} {An_stack Bn_stack : Buffer I8} {keys_bytes target_le : Buffer Byte}
    {res : MineResult}
    (h : prlMine2Search d An_stack Bn_stack m k n natt keys_bytes target_le = .ok res) :
    gpuSearch d An_stack Bn_stack keys_bytes target_le m k n natt =
      .ok (res.found, res.aRow, res.bCol, res.trOut) := by
  rw [gpuSearch, h]
  rfl

/-- The result of a batch through the results of its attempts. -/
theorem batchResult_cases (A B : Nat → Mat I8) (keys : Nat → Buffer U32) (target : Buffer U32)
    (r th tw natt : Nat) (trOuts : Nat → Buffer U32) :
    let single := fun j => attemptResult (A j) (B j) (keys j) target m k n r th tw (trOuts j)
    let batch := batchResult A B keys target m k n r th tw natt
    (∃ j < natt, (single j).found = 1 ∧ (∀ i < j, (single i).found = 0) ∧
        ∀ trOut, batch trOut = { single j with found := j }) ∨
      (∀ j < natt, (single j).found = 0) ∧
        ∀ trOut, batch trOut = ⟨-1, -1, -1, (List.range 16).map trOut⟩ := by
  intro single batch
  have hNone (j : Nat) (h : reportedTile (A j) (B j) (keys j) target m k n r th tw = none) :
      (single j).found = 0 := by
    simp only [single, attemptResult, h]
    rfl
  cases hFirst : (List.range natt).findSome? fun j =>
      (reportedTile (A j) (B j) (keys j) target m k n r th tw).map (j, ·) with
  | none =>
      refine Or.inr ⟨fun j hj => hNone j ?_, fun trOut => ?_⟩
      · exact Option.map_eq_none_iff.mp
          (List.findSome?_eq_none_iff.mp hFirst j (List.mem_range.mpr hj))
      · simp only [batch, batchResult, hFirst]
        rfl
  | some jx =>
      obtain ⟨j, hj, hMap, hBefore⟩ := findSome?_range_some hFirst
      obtain ⟨x, hx, rfl⟩ := Option.map_eq_some_iff.mp hMap
      have hSingle : single j = tileResult (A j) (B j) k n r th tw 1 x := by
        simp only [single, attemptResult, hx]
      refine Or.inl ⟨j, hj, ?_, fun i hi => hNone i (Option.map_eq_none_iff.mp (hBefore i hi)),
        fun trOut => ?_⟩
      · rw [hSingle]
        rfl
      · rw [hSingle]
        simp only [batch, batchResult, hFirst]
        rfl

/-- One factor of attempt `j`, noised on the host. -/
def hostNoised (rows cols : Nat) (X L R : Buffer I8) (j : Nat) : Mat I8 :=
  noiseInt8 128 (matrixOf cols X) (matrixOf 128 (offset L (j * rows * 128)))
    (matrixOf cols (offset R (j * 128 * cols)))

/-- One attempt at a time, a batch noised on the device and a batch noised on the
host give one answer: that of the first attempt that wins. -/
theorem entry_points_agree (dBatch dSearch : Device) (dSingle : Nat → Device)
    (A B EAL EAR EBL EBR : Buffer I8) (keys target32 : Buffer Byte) (dims : Mod128 m k n)
    (hNatt : 1 ≤ natt) (hBound : natt * (m / 2) * (n / 64) < sentinel) :
    ∃ (single : Nat → MineResult) (batch search : MineResult),
      (∀ j < natt, prlMine2Run (dSingle j) A B (offset EAL (j * m * 128)) (offset EAR (j * 128 * k))
        (offset EBL (j * k * 128)) (offset EBR (j * 128 * n)) m k n (offset keys (j * 32)) target32 =
          .ok (single j)) ∧
      prlMine2BatchRun dBatch A B EAL EAR EBL EBR m k n natt keys target32 = .ok batch ∧
      prlMine2Search dSearch (stack m k (hostNoised m k A EAL EAR)) (stack k n (hostNoised k n B EBL EBR))
        m k n natt keys target32 = .ok search ∧
      ((∃ j < natt, (single j).found = 1 ∧ (∀ i < j, (single i).found = 0) ∧
          batch = { single j with found := j } ∧ search = batch) ∨
        (∀ j < natt, (single j).found = 0) ∧ batch = ⟨-1, -1, -1, freshWords dBatch⟩ ∧
          search = ⟨-1, -1, -1, freshWords dSearch⟩) := by
  refine ⟨_, _, _, fun j _ => prlMine2Run_eq dims (dSingle j) _ _ _ _ _ _ _ _,
    prlMine2BatchRun_eq dims dBatch _ _ _ _ _ _ _ _ hNatt hBound.le,
    prlMine2Search_eq dims dSearch _ _ hNatt hBound.le
      (fun j _ i hi c hc => matrixOf_offset_stack _ j hi hc)
      (fun j _ c hc i hi => matrixOf_offset_stack _ j hc hi), ?_⟩
  have hCases := @batchResult_cases m k n (hostNoised m k A EAL EAR) (hostNoised k n B EBL EBR)
    (fun j => asWords (offset keys (j * 32))) (asWords target32) 128 2 64 natt
    (fun j => (dSingle j).mallocU32 3)
  obtain ⟨j, hj, hFound, hBefore, hBatch⟩ | ⟨hNone, hBatch⟩ := hCases
  · exact Or.inl ⟨j, hj, hFound, hBefore, hBatch _, (hBatch _).trans (hBatch _).symm⟩
  · exact Or.inr ⟨hNone, hBatch _, hBatch _⟩

/-- Keys of a batch whose first two attempts lose at `middleTarget`, where the rows of the
first factor are alike. -/
def lateKeys (j : Nat) : Bytes 32 := if j < 2 then 2 else 0

/-- The keys of the example below: the digest of an all-zero transcript meets the middle
target from the third attempt on and not before. -/
theorem zeroDigest_lateKeys (j : Nat) :
    zeroDigest Blake3.keyedHash (lateKeys j) ≤ middleTarget ↔ 2 ≤ j := by
  by_cases hj : j < 2
  · rw [lateKeys, if_pos hj]
    exact iff_of_false (Nat.not_le.mpr zeroDigest_loses) (by omega)
  · rw [lateKeys, if_neg hj]
    exact iff_of_true zeroDigest_wins (by omega)

theorem middleTarget_lt : middleTarget < 2 ^ 256 := by decide

/-- One attempt of the batch on its own. -/
theorem attemptResult_lateKeys (dims : Mod128 m k n) (hSize : 0 < m ∧ 0 < k ∧ 0 < n)
    (hBound : m / 2 * (n / 64) ≤ sentinel) {A : Mat I8} (hA : AlikeRows A) (B : Mat I8) (j : Nat) (trOut : Buffer U32) :
    (attemptResult A B (asWords (offset (joinKeys lateKeys) (j * 32))) (asWords (byteAt (toBytes 32 middleTarget)))
      m k n 128 2 64 trOut).found = if 2 ≤ j then 1 else 0 := by
  have hReported : (reportedTile A B (asWords (offset (joinKeys lateKeys) (j * 32)))
      (asWords (byteAt (toBytes 32 middleTarget))) m k n 128 2 64).isSome = true ↔
        zeroDigest Blake3.keyedHash (lateKeys j) ≤ middleTarget :=
    reportedTile_alike dims.shape ⟨hSize.1, hSize.2.2⟩ (Nat.le_of_dvd hSize.2.1 dims.depth)
      (by rw [dims.totalTiles_eq]; exact hBound) hA (by decide) middleTarget_lt
      (fun i hi => asWords_joinKeys lateKeys j hi) (fun i _ => rfl)
  rw [zeroDigest_lateKeys] at hReported
  rw [attemptResult]
  cases hTile : reportedTile A B (asWords (offset (joinKeys lateKeys) (j * 32)))
      (asWords (byteAt (toBytes 32 middleTarget))) m k n 128 2 64 with
  | none =>
      rw [hTile] at hReported
      rw [if_neg fun h => Bool.false_ne_true (hReported.mpr h)]
      rfl
  | some x =>
      rw [hTile] at hReported
      rw [if_pos (hReported.mp rfl)]
      rfl

/-- Four attempts of which the last two win: the batched entry points report attempt 2, with
the tile and the words of that attempt on its own. -/
theorem entry_points_agree_four : ∃ single : MineResult,
    prlMine2Run default (fun _ => 3) (fun x => BitVec.ofNat 8 x) (fun _ => 1) (fun _ => 2) (fun _ => -1)
      (fun _ => 1) 128 128 128 (offset (joinKeys lateKeys) (2 * 32)) (byteAt (toBytes 32 middleTarget)) = .ok single ∧
    single.found = 1 ∧
    prlMine2BatchRun default (fun _ => 3) (fun x => BitVec.ofNat 8 x) (fun _ => 1) (fun _ => 2) (fun _ => -1)
      (fun _ => 1) 128 128 128 4 (joinKeys lateKeys) (byteAt (toBytes 32 middleTarget)) =
        .ok { single with found := 2 } ∧
    prlMine2Search default (stack 128 128 (hostNoised 128 128 (fun _ => 3) (fun _ => 1) (fun _ => 2)))
      (stack 128 128 (hostNoised 128 128 (fun x => BitVec.ofNat 8 x) (fun _ => -1) (fun _ => 1)))
      128 128 128 4 (joinKeys lateKeys) (byteAt (toBytes 32 middleTarget)) = .ok { single with found := 2 } := by
  have dims : Mod128 128 128 128 := ⟨by decide, by decide, by decide⟩
  obtain ⟨single, batch, search, hSingle, hBatch, hSearch, hAgree⟩ := entry_points_agree default default
    (fun _ => default) (fun _ => 3) (fun x => BitVec.ofNat 8 x) (fun _ => 1) (fun _ => 2) (fun _ => -1)
    (fun _ => 1) (joinKeys lateKeys) (byteAt (toBytes 32 middleTarget)) dims (show 1 ≤ 4 by decide) (by decide)
  have hRows : AlikeRows (NoisyGemm.addNoise 128 (matrixOf 128 fun _ => 3) (matrixOf 128 fun _ => 1)
      (matrixOf 128 fun _ => 2)) := AlikeRows.addNoise (fun _ _ => rfl) (fun _ _ => rfl) 128 _
  have hFound (j : Nat) (hj : j < 4) : (single j).found = if 2 ≤ j then 1 else 0 := by
    have hRun := hSingle j hj
    rw [prlMine2Run_eq dims] at hRun
    rw [← Except.ok.inj hRun]
    exact attemptResult_lateKeys dims (by decide) (by decide) hRows _ j _
  have hThird : (single 2).found = 1 := hFound 2 (by decide)
  obtain ⟨j, hj, hWins, hBefore, rfl, rfl⟩ | ⟨hNone, -⟩ := hAgree
  · -- attempt 2 is the first that wins
    have hLate : 2 ≤ j := by
      by_contra hEarly
      rw [hFound j hj, if_neg hEarly] at hWins
      cases hWins
    have hFirst : ¬ 2 < j := by
      intro hLess
      rw [hBefore 2 hLess] at hThird
      cases hThird
    obtain rfl : j = 2 := by omega
    exact ⟨single 2, hSingle 2 (by decide), hThird, hBatch, hSearch⟩
  · rw [hNone 2 (by decide)] at hThird
    cases hThird

/-- The search finds what the reference finds: its first attempt with a proof, at
the tile and with the transcript the reference opens, or nothing. -/
theorem gpuSearch_sound_complete (d : Device) (dims : Mod128 m k n) (hNatt : 1 ≤ natt)
    (hBound : natt * (m / 2) * (n / 64) < sentinel) {g : NoisyGemm}
    (hRank : g.noiseRank = 128) (hTileH : g.hashTileH = 2) (hTileW : g.hashTileW = 64)
    (hMatmulH : g.matmulTileH ≤ m) (hMatmulW : g.matmulTileW ≤ n)
    (A B : Nat → Mat I8) (E : Nat → NoiseGenerator.Noise) (keys : Nat → Bytes 32) {target : Nat}
    (hTarget : target < 2 ^ 256) (hA : ∀ j < natt, g.validateMatrixRange m k (A j) = .ok ())
    (hB : ∀ j < natt, g.validateMatrixRange k n (B j) = .ok ()) :
    ∃ (ref : Nat → RunResult) (fa ar bc : Int) (tr : List U32),
      (∀ j < natt, g.run Blake3.keyedHash m k n 128 (A j) (B j) (E j) (keys j) target = .ok (ref j)) ∧
      gpuSearch d (stack m k fun j => noiseInt8 128 (A j) (E j).E_AL (E j).E_AR)
        (stack k n fun j => noiseInt8 128 (B j) (E j).E_BL (E j).E_BR) (joinKeys keys)
        (byteAt (toBytes 32 target)) m k n natt = .ok (fa, ar, bc, tr) ∧
      ((∃ j < natt, ∃ block, (ref j).found = true ∧ (∀ i < j, (ref i).found = false) ∧
          (ref j).openedBlock = some block ∧ fa = j ∧
          block.A_row_indices.head?.map Nat.cast = some ar ∧
          block.B_column_indices.head?.map Nat.cast = some bc ∧ tr = block.transcript_words) ∨
        (∀ j < natt, (ref j).found = false) ∧ fa = -1 ∧ ar = -1 ∧ bc = -1) := by
  simp only [noiseInt8_eq_addNoise]
  let NA := fun j => NoisyGemm.addNoise 128 (A j) (E j).E_AL (E j).E_AR
  let NB := fun j => NoisyGemm.addNoise 128 (B j) (E j).E_BL (E j).E_BR
  let tile := fun j => reportedTile (NA j) (NB j) (asWords (offset (joinKeys keys) (j * 32)))
    (asWords (byteAt (toBytes 32 target))) m k n 128 2 64
  have hTotal : totalTiles m n 128 2 64 ≤ sentinel := by
    have hOne : 1 * (m / 2 * (n / 64)) ≤ natt * (m / 2 * (n / 64)) := Nat.mul_le_mul_right _ hNatt
    rw [dims.totalTiles_eq]
    rw [← Nat.mul_assoc natt] at hOne
    omega
  -- what the reference returns for each attempt
  have hReference (j : Nat) : ∃ ref : RunResult, j < natt →
      g.run Blake3.keyedHash m k n 128 (A j) (B j) (E j) (keys j) target = .ok ref ∧
        ref.found = (tile j).isSome ∧
        ref.openedBlock = (tile j).map (openedAt (NA j) (NB j) k n 128 2 64) := by
    by_cases hj : j < natt
    · have hAccepts : g.Accepts m k n (A j) (B j) target :=
        dims.shape.accepts dims.depth hRank hTileH hTileW hMatmulH hMatmulW hTarget (hA j hj) (hB j hj)
      obtain ⟨ref, hRef⟩ := run_reports (E := E j) dims.shape hRank hTileH hTileW hAccepts hTarget
        (fun i hi => asWords_joinKeys keys j hi) (fun i _ => rfl)
      simp only [← reportedTile_eq_winner hTotal] at hRef
      exact ⟨ref, fun _ => hRef⟩
    · exact ⟨⟨fun _ _ => 0, false, none⟩, fun h => absurd h hj⟩
  choose ref hRef using hReference
  have hSearch := prlMine2Search_eq dims d (joinKeys keys) (byteAt (toBytes 32 target)) hNatt hBound.le
    (fun j _ i hi c hc => matrixOf_offset_stack NA j hi hc)
    (fun j _ c hc i hi => matrixOf_offset_stack NB j hc hi)
  refine ⟨ref, _, _, _, _, fun j hj => (hRef j hj).1, gpuSearch_of_ok hSearch, ?_⟩
  cases hFirst : (List.range natt).findSome? fun j => (tile j).map (j, ·) with
  | none =>
      refine Or.inr ⟨fun j hj => ?_, ?_⟩
      · rw [(hRef j hj).2.1, Option.map_eq_none_iff.mp
          (List.findSome?_eq_none_iff.mp hFirst j (List.mem_range.mpr hj))]
        rfl
      · simp only [batchResult, tile] at hFirst ⊢
        simp only [hFirst]
        exact ⟨rfl, rfl, rfl⟩
  | some jx =>
      obtain ⟨j, hj, hMap, hBefore⟩ := findSome?_range_some hFirst
      obtain ⟨x, hx, rfl⟩ := Option.map_eq_some_iff.mp hMap
      obtain ⟨hRow, hCol, hWords⟩ := tileResult_opened dims.shape (NA j) (NB j) k j x
      refine Or.inl ⟨j, hj, openedAt (NA j) (NB j) k n 128 2 64 x, ?_, fun i hi => ?_, ?_, ?_⟩
      · rw [(hRef j hj).2.1, hx]
        rfl
      · rw [(hRef i (by omega)).2.1, Option.map_eq_none_iff.mp (hBefore i hi)]
        rfl
      · rw [(hRef j hj).2.2, hx]
        rfl
      · simp only [batchResult, tile] at hFirst ⊢
        simp only [hFirst]
        exact ⟨rfl, hRow, hCol, hWords⟩

/-- Four attempts of which the last two win: the search answers with attempt 2, at the tile
and with the words that the reference opens for it. -/
theorem gpuSearch_sound_complete_four : ∃ (g : NoisyGemm) (ref : RunResult) (block : OpenedBlock)
    (ar bc : Int) (tr : List U32),
    g.run Blake3.keyedHash 128 128 128 128 (fun _ _ => 3) (fun i j => BitVec.ofNat 6 (i + j) |>.setWidth 8)
      ⟨fun _ _ => 1, fun _ _ => 2, fun _ _ => -1, fun _ _ => 1⟩ (lateKeys 2) (middleTarget : Nat) = .ok ref ∧
    ref.found = true ∧ ref.openedBlock = some block ∧
    gpuSearch default
      (stack 128 128 fun _ => noiseInt8 128 (fun _ _ => 3) (fun _ _ => 1) (fun _ _ => 2))
      (stack 128 128 fun _ =>
        noiseInt8 128 (fun i j => BitVec.ofNat 6 (i + j) |>.setWidth 8) (fun _ _ => -1) (fun _ _ => 1))
      (joinKeys lateKeys) (byteAt (toBytes 32 middleTarget)) 128 128 128 4 = .ok (2, ar, bc, tr) ∧
    block.A_row_indices.head?.map Nat.cast = some ar ∧ block.B_column_indices.head?.map Nat.cast = some bc ∧
    tr = block.transcript_words := by
  let g : NoisyGemm := ⟨128, 128, 2, 64, 128, 128, by decide, by decide, by decide⟩
  have dims : Mod128 128 128 128 := ⟨by decide, by decide, by decide⟩
  have hThree : g.rangeLow ≤ (3#8).toInt ∧ (3#8).toInt ≤ g.rangeHigh := by decide
  have hSmall (x : BitVec 6) : g.rangeLow ≤ (x.setWidth 8).toInt ∧ (x.setWidth 8).toInt ≤ g.rangeHigh := by
    revert x
    decide
  have hDataA : g.validateMatrixRange 128 128 (fun _ _ => 3) = .ok () :=
    (g.validateMatrixRange_ok_iff 128 128 _).mpr ⟨by decide, fun _ _ _ _ => hThree⟩
  have hDataB : g.validateMatrixRange 128 128 (fun i j => BitVec.ofNat 6 (i + j) |>.setWidth 8) = .ok () :=
    (g.validateMatrixRange_ok_iff 128 128 _).mpr ⟨by decide, fun i _ j _ => hSmall _⟩
  obtain ⟨ref, fa, ar, bc, tr, hRef, hSearch, hFinds⟩ := gpuSearch_sound_complete default dims
    (show 1 ≤ 4 by decide) (by decide) (g := g) rfl rfl rfl (by decide) (by decide)
    (fun _ _ _ => 3) (fun _ i j => BitVec.ofNat 6 (i + j) |>.setWidth 8)
    (fun _ => ⟨fun _ _ => 1, fun _ _ => 2, fun _ _ => -1, fun _ _ => 1⟩) lateKeys
    middleTarget_lt (fun _ _ => hDataA) (fun _ _ => hDataB)
  have hFound (j : Nat) (hj : j < 4) : (ref j).found = true ↔ 2 ≤ j := by
    have hDigest := run_found_alike (alikeRows_const 3) (alikeRows_const 1) (by decide) (by decide) (by decide)
      (hRef j hj)
    rw [hDigest, ← zeroDigest_lateKeys j]
    exact Int.ofNat_le
  have hThird : (ref 2).found = true := (hFound 2 (by decide)).mpr (le_refl 2)
  obtain ⟨j, hj, block, hWins, hBefore, hBlock, rfl, hRow, hCol, hWords⟩ | ⟨hNone, -⟩ := hFinds
  · have hLate := (hFound j hj).mp hWins
    have hFirst : ¬ 2 < j := by
      intro hLess
      rw [hBefore 2 hLess] at hThird
      cases hThird
    obtain rfl : j = 2 := by omega
    exact ⟨g, ref 2, block, ar, bc, tr, hRef 2 hj, hWins, hBlock, hSearch, hRow, hCol, hWords⟩
  · rw [hNone 2 (by decide)] at hThird
    cases hThird

end Cuda
