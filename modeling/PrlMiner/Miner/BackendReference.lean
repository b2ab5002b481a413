import PrlMiner.Miner.CpuBackend
import PrlMiner.Miner.CudaSearch
import PrlMiner.Reference.EasiestTarget

/-! The evaluation of the CPU backend: when it raises, and what a kernel that scans
the same noised matrices hands back against it. -/
namespace Miner

open LittleEndian FixedWidth Cuda Reference Search EarlyExit

/-- What a kernel hands back is what the reference found. -/
inductive Reports (res : MineResult) (ref : RunResult) : Prop where
  | missed (hRef : ref.found = false) (hFound : res.found = 0)
  | opened (block : OpenedBlock) (hRef : ref.found = true) (hBlock : ref.openedBlock = some block)
      (hFound : res.found = 1) (hRow : block.A_row_indices.head?.map Nat.cast = some res.aRow)
      (hCol : block.B_column_indices.head?.map Nat.cast = some res.bCol)
      (hWords : res.trOut = block.transcript_words)

/-- Whether something was found is all that counts of a result that found nothing. -/
theorem Reports.congr {res res' : MineResult} {ref : RunResult} (h : Reports res ref) (hFound : res'.found = res.found)
    (hSame : res.found = 1 → res' = res) : Reports res' ref := by
  cases h with
  | missed hRef hMiss => exact .missed hRef (hFound.trans hMiss)
  | opened block hRef hBlock hWins hRow hCol hWords =>
      rw [hSame hWins]
      exact .opened block hRef hBlock hWins hRow hCol hWords

theorem ofReference_eq_ok {α : Type} {x : Except PyError α} {a : α} : ofReference x = .ok a ↔ x = .ok a := by
  cases x with
  | ok a' =>
      constructor
      all_goals
        intro h
        cases h
        rfl
  | error e =>
      constructor
      all_goals
        intro h
        cases h

section Conversions

variable {powTarget : Int}

/-- An integer has its little-endian bytes exactly if it is not negative and fits in them.
Otherwise `to_bytes` raises `OverflowError`. -/
theorem toBytesLittle_isOk_iff {size : Nat} {x : Int} :
    (∃ bytes, Python.toBytesLittle size x = .ok bytes) ↔ 0 ≤ x ∧ x < 256 ^ size := by
  rw [Python.toBytesLittle]
  by_cases hNeg : x < 0
  · rw [if_pos hNeg]
    refine iff_of_false ?_ (by omega)
    rintro ⟨bytes, h⟩
    cases h
  · rw [if_neg hNeg]
    obtain ⟨n, rfl⟩ := Int.eq_ofNat_of_zero_le (Int.not_lt.mp hNeg)
    rw [Int.toNat_natCast]
    by_cases hFits : n < 256 ^ size
    · rw [if_pos hFits]
      exact iff_of_true ⟨_, rfl⟩ ⟨Int.natCast_nonneg n, by exact_mod_cast hFits⟩
    · rw [if_neg hFits]
      refine iff_of_false ?_ fun h => hFits (by exact_mod_cast h.2)
      rintro ⟨bytes, h⟩
      cases h

theorem pow_256 (i : Nat) : 256 ^ i = 2 ^ (8 * i) := by rw [pow_mul, show 2 ^ 8 = 256 from rfl]

/-- The 32 bytes of a target, read by the kernel as eight words, are the words of the
target itself. -/
theorem targetBytes_eq {target : Nat} (hTarget : target < 2 ^ 256) : ∃ bytes : Buffer Byte,
    CudaMineBackend.targetBytes target = .ok bytes ∧
      ∀ i < 8, asWords bytes i = wordAt (toBytes 32 target) i := by
  have hBytes : Python.toBytesLittle 32 target =
      .ok ((List.range 32).map fun i => BitVec.ofNat 8 (target / 256 ^ i)) := by
    rw [Python.toBytesLittle, if_neg (by omega), Int.toNat_natCast, if_pos (pow_256 32 ▸ hTarget)]
  refine ⟨fun i => ((List.range 32).map fun i => BitVec.ofNat 8 (target / 256 ^ i)).getD i 0, ?_, fun i hi => ?_⟩
  · rw [CudaMineBackend.targetBytes, hBytes]
    rfl
  · rw [asWords, wordAt]
    apply leWord_congr
    intro x hx
    have hByte : 4 * i + x < 32 := by omega
    rw [byteAt_of_lt _ hByte, toBytes, ← pow_256]
    simp only [List.getD_eq_getElem?_getD, List.getElem?_map, List.getElem?_range hByte, Option.map_some,
      Option.getD_some]

/-- A target has its 32 bytes exactly if it is a uint256. -/
theorem targetBytes_isOk_iff :
    (∃ bytes, CudaMineBackend.targetBytes powTarget = .ok bytes) ↔ 0 ≤ powTarget ∧ powTarget < 2 ^ 256 := by
  have hPow : (2 ^ 256 : Int) = 256 ^ 32 := by norm_num
  rw [hPow, ← toBytesLittle_isOk_iff, CudaMineBackend.targetBytes]
  cases Python.toBytesLittle 32 powTarget with
  | error e => exact iff_of_false (by rintro ⟨_, h⟩; cases h) (by rintro ⟨_, h⟩; cases h)
  | ok bytes => exact iff_of_true ⟨_, rfl⟩ ⟨_, rfl⟩

end Conversions

section Evaluation

open CpuBackend

variable {A B : Buffer I8}

theorem mineDims : Mod128 M K N := ⟨by decide, by decide, by decide⟩

/-- The matrices that are drawn pass every check of the reference, at every target of 256
bits. -/
theorem DrawnInRange.accepts (hDrawn : DrawnInRange A B) {target : Nat} (hTarget : target < 2 ^ 256) :
    gemm.Accepts M K N (matrixOf K A) (matrixOf N B) target := by
  have hLow : gemm.rangeLow = -64 := by decide
  have hHigh : gemm.rangeHigh = 63 := by decide
  refine mineDims.mineShape.accepts mineDims.depth rfl rfl rfl (by decide) (by decide) hTarget ?_ ?_
  · refine (gemm.validateMatrixRange_ok_iff M K _).mpr ⟨by decide, fun i hi j hj => ?_⟩
    have hEntry := hDrawn.1 (idx i j K) (idx_lt hi hj)
    rw [hLow, hHigh]
    exact ⟨hEntry.1, Int.le_sub_one_of_lt hEntry.2⟩
  · refine (gemm.validateMatrixRange_ok_iff K N _).mpr ⟨by decide, fun i hi j hj => ?_⟩
    have hEntry := hDrawn.2 (idx i j N) (idx_lt hi hj)
    rw [hLow, hHigh]
    exact ⟨hEntry.1, Int.le_sub_one_of_lt hEntry.2⟩

/-- The noised factors of an evaluation. -/
def factorA (A : Buffer I8) (keyA keyB : Bytes 32) : Mat I8 :=
  let E := referenceNoise keyA keyB M K N
  NoisyGemm.addNoise 128 (matrixOf K A) E.E_AL E.E_AR

def factorB (B : Buffer I8) (keyA keyB : Bytes 32) : Mat I8 :=
  let E := referenceNoise keyA keyB M K N
  NoisyGemm.addNoise 128 (matrixOf N B) E.E_BL E.E_BR

/-- The first winning tile of an evaluation. -/
def winningTile (A B : Buffer I8) (keyA keyB : Bytes 32) (target : Nat) : Option Nat :=
  winner (transcriptsOf (factorA A keyA keyB) (factorB B keyA keyB) K N 128 16 16) (wordAt keyA)
    (wordAt (toBytes 32 target)) M N 128 16 16

/-- At the easiest target the first tile wins, whatever the matrices and the keys are. -/
theorem winningTile_easiest (A B : Buffer I8) (keyA keyB : Bytes 32) :
    winningTile A B keyA keyB (2 ^ 256 - 1) = some 0 := by
  have hWins (x : Nat) : tileWins (transcriptsOf (factorA A keyA keyB) (factorB B keyA keyB) K N 128 16 16)
      (wordAt keyA) (wordAt (toBytes 32 (2 ^ 256 - 1))) N 128 16 16 x = true := by
    rw [tileWins, digestLeTarget_eq_checkPowTarget _ keyA (by decide), NoisyGemm.checkPowTarget]
    exact decide_eq_true (fromBytes_le_easiest _)
  rw [winningTile, winner, show totalTiles M N 128 16 16 = 127 + 1 from rfl, List.range_succ_eq_map]
  exact List.find?_cons_of_pos (hWins 0)

/-- An evaluation is a run of the reference on the drawn matrices with the noise that the
keys generate. -/
theorem evaluate_noise (A B : Buffer I8) (keyA keyB : Bytes 32) (powTarget : Int) :
    evaluate A B keyA keyB powTarget = gemm.run Blake3.keyedHash M K N R (matrixOf K A) (matrixOf N B)
      (referenceNoise keyA keyB M K N) keyA powTarget := by
  rw [evaluate, generate_eq keyA keyB (by decide) (by decide) (by decide)]
  dsimp only [bind, Except.bind]

/-- An evaluation opens the first winning tile of the noised product, and finds nothing
where no tile wins. -/
theorem evaluate_eq (hDrawn : DrawnInRange A B) (keyA keyB : Bytes 32) {target : Nat} (hTarget : target < 2 ^ 256) :
    ∃ ref, evaluate A B keyA keyB target = .ok ref ∧
      ref.found = (winningTile A B keyA keyB target).isSome ∧
      ref.openedBlock = (winningTile A B keyA keyB target).map
        (openedAt (factorA A keyA keyB) (factorB B keyA keyB) K N 128 16 16) := by
  rw [evaluate_noise]
  exact run_reports mineDims.mineShape rfl rfl rfl (hDrawn.accepts hTarget) hTarget (fun _ _ => rfl)
    fun _ _ => rfl

/-- An evaluation raises on a target that is no uint256, and on no other one: the drawn
matrices are always accepted. -/
theorem evaluate_isOk_iff (hDrawn : DrawnInRange A B) (keyA keyB : Bytes 32) {powTarget : Int} :
    (∃ ref, evaluate A B keyA keyB powTarget = .ok ref) ↔ 0 ≤ powTarget ∧ powTarget < 2 ^ 256 := by
  constructor
  · rintro ⟨ref, hRef⟩
    rw [evaluate_noise] at hRef
    have hTarget := (NoisyGemm.checks_of_run hRef).2.2.1
    rw [powTargetHardest, powTargetEasiest] at hTarget
    omega
  · rintro ⟨hLow, hHigh⟩
    obtain ⟨target, rfl⟩ := Int.eq_ofNat_of_zero_le hLow
    have hTarget : target < 2 ^ 256 := by exact_mod_cast hHigh
    obtain ⟨ref, hRef, -⟩ := evaluate_eq hDrawn keyA keyB hTarget
    exact ⟨ref, hRef⟩

/-- What a scan hands back for the winning tile is what the evaluation opened: its first
row and column, and its transcript. -/
theorem evaluate_reports (hDrawn : DrawnInRange A B) (keyA keyB : Bytes 32) {target : Nat}
    (hTarget : target < 2 ^ 256) {res : MineResult} {trOut : Buffer U32}
    (hRes : res = match winningTile A B keyA keyB target with
      | none => noTile 0 trOut
      | some x => tileResult (factorA A keyA keyB) (factorB B keyA keyB) K N 128 16 16 1 x) :
    ∃ ref, evaluate A B keyA keyB target = .ok ref ∧ Reports res ref := by
  obtain ⟨ref, hRef, hFound, hBlock⟩ := evaluate_eq hDrawn keyA keyB hTarget
  refine ⟨ref, hRef, ?_⟩
  subst hRes
  cases hTile : winningTile A B keyA keyB target with
  | none =>
      rw [hTile] at hFound
      exact .missed hFound rfl
  | some x =>
      rw [hTile] at hFound hBlock
      obtain ⟨hRow, hCol, hWords⟩ := tileResult_opened mineDims.mineShape (factorA A keyA keyB)
        (factorB B keyA keyB) K 1 x
      exact .opened _ hFound hBlock rfl hRow hCol hWords

end Evaluation

end Miner
