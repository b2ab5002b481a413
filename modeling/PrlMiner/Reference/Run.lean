import PrlMiner.Library.EarlyExit
import PrlMiner.Reference.TiledMatmul

/-! When `run` raises, and what it returns when it does not: the search over
the noised product, and that product with both noise terms taken off. -/
namespace Reference

open FixedWidth LittleEndian Reduction EarlyExit

namespace NoisyGemm

variable (g : NoisyGemm) (blake3 : Blake3Package)

/-- Every entry lies in the admissible data range. -/
def DataInRange (rows cols : Nat) (t : Mat I8) : Prop :=
  ∀ i < rows, ∀ j < cols, g.rangeLow ≤ (t i j).toInt ∧ (t i j).toInt ≤ g.rangeHigh

instance (rows cols : Nat) (t : Mat I8) : Decidable (g.DataInRange rows cols t) :=
  inferInstanceAs (Decidable (∀ i < rows, ∀ j < cols, _ ∧ _))

/-- The range check passes exactly on a matrix that is not empty and whose entries all lie
in the data range. -/
theorem validateMatrixRange_ok_iff (rows cols : Nat) (t : Mat I8) :
    g.validateMatrixRange rows cols t = .ok () ↔ rows * cols ≠ 0 ∧ g.DataInRange rows cols t := by
  by_cases hSize : rows * cols = 0
  · simp [validateMatrixRange, hSize]
  · by_cases hData : g.DataInRange rows cols t
    · exact iff_of_true ((if_neg hSize).trans (if_pos hData)) ⟨hSize, hData⟩
    · refine iff_of_false (fun hOk => ?_) (fun h => hData h.2)
      rw [validateMatrixRange, if_neg hSize, if_neg (by exact hData)] at hOk
      cases hOk

/-- What `run` and the loops below it check. -/
structure Accepts (m k n : Nat) (A B : Mat I8) (powTarget : Int) : Prop where
  sizeA : m * k ≠ 0
  sizeB : k * n ≠ 0
  dataA : g.DataInRange m k A
  dataB : g.DataInRange k n B
  target : powTargetHardest ≤ powTarget ∧ powTarget ≤ powTargetEasiest
  shape : g.matmulTileH ≤ m ∧ g.noiseRank ≤ k ∧ g.matmulTileW ≤ n
  tileH : g.hashTileH ≠ 0
  tileW : g.hashTileW ≠ 0
  tileFits : min g.hashTileH g.hashTileW ≤ g.noiseRank

/-- The noised product with `A @ EB` and `EA @ (B + EB)` taken off. -/
def denoised (k r : Nat) (A B : Mat I8) (E : NoiseGenerator.Noise) (noised : Mat I32) : Mat I32 :=
  let A_EB := narrow 32 (matmul r (i64 (narrow 32 (matmul k (i64 A) (i64 E.E_BL)))) (i64 E.E_BR))
  let EA_BpEB := narrow 32 (matmul r (i64 E.E_AL)
    (i64 (narrow 32 (matmul k (i64 E.E_AR) (i64 (addNoise r B E.E_BL E.E_BR))))))
  narrow 32 fun i j => i64 noised i j - i64 A_EB i j - i64 EA_BpEB i j

variable {g blake3} {m k n r : Nat} {A B : Mat I8} {E : NoiseGenerator.Noise} {powKey : Bytes 32}
  {powTarget : Int}

/-- Past its checks `run` is the tiled product, denoised. -/
theorem run_of_checks (hA : g.validateMatrixRange m k A = .ok ())
    (hB : g.validateMatrixRange k n B = .ok ())
    (hTarget : powTargetHardest ≤ powTarget ∧ powTarget ≤ powTargetEasiest)
    (hShape : g.matmulTileH ≤ m ∧ g.noiseRank ≤ k ∧ g.matmulTileW ≤ n) :
    g.run blake3 m k n r A B E powKey powTarget =
      (g.tiledMatmul blake3 (addNoise r A E.E_AL E.E_AR) (addNoise r B E.E_BL E.E_BR) m k n powKey
        powTarget none).map fun noised => { noised with C := denoised k r A B E noised.C } := by
  have hFits : ¬ ((m : Int) < g.matmulTileH ∨ (k : Int) < g.noiseRank ∨ (n : Int) < g.matmulTileW) := by
    omega
  simp only [run, noiseA, noiseB, hA, hB, hTarget, hFits, and_self, not_true_eq_false, if_false]
  rfl

/-- A tile size of zero raises in the first output block. -/
theorem tiledMatmul_zero_tile (hRank : 0 < g.noiseRank.toNat) (hm : 0 < m) (hn : 0 < n)
    (hZero : g.hashTileH = 0 ∨ g.hashTileW = 0) (opened : Option OpenedBlock) (res : RunResult) :
    g.tiledMatmul blake3 A B m k n powKey powTarget opened ≠ .ok res := by
  obtain ⟨rows, hRows⟩ : ∃ rows, blockCount m g.noiseRank.toNat = rows + 1 :=
    Nat.exists_eq_succ_of_ne_zero (Nat.div_pos (by omega) hRank).ne'
  obtain ⟨cols, hCols⟩ : ∃ cols, blockCount n g.noiseRank.toNat = cols + 1 :=
    Nat.exists_eq_succ_of_ne_zero (Nat.div_pos (by omega) hRank).ne'
  have hBlock (i j : Nat) (st : RunResult) :
      g.blockStep blake3 A B m k n powKey powTarget i st j = .error .zeroDivisionError := by
    rw [blockStep]
    rcases hZero with h | h
    · rw [h]
      rfl
    · by_cases hH : g.hashTileH = 0
      · rw [hH]
        rfl
      · rw [h, floorDiv_of_ne_zero hH]
        rfl
  rw [tiledMatmul, range_of_pos hRank, range_of_pos hRank]
  split_ifs
  · simp [bind, Except.bind]
  · have hRowRange : (m + g.noiseRank.toNat - 1) / g.noiseRank.toNat = rows + 1 := hRows
    have hColRange : (n + g.noiseRank.toNat - 1) / g.noiseRank.toNat = cols + 1 := hCols
    rw [hRowRange, hColRange]
    simp [bind, Except.bind, List.range_succ_eq_map, hBlock]

/-- The checks of `run` itself, passed by a run that did not raise. -/
theorem checks_of_run {res : RunResult} (hRun : g.run blake3 m k n r A B E powKey powTarget = .ok res) :
    g.validateMatrixRange m k A = .ok () ∧ g.validateMatrixRange k n B = .ok () ∧
      (powTargetHardest ≤ powTarget ∧ powTarget ≤ powTargetEasiest) ∧
      (g.matmulTileH ≤ m ∧ g.noiseRank ≤ k ∧ g.matmulTileW ≤ n) := by
  rw [run] at hRun
  obtain ⟨⟨⟩, hA, hChecks⟩ := bind_eq_ok.mp hRun
  obtain ⟨⟨⟩, hB, hChecks⟩ := bind_eq_ok.mp hChecks
  have hTarget : powTargetHardest ≤ powTarget ∧ powTarget ≤ powTargetEasiest := by
    by_contra h
    rw [if_pos h] at hChecks
    cases hChecks
  rw [if_neg (not_not.mpr hTarget)] at hChecks
  refine ⟨hA, hB, hTarget, ?_⟩
  by_contra h
  have hRaise : (m : Int) < g.matmulTileH ∨ (k : Int) < g.noiseRank ∨ (n : Int) < g.matmulTileW := by
    omega
  dsimp only at hChecks
  rw [if_pos hRaise] at hChecks
  cases hChecks

/-- The shape guard of the tiled product, passed where it does not raise. -/
theorem guard_of_tiledMatmul {opened : Option OpenedBlock} {res : RunResult}
    (hOk : g.tiledMatmul blake3 A B m k n powKey powTarget opened = .ok res) :
    g.hashTileH ≤ m ∧ g.hashTileW ≤ n ∧ min g.hashTileH g.hashTileW ≤ g.noiseRank := by
  by_contra h
  have hRaise : (m : Int) < g.hashTileH ∨ (n : Int) < g.hashTileW ∨
      g.noiseRank < min g.hashTileH g.hashTileW := by omega
  rw [tiledMatmul, if_pos hRaise] at hOk
  cases hOk

/-- What can be read off a run that did not raise. -/
theorem accepts_of_run (hRank : 0 < g.noiseRank) {res : RunResult}
    (hRun : g.run blake3 m k n r A B E powKey powTarget = .ok res) :
    g.Accepts m k n A B powTarget := by
  obtain ⟨hA, hB, hTarget, hShape⟩ := checks_of_run hRun
  rw [run_of_checks hA hB hTarget hShape] at hRun
  obtain ⟨hSizeA, hDataA⟩ := (g.validateMatrixRange_ok_iff m k A).mp hA
  obtain ⟨hSizeB, hDataB⟩ := (g.validateMatrixRange_ok_iff k n B).mp hB
  have hm : 0 < m := Nat.pos_of_ne_zero (fun h => hSizeA (by simp [h]))
  have hn : 0 < n := Nat.pos_of_ne_zero (fun h => hSizeB (by simp [h]))
  cases hTiled : g.tiledMatmul blake3 (addNoise r A E.E_AL E.E_AR) (addNoise r B E.E_BL E.E_BR) m k n
      powKey powTarget none with
  | error e => simp [hTiled, Except.map] at hRun
  | ok noised =>
      refine ⟨hSizeA, hSizeB, hDataA, hDataB, hTarget, hShape, ?_, ?_, ?_⟩
      · intro h
        exact tiledMatmul_zero_tile (by omega) hm hn (Or.inl h) _ _ hTiled
      · intro h
        exact tiledMatmul_zero_tile (by omega) hm hn (Or.inr h) _ _ hTiled
      · exact (guard_of_tiledMatmul hTiled).2.2

/-- An accepted run finds the first winning tile of the noised factors. -/
theorem run_eq (blake3 : Blake3Package) (r : Nat) (E : NoiseGenerator.Noise) (powKey : Bytes 32)
    (hRank : 0 < g.noiseRank) (hAccepts : g.Accepts m k n A B powTarget) :
    ∃ C noised, g.run blake3 m k n r A B E powKey powTarget =
        .ok { C := C
              found := (searchTiles g blake3 (addNoise r A E.E_AL E.E_AR)
                (addNoise r B E.E_BL E.E_BR) m k n powKey powTarget).isSome
              openedBlock := searchTiles g blake3 (addNoise r A E.E_AL E.E_AR)
                (addNoise r B E.E_BL E.E_BR) m k n powKey powTarget } ∧
      C = denoised k r A B E noised ∧
      ∀ a < m, ∀ b < n, noised a b =
        prefixProduct (addNoise r A E.E_AL E.E_AR) (addNoise r B E.E_BL E.E_BR) k a b := by
  have hFitsH := g.tileHFits
  have hFitsW := g.tileWFits
  have hShape := hAccepts.shape
  obtain ⟨noised, hTiled, hProduct⟩ := tiledMatmul_eq (g := g) blake3 (addNoise r A E.E_AL E.E_AR)
    (addNoise r B E.E_BL E.E_BR) m k n powKey powTarget (by omega) hAccepts.tileH hAccepts.tileW
    (by omega) (by omega) hAccepts.tileFits none
  refine ⟨_, noised, ?_, rfl, hProduct⟩
  rw [run_of_checks ((g.validateMatrixRange_ok_iff m k A).mpr ⟨hAccepts.sizeA, hAccepts.dataA⟩)
    ((g.validateMatrixRange_ok_iff k n B).mpr ⟨hAccepts.sizeB, hAccepts.dataB⟩) hAccepts.target
    hShape, hTiled, Option.or_none]
  rfl

/-- An accepted run at the easiest target that has a tile to hash finds one. -/
theorem run_found_easiest {res : RunResult} {tile : Nat × Nat} (hRank : 0 < g.noiseRank)
    (hRun : g.run blake3 m k n r A B E powKey powTargetEasiest = .ok res)
    (hTile : tile ∈ hashTiles m n g.noiseRank.toNat g.hashTileH g.hashTileW) : res.found = true := by
  have hAccepts := accepts_of_run hRank hRun
  have hShape := hAccepts.shape
  obtain ⟨C, noised, hEq, -, -⟩ := run_eq blake3 r E powKey hRank hAccepts
  obtain rfl : _ = res := Except.ok.inj (hEq.symm.trans hRun)
  exact searchTiles_easiest (by omega) hTile blake3 _ _ powKey

end NoisyGemm

end Reference
