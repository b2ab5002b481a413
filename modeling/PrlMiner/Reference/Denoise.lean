import PrlMiner.Library.Blake3
import PrlMiner.Library.LowRankNoise
import PrlMiner.Reference.NoiseStructure
import PrlMiner.Reference.Run

/-! Denoising. Generated noise is small enough that adding it to data in range
never wraps an int8, and then every later cast is a ring homomorphism. -/
namespace Reference

open FixedWidth LittleEndian Reduction

/-- Every generator comes from its constructor. -/
theorem NoiseGenerator.init_eq (g : NoiseGenerator) :
    NoiseGenerator.init g.noiseRank g.noiseRange = .ok g := by
  change (if hRange : g.noiseRange &&& (g.noiseRange - 1) = 0 ∧ g.noiseRange ≠ 0 then _ else _) = _
  rw [dif_pos ⟨g.rangePow, g.rangeNeZero⟩, dif_pos ⟨g.rankPow, g.rankNeZero⟩, dif_pos g.rangeFits,
    dif_pos g.rankDivides]

/-- Every instance comes from its constructor. -/
theorem NoisyGemm.init_eq (g : NoisyGemm) :
    NoisyGemm.init g.noiseRange g.noiseRank g.hashTileH g.hashTileW g.matmulTileH g.matmulTileW =
      .ok g := by
  have hRange := g.rangeFits
  have hTileH := g.tileHFits
  have hTileW := g.tileWFits
  rw [NoisyGemm.init, dif_neg (by omega), dif_neg (by omega)]

/-- An entry of `x @ y` over the integers. -/
def exactProduct (x y : Mat I8) (k i j : Nat) : Int :=
  accumulate k (fun c => (x i c).toInt * (y c j).toInt)

theorem accumulate_bounds {n : Nat} {f : Nat → Int} {bound : Int} (h : ∀ i < n, |f i| ≤ bound) :
    |accumulate n f| ≤ n * bound := by
  rw [accumulate_eq_sum]
  calc |∑ i ∈ Finset.range n, f i| ≤ ∑ i ∈ Finset.range n, |f i| := Finset.abs_sum_le_sum_abs _ _
    _ ≤ ∑ _i ∈ Finset.range n, bound := Finset.sum_le_sum (fun i hi => h i (Finset.mem_range.mp hi))
    _ = n * bound := by simp

/-- A fixed-width product is the exact one, cast. -/
theorem accumulate_signExtend_mul {v : Nat} (x y : Mat I8) (k i j : Nat) :
    accumulate k (fun c => (x i c).signExtend v * (y c j).signExtend v) =
      BitVec.ofInt v (exactProduct x y k i j) := by
  rw [exactProduct, ofInt_accumulate]
  exact accumulate_congr (fun c _ => signExtend_mul_signExtend _ _)

/-- A noised entry is the exact sum, cast to int8. -/
theorem addNoise_eq_ofInt (r : Nat) (x e_l e_r : Mat I8) (i j : Nat) :
    NoisyGemm.addNoise r x e_l e_r i j =
      BitVec.ofInt 8 ((x i j).toInt + exactProduct e_l e_r r i j) := by
  rw [NoisyGemm.addNoise, narrow, BitVec.setWidth_add _ _ (by decide),
    setWidth_signExtend (by decide), setWidth_signExtend (by decide), BitVec.signExtend_eq,
    BitVec.signExtend_eq, narrow_matmul (by decide), accumulate_signExtend_mul, BitVec.ofInt_add,
    BitVec.ofInt_toInt]

/-- As long as the sum fits in int8, widening the noised entry loses nothing. -/
theorem signExtend_addNoise {r : Nat} {x e_l e_r : Mat I8} {i j : Nat}
    (hLow : -128 ≤ (x i j).toInt + exactProduct e_l e_r r i j)
    (hHigh : (x i j).toInt + exactProduct e_l e_r r i j ≤ 127) :
    (NoisyGemm.addNoise r x e_l e_r i j).signExtend 32 = (x i j).signExtend 32 +
      accumulate r (fun t => (e_l i t).signExtend 32 * (e_r t j).signExtend 32) := by
  rw [addNoise_eq_ofInt, signExtend_ofInt (by decide) (by omega) (by omega), BitVec.ofInt_add,
    accumulate_signExtend_mul]
  rfl

section Generated

variable {gen : NoiseGenerator} {blake3 : Blake3Package} {keyA keyB : Bytes 32} {m k n : Nat}
  {E : NoiseGenerator.Noise}

/-- What `generate` returns when it does not raise. -/
theorem eq_of_generate (hE : gen.generate blake3 keyA keyB m k n = .ok E) :
    E.E_AL = gen.uniformMatrix blake3 NoiseGenerator.seedA keyA m ∧
    E.E_AR = gen.permutationMatrix blake3 NoiseGenerator.seedA keyA k true ∧
    E.E_BL = gen.permutationMatrix blake3 NoiseGenerator.seedB keyB k false ∧
    E.E_BR = fun i j => gen.uniformMatrix blake3 NoiseGenerator.seedB keyB n j i := by
  simp only [NoiseGenerator.generate, NoiseGenerator.checkDim] at hE
  split_ifs at hE <;> cases hE
  exact ⟨rfl, rfl, rfl, rfl⟩

/-- The difference of two dense entries is at most the mask. -/
theorem uniform_sub_range (hRange : 2 ≤ gen.noiseRange) (seed key : Bytes 32) (rows i a b : Nat) :
    |(gen.uniformMatrix blake3 seed key rows i a).toInt -
      (gen.uniformMatrix blake3 seed key rows i b).toInt| ≤ gen.rangeMask := by
  obtain ⟨hLowA, hHighA⟩ := gen.uniformMatrix_range hRange blake3 seed key rows i a
  obtain ⟨hLowB, hHighB⟩ := gen.uniformMatrix_range hRange blake3 seed key rows i b
  rw [abs_le]
  omega

/-- Every entry of `E_AL @ E_AR` is the difference of two dense entries. -/
theorem noiseA_range (hRange : 2 ≤ gen.noiseRange)
    (hE : gen.generate blake3 keyA keyB m k n = .ok E) (i : Nat) {c : Nat} (hc : c < k) :
    |exactProduct E.E_AL E.E_AR gen.noiseRank i c| ≤ gen.rangeMask := by
  obtain ⟨hAL, hAR, -, -⟩ := eq_of_generate hE
  have hLine (t : Nat) : E.E_AR t c = gen.permLine
      (NoiseGenerator.lineWord blake3 NoiseGenerator.seedA keyA c) t := by
    rw [hAR]
    exact gen.permutationMatrix_line blake3 NoiseGenerator.seedA keyA k true hc t
  simp only [exactProduct, hLine]
  rw [gen.accumulate_permLine (NoiseGenerator.lineWord_lt _ _ _ _), hAL]
  exact uniform_sub_range hRange _ _ _ _ _ _

/-- Every entry of `E_BL @ E_BR` is the difference of two dense entries. -/
theorem noiseB_range (hRange : 2 ≤ gen.noiseRange)
    (hE : gen.generate blake3 keyA keyB m k n = .ok E) {c : Nat} (hc : c < k) (j : Nat) :
    |exactProduct E.E_BL E.E_BR gen.noiseRank c j| ≤ gen.rangeMask := by
  obtain ⟨-, -, hBL, hBR⟩ := eq_of_generate hE
  have hLine (t : Nat) : E.E_BL c t = gen.permLine
      (NoiseGenerator.lineWord blake3 NoiseGenerator.seedB keyB c) t := by
    rw [hBL]
    exact gen.permutationMatrix_line blake3 NoiseGenerator.seedB keyB k false hc t
  simp only [exactProduct, hLine, mul_comm (gen.permLine _ _).toInt]
  rw [gen.accumulate_permLine (NoiseGenerator.lineWord_lt _ _ _ _), hBR]
  exact uniform_sub_range hRange _ _ _ _ _ _

end Generated

section Denoise

variable {g : NoisyGemm} {gen : NoiseGenerator}

/-- Data in range and noise in range add up to an int8. -/
theorem dataRange_add_mask (hRange : 2 ≤ gen.noiseRange) (hSame : g.noiseRange = gen.noiseRange) :
    -128 + gen.rangeMask ≤ g.rangeLow ∧ g.rangeHigh + gen.rangeMask ≤ 127 ∧
      -127 ≤ g.rangeLow ∧ g.rangeHigh ≤ 127 := by
  obtain ⟨e, he, hHalf, hTwice⟩ := gen.halfRange_isPow hRange
  have hPos : 0 < 2 ^ e := by positivity
  have hLow : g.rangeLow = -(128 - (gen.halfRange : Int)) := by
    rw [NoisyGemm.rangeLow, NoisyGemm.dataRange, hSame, Int.fdiv_eq_ediv_of_nonneg _ (by decide)]
    omega
  simp only [NoisyGemm.rangeHigh, NoisyGemm.dataRange, hLow, NoiseGenerator.rangeMask, hSame]
  omega

/-- Differences taken over int64 and cast back are differences over int32. -/
theorem narrow_sub_sub (x y z : Mat I32) (i j : Nat) :
    narrow 32 (fun i j => i64 x i j - i64 y i j - i64 z i j) i j = x i j - y i j - z i j := by
  have hWide (x : I32) : (x.signExtend 64).setWidth 32 = x := by
    rw [setWidth_signExtend (by decide), BitVec.signExtend_eq]
  simp only [narrow, i64, BitVec.sub_eq_add_neg, BitVec.setWidth_add _ _ (show 32 ≤ 64 by decide),
    BitVec.setWidth_neg_of_le (show 32 ≤ 64 by decide), hWide]

/-- Both noise terms come off in the int32 arithmetic of the source. -/
theorem denoised_eq {k r : Nat} {A B : Mat I8} {E : NoiseGenerator.Noise} {noised : Mat I32}
    {i j : Nat}
    (hNoised : noised i j = prefixProduct (NoisyGemm.addNoise r A E.E_AL E.E_AR)
      (NoisyGemm.addNoise r B E.E_BL E.E_BR) k i j)
    (hA : ∀ c < k, (NoisyGemm.addNoise r A E.E_AL E.E_AR i c).signExtend 32 = (A i c).signExtend 32 +
      accumulate r (fun t => (E.E_AL i t).signExtend 32 * (E.E_AR t c).signExtend 32))
    (hB : ∀ c < k, (NoisyGemm.addNoise r B E.E_BL E.E_BR c j).signExtend 32 = (B c j).signExtend 32 +
      accumulate r (fun t => (E.E_BL c t).signExtend 32 * (E.E_BR t j).signExtend 32)) :
    NoisyGemm.denoised k r A B E noised i j = BitVec.ofInt 32 (exactProduct A B k i j) := by
  have hAB := narrow_matmul (show 32 ≤ 64 by decide) r (narrow 32 (matmul k (i64 A) (i64 E.E_BL)))
    E.E_BR i j
  have hEB := narrow_matmul (show 32 ≤ 64 by decide) r E.E_AL
    (narrow 32 (matmul k (i64 E.E_AR) (i64 (NoisyGemm.addNoise r B E.E_BL E.E_BR)))) i j
  rw [NoisyGemm.denoised, narrow_sub_sub, hAB, hEB]
  simp only [narrow_matmul (show 32 ≤ 64 by decide), BitVec.signExtend_eq]
  rw [hNoised, prefixProduct, accumulate_congr (fun c hc => by rw [hA c hc, hB c hc])]
  have hInner (t : Nat) : accumulate k (fun c => (E.E_AR t c).signExtend 32 *
        (NoisyGemm.addNoise r B E.E_BL E.E_BR c j).signExtend 32) =
      accumulate k (fun c => (E.E_AR t c).signExtend 32 * ((B c j).signExtend 32 +
        accumulate r (fun s => (E.E_BL c s).signExtend 32 * (E.E_BR s j).signExtend 32))) :=
    accumulate_congr (fun c hc => by rw [hB c hc])
  simp only [hInner]
  exact (LowRankNoise.denoise k r _ _ _ _ _ _).trans (accumulate_signExtend_mul A B k i j)

/-- On generated noise `run` returns `A @ B` modulo `2 ^ 32`, and the factors it
has accepted are in the data range. -/
theorem run_entry (gen : NoiseGenerator) (g : NoisyGemm) (hRange : 2 ≤ gen.noiseRange)
    (hSameRange : g.noiseRange = gen.noiseRange) (hSameRank : g.noiseRank = gen.noiseRank)
    {noiseHash powHash : Blake3Package} {keyA keyB powKey : Bytes 32} {m k n : Nat} {A B : Mat I8}
    {powTarget : Int} {E : NoiseGenerator.Noise} {res : RunResult}
    (hE : gen.generate noiseHash keyA keyB m k n = .ok E)
    (hRun : g.run powHash m k n gen.noiseRank A B E powKey powTarget = .ok res) {i j : Nat}
    (hi : i < m) (hj : j < n) : res.C i j = BitVec.ofInt 32 (exactProduct A B k i j) := by
  have hRank : 0 < g.noiseRank := by
    have := gen.noiseRank_ge
    omega
  have hAccepts := NoisyGemm.accepts_of_run hRank hRun
  obtain ⟨C, noised, hEq, hC, hNoised⟩ := NoisyGemm.run_eq powHash gen.noiseRank E powKey hRank hAccepts
  obtain rfl : _ = res := Except.ok.inj (hEq.symm.trans hRun)
  obtain ⟨hLow, hHigh, -⟩ := dataRange_add_mask hRange hSameRange
  rw [hC]
  refine denoised_eq (hNoised i hi j hj) (fun c hc => ?_) (fun c hc => ?_)
  · have hData := hAccepts.dataA i hi c hc
    have hNoise := abs_le.mp (noiseA_range hRange hE i hc)
    exact signExtend_addNoise (by omega) (by omega)
  · have hData := hAccepts.dataB c hc j hj
    have hNoise := abs_le.mp (noiseB_range hRange hE hc j)
    exact signExtend_addNoise (by omega) (by omega)

/-- Products of data in range add up to an int32 up to depth `2 ^ 17`. -/
theorem exactProduct_fits {A B : Mat I8} {k i j : Nat} (hA : ∀ c < k, |(A i c).toInt| ≤ 127)
    (hB : ∀ c < k, |(B c j).toInt| ≤ 127) (hk : k ≤ 2 ^ 17) :
    -2 ^ 31 ≤ exactProduct A B k i j ∧ exactProduct A B k i j < 2 ^ 31 := by
  have hTerm : ∀ c < k, |(A i c).toInt * (B c j).toInt| ≤ 127 * 127 := by
    intro c hc
    rw [abs_mul]
    exact mul_le_mul (hA c hc) (hB c hc) (abs_nonneg _) (by decide)
  have hBound := abs_le.mp (accumulate_bounds hTerm)
  have hDepth : (k : Int) ≤ 2 ^ 17 := by exact_mod_cast hk
  rw [exactProduct]
  omega

/-- The denoise identity: on generated noise of a range of at least two `run` returns the
product `A @ B` modulo `2 ^ 32`, and the product itself where that fits. -/
theorem run_denoises (gen : NoiseGenerator) (g : NoisyGemm) (hRange : 2 ≤ gen.noiseRange)
    (hSameRange : g.noiseRange = gen.noiseRange) (hSameRank : g.noiseRank = gen.noiseRank)
    (noiseHash powHash : Blake3Package) (keyA keyB powKey : Bytes 32) (m k n : Nat) (A B : Mat I8)
    (powTarget : Int) (E : NoiseGenerator.Noise) (res : RunResult)
    (hE : gen.generate noiseHash keyA keyB m k n = .ok E)
    (hRun : g.run powHash m k n gen.noiseRank A B E powKey powTarget = .ok res) :
    ∀ i < m, ∀ j < n,
      (res.C i j).toInt ≡ exactProduct A B k i j [ZMOD 2 ^ 32] ∧
      (-2 ^ 31 ≤ exactProduct A B k i j → exactProduct A B k i j < 2 ^ 31 →
        (res.C i j).toInt = exactProduct A B k i j) ∧
      (k ≤ 2 ^ 17 → (res.C i j).toInt = exactProduct A B k i j) := by
  intro i hi j hj
  have hRank : 0 < g.noiseRank := by
    have := gen.noiseRank_ge
    omega
  have hAccepts := NoisyGemm.accepts_of_run hRank hRun
  obtain ⟨-, -, hLow, hHigh⟩ := dataRange_add_mask hRange hSameRange
  have hEntry := run_entry gen g hRange hSameRange hSameRank hE hRun hi hj
  have hFits (h : -2 ^ 31 ≤ exactProduct A B k i j) (h' : exactProduct A B k i j < 2 ^ 31) :
      (res.C i j).toInt = exactProduct A B k i j := by
    rw [hEntry, BitVec.toInt_ofInt_eq_self (by decide) h h']
  refine ⟨?_, hFits, fun hk => ?_⟩
  · simp only [hEntry, BitVec.toInt_ofInt]
    exact Int.bmod_emod
  · have hDataA : ∀ c < k, |(A i c).toInt| ≤ 127 := by
      intro c hc
      have hData := hAccepts.dataA i hi c hc
      exact abs_le.mpr ⟨by omega, by omega⟩
    have hDataB : ∀ c < k, |(B c j).toInt| ≤ 127 := by
      intro c hc
      have hData := hAccepts.dataB c hc j hj
      exact abs_le.mpr ⟨by omega, by omega⟩
    obtain ⟨h, h'⟩ := exactProduct_fits hDataA hDataB hk
    exact hFits h h'

/-- The identity on factors of threes and minus fours under generated noise, at the
easiest target, so that the run also opens a tile. -/
theorem run_denoises_constant : ∃ (gen : NoiseGenerator) (g : NoisyGemm) (E : NoiseGenerator.Noise)
    (res : RunResult), gen.generate Blake3.keyedHash 1 2 32 32 32 = .ok E ∧
      g.run Blake3.keyedHash 32 32 32 gen.noiseRank (fun _ _ => 3) (fun _ _ => -4) E 5 powTargetEasiest = .ok res ∧
      res.found = true ∧ ∀ i < 32, ∀ j < 32, (res.C i j).toInt = -384 := by
  let gen : NoiseGenerator :=
    ⟨32, 128, by decide, by decide, by decide, by decide, by decide, by decide⟩
  let g : NoisyGemm := ⟨128, 32, 16, 16, 32, 32, by decide, by decide, by decide⟩
  have hAccepts : g.Accepts 32 32 32 (fun _ _ => 3) (fun _ _ => -4) powTargetEasiest :=
    ⟨by decide, by decide, fun _ _ _ _ => by decide, fun _ _ _ _ => by decide, by decide, by decide,
      by decide, by decide, by decide⟩
  obtain ⟨E, hE⟩ : ∃ E, gen.generate Blake3.keyedHash 1 2 32 32 32 = .ok E := ⟨_, rfl⟩
  obtain ⟨C, noised, hRun, -, -⟩ := NoisyGemm.run_eq (g := g) Blake3.keyedHash
    gen.noiseRank E 5 (by decide) hAccepts
  have hOrigin : (0, 0) ∈ hashTiles 32 32 g.noiseRank.toNat g.hashTileH g.hashTileW := by decide
  have hFound := NoisyGemm.run_found_easiest (by decide) hRun hOrigin
  refine ⟨gen, g, E, _, hE, hRun, hFound, fun i hi j hj => ?_⟩
  have hProduct : exactProduct (fun _ _ => 3) (fun _ _ => -4) 32 0 0 = -384 := by decide
  rw [← hProduct]
  exact (run_denoises gen g (by decide) rfl rfl Blake3.keyedHash Blake3.keyedHash 1 2 5 32 32 32 _ _
    powTargetEasiest E _ hE hRun i hi j hj).2.2 (by decide)

end Denoise

end Reference
