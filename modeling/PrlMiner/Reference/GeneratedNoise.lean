import PrlMiner.Reference.Denoise

/-! What can be said of the noise `generate` returns, whatever the digests are:
the lines of its sparse factors, and whether noising data ever wraps. -/
namespace Reference

open FixedWidth LittleEndian Reduction

/-- A line of length `r` with one `+1`, one `-1` elsewhere, and zeros in all other places. -/
def IsSignedLine (r : Nat) (line : Nat → I8) : Prop :=
  ∃ plus < r, ∃ minus < r, plus ≠ minus ∧ line plus = 1 ∧ line minus = -1 ∧
    ∀ t < r, t ≠ plus → t ≠ minus → line t = 0

namespace NoiseGenerator

variable (g : NoiseGenerator)

/-- One draw gives a line with one `+1` and one `-1` at two different places. -/
theorem permLine_isSignedLine {u : Nat} (hu : u < 2 ^ 32) : IsSignedLine g.noiseRank (g.permLine u) := by
  have hNe := g.firstIdx_ne_secondIdx hu
  refine ⟨g.firstIdx u, g.firstIdx_lt u, g.secondIdx u, g.secondIdx_lt u, hNe, ?_, ?_, ?_⟩
  · simp [permLine, Function.update_of_ne hNe]
  · simp [permLine]
  · intro t _ hFirst hSecond
    simp [permLine, Function.update_of_ne hFirst, Function.update_of_ne hSecond]

/-- Every line of a generated sparse factor is a signed line, whichever way the lines
run. -/
theorem permutationMatrix_isSignedLine (blake3 : Blake3Package) (seed key : Bytes 32)
    {requiredLines line : Nat} (assignColumns : Bool) (hLine : line < requiredLines) :
    IsSignedLine g.noiseRank (lineEntry assignColumns
      (g.permutationMatrix blake3 seed key requiredLines assignColumns) line) := by
  have hEntry : lineEntry assignColumns
      (g.permutationMatrix blake3 seed key requiredLines assignColumns) line =
        g.permLine (lineWord blake3 seed key line) := by
    funext t
    exact g.permutationMatrix_line blake3 seed key requiredLines assignColumns hLine t
  rw [hEntry]
  exact g.permLine_isSignedLine (lineWord_lt blake3 seed key line)

/-- The dimension checks are all that can raise. -/
theorem generate_ok (blake3 : Blake3Package) (keyA keyB : Bytes 32) {A_rows commonDim B_cols : Nat}
    (hA : g.noiseRank ≤ A_rows) (hCommon : g.noiseRank ≤ commonDim) (hB : g.noiseRank ≤ B_cols) :
    ∃ E, g.generate blake3 keyA keyB A_rows commonDim B_cols = .ok E := by
  have hCheck {name : String} {d : Nat} (h : g.noiseRank ≤ d) : g.checkDim name d = .ok () :=
    if_neg (Nat.not_lt.mpr h)
  rw [generate, hCheck hA, hCheck hCommon, hCheck hB]
  exact ⟨_, rfl⟩

/-- Columns of `E_AR` and rows of `E_BL` are signed lines, and the draws assign each
of them exactly once, in order. -/
theorem generate_signed_lines (blake3 : Blake3Package) (keyA keyB : Bytes 32)
    (A_rows commonDim B_cols : Nat) (hA : g.noiseRank ≤ A_rows) (hCommon : g.noiseRank ≤ commonDim)
    (hB : g.noiseRank ≤ B_cols) :
    ∃ E, g.generate blake3 keyA keyB A_rows commonDim B_cols = .ok E ∧
      (∀ col < commonDim, IsSignedLine g.noiseRank (fun t => E.E_AR t col)) ∧
      (∀ row < commonDim, IsSignedLine g.noiseRank (fun t => E.E_BL row t)) ∧
      E.E_AR = g.assignAll blake3 seedA keyA true (assignedLines commonDim (lineDraws commonDim)) ∧
      E.E_BL = g.assignAll blake3 seedB keyB false (assignedLines commonDim (lineDraws commonDim)) ∧
      assignedLines commonDim (lineDraws commonDim) = List.range commonDim := by
  obtain ⟨E, hE⟩ := g.generate_ok blake3 keyA keyB hA hCommon hB
  obtain ⟨-, hAR, hBL, -⟩ := eq_of_generate hE
  refine ⟨E, hE, ?_, ?_, ?_, ?_, assignedLines_draws commonDim⟩
  · intro col hCol
    rw [hAR]
    exact g.permutationMatrix_isSignedLine blake3 seedA keyA true hCol
  · intro row hRow
    rw [hBL]
    exact g.permutationMatrix_isSignedLine blake3 seedB keyB false hRow
  · exact hAR.trans (g.permutationMatrix_eq_assignAll blake3 seedA keyA commonDim true)
  · exact hBL.trans (g.permutationMatrix_eq_assignAll blake3 seedB keyB commonDim false)

/-- A common dimension that is no multiple of the eight lines of a draw. -/
theorem generate_signed_lines_remainder : ∃ (g : NoiseGenerator) (E : Noise),
    g.noiseRank = 32 ∧ g.generate Blake3.keyedHash 0 0 32 35 33 = .ok E ∧
      (∀ col < 35, IsSignedLine 32 (fun t => E.E_AR t col)) := by
  let g : NoiseGenerator :=
    ⟨32, 128, by decide, by decide, by decide, by decide, by decide, by decide⟩
  obtain ⟨E, hE, hAR, -⟩ := g.generate_signed_lines Blake3.keyedHash 0 0 32 35 33 (by decide) (by decide)
    (by decide)
  exact ⟨g, E, rfl, hE, hAR⟩

end NoiseGenerator

section Noising

variable {r rows cols : Nat} {x e_l e_r : Mat I8}

/-- The exact product and the exact sum are int8 numbers, so both casts of the
noising keep their values. -/
structure AddsExactly (r rows cols : Nat) (x e_l e_r : Mat I8) : Prop where
  product : ∀ i < rows, ∀ j < cols, -128 ≤ exactProduct e_l e_r r i j ∧ exactProduct e_l e_r r i j ≤ 127
  sum : ∀ i < rows, ∀ j < cols, -128 ≤ (x i j).toInt + exactProduct e_l e_r r i j ∧
    (x i j).toInt + exactProduct e_l e_r r i j ≤ 127
  productCast : ∀ i < rows, ∀ j < cols,
    (narrow 8 (matmul r (i64 e_l) (i64 e_r)) i j).toInt = exactProduct e_l e_r r i j
  sumCast : ∀ i < rows, ∀ j < cols,
    (NoisyGemm.addNoise r x e_l e_r i j).toInt = (x i j).toInt + exactProduct e_l e_r r i j

/-- Noise up to the mask on data at most the mask away from the int8 limits. -/
theorem addsExactly_of_bounds {low high mask : Int} (hLow : -128 + mask ≤ low) (hHigh : high + mask ≤ 127)
    (hMask : mask ≤ 127) (hData : ∀ i < rows, ∀ j < cols, low ≤ (x i j).toInt ∧ (x i j).toInt ≤ high)
    (hNoise : ∀ i < rows, ∀ j < cols, |exactProduct e_l e_r r i j| ≤ mask) :
    AddsExactly r rows cols x e_l e_r := by
  have hProduct (i : Nat) (hi : i < rows) (j : Nat) (hj : j < cols) :
      -128 ≤ exactProduct e_l e_r r i j ∧ exactProduct e_l e_r r i j ≤ 127 := by
    have hAbs := abs_le.mp (hNoise i hi j hj)
    omega
  have hSum (i : Nat) (hi : i < rows) (j : Nat) (hj : j < cols) :
      -128 ≤ (x i j).toInt + exactProduct e_l e_r r i j ∧
        (x i j).toInt + exactProduct e_l e_r r i j ≤ 127 := by
    have hAbs := abs_le.mp (hNoise i hi j hj)
    have hEntry := hData i hi j hj
    omega
  refine ⟨hProduct, hSum, fun i hi j hj => ?_, fun i hi j hj => ?_⟩
  · obtain ⟨hBelow, hAbove⟩ := hProduct i hi j hj
    rw [narrow_matmul (by decide), accumulate_signExtend_mul,
      BitVec.toInt_ofInt_eq_self (by decide) hBelow (by omega)]
  · obtain ⟨hBelow, hAbove⟩ := hSum i hi j hj
    rw [addNoise_eq_ofInt, BitVec.toInt_ofInt_eq_self (by decide) hBelow (by omega)]

/-- With this generator noising never wraps, whatever the keys, the dimensions, the
digests and the accepted data. -/
def NoisingNeverWraps (gen : NoiseGenerator) : Prop :=
  ∀ (g : NoisyGemm) (blake3 : Blake3Package) (keyA keyB : Bytes 32) (m k n : Nat)
    (E : NoiseGenerator.Noise) (A B : Mat I8), g.noiseRange = gen.noiseRange →
    gen.generate blake3 keyA keyB m k n = .ok E → g.validateMatrixRange m k A = .ok () →
    g.validateMatrixRange k n B = .ok () →
    AddsExactly gen.noiseRank m k A E.E_AL E.E_AR ∧ AddsExactly gen.noiseRank k n B E.E_BL E.E_BR

theorem noisingNeverWraps_of_range {gen : NoiseGenerator} (hRange : 2 ≤ gen.noiseRange) :
    NoisingNeverWraps gen := by
  intro g blake3 keyA keyB m k n E A B hSame hE hA hB
  obtain ⟨hLow, hHigh, hData, -⟩ := dataRange_add_mask hRange hSame
  obtain ⟨-, hDataA⟩ := (g.validateMatrixRange_ok_iff m k A).mp hA
  obtain ⟨-, hDataB⟩ := (g.validateMatrixRange_ok_iff k n B).mp hB
  have hMask : gen.rangeMask ≤ 127 := by
    have hFits := gen.rangeFits
    rw [NoiseGenerator.rangeMask, NoiseGenerator.halfRange]
    omega
  exact ⟨addsExactly_of_bounds hLow hHigh hMask hDataA fun i _ c hc => noiseA_range hRange hE i hc,
    addsExactly_of_bounds hLow hHigh hMask hDataB fun c hc j _ => noiseB_range hRange hE hc j⟩

/-- Digests of alternating 127 and -128 for the dense factors, zero digests for the
sparse ones. The first message of a dense factor begins with a one. -/
def alternatingHash : Blake3Package := fun msg _ i =>
  if msg 0 = 1 then (if i.val % 2 = 0 then 0x7F else 0x80) else 0

/-- Half of a range of one is zero, and the mask `-1` keeps every byte as it is. -/
theorem uniformEntry_of_range_one {gen : NoiseGenerator} (h : gen.noiseRange = 1) (b : Byte) :
    gen.uniformEntry b = b := by
  have hHalf : gen.halfRange = 0 := by rw [NoiseGenerator.halfRange, h]
  rw [NoiseGenerator.uniformEntry, NoiseGenerator.rangeMask, NoiseGenerator.zeroPointTranslation, hHalf]
  revert b
  decide

/-- Then a difference of two dense entries can be 255. -/
theorem exactProduct_of_range_one {gen : NoiseGenerator} (h : gen.noiseRange = 1) (key : Bytes 32)
    {rows lines : Nat} (hRows : 0 < rows) (hLines : 0 < lines) :
    exactProduct (gen.uniformMatrix alternatingHash NoiseGenerator.seedA key rows)
      (gen.permutationMatrix alternatingHash NoiseGenerator.seedA key lines true) gen.noiseRank 0 0 =
      255 := by
  have hRank := gen.noiseRank_ge
  have hDigest : NoiseGenerator.randomHash alternatingHash 0 NoiseGenerator.seedA key 1 = fun _ => 0 := by
    have hByte : byteAt (packWords 32 (fun i => if i = 1 then BitVec.ofNat 32 (1 + 0) else 0)) 0 ≠ 1 := by
      decide
    funext i
    rw [NoiseGenerator.randomHash, alternatingHash]
    exact if_neg hByte
  have hWord : NoiseGenerator.lineWord alternatingHash NoiseGenerator.seedA key 0 = 0 := by
    rw [NoiseGenerator.lineWord, hDigest]
    decide
  have hLine (t : Nat) : gen.permutationMatrix alternatingHash NoiseGenerator.seedA key lines true t 0 =
      gen.permLine 0 t := by
    have hEntry := gen.permutationMatrix_line alternatingHash NoiseGenerator.seedA key lines true hLines t
    rwa [hWord] at hEntry
  have hFirst : gen.firstIdx 0 = 0 := Nat.zero_and _
  have hSecond : gen.secondIdx 0 = 1 := by
    rw [gen.secondIdx_eq (by decide), hFirst, mulHiU32]
    simp
  have hDense (t : Nat) (ht : t < 32) :
      gen.uniformMatrix alternatingHash NoiseGenerator.seedA key rows 0 t =
        if t % 2 = 0 then 0x7F else 0x80 := by
    rw [gen.uniformMatrix_entry _ _ _ hRows (by omega), uniformEntry_of_range_one h, Nat.zero_mul,
      Nat.zero_add, Nat.div_eq_of_lt ht, Nat.mod_eq_of_lt ht, byteAt_of_lt _ ht]
    rfl
  simp only [exactProduct, hLine]
  rw [gen.accumulate_permLine (by decide), hFirst, hSecond, hDense 0 (by decide), hDense 1 (by decide)]
  decide

/-- A range of one passes the checks of both constructors, and its noise can wrap. -/
theorem not_noisingNeverWraps_of_range_one {gen : NoiseGenerator} (h : gen.noiseRange = 1) :
    ¬ NoisingNeverWraps gen := by
  intro hNever
  have hRank := gen.noiseRank_ge
  let g : NoisyGemm := ⟨1, gen.noiseRank, 16, 16, 128, 128, by decide, by decide, by decide⟩
  have hLow : g.rangeLow ≤ 0 := show (-128 : Int) ≤ 0 by decide
  have hHigh : 0 ≤ g.rangeHigh := show (0 : Int) ≤ 126 by decide
  have hData (rows cols : Nat) (hSize : rows * cols ≠ 0) :
      g.validateMatrixRange rows cols (fun _ _ => 0) = .ok () :=
    (g.validateMatrixRange_ok_iff rows cols _).mpr ⟨hSize, fun _ _ _ _ => ⟨hLow, hHigh⟩⟩
  have hSize : gen.noiseRank * gen.noiseRank ≠ 0 := Nat.mul_ne_zero (by omega) (by omega)
  obtain ⟨E, hE⟩ := gen.generate_ok alternatingHash 0 0 le_rfl le_rfl le_rfl
  obtain ⟨hNoise, -⟩ := hNever g alternatingHash 0 0 gen.noiseRank gen.noiseRank gen.noiseRank E
    (fun _ _ => 0) (fun _ _ => 0) (by simp [g, h]) hE (hData _ _ hSize) (hData _ _ hSize)
  obtain ⟨hAL, hAR, -, -⟩ := eq_of_generate hE
  have hBound := (hNoise.product 0 (by omega) 0 (by omega)).2
  rw [hAL, hAR, exactProduct_of_range_one h 0 (by omega) (by omega)] at hBound
  omega

/-- Noising never wraps if and only if the accepted noise range is at least two. -/
theorem noisingNeverWraps_iff (gen : NoiseGenerator) : NoisingNeverWraps gen ↔ 2 ≤ gen.noiseRange := by
  constructor
  · intro hNever
    have hNonzero := gen.rangeNeZero
    by_contra hSmall
    exact not_noisingNeverWraps_of_range_one (by omega) hNever
  · exact noisingNeverWraps_of_range

/-- `NoiseGenerator(32, 1)` is accepted. -/
theorem noising_wraps_at_range_one : ∃ gen : NoiseGenerator,
    NoiseGenerator.init 32 1 = .ok gen ∧ ¬ NoisingNeverWraps gen := by
  let gen : NoiseGenerator :=
    ⟨32, 1, by decide, by decide, by decide, by decide, by decide, by decide⟩
  exact ⟨gen, gen.init_eq, not_noisingNeverWraps_of_range_one rfl⟩

end Noising

end Reference
