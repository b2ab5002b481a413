import Mathlib.Data.Nat.Bitwise
import PrlMiner.Library.Search
import PrlMiner.Reference.NoiseGenerator

/-! Shape of the generated noise for arbitrary digests: dense entries in their
range, and one `+1` and one `-1` on each permutation line. -/
namespace Reference

open FixedWidth LittleEndian Reduction

namespace NoiseGenerator

variable (g : NoiseGenerator)

theorem noiseRank_isPow : ∃ e, g.noiseRank = 2 ^ e :=
  (Nat.and_sub_one_eq_zero_iff_isPowerOfTwo g.rankNeZero).mp g.rankPow

theorem noiseRange_isPow : ∃ e, g.noiseRange = 2 ^ e :=
  (Nat.and_sub_one_eq_zero_iff_isPowerOfTwo g.rangeNeZero).mp g.rangePow

theorem noiseRank_ge : 32 ≤ g.noiseRank :=
  Nat.le_of_dvd (Nat.pos_of_ne_zero g.rankNeZero) (Nat.dvd_of_mod_eq_zero g.rankDivides)

/-- From two up, half the range is a power of two as well. -/
theorem halfRange_isPow (h : 2 ≤ g.noiseRange) :
    ∃ e ≤ 6, g.halfRange = 2 ^ e ∧ g.noiseRange = 2 * g.halfRange := by
  obtain ⟨e, he⟩ := g.noiseRange_isPow
  have hFits := g.rangeFits
  cases e with
  | zero => omega
  | succ e =>
      have hBound : 2 ^ (e + 1) ≤ 2 ^ 7 := by omega
      have hLe : e + 1 ≤ 7 := (Nat.pow_le_pow_iff_right (by decide)).mp hBound
      rw [Nat.pow_succ] at he
      exact ⟨e, by omega, by rw [halfRange]; omega, by rw [halfRange]; omega⟩

/-- The mask keeps the low bits of the byte. -/
theorem uniformEntry_eq (h : 2 ≤ g.noiseRange) (b : Byte) :
    g.uniformEntry b = BitVec.ofInt 8 ((b.toNat % g.halfRange : Nat) - g.zeroPointTranslation) := by
  obtain ⟨e, he, hHalf, -⟩ := g.halfRange_isPow h
  have hPow : 2 ^ e ≤ 2 ^ 6 := Nat.pow_le_pow_right (by decide) he
  have hMask : b.setWidth 16 &&& BitVec.ofInt 16 g.rangeMask =
      BitVec.ofInt 16 (b.toNat % g.halfRange : Nat) := by
    have hb := b.isLt
    have hMod : b.toNat % 2 ^ e < 2 ^ e := Nat.mod_lt _ (by positivity)
    apply BitVec.eq_of_toNat_eq
    have hRange : g.rangeMask = ((2 ^ e - 1 : Nat) : Int) := by
      have : 1 ≤ 2 ^ e := Nat.one_le_two_pow
      rw [rangeMask, hHalf]
      omega
    rw [BitVec.toNat_and, hRange, BitVec.ofInt_natCast, BitVec.ofInt_natCast, BitVec.toNat_setWidth,
      BitVec.toNat_ofNat, BitVec.toNat_ofNat, hHalf, Nat.mod_eq_of_lt (show b.toNat < 2 ^ 16 by omega),
      Nat.mod_eq_of_lt (show 2 ^ e - 1 < 2 ^ 16 by omega),
      Nat.mod_eq_of_lt (show b.toNat % 2 ^ e < 2 ^ 16 by omega), Nat.and_two_pow_sub_one_eq_mod]
  rw [uniformEntry, hMask, Int.sub_eq_add_neg, BitVec.sub_eq_add_neg, ← BitVec.ofInt_neg,
    ← BitVec.ofInt_add, setWidth_ofInt (by decide)]

/-- Dense entries lie in `[-zpt, range_mask - zpt]`. -/
theorem uniformEntry_range (h : 2 ≤ g.noiseRange) (b : Byte) :
    -g.zeroPointTranslation ≤ (g.uniformEntry b).toInt ∧
      (g.uniformEntry b).toInt ≤ g.rangeMask - g.zeroPointTranslation := by
  obtain ⟨e, he, hHalf, -⟩ := g.halfRange_isPow h
  have hPow : 2 ^ e ≤ 2 ^ 6 := Nat.pow_le_pow_right (by decide) he
  have hPos : 0 < 2 ^ e := by positivity
  have hMod : b.toNat % g.halfRange < g.halfRange := Nat.mod_lt _ (by omega)
  rw [g.uniformEntry_eq h]
  simp only [rangeMask, zeroPointTranslation]
  rw [BitVec.toInt_ofInt_eq_self (by decide) (by omega) (by omega)]
  omega

/-- The entries of a dense factor lie between the translated ends of the noise range. -/
theorem uniformMatrix_range (h : 2 ≤ g.noiseRange) (blake3 : Blake3Package) (seed key : Bytes 32)
    (rows i j : Nat) :
    -g.zeroPointTranslation ≤ (g.uniformMatrix blake3 seed key rows i j).toInt ∧
      (g.uniformMatrix blake3 seed key rows i j).toInt ≤ g.rangeMask - g.zeroPointTranslation := by
  obtain ⟨e, he, hHalf, -⟩ := g.halfRange_isPow h
  have hPos : 0 < 2 ^ e := by positivity
  simp only [uniformMatrix, List.getD_eq_getElem?_getD, List.getElem?_map]
  cases ((rawBytes blake3 seed key 0 ((rows * g.noiseRank + digestSize - 1) / digestSize)).take
      (rows * g.noiseRank))[i * g.noiseRank + j]? with
  | none =>
      simp only [Option.map_none, Option.getD_none, rangeMask, zeroPointTranslation]
      have hZero : (0 : I8).toInt = 0 := by decide
      omega
  | some b => exact g.uniformEntry_range h b

/-- An entry comes from one byte of one digest. -/
theorem uniformMatrix_entry (blake3 : Blake3Package) (seed key : Bytes 32)
    {rows i j : Nat} (hi : i < rows) (hj : j < g.noiseRank) :
    g.uniformMatrix blake3 seed key rows i j = g.uniformEntry
      (byteAt (randomHash blake3 ((i * g.noiseRank + j) / 32) seed key 0)
        ((i * g.noiseRank + j) % 32)) := by
  have hLt : i * g.noiseRank + j < rows * g.noiseRank := by
    have := Nat.mul_le_mul_right g.noiseRank (Nat.succ_le_of_lt hi)
    rw [Nat.succ_mul] at this
    omega
  have hDigest (d : Bytes 32) : List.ofFn d = (List.range 32).map (byteAt d) := by
    apply List.ext_getElem?
    intro x
    by_cases hx : x < 32
    · rw [List.getElem?_ofFn, dif_pos hx, List.getElem?_map, List.getElem?_range hx, Option.map_some,
        byteAt_of_lt d hx]
    · rw [List.getElem?_ofFn, dif_neg hx, List.getElem?_map, List.getElem?_eq_none (by simpa using hx),
        Option.map_none]
  have hRaw (draws : Nat) : rawBytes blake3 seed key 0 draws =
      (List.range (draws * 32)).map fun x =>
        byteAt (randomHash blake3 (x / 32) seed key 0) (x % 32) := by
    simp only [rawBytes, hDigest]
    exact Search.flatMap_range_map draws 32 fun d x =>
      byteAt (randomHash blake3 d seed key 0) x
  have hDraws : i * g.noiseRank + j < (rows * g.noiseRank + 32 - 1) / 32 * 32 := by omega
  simp only [uniformMatrix, digestSize, hRaw, List.getD_eq_getElem?_getD,
    List.getElem?_map, List.getElem?_take, if_pos hLt, List.getElem?_range hDraws, Option.map_some,
    Option.getD_some]

theorem firstIdx_lt (u : Nat) : g.firstIdx u < g.noiseRank := by
  obtain ⟨e, he⟩ := g.noiseRank_isPow
  rw [firstIdx, rankMask, he, Nat.and_two_pow_sub_one_eq_mod]
  exact Nat.mod_lt _ (by positivity)

theorem secondIdx_lt (u : Nat) : g.secondIdx u < g.noiseRank := by
  obtain ⟨e, he⟩ := g.noiseRank_isPow
  rw [secondIdx, rankMask, he, Nat.and_two_pow_sub_one_eq_mod]
  exact Nat.mod_lt _ (by positivity)

/-- The offset `1 + mul_hi(rank - 1, u)` is a nonzero index. -/
theorem offset_lt {u : Nat} (hu : u < 2 ^ 32) : 1 + mulHiU32 (g.noiseRank - 1) u < g.noiseRank := by
  have hGe := g.noiseRank_ge
  have hMod : (g.noiseRank - 1) % 2 ^ 32 ≤ g.noiseRank - 1 := Nat.mod_le _ _
  rw [mulHiU32, Nat.mod_eq_of_lt hu]
  rcases Nat.eq_zero_or_pos ((g.noiseRank - 1) % 2 ^ 32) with hZero | hPos
  · rw [hZero, Nat.zero_mul, Nat.zero_div]
    omega
  · have hHigh : (g.noiseRank - 1) % 2 ^ 32 * u / 2 ^ 32 < (g.noiseRank - 1) % 2 ^ 32 := by
      apply Nat.div_lt_of_lt_mul
      rw [Nat.mul_comm (2 ^ 32)]
      exact Nat.mul_lt_mul_of_pos_left hu hPos
    omega

/-- The second index is the first one moved by a nonzero offset. -/
theorem secondIdx_eq {u : Nat} (hu : u < 2 ^ 32) :
    g.secondIdx u = g.firstIdx u ^^^ (1 + mulHiU32 (g.noiseRank - 1) u) := by
  have hFirst := g.firstIdx_lt u
  have hOffset := g.offset_lt hu
  obtain ⟨e, he⟩ := g.noiseRank_isPow
  rw [he] at hFirst hOffset
  rw [secondIdx, rankMask, he, Nat.and_two_pow_sub_one_eq_mod, Nat.mod_eq_of_lt]
  exact Nat.xor_lt_two_pow hFirst hOffset

/-- The two places of a line differ for every draw. -/
theorem firstIdx_ne_secondIdx {u : Nat} (hu : u < 2 ^ 32) : g.firstIdx u ≠ g.secondIdx u := by
  intro hSame
  rw [g.secondIdx_eq hu] at hSame
  have hZero : g.firstIdx u ^^^ (g.firstIdx u ^^^ (1 + mulHiU32 (g.noiseRank - 1) u)) = 0 := by
    rw [← hSame, Nat.xor_self]
  rw [← Nat.xor_assoc, Nat.xor_self, Nat.zero_xor] at hZero
  omega

/-- One `+1`, one `-1`, zeros elsewhere. -/
theorem permLine_apply {u : Nat} (hu : u < 2 ^ 32) (t : Nat) :
    (g.permLine u t).toInt =
      (if t = g.firstIdx u then 1 else 0) - (if t = g.secondIdx u then 1 else 0) := by
  have hNe := g.firstIdx_ne_secondIdx hu
  by_cases hSecond : t = g.secondIdx u
  · have hFirst : t ≠ g.firstIdx u := fun h => hNe (h.symm.trans hSecond)
    rw [permLine, hSecond, Function.update_self, if_pos rfl, if_neg (hSecond ▸ hFirst)]
    decide
  · by_cases hFirst : t = g.firstIdx u
    · rw [permLine, Function.update_of_ne hSecond, hFirst, Function.update_self, if_pos rfl,
        if_neg (hFirst ▸ hSecond)]
      decide
    · rw [permLine, Function.update_of_ne hSecond, Function.update_of_ne hFirst, if_neg hSecond,
        if_neg hFirst]
      decide

section Lines

variable (blake3 : Blake3Package) (seed key : Bytes 32)

/-- The word a line is drawn from: eight lines a digest. -/
def lineWord (line : Nat) : Nat := (wordAt (randomHash blake3 (line / 8) seed key 1) (line % 8)).toNat

theorem lineWord_lt (line : Nat) : lineWord blake3 seed key line < 2 ^ 32 := BitVec.isLt _

/-- Entry `t` of a line, counted along the rank. -/
def lineEntry (assignColumns : Bool) (mat : Mat I8) (line t : Nat) : I8 :=
  if assignColumns then mat t line else mat line t

theorem lineEntry_assignLine (assignColumns : Bool) (mat : Mat I8) (at' line t : Nat)
    (perm : Nat → I8) : lineEntry assignColumns (assignLine assignColumns mat at' perm) line t =
      if line = at' then perm t else lineEntry assignColumns mat line t := by
  cases assignColumns <;> simp [lineEntry, assignLine]

/-- Lines assigned one after the other, each from its own word. -/
theorem lineEntry_foldl_assignLine (assignColumns : Bool) (lines : List Nat) (mat : Mat I8)
    (line t : Nat) :
    lineEntry assignColumns (lines.foldl (fun mat at' => assignLine assignColumns mat at'
        (g.permLine (lineWord blake3 seed key at'))) mat) line t =
      if line ∈ lines then g.permLine (lineWord blake3 seed key line) t
      else lineEntry assignColumns mat line t := by
  induction lines generalizing mat with
  | nil => simp
  | cons at' lines ih =>
      rw [List.foldl_cons, ih, lineEntry_assignLine]
      by_cases hLater : line ∈ lines
      · simp [hLater]
      · by_cases hHere : line = at'
        · subst hHere
          simp
        · simp [hLater, hHere]

/-- The break of the inner loop cuts the range at the bound. -/
theorem takeWhile_range' (start n bound : Nat) :
    (List.range' start n).takeWhile (fun k => decide (k < bound)) =
      List.range' start (min n (bound - start)) := by
  induction n generalizing start with
  | zero => simp
  | succ n ih =>
      rw [List.range'_succ, List.takeWhile_cons]
      by_cases hStart : start < bound
      · have hLength : min (n + 1) (bound - start) = min n (bound - (start + 1)) + 1 := by omega
        rw [if_pos (by simpa using hStart), ih, hLength, List.range'_succ]
      · have hLength : min (n + 1) (bound - start) = 0 := by omega
        rw [if_neg (by simpa using hStart), hLength, List.range'_zero]

/-- The lines assigned by the draws, in the order of the assignments. -/
def assignedLines (requiredLines draws : Nat) : List Nat :=
  (List.range draws).flatMap fun i =>
    ((List.range 8).takeWhile (fun k => i * 8 + k < requiredLines)).map (i * 8 + ·)

/-- Draws it takes to cover the lines, eight a draw. -/
def lineDraws (requiredLines : Nat) : Nat := (requiredLines * 4 + digestSize - 1) / digestSize

/-- After any number of draws the lines assigned are the first ones, each once. -/
theorem assignedLines_eq_range (requiredLines draws : Nat) :
    assignedLines requiredLines draws = List.range (min (draws * 8) requiredLines) := by
  induction draws with
  | zero => simp [assignedLines]
  | succ i ih =>
      have hBelow : (fun k => decide (i * 8 + k < requiredLines)) =
          fun k => decide (k < requiredLines - i * 8) := by
        funext k
        simp only [decide_eq_decide]
        omega
      have hTotal : min ((i + 1) * 8) requiredLines =
          min (i * 8) requiredLines + min 8 (requiredLines - i * 8) := by omega
      rw [assignedLines, List.range_succ (n := i), List.flatMap_append, List.flatMap_singleton, hBelow,
        List.range_eq_range' (n := 8), takeWhile_range', Nat.sub_zero, hTotal,
        List.range_add]
      refine congrArg₂ (· ++ ·) ih ?_
      by_cases hLeft : i * 8 < requiredLines
      · rw [Nat.min_eq_left hLeft.le, List.range_eq_range']
      · have hNone : min 8 (requiredLines - i * 8) = 0 := by omega
        simp [hNone]

/-- The matrix after assigning the given lines, each from its own word. -/
def assignAll (assignColumns : Bool) (lines : List Nat) : Mat I8 :=
  lines.foldl (fun mat line => assignLine assignColumns mat line
    (g.permLine (lineWord blake3 seed key line))) (fun _ _ => 0)

/-- Draw for draw, eight words a digest, is line for line. -/
theorem permutationMatrix_eq_assignAll (requiredLines : Nat) (assignColumns : Bool) :
    g.permutationMatrix blake3 seed key requiredLines assignColumns =
      g.assignAll blake3 seed key assignColumns
        (assignedLines requiredLines (lineDraws requiredLines)) := by
  have hDraw : g.assignDraw blake3 seed key requiredLines assignColumns = fun mat i =>
      (((List.range 8).takeWhile (fun k => i * 8 + k < requiredLines)).map (i * 8 + ·)).foldl
        (fun mat at' => assignLine assignColumns mat at'
          (g.permLine (lineWord blake3 seed key at'))) mat := by
    funext mat i
    rw [assignDraw, List.foldl_map]
    apply List.foldl_ext
    intro mat k hk
    have hk8 : k < 8 := List.mem_range.mp ((List.takeWhile_prefix _).subset hk)
    rw [lineWord, show (i * 8 + k) / 8 = i by omega, show (i * 8 + k) % 8 = k by omega]
  rw [permutationMatrix, hDraw, ← List.foldl_flatMap]
  rfl

/-- The draws of the generator assign every required line exactly once. -/
theorem assignedLines_draws (requiredLines : Nat) :
    assignedLines requiredLines (lineDraws requiredLines) = List.range requiredLines := by
  have hCover : min (lineDraws requiredLines * 8) requiredLines = requiredLines := by
    simp only [lineDraws, digestSize]
    omega
  rw [assignedLines_eq_range, hCover]

/-- Every line below the bound is assigned from its own word. -/
theorem permutationMatrix_line (requiredLines : Nat) (assignColumns : Bool) {line : Nat}
    (hLine : line < requiredLines) (t : Nat) :
    lineEntry assignColumns (g.permutationMatrix blake3 seed key requiredLines assignColumns) line t =
      g.permLine (lineWord blake3 seed key line) t := by
  rw [permutationMatrix_eq_assignAll, assignedLines_draws, assignAll, lineEntry_foldl_assignLine,
    if_pos (List.mem_range.mpr hLine)]

/-- A row times a permutation line is the difference of two of its entries. -/
theorem accumulate_permLine {u : Nat} (hu : u < 2 ^ 32) (row : Nat → Int) :
    accumulate g.noiseRank (fun t => row t * (g.permLine u t).toInt) =
      row (g.firstIdx u) - row (g.secondIdx u) := by
  rw [accumulate_eq_sum]
  simp only [g.permLine_apply hu, mul_sub, Finset.sum_sub_distrib, mul_ite, mul_one, mul_zero,
    Finset.sum_ite_eq', Finset.mem_range, g.firstIdx_lt, g.secondIdx_lt, if_true]

end Lines

end NoiseGenerator

end Reference
