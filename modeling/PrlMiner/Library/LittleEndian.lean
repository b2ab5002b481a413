import PrlMiner.Library.FixedWidth

/-! Little-endian words and numbers. A word is four bytes, a number is a
sequence of digits with the least significant first. -/
namespace LittleEndian

open FixedWidth Reduction

abbrev Byte := BitVec 8

/-- A byte string of known length. -/
abbrev Bytes (n : Nat) := Fin n → Byte

/-- The bytes of a string, padded with zeros past its end. -/
def byteAt {n : Nat} (b : Bytes n) (i : Nat) : Byte := if h : i < n then b ⟨i, h⟩ else 0

theorem byteAt_of_lt {n : Nat} (b : Bytes n) {i : Nat} (h : i < n) : byteAt b i = b ⟨i, h⟩ := by
  rw [byteAt, dif_pos h]

/-- Four bytes as one 32-bit word, the first byte lowest. -/
def leWord (b : Nat → Byte) : U32 :=
  (b 0).setWidth 32 ||| (b 1).setWidth 32 <<< 8 ||| (b 2).setWidth 32 <<< 16 |||
    (b 3).setWidth 32 <<< 24

/-- Byte `i` of a word, counted from the low end. -/
def wordByte (w : U32) (i : Nat) : Byte := (w >>> (8 * i)).setWidth 8

/-- A word is decided by its four bytes. -/
theorem leWord_congr {b c : Nat → Byte} (h : ∀ i < 4, b i = c i) : leWord b = leWord c := by
  simp only [leWord, h 0 (by omega), h 1 (by omega), h 2 (by omega), h 3 (by omega)]

/-- A bit of a word is a bit of one of its bytes, the lowest byte first. -/
theorem getLsbD_leWord (b : Nat → Byte) (i : Nat) (hi : i < 32) :
    (leWord b).getLsbD i = (b (i / 8)).getLsbD (i % 8) := by
  have hBlock : i / 8 = 0 ∨ i / 8 = 1 ∨ i / 8 = 2 ∨ i / 8 = 3 := by omega
  simp only [leWord, BitVec.getLsbD_or, BitVec.getLsbD_shiftLeft, BitVec.getLsbD_setWidth]
  have hOut (k j : Nat) (hj : 8 ≤ j) : (b k).getLsbD j = false := BitVec.getLsbD_of_ge _ _ hj
  rcases hBlock with h | h | h | h <;> rw [h]
  · have hMod : i % 8 = i := by omega
    simp [hMod, hi, show i < 8 by omega, show i < 16 by omega, show i < 24 by omega]
  · have hMod : i % 8 = i - 8 := by omega
    simp [hMod, hi, hOut 0 i (by omega), show ¬ i < 8 by omega, show i < 16 by omega,
      show i < 24 by omega, show i - 8 < 32 by omega]
  · have hMod : i % 8 = i - 16 := by omega
    simp [hMod, hi, hOut 0 i (by omega), hOut 1 (i - 8) (by omega), show ¬ i < 16 by omega,
      show i < 24 by omega, show i - 16 < 32 by omega]
  · have hMod : i % 8 = i - 24 := by omega
    simp [hMod, hi, hOut 0 i (by omega), hOut 1 (i - 8) (by omega), hOut 2 (i - 16) (by omega),
      show ¬ i < 24 by omega, show i - 24 < 32 by omega]

/-- Loading a word and taking it apart again gives the four bytes back, in their order. -/
theorem wordByte_leWord (b : Nat → Byte) {i : Nat} (hi : i < 4) : wordByte (leWord b) i = b i := by
  apply BitVec.eq_of_getLsbD_eq
  intro j hj
  rw [wordByte, BitVec.getLsbD_setWidth, BitVec.getLsbD_ushiftRight,
    getLsbD_leWord b (8 * i + j) (by omega)]
  simp [hj, show (8 * i + j) / 8 = i by omega, show (8 * i + j) % 8 = j by omega]

/-- A word that is taken apart and loaded again is the same word. -/
theorem leWord_wordByte (w : U32) : leWord (wordByte w) = w := by
  apply BitVec.eq_of_getLsbD_eq
  intro j hj
  rw [getLsbD_leWord _ j hj, wordByte, BitVec.getLsbD_setWidth, BitVec.getLsbD_ushiftRight]
  simp [Nat.mod_lt j (show 8 > 0 by decide), Nat.div_add_mod j 8]

/-- The number whose `n` digits in base `2 ^ w` are given, lowest first. -/
def ofDigits {w : Nat} : Nat → (Nat → BitVec w) → Nat
  | 0, _ => 0
  | n + 1, d => ofDigits n d + (d n).toNat * 2 ^ (w * n)

/-- A number of so many digits is below the power of their base. It does not overflow
where its digits do not. -/
theorem ofDigits_lt {w : Nat} (n : Nat) (d : Nat → BitVec w) : ofDigits n d < 2 ^ (w * n) := by
  induction n with
  | zero => simp [ofDigits]
  | succ n ih =>
      have hDigit : (d n).toNat + 1 ≤ 2 ^ w := (d n).isLt
      calc ofDigits n d + (d n).toNat * 2 ^ (w * n)
          < 2 ^ (w * n) + (d n).toNat * 2 ^ (w * n) := by omega
        _ = ((d n).toNat + 1) * 2 ^ (w * n) := by ring
        _ ≤ 2 ^ w * 2 ^ (w * n) := Nat.mul_le_mul_right _ hDigit
        _ = 2 ^ (w * (n + 1)) := by ring

/-- A number is decided by its digits. Those beyond the last one are not read. -/
theorem ofDigits_congr {w n : Nat} {d e : Nat → BitVec w} (h : ∀ i < n, d i = e i) :
    ofDigits n d = ofDigits n e := by
  induction n with
  | zero => rfl
  | succ n ih => rw [ofDigits, ofDigits, ih (fun i hi => h i (by omega)), h n (by omega)]

/-- Comparing the top digit first decides the numeric order: the other digits count only
where the top ones are equal. -/
theorem ofDigits_succ_le_iff {w : Nat} (n : Nat) (d e : Nat → BitVec w) :
    ofDigits (n + 1) d ≤ ofDigits (n + 1) e ↔
      d n < e n ∨ (d n = e n ∧ ofDigits n d ≤ ofDigits n e) := by
  have hd := ofDigits_lt n d
  have he := ofDigits_lt n e
  simp only [ofDigits]
  rcases Nat.lt_trichotomy (d n).toNat (e n).toNat with h | h | h
  · have hGap : ((d n).toNat + 1) * 2 ^ (w * n) ≤ (e n).toNat * 2 ^ (w * n) :=
      Nat.mul_le_mul_right _ h
    have hLt : d n < e n := h
    rw [Nat.add_mul] at hGap
    exact iff_of_true (by omega) (Or.inl hLt)
  · have hEq : d n = e n := BitVec.eq_of_toNat_eq h
    simp [hEq]
  · have hGap : ((e n).toNat + 1) * 2 ^ (w * n) ≤ (d n).toNat * 2 ^ (w * n) :=
      Nat.mul_le_mul_right _ h
    have hNotLt : ¬ d n < e n := by simpa [BitVec.lt_def] using h.le
    have hNe : d n ≠ e n := fun hEq => by simp [hEq] at h
    rw [Nat.add_mul] at hGap
    exact iff_of_false (by omega) (by simp [hNotLt, hNe])

/-- The value of a word is that of its bytes as digits in base 256. -/
theorem toNat_leWord (b : Nat → Byte) : (leWord b).toNat =
    (b 0).toNat + (b 1).toNat * 2 ^ 8 + (b 2).toNat * 2 ^ 16 + (b 3).toNat * 2 ^ 24 := by
  have h0 := (b 0).isLt
  have h1 := (b 1).isLt
  have h2 := (b 2).isLt
  have h3 := (b 3).isLt
  have hOr (x y k : Nat) (hx : x < 2 ^ k) : x ||| y <<< k = x + y * 2 ^ k := by
    rw [Nat.or_comm, ← Nat.shiftLeft_add_eq_or_of_lt hx, Nat.shiftLeft_eq, Nat.add_comm]
  have hShift (x k : Nat) (hx : x < 2 ^ 8) (hk : k ≤ 24) : x <<< k % 2 ^ 32 = x <<< k := by
    have hLe : 2 ^ k ≤ 2 ^ 24 := Nat.pow_le_pow_right (by decide) hk
    exact Nat.mod_eq_of_lt (by rw [Nat.shiftLeft_eq]; nlinarith)
  simp only [leWord, BitVec.toNat_or, BitVec.toNat_shiftLeft, BitVec.toNat_setWidth]
  rw [Nat.mod_eq_of_lt (show (b 0).toNat < 2 ^ 32 by omega),
    Nat.mod_eq_of_lt (show (b 1).toNat < 2 ^ 32 by omega),
    Nat.mod_eq_of_lt (show (b 2).toNat < 2 ^ 32 by omega),
    Nat.mod_eq_of_lt (show (b 3).toNat < 2 ^ 32 by omega),
    hShift _ 8 h1 (by omega), hShift _ 16 h2 (by omega), hShift _ 24 h3 (by omega),
    hOr _ _ 8 h0, hOr _ _ 16 (by omega), hOr _ _ 24 (by omega)]

/-- Four base-256 digits at a time are the digits in base `2 ^ 32`, so that words can be
compared in place of bytes. -/
theorem ofDigits_leWord (n : Nat) (b : Nat → Byte) :
    ofDigits n (fun i => leWord (fun x => b (4 * i + x))) = ofDigits (4 * n) b := by
  induction n with
  | zero => rfl
  | succ n ih =>
      have hPow (c : Nat) : 2 ^ (8 * (4 * n + c)) = 2 ^ (8 * c) * 2 ^ (32 * n) := by
        rw [← pow_add]
        congr 1
        omega
      have hSplit : ofDigits (4 * n + 4) b = ofDigits (4 * n) b +
          (b (4 * n)).toNat * 2 ^ (8 * (4 * n + 0)) + (b (4 * n + 1)).toNat * 2 ^ (8 * (4 * n + 1)) +
          (b (4 * n + 2)).toNat * 2 ^ (8 * (4 * n + 2)) +
          (b (4 * n + 3)).toNat * 2 ^ (8 * (4 * n + 3)) := rfl
      rw [ofDigits, ih, toNat_leWord, show 4 * (n + 1) = 4 * n + 4 by ring, hSplit, hPow 0, hPow 1,
        hPow 2, hPow 3, Nat.add_zero]
      ring

/-- Word `i` of a byte string. -/
def wordAt {n : Nat} (b : Bytes n) (i : Nat) : U32 := leWord (fun x => byteAt b (4 * i + x))

/-- The byte string that lists the words `w 0, w 1, ...` low byte first. -/
def packWords (n : Nat) (w : Nat → U32) : Bytes n := fun i => wordByte (w (i / 4)) (i % 4)

/-- A word is loaded back from where it was stored, if all its four bytes are. -/
theorem wordAt_packWords {n : Nat} (w : Nat → U32) {i : Nat} (h : 4 * i + 3 < n) :
    wordAt (packWords n w) i = w i := by
  rw [← leWord_wordByte (w i)]
  apply leWord_congr
  intro x hx
  rw [byteAt_of_lt _ (by omega)]
  simp only [packWords, show (4 * i + x) / 4 = i by omega, show (4 * i + x) % 4 = x by omega]

/-- The words of a buffer, stored again, are the buffer. Its length need not be a multiple
of four. -/
theorem packWords_wordAt {n : Nat} (b : Bytes n) : packWords n (wordAt b) = b := by
  funext i
  rw [packWords, wordAt, wordByte_leWord _ (Nat.mod_lt _ (by decide)), Nat.div_add_mod, byteAt_of_lt b i.isLt]

/-- Only the words that begin in the buffer are stored. -/
theorem packWords_congr {n : Nat} {w u : Nat → U32} (h : ∀ i, 4 * i < n → w i = u i) :
    packWords n w = packWords n u := by
  funext i
  simp only [packWords, h (i / 4) (by omega)]

/-- The little-endian number a byte string stands for. -/
def fromBytes {n : Nat} (b : Bytes n) : Nat := ofDigits n (byteAt b)

/-- A number that is read byte by byte is the one that is read word by word. -/
theorem fromBytes_eq_ofDigits_wordAt (k : Nat) (b : Bytes (4 * k)) :
    fromBytes b = ofDigits k (wordAt b) := (ofDigits_leWord k (byteAt b)).symm

/-- The number that words are stored as has these words as its digits. -/
theorem fromBytes_packWords (k : Nat) (w : Nat → U32) :
    fromBytes (packWords (4 * k) w) = ofDigits k w := by
  rw [fromBytes_eq_ofDigits_wordAt]
  exact ofDigits_congr (fun i hi => wordAt_packWords w (by omega))

/-- The `n` low bytes of a number. -/
def toBytes (n x : Nat) : Bytes n := fun i => BitVec.ofNat 8 (x / 2 ^ (8 * i.val))

/-- The digits of a number in base 256, put together again, are the number modulo what so
many digits can hold. -/
theorem ofDigits_ofNat (n x : Nat) :
    ofDigits n (fun i => BitVec.ofNat 8 (x / 2 ^ (8 * i))) = x % 2 ^ (8 * n) := by
  induction n with
  | zero => simp [ofDigits, Nat.mod_one]
  | succ n ih =>
      rw [ofDigits, ih, BitVec.toNat_ofNat, Nat.mul_succ, Nat.pow_add, Nat.mod_mul,
        Nat.mul_comm (x / 2 ^ (8 * n) % 2 ^ 8)]

/-- A number that fits in the bytes is read back from them. One that does not loses its
high digits, which the bound excludes. -/
theorem fromBytes_toBytes {n x : Nat} (h : x < 2 ^ (8 * n)) : fromBytes (toBytes n x) = x := by
  rw [fromBytes, ← Nat.mod_eq_of_lt h, ← ofDigits_ofNat n x]
  apply ofDigits_congr
  intro i hi
  rw [byteAt_of_lt _ hi, toBytes, ofDigits_ofNat, Nat.mod_eq_of_lt h]

end LittleEndian
