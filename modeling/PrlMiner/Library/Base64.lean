import PrlMiner.Library.Python

/-! `base64.b64encode`, and `base64.b64decode` without validation. -/
namespace Python.Base64

open LittleEndian

/-- The character of six bits. -/
def char (x : Nat) : CodePoint :=
  if x < 26 then Fin.ofNat _ (65 + x)
  else if x < 52 then Fin.ofNat _ (71 + x)
  else if x < 62 then Fin.ofNat _ (x - 4)
  else if x = 62 then 43
  else 47

/-- The six bits of a character of the alphabet. -/
def sextet (c : CodePoint) : Option Nat :=
  if 65 ≤ c ∧ c ≤ 90 then some (c - 65)
  else if 97 ≤ c ∧ c ≤ 122 then some (c - 71)
  else if 48 ≤ c ∧ c ≤ 57 then some (c + 4)
  else if c = 43 then some 62
  else if c = 47 then some 63
  else none

def pad : CodePoint := 61

def encode : List Byte → Text
  | [] => []
  | [a] => [char (a.toNat / 4), char (a.toNat % 4 * 16), pad, pad]
  | [a, b] => [char (a.toNat / 4), char (a.toNat % 4 * 16 + b.toNat / 16), char (b.toNat % 16 * 4), pad]
  | a :: b :: c :: rest =>
      char (a.toNat / 4) :: char (a.toNat % 4 * 16 + b.toNat / 16) :: char (b.toNat % 16 * 4 + c.toNat / 64) ::
        char (c.toNat % 64) :: encode rest

/-- How `binascii.a2b_base64` ends: `size` bytes are decoded, and `place` characters of
the last group are read. -/
def atEnd (size place : Nat) : Except String (List Byte) :=
  if place = 0 then .ok []
  else if place = 1 then .error (s!"Invalid base64-encoded string: number of data characters ({size / 3 * 4 + 1}) " ++
    "cannot be 1 more than a multiple of 4")
  else .error "Incorrect padding"

/-- `binascii.a2b_base64`: characters beside the alphabet are skipped. `left` are the
bits that are left from the characters of the group. -/
def decodeFrom (size place left pads : Nat) : Text → Except String (List Byte)
  | [] => atEnd size place
  | c :: rest =>
      if c = pad then
        if place < 2 then decodeFrom size place left pads rest
        else if 4 ≤ place + (pads + 1) then .ok []
        else decodeFrom size place left (pads + 1) rest
      else
        match sextet c with
        | none => decodeFrom size place left pads rest
        | some x =>
            match place with
            | 0 => decodeFrom size 1 x 0 rest
            | 1 => (decodeFrom (size + 1) 2 (x % 16) 0 rest).map (BitVec.ofNat 8 (left * 4 + x / 16) :: ·)
            | 2 => (decodeFrom (size + 1) 3 (x % 4) 0 rest).map (BitVec.ofNat 8 (left * 16 + x / 4) :: ·)
            | _ => (decodeFrom (size + 1) 0 0 0 rest).map (BitVec.ofNat 8 (left * 64 + x) :: ·)

/-- `base64.b64decode` of a string. -/
def decode (s : Text) : Except String (List Byte) :=
  if s.any (128 ≤ ·) then .error "string argument should contain only ASCII characters"
  else decodeFrom 0 0 0 0 s

/-- The alphabet is read back: the character that six bits are written as stands for these
six bits again. -/
theorem sextet_char {x : Nat} (h : x < 64) : sextet (char x) = some x := by
  revert x
  decide

/-- No six bits are written as the padding, so that a decoder never takes a character of
the data for it. -/
theorem char_ne_pad {x : Nat} (h : x < 64) : char x ≠ pad := by
  revert x
  decide

/-- A character of the alphabet is printable, and neither of the two that a string literal
has to escape, the quotation mark and the backslash. -/
theorem char_plain {x : Nat} (h : x < 64) : 32 ≤ char x ∧ char x ≤ 126 ∧ char x ≠ 34 ∧ char x ≠ 92 := by
  revert x
  decide

section Steps

variable {size left pads x : Nat} {rest : Text}

/-- The first character of a group of four. Its six bits are left over for the next
character, and no byte is complete. -/
theorem decodeFrom_char₀ (h : x < 64) : decodeFrom size 0 left pads (char x :: rest) = decodeFrom size 1 x 0 rest := by
  rw [decodeFrom, if_neg (char_ne_pad h), sextet_char h]
  rfl

/-- The second character of a group completes a byte with its two high bits, and leaves
its four low bits over. -/
theorem decodeFrom_char₁ (h : x < 64) : decodeFrom size 1 left pads (char x :: rest) =
    (decodeFrom (size + 1) 2 (x % 16) 0 rest).map (BitVec.ofNat 8 (left * 4 + x / 16) :: ·) := by
  rw [decodeFrom, if_neg (char_ne_pad h), sextet_char h]
  rfl

/-- The third character completes a byte with its four high bits, and leaves its two low
bits over. -/
theorem decodeFrom_char₂ (h : x < 64) : decodeFrom size 2 left pads (char x :: rest) =
    (decodeFrom (size + 1) 3 (x % 4) 0 rest).map (BitVec.ofNat 8 (left * 16 + x / 4) :: ·) := by
  rw [decodeFrom, if_neg (char_ne_pad h), sextet_char h]
  rfl

/-- The last character of a group completes a byte with all its bits. Nothing is left
over, as before the group. -/
theorem decodeFrom_char₃ (h : x < 64) : decodeFrom size 3 left pads (char x :: rest) =
    (decodeFrom (size + 1) 0 0 0 rest).map (BitVec.ofNat 8 (left * 64 + x) :: ·) := by
  rw [decodeFrom, if_neg (char_ne_pad h), sextet_char h]
  rfl

end Steps

theorem ofNat_toNat (a : Byte) {x : Nat} (h : x = a.toNat) : BitVec.ofNat 8 x = a := by
  rw [h, BitVec.ofNat_toNat, BitVec.setWidth_eq]

/-- The decoder takes an encoding apart as it was put together, three bytes to a group,
and checks the padding of the last group whatever number of characters it has counted. -/
theorem decodeFrom_encode (size : Nat) (bytes : List Byte) : decodeFrom size 0 0 0 (encode bytes) = .ok bytes := by
  induction bytes using encode.induct generalizing size with
  | case1 => rfl
  | case2 a =>
      have hA := a.isLt
      rw [encode, decodeFrom_char₀ (by omega), decodeFrom_char₁ (by omega), ofNat_toNat a (by omega)]
      rfl
  | case3 a b =>
      have hA := a.isLt
      have hB := b.isLt
      rw [encode, decodeFrom_char₀ (by omega), decodeFrom_char₁ (by omega), decodeFrom_char₂ (by omega),
        ofNat_toNat a (by omega), ofNat_toNat b (by omega)]
      rfl
  | case4 a b c rest ih =>
      have hA := a.isLt
      have hB := b.isLt
      have hC := c.isLt
      rw [encode, decodeFrom_char₀ (by omega), decodeFrom_char₁ (by omega), decodeFrom_char₂ (by omega),
        decodeFrom_char₃ (by omega), ih, ofNat_toNat a (by omega), ofNat_toNat b (by omega), ofNat_toNat c (by omega)]
      rfl

/-- An encoding is made of characters of the alphabet and of the padding. None of them is
escaped in a string literal. -/
theorem mem_encode {c : CodePoint} {bytes : List Byte} (h : c ∈ encode bytes) :
    32 ≤ c ∧ c ≤ 126 ∧ c ≠ 34 ∧ c ≠ 92 := by
  have hPad : 32 ≤ pad ∧ pad ≤ 126 ∧ pad ≠ 34 ∧ pad ≠ 92 := by decide
  induction bytes using encode.induct with
  | case1 => cases h
  | case2 a =>
      have hA := a.isLt
      simp only [encode, List.mem_cons, List.not_mem_nil, or_false] at h
      rcases h with rfl | rfl | rfl | rfl
      · exact char_plain (by omega)
      · exact char_plain (by omega)
      · exact hPad
      · exact hPad
  | case3 a b =>
      have hA := a.isLt
      have hB := b.isLt
      simp only [encode, List.mem_cons, List.not_mem_nil, or_false] at h
      rcases h with rfl | rfl | rfl | rfl
      · exact char_plain (by omega)
      · exact char_plain (by omega)
      · exact char_plain (by omega)
      · exact hPad
  | case4 a b c' rest ih =>
      have hA := a.isLt
      have hB := b.isLt
      have hC := c'.isLt
      simp only [encode, List.mem_cons] at h
      rcases h with rfl | rfl | rfl | rfl | h
      · exact char_plain (by omega)
      · exact char_plain (by omega)
      · exact char_plain (by omega)
      · exact char_plain (by omega)
      · exact ih h

/-- Every sequence of bytes is read back from its encoding. -/
theorem decode_encode (bytes : List Byte) : decode (encode bytes) = .ok bytes := by
  rw [decode, if_neg, decodeFrom_encode]
  simp only [List.any_eq_true, decide_eq_true_eq, not_exists, not_and, not_le]
  exact fun c hMem => lt_of_le_of_lt (mem_encode hMem).2.1 (by decide)

end Python.Base64
