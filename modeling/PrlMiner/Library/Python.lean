import Mathlib.Data.List.DropRight
import Mathlib.Data.Rat.Defs
import PrlMiner.Library.LittleEndian

/-! The values of `json.loads`, and built-in functions of Python on them. -/
namespace Python

open LittleEndian

/-- Lone surrogates included. -/
abbrev CodePoint := Fin 0x110000

instance codePoint_neZero : NeZero 0x110000 := ⟨by decide⟩

abbrev Text := List CodePoint

/-- The text of a string literal. -/
def text (s : String) : Text := s.toList.map fun c => Fin.ofNat _ c.toNat

inductive PyFloat where
  | nan
  | infinity
  | negativeInfinity
  | negativeZero
  | finite (value : ℚ)
  deriving DecidableEq

/-- An object is the fields of a `dict` in their order. -/
inductive Json where
  | null
  | bool (b : Bool)
  | int (i : Int)
  | float (f : PyFloat)
  | str (s : Text)
  | arr (items : List Json)
  | obj (fields : List (Text × Json))

/-- Tables behind the built-in functions: how floats print, and which code points
beyond ASCII are white space and decimal digits. -/
structure Tables where
  floatRepr : PyFloat → Text
  isSpace : CodePoint → Bool
  decimal : CodePoint → Option (Fin 10)

namespace Json

/-- The value of a number, where it has a finite one. -/
def number? : Json → Option ℚ
  | .bool b => some (if b then 1 else 0)
  | .int i => some i
  | .float (.finite value) => some value
  | .float .negativeZero => some 0
  | _ => none

mutual

/-- Equality of the values in a container. It takes an object for equal to itself,
and `json.loads` has one NaN. -/
def same : Json → Json → Bool
  | .null, .null => true
  | .float .nan, .float .nan => true
  | .float .infinity, .float .infinity => true
  | .float .negativeInfinity, .float .negativeInfinity => true
  | .str s, .str t => decide (s = t)
  | .arr items, .arr items' => sameItems items items'
  | .obj fields, .obj fields' => fields.length == fields'.length && sameFields fields fields'
  | v, w => v.number?.isSome && v.number? == w.number?

def sameItems : List Json → List Json → Bool
  | [], [] => true
  | v :: items, w :: items' => same v w && sameItems items items'
  | _, _ => false

def sameFields : List (Text × Json) → List (Text × Json) → Bool
  | [], _ => true
  | (key, v) :: fields, fields' =>
      fields'.any (fun field => key = field.1 && same v field.2) && sameFields fields fields'

end

def isNaN : Json → Bool
  | .float .nan => true
  | _ => false

/-- The operator `==`. -/
def eq (v w : Json) : Bool := !v.isNaN && same v w

mutual

theorem same_self : (v : Json) → same v v = true
  | .null | .float .nan | .float .infinity | .float .negativeInfinity => rfl
  | .str s => decide_eq_true rfl
  | .bool b => by simp [same, number?]
  | .int i => by simp [same, number?]
  | .float .negativeZero => by simp [same, number?]
  | .float (.finite value) => by simp [same, number?]
  | .arr items => sameItems_self items
  | .obj fields => by simp [same, sameFields_self fields fields (fun _ h => h)]

theorem sameItems_self : (items : List Json) → sameItems items items = true
  | [] => rfl
  | v :: items => by rw [sameItems, same_self v, sameItems_self items]; rfl

theorem sameFields_self : (fields fields' : List (Text × Json)) → fields ⊆ fields' →
    sameFields fields fields' = true
  | [], _, _ => rfl
  | (key, v) :: fields, fields', h => by
      have hField : (key, v) ∈ fields' := h List.mem_cons_self
      rw [sameFields, sameFields_self fields fields' (List.subset_of_cons_subset h), Bool.and_true,
        List.any_eq_true]
      exact ⟨(key, v), hField, by simp [same_self v]⟩

end

/-- Only a NaN differs from itself. It does so at the top alone: in a list or an object it
equals itself, as the same object does. -/
theorem eq_self (v : Json) : v.eq v = !v.isNaN := by
  rw [eq, same_self, Bool.and_true]

/-- `bool(v)`. -/
def truthy : Json → Bool
  | .null => false
  | .bool b => b
  | .int i => decide (i ≠ 0)
  | .float .negativeZero => false
  | .float (.finite value) => decide (value ≠ 0)
  | .float _ => true
  | .str s => !s.isEmpty
  | .arr items => !items.isEmpty
  | .obj fields => !fields.isEmpty

/-- At most one integer equals a value, although a float and a Boolean can equal an
integer. -/
theorem eq_int_inj {v : Json} {i j : Int} (hi : v.eq (.int i) = true) (hj : v.eq (.int j) = true) :
    i = j := by
  have hNumber (k : Int) (hk : v.eq (.int k) = true) : v.number? = some (k : ℚ) := by
    rw [Json.eq, Bool.and_eq_true] at hk
    cases v with
    | float f => cases f <;> simp_all [Json.same, Json.number?]
    | _ => simp_all [Json.same, Json.number?]
  have hSame := (hNumber i hi).symm.trans (hNumber j hj)
  exact_mod_cast Option.some.inj hSame

/-- `key in v`, none where `v` is no container. -/
def contains (key : Text) : Json → Option Bool
  | .obj fields => some (fields.any (key = ·.1))
  | .arr items => some (items.any (eq · (.str key)))
  | .str s => some (s.tails.any (key.isPrefixOf ·))
  | _ => none

end Json

/-- The fields of a `dict`. -/
abbrev Fields := List (Text × Json)

/-- `fields[key]`, none for a `KeyError`. -/
def Fields.item (fields : Fields) (key : Text) : Option Json := fields.lookup key

/-- `fields.get(key, default)`. -/
def Fields.get (fields : Fields) (key : Text) (default : Json) : Json :=
  (Fields.item fields key).getD default

/-! `json.dumps` -/

def hexChar (x : Nat) : CodePoint := if x < 10 then Fin.ofNat _ (48 + x) else Fin.ofNat _ (87 + x)

/-- `\uXXXX`. -/
def unicodeEscape (x : Nat) : Text :=
  text "\\u" ++ [12, 8, 4, 0].map fun shift => hexChar (x >>> shift % 16)

/-- A code point in a string, in ASCII. -/
def escape (c : CodePoint) : Text :=
  match c.val with
  | 34 => text "\\\""
  | 92 => text "\\\\"
  | 10 => text "\\n"
  | 13 => text "\\r"
  | 9 => text "\\t"
  | 12 => text "\\f"
  | 8 => text "\\b"
  | x =>
      if 32 ≤ x ∧ x ≤ 126 then [c]
      else if x < 0x10000 then unicodeEscape x
      else unicodeEscape (0xd800 + (x - 0x10000) / 0x400) ++ unicodeEscape (0xdc00 + x % 0x400)

def dumpsText (s : Text) : Text := 34 :: s.flatMap escape ++ [34]

def dumpsInt : Int → Text
  | .ofNat n => (Nat.toDigits 10 n).map fun c => Fin.ofNat _ c.toNat
  | .negSucc n => 45 :: (Nat.toDigits 10 (n + 1)).map fun c => Fin.ofNat _ c.toNat

section

variable (tables : Tables)

mutual

def dumps : Json → Text
  | .null => text "null"
  | .bool b => if b then text "true" else text "false"
  | .int i => dumpsInt i
  | .float f => tables.floatRepr f
  | .str s => dumpsText s
  | .arr items => text "[" ++ dumpsItems items ++ text "]"
  | .obj fields => text "\x7b" ++ dumpsFields fields ++ text "\x7d"

def dumpsItems : List Json → Text
  | [] => []
  | [v] => dumps v
  | v :: items => dumps v ++ text ", " ++ dumpsItems items

def dumpsFields : List (Text × Json) → Text
  | [] => []
  | [(key, v)] => dumpsText key ++ text ": " ++ dumps v
  | (key, v) :: fields => dumpsText key ++ text ": " ++ dumps v ++ text ", " ++ dumpsFields fields

end

end

/-- `s.lower()` of an ASCII string. -/
def lower (s : Text) : Text := s.map fun c => if 65 ≤ c ∧ c ≤ 90 then c + 32 else c

/-- `needle in s`. -/
def isInfix (needle s : Text) : Bool := s.tails.any (needle.isPrefixOf ·)

/-! Numbers and bytes of strings -/

def isAsciiSpace (c : CodePoint) : Bool := 9 ≤ c && c ≤ 13 || c = 32

def hexDigit (c : CodePoint) : Option Nat :=
  if 48 ≤ c ∧ c ≤ 57 then some (c - 48)
  else if 97 ≤ c ∧ c ≤ 102 then some (c - 87)
  else if 65 ≤ c ∧ c ≤ 70 then some (c - 55)
  else none

/-- `bytes.fromhex`. -/
def fromHex : Text → Option (List Byte)
  | [] => some []
  | [c] => if isAsciiSpace c then some [] else none
  | c :: d :: rest =>
      if isAsciiSpace c then fromHex (d :: rest)
      else do
        let top ← hexDigit c
        let bottom ← hexDigit d
        let bytes ← fromHex rest
        some (BitVec.ofNat 8 (16 * top + bottom) :: bytes)

/-- White space and decimal digits as ASCII ones. -/
def Tables.toAscii (tables : Tables) (c : CodePoint) : CodePoint :=
  if c < 127 then c
  else if tables.isSpace c then 32
  else match tables.decimal c with
    | some d => Fin.ofNat _ (48 + d)
    | none => c

/-- What follows a digit: digits, with single underscores between, and white space. -/
def hexTail (value : Nat) : Text → Option Nat
  | [] => some value
  | [c] =>
      match hexDigit c with
      | some x => some (16 * value + x)
      | none => if isAsciiSpace c then some value else none
  | c :: d :: rest =>
      match hexDigit c with
      | some x => hexTail (16 * value + x) (d :: rest)
      | none =>
          if c = 95 then
            match hexDigit d with
            | some x => hexTail (16 * value + x) rest
            | none => none
          else if (c :: d :: rest).all isAsciiSpace then some value else none

def hexNumber : Text → Option Nat
  | [] => none
  | c :: rest => (hexDigit c).bind (hexTail · rest)

/-- Past a prefix `0x` and the underscore allowed there. -/
def dropHexPrefix : Text → Text
  | 48 :: x :: rest =>
      if x = 120 ∨ x = 88 then
        match rest with
        | 95 :: rest => rest
        | rest => rest
      else 48 :: x :: rest
  | s => s

/-- `int(s, 16)`. -/
def intBase16 (tables : Tables) (s : Text) : Option Int :=
  match (s.map tables.toAscii).dropWhile isAsciiSpace with
  | 43 :: rest => (hexNumber (dropHexPrefix rest)).map Int.ofNat
  | 45 :: rest => (hexNumber (dropHexPrefix rest)).map (- Int.ofNat ·)
  | rest => (hexNumber (dropHexPrefix rest)).map Int.ofNat

/-- `x.to_bytes(size, "little")`, or the text of its `OverflowError`. -/
def toBytesLittle (size : Nat) (x : Int) : Except String (List Byte) :=
  if x < 0 then .error "can't convert negative int to unsigned"
  else if x.toNat < 256 ^ size then
    .ok ((List.range size).map fun i => BitVec.ofNat 8 (x.toNat / 256 ^ i))
  else .error "int too big to convert"

/-- `int(v)` of a value other than a string. -/
def Json.toInt : Json → Option Int
  | .bool b => some (if b then 1 else 0)
  | .int i => some i
  | .float (.finite value) => some (value.num.tdiv value.den)
  | .float .negativeZero => some 0
  | _ => none

/-! `bytes` -/

def isSpaceByte (b : Byte) : Bool := 9 ≤ b && b ≤ 13 || b = 32

/-- `bytes.strip`. -/
def strip (bytes : List Byte) : List Byte := (bytes.dropWhile isSpaceByte).rdropWhile isSpaceByte

/-- A character under way: how many bytes it still needs, the range of the next one,
and the number so far. -/
structure Partial where
  owed : Nat
  low : Nat
  high : Nat
  number : Nat

/-- The first byte of a character, where it is one. -/
def leadByte (b : Nat) : Option Partial :=
  if b < 0x80 then some ⟨0, 0x80, 0xbf, b⟩
  else if 0xc2 ≤ b ∧ b ≤ 0xdf then some ⟨1, 0x80, 0xbf, b - 0xc0⟩
  else if b = 0xe0 then some ⟨2, 0xa0, 0xbf, 0⟩
  else if b = 0xed then some ⟨2, 0x80, 0x9f, 13⟩
  else if 0xe1 ≤ b ∧ b ≤ 0xef then some ⟨2, 0x80, 0xbf, b - 0xe0⟩
  else if b = 0xf0 then some ⟨3, 0x90, 0xbf, 0⟩
  else if 0xf1 ≤ b ∧ b ≤ 0xf3 then some ⟨3, 0x80, 0xbf, b - 0xf0⟩
  else if b = 0xf4 then some ⟨3, 0x80, 0x8f, 4⟩
  else none

/-- The characters of UTF-8, none where the bytes since the last one begin no character. -/
def utf8 (before : Option Partial) : List Byte → List (Option CodePoint)
  | [] => if before.isSome then [none] else []
  | b :: bytes =>
      let start := match leadByte b.toNat with
        | none => none :: utf8 none bytes
        | some c => if c.owed = 0 then some (Fin.ofNat _ c.number) :: utf8 none bytes else utf8 (some c) bytes
      match before with
      | none => start
      | some c =>
          if c.low ≤ b.toNat ∧ b.toNat ≤ c.high then
            let number := 64 * c.number + b.toNat % 64
            if c.owed = 1 then some (Fin.ofNat _ number) :: utf8 none bytes
            else utf8 (some ⟨c.owed - 1, 0x80, 0xbf, number⟩) bytes
          -- the byte that does not fit is looked at again
          else none :: start

/-- `bytes.decode()`, none for a `UnicodeDecodeError`. -/
def decode (bytes : List Byte) : Option Text := (utf8 none bytes).mapM fun c => c

/-- `bytes.decode(errors="replace")`. -/
def decodeReplace (bytes : List Byte) : Text := (utf8 none bytes).map fun c => c.getD 0xfffd

/-- A list all of whose elements have a value is the list of these values, and needs no
default. -/
theorem getD_of_mapM {α : Type} {default : α} {xs : List (Option α)} {ys : List α}
    (h : (xs.mapM fun x => x) = some ys) : xs.map (fun x => x.getD default) = ys := by
  induction xs generalizing ys with
  | nil => exact Option.some.inj h
  | cons x xs ih =>
      rw [List.mapM_cons] at h
      obtain ⟨y, hHead, h⟩ := Option.bind_eq_some_iff.mp h
      obtain ⟨rest, hTail, h⟩ := Option.bind_eq_some_iff.mp h
      cases h
      rw [List.map_cons, ih hTail, show x = some y from hHead]
      rfl

/-- Nothing is replaced in bytes that are UTF-8, so that both ways of decoding give the
same text. -/
theorem decodeReplace_of_decode {bytes : List Byte} {t : Text} (h : decode bytes = some t) :
    decodeReplace bytes = t := getD_of_mapM h

end Python
