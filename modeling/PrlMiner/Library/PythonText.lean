import PrlMiner.Library.Python
import PrlMiner.Library.Regex

/-! Patterns of `re` that ignore case, and numbers in texts. -/
namespace Python

open Regexes

/-- Letters and digits, and white space, beyond ASCII. -/
structure Unicode where
  isAlnum : CodePoint → Bool
  isSpace : CodePoint → Bool

/-- `\w` -/
def Unicode.isWordChar (unicode : Unicode) (c : CodePoint) : Bool :=
  if c < 128 then 48 ≤ c && c ≤ 57 || 65 ≤ c && c ≤ 90 || c = 95 || 97 ≤ c && c ≤ 122
  else unicode.isAlnum c

/-- `\s` -/
def Unicode.isSpaceChar (unicode : Unicode) (c : CodePoint) : Bool :=
  if c < 128 then 9 ≤ c && c ≤ 13 || 28 ≤ c && c ≤ 32 else unicode.isSpace c

/-- In lower case, with the four letters beyond ASCII that match an ASCII one. -/
def foldLetter (c : CodePoint) : CodePoint :=
  if 65 ≤ c ∧ c ≤ 90 then c + 32
  else if c = 0x130 ∨ c = 0x131 then 105
  else if c = 0x17f then 115
  else if c = 0x212a then 107
  else c

/-- Whether `c` matches an ASCII character of a pattern. -/
def sameLetter (letter c : CodePoint) : Bool := foldLetter letter = foldLetter c

def isDigit (c : CodePoint) : Bool := 48 ≤ c && c ≤ 57

def word (s : String) : Regex CodePoint := .literal sameLetter (text s)

/-- `\b` -/
def Unicode.boundary (unicode : Unicode) : Regex CodePoint :=
  .assert fun before after => before.any unicode.isWordChar != after.any unicode.isWordChar

/-- `\s*` -/
def Unicode.spaces (unicode : Unicode) : Regex CodePoint := .many none unicode.isSpaceChar

/-- `([0-9]+(?:\.[0-9]+)?)` -/
def number : Regex CodePoint :=
  .group (.all [.one isDigit, .many none isDigit, .opt (.all [word ".", .one isDigit, .many none isDigit])])

/-- `\b( )\b` -/
def Unicode.bounded (unicode : Unicode) (r : Regex CodePoint) : Regex CodePoint :=
  .all [unicode.boundary, .group r, unicode.boundary]

/-- A text that `r` takes, between two boundaries of words, is found. There may be another
match before it, so only that one is found is said. -/
theorem search_bounded (unicode : Unicode) {r : Regex CodePoint} {before found after : Text}
    (hMatch : Matches r ⟨before.reverse, found ++ after, none⟩ ⟨found.reverse ++ before.reverse, after, none⟩)
    (hLeft : before.getLast?.any unicode.isWordChar ≠ (found ++ after).head?.any unicode.isWordChar)
    (hRight : (before ++ found).getLast?.any unicode.isWordChar ≠ after.head?.any unicode.isWordChar) :
    ((unicode.bounded r).search (before ++ (found ++ after))).isSome = true := by
  refine search_isSome.mpr ⟨before, found ++ after, _, rfl, .seq (.assert ?_) (.seq (.group hMatch rfl)
    (.seq (.assert ?_) .empty))⟩
  · simpa using hLeft
  · simpa [← List.reverse_append] using hRight

/-- A text that is joined to others before it follows the separator there. -/
theorem infix_intercalate {sep x : Text} {l r : List Text} (h : l ≠ []) :
    sep ++ x <:+: sep.intercalate (l ++ x :: r) := by
  induction l with
  | nil => exact absurd rfl h
  | cons y l ih =>
      rw [List.cons_append, List.intercalate_cons_of_ne_nil (by simp)]
      cases l with
      | nil =>
          cases r with
          | nil => exact ⟨y, [], by simp⟩
          | cons z r => exact ⟨y, sep ++ sep.intercalate (z :: r), by simp⟩
      | cons z l => exact (ih (List.cons_ne_nil z l)).trans (List.suffix_append _ _).isInfix

/-- Arithmetic of floats, and how they are read and printed. `div` has a divisor that
is not zero. Where it overflows, `ofInt` has none. -/
structure Floats where
  add : PyFloat → PyFloat → PyFloat
  sub : PyFloat → PyFloat → PyFloat
  mul : PyFloat → PyFloat → PyFloat
  div : PyFloat → PyFloat → PyFloat
  ofInt : Int → Option PyFloat
  /-- `float` of a text. -/
  parse : Text → Option PyFloat
  /-- `float` of a text that `number` has captured. -/
  ofNumber : Text → PyFloat
  /-- The format `.nf`. -/
  fixed : Nat → PyFloat → Text

def PyFloat.isZero : PyFloat → Bool
  | .negativeZero => true
  | .finite value => decide (value = 0)
  | _ => false

/-- `x > 0`. -/
def PyFloat.positive : PyFloat → Bool
  | .infinity => true
  | .finite value => decide (0 < value)
  | _ => false

/-- `int(x)`, which raises where `x` is no finite number. -/
def PyFloat.toInt : PyFloat → Option Int
  | .negativeZero => some 0
  | .finite value => some (value.num.tdiv value.den)
  | _ => none

/-- The format `02d`. -/
def twoDigits (i : Int) : Text :=
  let digits := dumpsInt i
  if digits.length < 2 then 48 :: digits else digits

end Python
