import Mathlib.Data.List.Nodup
import PrlMiner.Library.EarlyExit
import PrlMiner.Library.Python

/-! `json.loads` of a text, by the scanner of the C extension. -/
namespace Python

open LittleEndian EarlyExit

/-- How `json.loads` raises: a `JSONDecodeError`, the limit of `int` on digits, or a
`RecursionError`. -/
inductive JsonError where
  | decode
  | digits
  | recursion
  deriving DecidableEq

def isJsonSpace (c : CodePoint) : Bool := c = 32 || c = 9 || c = 10 || c = 13

def skipSpace (s : Text) : Text := s.dropWhile isJsonSpace

def isJsonDigit (c : CodePoint) : Bool := 48 ≤ c && c ≤ 57

/-! Strings -/

/-- A character of a string, and whether it is written as `\uXXXX`. -/
abbrev StringUnit := CodePoint × Bool

def simpleEscape (c : CodePoint) : Option CodePoint :=
  if c = 34 then some 34
  else if c = 92 then some 92
  else if c = 47 then some 47
  else if c = 98 then some 8
  else if c = 102 then some 12
  else if c = 110 then some 10
  else if c = 114 then some 13
  else if c = 116 then some 9
  else none

def hexQuad (a b c d : CodePoint) : Option CodePoint := do
  let a ← hexDigit a
  let b ← hexDigit b
  let c ← hexDigit c
  let d ← hexDigit d
  some (Fin.ofNat _ (((16 * a + b) * 16 + c) * 16 + d))

/-- Up to the closing quote. -/
def scanUnits : Text → Except JsonError (List StringUnit × Text)
  | [] => .error .decode
  | c :: rest =>
      let unit (u : StringUnit) (scan : Except JsonError (List StringUnit × Text)) := scan.map fun p => (u :: p.1, p.2)
      if c = 34 then .ok ([], rest)
      else if c = 92 then
        match rest with
        | [] => .error .decode
        | e :: rest =>
            if e = 117 then
              match rest with
              | x :: y :: z :: w :: rest =>
                  match hexQuad x y z w with
                  | none => .error .decode
                  | some u => unit (u, true) (scanUnits rest)
              | _ => .error .decode
            else
              match simpleEscape e with
              | none => .error .decode
              | some u => unit (u, false) (scanUnits rest)
      else if c < 32 then .error .decode
      else unit (c, false) (scanUnits rest)

def isHigh (c : CodePoint) : Bool := 0xd800 ≤ c && c ≤ 0xdbff

def isLow (c : CodePoint) : Bool := 0xdc00 ≤ c && c ≤ 0xdfff

/-- Two escapes that are a surrogate pair are one character. -/
def joinPairs : List StringUnit → Text
  | [] => []
  | [u] => [u.1]
  | u :: v :: units =>
      if u.2 && v.2 && isHigh u.1 && isLow v.1 then
        Fin.ofNat _ (0x10000 + (u.1.val - 0xd800) * 0x400 + (v.1.val - 0xdc00)) :: joinPairs units
      else u.1 :: joinPairs (v :: units)

/-- Behind the opening quote. -/
def scanString (s : Text) : Except JsonError (Text × Text) := (scanUnits s).map fun p => (joinPairs p.1, p.2)

/-! Numbers -/

def decimal (digits : Text) : Nat := digits.foldl (fun value c => 10 * value + (c.val - 48)) 0

/-- `sys.get_int_max_str_digits()`. -/
def maxDigits : Nat := 4300

/-- The digits before a point, none where there are none. -/
def wholePart : Text → Text
  | [] => []
  | c :: rest => if c = 48 then [c] else (c :: rest).takeWhile isJsonDigit

/-- A point and the digits behind it. -/
def fractionPart : Text → Text
  | c :: d :: rest => if c = 46 && isJsonDigit d then c :: (d :: rest).takeWhile isJsonDigit else []
  | _ => []

/-- The sign of an exponent. -/
def signPart : Text → Text
  | c :: _ => if c = 43 || c = 45 then [c] else []
  | [] => []

def exponentPart : Text → Text
  | c :: rest =>
      let digits := (rest.drop (signPart rest).length).takeWhile isJsonDigit
      if (c = 101 || c = 69) && !digits.isEmpty then c :: signPart rest ++ digits else []
  | [] => []

def scanNumber (parseFloat : Text → PyFloat) (s : Text) : Except JsonError (Json × Text) :=
  let sign := if s.head? = some 45 then s.take 1 else []
  let whole := wholePart (s.drop sign.length)
  let rest := s.drop (sign ++ whole).length
  let fraction := fractionPart rest
  let exponent := exponentPart (rest.drop fraction.length)
  if whole.isEmpty then .error .decode
  else if (fraction ++ exponent).isEmpty then
    if maxDigits < whole.length then .error .digits
    else .ok (.int (if sign.isEmpty then decimal whole else -decimal whole), rest)
  else .ok (.float (parseFloat (sign ++ whole ++ fraction ++ exponent)), rest.drop (fraction ++ exponent).length)

/-! Containers -/

/-- Elements with commas between them, up to the closing bracket. `fuel` is more than the
text is long. -/
def scanItems {α : Type} (element : Text → Except JsonError (α × Text)) (close : CodePoint) :
    Nat → Text → Except JsonError (List α × Text)
  | 0, _ => .error .decode
  | fuel + 1, s => do
      let (x, s) ← element s
      match skipSpace s with
      | [] => .error .decode
      | c :: s =>
          if c = close then .ok ([x], s)
          else if c = 44 then (scanItems element close fuel (skipSpace s)).map fun p => (x :: p.1, p.2)
          else .error .decode

/-- Behind the opening bracket. -/
def scanContainer {α : Type} (element : Text → Except JsonError (α × Text)) (close : CodePoint) (s : Text) :
    Except JsonError (List α × Text) :=
  match skipSpace s with
  | [] => .error .decode
  | c :: s => if c = close then .ok ([], s) else scanItems element close (s.length + 2) (c :: s)

/-- A key, a colon and a value. -/
def scanField (scan : Text → Except JsonError (Json × Text)) (s : Text) :
    Except JsonError ((Text × Json) × Text) :=
  match s with
  | [] => .error .decode
  | c :: s =>
      if c = 34 then do
        let (key, s) ← scanString s
        match skipSpace s with
        | [] => .error .decode
        | c :: s =>
            if c = 58 then (scan (skipSpace s)).map fun p => ((key, p.1), p.2) else .error .decode
      else .error .decode

/-- `fields[key] = v`: a key that is there keeps its place. -/
def Fields.set (fields : Fields) (key : Text) (v : Json) : Fields :=
  match fields with
  | [] => [(key, v)]
  | (key', v') :: fields => if key' = key then (key', v) :: fields else (key', v') :: Fields.set fields key v

def Fields.ofPairs (pairs : List (Text × Json)) : Fields :=
  pairs.foldl (fun fields pair => Fields.set fields pair.1 pair.2) []

/-- Behind the prefix that is one of the literals. -/
def scanLiteral (parseFloat : Text → PyFloat) (s : Text) : Except JsonError (Json × Text) :=
  match [("null", Json.null), ("true", .bool true), ("false", .bool false), ("NaN", .float .nan),
    ("Infinity", .float .infinity), ("-Infinity", .float .negativeInfinity)].find? fun p =>
      (text p.1).isPrefixOf s with
  | some (literal, v) => .ok (v, s.drop (text literal).length)
  | none => scanNumber parseFloat s

/-- `scan_once`, with what is left of the recursion limit. -/
def scanOnce (parseFloat : Text → PyFloat) : Nat → Text → Except JsonError (Json × Text)
  | limit, s =>
      match s with
      | [] => .error .decode
      | c :: rest =>
          if c = 34 then (scanString rest).map fun p => (.str p.1, p.2)
          else if c = 123 ∨ c = 91 then
            match limit with
            | 0 => .error .recursion
            | limit + 1 =>
                if c = 123 then
                  (scanContainer (scanField (scanOnce parseFloat limit)) 125 rest).map fun p =>
                    (.obj (Fields.ofPairs p.1), p.2)
                else (scanContainer (scanOnce parseFloat limit) 93 rest).map fun p => (.arr p.1, p.2)
          else scanLiteral parseFloat s

/-- `json.loads`. -/
def loads (parseFloat : Text → PyFloat) (limit : Nat) (s : Text) : Except JsonError Json := do
  let (v, rest) ← scanOnce parseFloat limit (skipSpace s)
  if (skipSpace rest).isEmpty then .ok v else .error .decode

/-! No scan ends for want of fuel: every scan takes at least a character, so the fuel of a
container outlasts its text (`scanContainer_fuel`). -/

/-- A scan that takes at least one character. -/
def Consumes {α : Type} (scan : Text → Except JsonError (α × Text)) : Prop :=
  ∀ s x rest, scan s = .ok (x, rest) → rest.length < s.length

theorem length_skipSpace_le (s : Text) : (skipSpace s).length ≤ s.length := (List.dropWhile_sublist _).length_le

/-- What is done with a scanned value does not change what is left of the text. -/
theorem length_of_map {α β : Type} {x : Except JsonError (α × Text)} {f : α × Text → β} {y : β} {rest : Text}
    {bound : Nat} (h : (x.map fun p => (f p, p.2)) = .ok (y, rest))
    (hBound : ∀ x' rest', x = .ok (x', rest') → rest'.length < bound) : rest.length < bound := by
  cases x with
  | error e => cases h
  | ok found =>
      obtain ⟨x', rest'⟩ := found
      cases h
      exact hBound x' rest' rfl

/-- A string literal takes at least its closing quotation mark. -/
theorem scanUnits_consumes : Consumes scanUnits := by
  intro s
  fun_induction scanUnits s with
  | case2 rest =>
      rintro x rest' ⟨⟩
      exact Nat.lt_succ_self _
  | case5 unit x y z w rest u hQuad hOther ih =>
      intro units rest' h
      exact length_of_map h fun x' r hr => (ih x' r hr).trans (by simp only [List.length_cons]; omega)
  | case8 unit e rest hOther u hEscape hQuote ih =>
      intro units rest' h
      exact length_of_map h fun x' r hr => (ih x' r hr).trans (by simp only [List.length_cons]; omega)
  | case10 c rest unit hQuote hSlash hControl ih =>
      intro units rest' h
      exact length_of_map h fun x' r hr => (ih x' r hr).trans (by simp only [List.length_cons]; omega)
  | _ => exact nofun

section Fuel

variable {α : Type} {element : Text → Except JsonError (α × Text)} {close : CodePoint}

/-- More fuel than there are characters makes no difference, since every element of the
container takes one. -/
theorem scanItems_of_lt (h : Consumes element) {fuel fuel' : Nat} {s : Text} (hFuel : s.length < fuel)
    (hFuel' : s.length < fuel') : scanItems element close fuel s = scanItems element close fuel' s := by
  induction fuel generalizing fuel' s with
  | zero => exact absurd hFuel (Nat.not_lt_zero _)
  | succ fuel ih =>
      obtain ⟨fuel', rfl⟩ : ∃ n, fuel' = n + 1 := ⟨fuel' - 1, by omega⟩
      rw [scanItems, scanItems]
      cases hElement : element s with
      | error e => rfl
      | ok found =>
          obtain ⟨x, rest⟩ := found
          have hRest := h s x rest hElement
          have hSkip := length_skipSpace_le rest
          dsimp only [bind, Except.bind]
          cases hNext : skipSpace rest with
          | nil => rfl
          | cons c t =>
              rw [hNext, List.length_cons] at hSkip
              have hTail := length_skipSpace_le t
              dsimp only
              have hMore : scanItems element close fuel (skipSpace t) = scanItems element close fuel' (skipSpace t) :=
                ih (by omega) (by omega)
              rw [hMore]

/-- A container that is not empty is scanned as with any other fuel above the length of
what stands behind the bracket. -/
theorem scanContainer_eq_scanItems (h : Consumes element) {fuel : Nat} {s t : Text} {c : CodePoint}
    (hNext : skipSpace s = c :: t) (hOpen : c ≠ close) (hFuel : t.length + 1 < fuel) :
    scanContainer element close s = scanItems element close fuel (c :: t) := by
  rw [scanContainer, hNext]
  dsimp only
  rw [if_neg hOpen]
  exact scanItems_of_lt h (by rw [List.length_cons]; omega) (by rw [List.length_cons]; omega)

/-- The items of a container take something, with any fuel: each does, and so does the
bracket that closes them. -/
theorem scanItems_consumes (h : Consumes element) (fuel : Nat) : Consumes (scanItems element close fuel) := by
  induction fuel with
  | zero => exact nofun
  | succ fuel ih =>
      intro s xs rest hItems
      obtain ⟨⟨x, rest₁⟩, hElement, hItems⟩ := bind_eq_ok.mp hItems
      have hRest := h s x rest₁ hElement
      have hSkip := length_skipSpace_le rest₁
      dsimp only at hItems
      cases hNext : skipSpace rest₁ with
      | nil =>
          rw [hNext] at hItems
          cases hItems
      | cons c t =>
          rw [hNext] at hItems hSkip
          rw [List.length_cons] at hSkip
          have hTail := length_skipSpace_le t
          dsimp only at hItems
          split_ifs at hItems
          · cases hItems
            omega
          · refine length_of_map hItems fun xs' rest' hMore => ?_
            have hMore := ih _ xs' rest' hMore
            omega

theorem scanContainer_consumes (h : Consumes element) : Consumes (scanContainer element close) := by
  intro s xs rest hItems
  have hSkip := length_skipSpace_le s
  rw [scanContainer] at hItems
  cases hNext : skipSpace s with
  | nil =>
      rw [hNext] at hItems
      cases hItems
  | cons c t =>
      rw [hNext] at hItems hSkip
      dsimp only at hItems
      split_ifs at hItems
      · cases hItems
        exact hSkip
      · exact (scanItems_consumes h _ _ xs rest hItems).trans_le hSkip

end Fuel

theorem scanString_consumes : Consumes scanString := fun s _ _ h =>
  length_of_map h fun _ _ hUnits => scanUnits_consumes s _ _ hUnits

theorem scanField_consumes {scan : Text → Except JsonError (Json × Text)} (h : Consumes scan) :
    Consumes (scanField scan) := by
  intro s field rest hField
  cases s with
  | nil => cases hField
  | cons c s =>
      rw [scanField] at hField
      split_ifs at hField
      obtain ⟨⟨key, rest₁⟩, hKey, hField⟩ := bind_eq_ok.mp hField
      have hRest := scanString_consumes s key rest₁ hKey
      have hSkip := length_skipSpace_le rest₁
      dsimp only at hField
      cases hNext : skipSpace rest₁ with
      | nil =>
          rw [hNext] at hField
          cases hField
      | cons c t =>
          rw [hNext] at hField hSkip
          have hTail := length_skipSpace_le t
          dsimp only at hField
          split_ifs at hField
          refine length_of_map hField fun v rest' hValue => ?_
          have hValue := h _ v rest' hValue
          rw [List.length_cons] at hSkip ⊢
          omega

section Scan

variable {parseFloat : Text → PyFloat}

/-- A number takes a digit at least, or it is no number. -/
theorem scanNumber_consumes : Consumes (scanNumber parseFloat) := by
  intro s v rest h
  rw [scanNumber] at h
  generalize hSign : (if s.head? = some 45 then s.take 1 else []) = sign at h
  generalize hWhole : wholePart (s.drop sign.length) = whole at h
  cases whole with
  | nil => cases h
  | cons c digits =>
      have hs : s ≠ [] := by
        rintro rfl
        rw [List.drop_nil] at hWhole
        cases hWhole
      have hLonger := List.length_pos_of_ne_nil hs
      rw [List.isEmpty_cons, if_neg Bool.false_ne_true] at h
      split_ifs at h <;>
      · cases h
        simp only [List.length_drop, List.length_append, List.length_cons]
        omega

theorem scanLiteral_consumes : Consumes (scanLiteral parseFloat) := by
  intro s v rest h
  rw [scanLiteral] at h
  split at h
  case h_1 literal v' hFound =>
    cases h
    have hFront : (text literal).isPrefixOf s = true := @List.find?_some _ _ (literal, v) _ hFound
    obtain ⟨tail, hPrefix⟩ := List.isPrefixOf_iff_prefix.mp hFront
    have hLiteral : 0 < (text literal).length := by
      have hMem := List.mem_of_find?_eq_some hFound
      simp only [List.mem_cons, List.not_mem_nil, or_false, Prod.mk.injEq] at hMem
      rcases hMem with ⟨rfl, -⟩ | ⟨rfl, -⟩ | ⟨rfl, -⟩ | ⟨rfl, -⟩ | ⟨rfl, -⟩ | ⟨rfl, -⟩ <;> decide
    rw [← hPrefix, List.drop_left, List.length_append]
    omega
  case h_2 => exact scanNumber_consumes s v rest h

/-- Whatever value is read takes something of the text, at every depth that containers may
be nested. -/
theorem scanOnce_consumes (limit : Nat) : Consumes (scanOnce parseFloat limit) := by
  induction limit with
  | zero =>
      intro s v rest h
      rw [scanOnce.eq_def] at h
      cases s with
      | nil => cases h
      | cons c s =>
          dsimp only at h
          split_ifs at h
          · exact (length_of_map h fun x' r hr => scanString_consumes _ x' r hr).trans (Nat.lt_succ_self _)
          · exact scanLiteral_consumes _ v rest h
  | succ limit ih =>
      intro s v rest h
      rw [scanOnce.eq_def] at h
      cases s with
      | nil => cases h
      | cons c s =>
          dsimp only at h
          split_ifs at h
          · exact (length_of_map h fun x' r hr => scanString_consumes _ x' r hr).trans (Nat.lt_succ_self _)
          · exact (length_of_map h fun x' r hr =>
              scanContainer_consumes (scanField_consumes ih) _ x' r hr).trans (Nat.lt_succ_self _)
          · exact (length_of_map h fun x' r hr => scanContainer_consumes ih _ x' r hr).trans (Nat.lt_succ_self _)
          · exact scanLiteral_consumes _ v rest h

/-- The fuel that `scanContainer` gives is no limit of its own: an array and an object are
scanned alike with every fuel above the length of their text, at every depth. -/
theorem scanContainer_fuel (limit : Nat) {close c : CodePoint} {fuel : Nat} {s t : Text}
    (hNext : skipSpace s = c :: t) (hOpen : c ≠ close) (hFuel : t.length + 1 < fuel) :
    scanContainer (scanOnce parseFloat limit) close s = scanItems (scanOnce parseFloat limit) close fuel (c :: t) ∧
      scanContainer (scanField (scanOnce parseFloat limit)) close s =
        scanItems (scanField (scanOnce parseFloat limit)) close fuel (c :: t) :=
  ⟨scanContainer_eq_scanItems (scanOnce_consumes limit) hNext hOpen hFuel,
    scanContainer_eq_scanItems (scanField_consumes (scanOnce_consumes limit)) hNext hOpen hFuel⟩

end Scan

end Python
