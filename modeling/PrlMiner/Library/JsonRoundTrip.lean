import PrlMiner.Library.JsonText

/-! What `json.dumps` prints, `json.loads` reads. -/
namespace Python

open LittleEndian

/-! Strings -/

theorem hexDigit_hexChar {x : Nat} (h : x < 16) : hexDigit (hexChar x) = some x := by
  revert x
  decide

/-- The four digits of an escape are read back as the number that they were printed
from. -/
theorem hexQuad_hexChar {x : Nat} (h : x < 0x10000) :
    hexQuad (hexChar (x >>> 12 % 16)) (hexChar (x >>> 8 % 16)) (hexChar (x >>> 4 % 16)) (hexChar (x >>> 0 % 16)) =
      some (Fin.ofNat _ x) := by
  have hLt (y : Nat) : y % 16 < 16 := Nat.mod_lt _ (by omega)
  simp only [hexQuad, hexDigit_hexChar (hLt _), Option.bind_eq_bind, Option.bind_some, Nat.shiftRight_eq_div_pow]
  congr 2
  omega

/-- How a code point is written in a string. -/
def unitsOf (c : CodePoint) : List StringUnit :=
  if c.val < 0x10000 then
    [(c, !(c = 34 || c = 92 || c = 10 || c = 13 || c = 9 || c = 12 || c = 8 || 32 ≤ c && c ≤ 126))]
  else [(Fin.ofNat _ (0xd800 + (c.val - 0x10000) / 0x400), true), (Fin.ofNat _ (0xdc00 + c.val % 0x400), true)]

def consUnits (units : List StringUnit) (p : List StringUnit × Text) : List StringUnit × Text := (units ++ p.1, p.2)

/-- One of the escapes of two characters, which are read as one. -/
theorem scanUnits_simple {c e : CodePoint} (hEscape : simpleEscape e = some c) (hOther : e ≠ 117) (rest : Text) :
    scanUnits (92 :: e :: rest) = (scanUnits rest).map (consUnits [(c, false)]) := by
  rw [scanUnits.eq_def]
  dsimp only
  rw [if_neg (by decide), if_pos rfl, if_neg hOther, hEscape]
  rfl

/-- An escape of four digits is read as one unit, marked as such: two of these can be the
halves of a surrogate pair. -/
theorem scanUnits_unicode {x : Nat} (h : x < 0x10000) (rest : Text) :
    scanUnits (unicodeEscape x ++ rest) = (scanUnits rest).map (consUnits [(Fin.ofNat _ x, true)]) := by
  have hEscape : unicodeEscape x ++ rest = 92 :: 117 :: hexChar (x >>> 12 % 16) :: hexChar (x >>> 8 % 16) ::
      hexChar (x >>> 4 % 16) :: hexChar (x >>> 0 % 16) :: rest := rfl
  rw [hEscape, scanUnits.eq_def]
  dsimp only
  rw [if_neg (by decide), if_pos rfl, if_pos rfl]
  rw [hexQuad_hexChar h]
  rfl

/-- A character that stands for itself in a literal is read as it is. -/
theorem scanUnits_plain {c : CodePoint} (hQuote : c ≠ 34) (hSlash : c ≠ 92) (hControl : 32 ≤ c) (rest : Text) :
    scanUnits (c :: rest) = (scanUnits rest).map (consUnits [(c, false)]) := by
  rw [scanUnits.eq_def]
  dsimp only
  rw [if_neg hQuote, if_neg hSlash, if_neg (not_lt.mpr hControl)]
  rfl

/-- What one code point is printed as is read as its units, which are two beyond the basic
plane. -/
theorem scanUnits_escape (c : CodePoint) (rest : Text) :
    scanUnits (escape c ++ rest) = (scanUnits rest).map (consUnits (unitsOf c)) := by
  rw [escape]
  split
  case h_1 hc =>
    obtain rfl : c = 34 := Fin.ext hc
    exact scanUnits_simple rfl (by decide) rest
  case h_2 hc =>
    obtain rfl : c = 92 := Fin.ext hc
    exact scanUnits_simple rfl (by decide) rest
  case h_3 hc =>
    obtain rfl : c = 10 := Fin.ext hc
    exact scanUnits_simple rfl (by decide) rest
  case h_4 hc =>
    obtain rfl : c = 13 := Fin.ext hc
    exact scanUnits_simple rfl (by decide) rest
  case h_5 hc =>
    obtain rfl : c = 9 := Fin.ext hc
    exact scanUnits_simple rfl (by decide) rest
  case h_6 hc =>
    obtain rfl : c = 12 := Fin.ext hc
    exact scanUnits_simple rfl (by decide) rest
  case h_7 hc =>
    obtain rfl : c = 8 := Fin.ext hc
    exact scanUnits_simple rfl (by decide) rest
  case h_8 hQuote hSlash hLine hReturn hTab hFeed hBack =>
    have hNe (x : CodePoint) (h : c.val ≠ x.val) : decide (c = x) = false := by
      rw [decide_eq_false_iff_not, Fin.ext_iff]
      exact h
    have hUnits : unitsOf c = if c.val < 0x10000 then [(c, !(32 ≤ c && c ≤ 126))] else
        [(Fin.ofNat _ (0xd800 + (c.val - 0x10000) / 0x400), true), (Fin.ofNat _ (0xdc00 + c.val % 0x400), true)] := by
      rw [unitsOf, hNe 34 hQuote, hNe 92 hSlash, hNe 10 hLine, hNe 13 hReturn, hNe 9 hTab, hNe 12 hFeed, hNe 8 hBack]
      rfl
    have hPrintable : (32 ≤ c && c ≤ 126) = decide (32 ≤ c.val ∧ c.val ≤ 126) := by
      rw [Bool.decide_and]
      rfl
    have hChar : Fin.ofNat _ c.val = c := by simp
    have hc := c.isLt
    rw [hUnits, hPrintable]
    split_ifs with hAscii hSmall hSmall
    · rw [decide_eq_true hAscii]
      exact scanUnits_plain (fun h => hQuote (congrArg Fin.val h)) (fun h => hSlash (congrArg Fin.val h))
        (Fin.le_def.mpr hAscii.1) rest
    · omega
    · rw [decide_eq_false hAscii, scanUnits_unicode hSmall, hChar]
      rfl
    · rw [List.append_assoc, scanUnits_unicode (by omega), scanUnits_unicode (by omega)]
      cases scanUnits rest <;> rfl

/-- No surrogates that two escapes would join. -/
def unpaired : Text → Bool
  | c :: d :: s => !(isHigh c && isLow d) && unpaired (d :: s)
  | _ => true

/-- A printed string is read up to its closing quotation mark, as the units of its code
points. -/
theorem scanUnits_text (s rest : Text) :
    scanUnits (s.flatMap escape ++ 34 :: rest) = .ok (s.flatMap unitsOf, rest) := by
  induction s with
  | nil =>
      rw [List.flatMap_nil, List.nil_append, scanUnits.eq_def]
      rfl
  | cons c s ih =>
      rw [List.flatMap_cons, List.append_assoc, scanUnits_escape, ih]
      rfl

theorem isHigh_eq (c : CodePoint) : isHigh c = decide (0xd800 ≤ c.val ∧ c.val ≤ 0xdbff) := by
  rw [Bool.decide_and]
  rfl

theorem isLow_eq (c : CodePoint) : isLow c = decide (0xdc00 ≤ c.val ∧ c.val ≤ 0xdfff) := by
  rw [Bool.decide_and]
  rfl

/-- Whether a text starts with a low surrogate shows in its units, so that pairs can be
looked for there. -/
theorem isLow_head_units {d : CodePoint} {s : Text} :
    ((d :: s).flatMap unitsOf).head?.map (fun u => isLow u.1) = some (isLow d) := by
  have hd := d.isLt
  rw [List.flatMap_cons, unitsOf]
  split_ifs with hSmall
  · rfl
  · simp only [List.cons_append, List.head?_cons, Option.map_some, isLow_eq, Fin.val_ofNat, Option.some.injEq,
      decide_eq_decide]
    omega

/-- A unit that is not a high surrogate before a low one stands alone. -/
theorem joinPairs_single {u : StringUnit} {units : List StringUnit}
    (h : ∀ low ∈ units.head?.map (fun v => isLow v.1), (isHigh u.1 && low) = false) :
    joinPairs (u :: units) = u.1 :: joinPairs units := by
  cases units with
  | nil => rfl
  | cons v units =>
      have hApart : (isHigh u.1 && isLow v.1) = false := h _ rfl
      rw [joinPairs, Bool.and_assoc, hApart, Bool.and_false]
      rfl

/-- The two halves of a code point beyond the basic plane are joined to the code point
they were cut from. -/
theorem joinPairs_pair {c high low : CodePoint} (hBig : ¬c.val < 0x10000)
    (hHigh : high.val = 0xd800 + (c.val - 0x10000) / 0x400) (hLow : low.val = 0xdc00 + c.val % 0x400)
    (units : List StringUnit) : joinPairs ((high, true) :: (low, true) :: units) = c :: joinPairs units := by
  have hc := c.isLt
  have hPair : (true && true && isHigh high && isLow low) = true := by
    rw [isHigh_eq, isLow_eq, decide_eq_true (by omega), decide_eq_true (by omega)]
    rfl
  have hChar : Fin.ofNat 0x110000 (0x10000 + (high.val - 0xd800) * 0x400 + (low.val - 0xdc00)) = c := by
    rw [Fin.ext_iff, Fin.val_ofNat]
    omega
  rw [joinPairs, if_pos hPair, hChar]

/-- A text without unpaired surrogates that would be joined is put together from its units
again. -/
theorem joinPairs_unitsOf {s : Text} (h : unpaired s = true) : joinPairs (s.flatMap unitsOf) = s := by
  induction s with
  | nil => rfl
  | cons c s ih =>
      have hc := c.isLt
      have hTail : unpaired s = true := by
        cases s with
        | nil => rfl
        | cons d s => exact (Bool.and_eq_true_iff.mp h).2
      have hApart : ∀ low ∈ (s.flatMap unitsOf).head?.map (fun v => isLow v.1), (isHigh c && low) = false := by
        cases s with
        | nil => simp
        | cons d s =>
            rw [isLow_head_units]
            simp only [Option.mem_def, Option.some.injEq, forall_eq']
            exact Bool.not_eq_true' _ ▸ (Bool.and_eq_true_iff.mp h).1
      rw [List.flatMap_cons]
      conv_lhs => rw [unitsOf]
      split_ifs with hSmall
      · rw [List.singleton_append, joinPairs_single hApart, ih hTail]
      · rw [List.cons_append, List.singleton_append, joinPairs_pair hSmall (Nat.mod_eq_of_lt (by omega))
          (Nat.mod_eq_of_lt (by omega)), ih hTail]

/-- A printed string is read back, whatever follows its closing quotation mark. -/
theorem scanString_dumpsText {s : Text} (h : unpaired s = true) (rest : Text) :
    scanString (s.flatMap escape ++ 34 :: rest) = .ok (s, rest) := by
  rw [scanString, scanUnits_text]
  dsimp only [Except.map]
  rw [joinPairs_unitsOf h]

/-! Numbers -/

/-- The decimal digits of a number. -/
def digitsText (n : Nat) : Text := (Nat.toDigits 10 n).map fun c => Fin.ofNat _ c.toNat

theorem digitsText_of_lt {n : Nat} (h : n < 10) : digitsText n = [Fin.ofNat _ (48 + n)] := by
  rw [digitsText, Nat.toDigits_of_lt_base h]
  revert n
  decide

/-- The digits of a number are those of its tenth part and the last one. -/
theorem digitsText_of_le {n : Nat} (h : 10 ≤ n) :
    digitsText n = digitsText (n / 10) ++ [Fin.ofNat _ (48 + n % 10)] := by
  have hLast : digitsText (n % 10) = [Fin.ofNat _ (48 + n % 10)] := digitsText_of_lt (Nat.mod_lt n (by omega))
  rw [← hLast, digitsText, digitsText, digitsText, Nat.toDigits_of_base_le (by omega) h,
    Nat.toDigits_of_lt_base (Nat.mod_lt n (by omega)), List.map_append]

theorem digit_isJsonDigit {d : Nat} (h : d < 10) : isJsonDigit (Fin.ofNat _ (48 + d)) = true := by
  revert d
  decide

/-- A number is printed with digits only. -/
theorem mem_digitsText {n : Nat} {c : CodePoint} (h : c ∈ digitsText n) : isJsonDigit c = true := by
  induction n using Nat.strongRecOn with
  | ind n ih =>
      by_cases hSmall : n < 10
      · rw [digitsText_of_lt hSmall, List.mem_singleton] at h
        rw [h]
        exact digit_isJsonDigit hSmall
      · rw [digitsText_of_le (by omega), List.mem_append, List.mem_singleton] at h
        rcases h with h | rfl
        · exact ih (n / 10) (by omega) h
        · exact digit_isJsonDigit (Nat.mod_lt n (by omega))

/-- The value of the printed digits is the number. -/
theorem decimal_digitsText (n : Nat) : decimal (digitsText n) = n := by
  induction n using Nat.strongRecOn with
  | ind n ih =>
      have hDigit {d : Nat} (h : d < 10) : (Fin.ofNat 0x110000 (48 + d)).val - 48 = d := by
        rw [Fin.val_ofNat]
        omega
      by_cases hSmall : n < 10
      · rw [digitsText_of_lt hSmall, decimal, List.foldl_cons, List.foldl_nil, hDigit hSmall]
        omega
      · have hQuotient : decimal (digitsText (n / 10)) = n / 10 := ih (n / 10) (by omega)
        rw [decimal] at hQuotient
        rw [digitsText_of_le (by omega), decimal, List.foldl_append, hQuotient, List.foldl_cons, List.foldl_nil,
          hDigit (Nat.mod_lt n (by omega))]
        omega

/-- A printed number has a first digit, and only zero starts with a zero. More digits
behind one would not be read. -/
theorem head_digitsText (n : Nat) : ∃ c s, digitsText n = c :: s ∧ (c = 48 → s = []) := by
  induction n using Nat.strongRecOn with
  | ind n ih =>
      by_cases hSmall : n < 10
      · exact ⟨_, [], digitsText_of_lt hSmall, fun _ => rfl⟩
      · obtain ⟨c, s, hDigits, hZero⟩ := ih (n / 10) (by omega)
        refine ⟨c, s ++ [Fin.ofNat _ (48 + n % 10)], ?_, fun hc => ?_⟩
        · rw [digitsText_of_le (by omega), hDigits, List.cons_append]
        · -- a quotient of zero has one digit
          have hQuotient := decimal_digitsText (n / 10)
          rw [hDigits, hZero hc, hc] at hQuotient
          simp [decimal] at hQuotient
          omega

/-- The text ends, or goes on behind a value. -/
def Ends (rest : Text) : Prop := ∀ c ∈ rest.head?, c = 44 ∨ c = 93 ∨ c = 125 ∨ c = 10

/-- Behind a number no more digits follow where a container goes on or the text ends. -/
theorem Ends.not_digit {rest : Text} (h : Ends rest) : rest.takeWhile isJsonDigit = [] := by
  cases rest with
  | nil => rfl
  | cons c rest =>
      have hDigit : isJsonDigit c = false := by
        rcases h c rfl with rfl | rfl | rfl | rfl <;> rfl
      rw [List.takeWhile_cons, hDigit]
      rfl

/-- No fraction follows there either, which would make a float of the integer. -/
theorem Ends.no_fraction {rest : Text} (h : Ends rest) : fractionPart rest = [] := by
  cases rest with
  | nil => rfl
  | cons c rest =>
      have hPoint : (c = 46) = False := by
        rcases h c rfl with rfl | rfl | rfl | rfl <;> exact eq_false (by decide)
      cases rest with
      | nil => rfl
      | cons d rest => simp [fractionPart, hPoint]

theorem Ends.no_exponent {rest : Text} (h : Ends rest) : exponentPart rest = [] := by
  cases rest with
  | nil => rfl
  | cons c rest =>
      have hLetter : (c = 101 || c = 69) = false := by
        rcases h c rfl with rfl | rfl | rfl | rfl <;> rfl
      rw [exponentPart, hLetter]
      rfl

/-- The digits of a number are all taken as its whole part, and nothing behind them is. -/
theorem wholePart_digitsText (n : Nat) {rest : Text} (h : Ends rest) :
    wholePart (digitsText n ++ rest) = digitsText n := by
  obtain ⟨c, s, hDigits, hZero⟩ := head_digitsText n
  have hAll : (digitsText n ++ rest).takeWhile isJsonDigit = digitsText n := by
    rw [List.takeWhile_append_of_pos fun c hMem => mem_digitsText hMem, h.not_digit, List.append_nil]
  rw [hDigits] at hAll ⊢
  rw [List.cons_append, wholePart]
  split_ifs with hc
  · rw [hZero hc]
  · exact hAll

section Numbers

variable {parseFloat : Text → PyFloat} {rest : Text}

/-- A printed integer is read back with its sign, unless it has more digits than `int`
converts. -/
theorem scanNumber_whole {sign : Text} (hSign : sign = [] ∨ sign = [45]) {n : Nat}
    (hDigits : (digitsText n).length ≤ maxDigits) (h : Ends rest) :
    scanNumber parseFloat (sign ++ digitsText n ++ rest) =
      .ok (.int (if sign.isEmpty then n else -n), rest) := by
  obtain ⟨c, s, hHead, -⟩ := head_digitsText n
  have hNonempty : (digitsText n).isEmpty = false := by rw [hHead]; rfl
  have hSigned : (if (sign ++ digitsText n ++ rest).head? = some 45 then (sign ++ digitsText n ++ rest).take 1
      else []) = sign := by
    rcases hSign with rfl | rfl
    · have hDigit : isJsonDigit c = true := mem_digitsText (hHead ▸ List.mem_cons_self)
      rw [List.nil_append, hHead, List.cons_append, List.head?_cons, if_neg]
      rintro hc
      cases hc
      cases hDigit
    · rfl
  rw [scanNumber, hSigned, List.append_assoc, List.drop_left, wholePart_digitsText n h, ← List.append_assoc,
    List.drop_left, h.no_fraction, List.length_nil, List.drop_zero, h.no_exponent, hNonempty, if_neg Bool.false_ne_true,
    List.append_nil, List.isEmpty_nil, if_pos rfl, if_neg (not_lt.mpr hDigits), decimal_digitsText]

/-- No literal starts as a number does, so that the scanner of literals goes on to
numbers. -/
theorem scanLiteral_whole {sign : Text} (hSign : sign = [] ∨ sign = [45]) (n : Nat) :
    scanLiteral parseFloat (sign ++ digitsText n ++ rest) = scanNumber parseFloat (sign ++ digitsText n ++ rest) := by
  obtain ⟨c, s, hHead, -⟩ := head_digitsText n
  have hDigit : isJsonDigit c = true := mem_digitsText (hHead ▸ List.mem_cons_self)
  have hOther (x : CodePoint) (hx : isJsonDigit x = false) : (x == c) = false := by
    rw [beq_eq_false_iff_ne]
    rintro rfl
    rw [hDigit] at hx
    cases hx
  rw [scanLiteral, hHead]
  have hApart (x : CodePoint) (literal t : Text) (hx : isJsonDigit x = false) :
      (x :: literal).isPrefixOf (c :: t) = false := by
    rw [List.isPrefixOf_cons_cons, hOther x hx, Bool.false_and]
  have hNone : ∀ p ∈ [("null", Json.null), ("true", .bool true), ("false", .bool false), ("NaN", .float .nan),
      ("Infinity", .float .infinity), ("-Infinity", .float .negativeInfinity)],
      ¬(text p.1).isPrefixOf (sign ++ c :: s ++ rest) = true := by
    intro p hMem
    rw [Bool.not_eq_true]
    simp only [List.mem_cons, List.not_mem_nil, or_false] at hMem
    rcases hSign with rfl | rfl
    · rcases hMem with rfl | rfl | rfl | rfl | rfl | rfl <;> exact hApart _ _ _ rfl
    · rcases hMem with rfl | rfl | rfl | rfl | rfl | rfl
      case inr.inr.inr.inr.inr => exact (Bool.true_and _).trans (hApart 73 _ _ rfl)
      all_goals rfl
  rw [List.find?_eq_none.mpr hNone]

/-- A text that starts with neither a string nor a container is a literal. -/
theorem scanOnce_literal (limit : Nat) {c : CodePoint} (s : Text) (hQuote : c ≠ 34) (hOpen : ¬(c = 123 ∨ c = 91)) :
    scanOnce parseFloat limit (c :: s) = scanLiteral parseFloat (c :: s) := by
  rw [scanOnce.eq_def]
  dsimp only
  rw [if_neg hQuote, if_neg hOpen]

/-- A printed integer is read back by the scanner of values, at every depth. -/
theorem scanOnce_int (limit : Nat) {i : Int} (hDigits : (digitsText i.natAbs).length ≤ maxDigits) (h : Ends rest) :
    scanOnce parseFloat limit (dumpsInt i ++ rest) = .ok (.int i, rest) := by
  have hSigned (sign : Text) (n : Nat) (hSign : sign = [] ∨ sign = [45]) :
      scanOnce parseFloat limit (sign ++ digitsText n ++ rest) =
        scanNumber parseFloat (sign ++ digitsText n ++ rest) := by
    rw [← scanLiteral_whole hSign]
    obtain ⟨c, s, hHead, -⟩ := head_digitsText n
    have hDigit : isJsonDigit c = true := mem_digitsText (hHead ▸ List.mem_cons_self)
    rw [hHead]
    rcases hSign with rfl | rfl
    · refine scanOnce_literal limit (s ++ rest) ?_ ?_
      · rintro rfl
        cases hDigit
      · rintro (rfl | rfl) <;> cases hDigit
    · exact scanOnce_literal limit _ (by decide) (by decide)
  cases i with
  | ofNat n =>
      refine (hSigned [] n (.inl rfl)).trans ((scanNumber_whole (.inl rfl) hDigits h).trans ?_)
      rfl
  | negSucc n =>
      refine (hSigned [45] (n + 1) (.inr rfl)).trans ((scanNumber_whole (.inr rfl) hDigits h).trans ?_)
      rfl

end Numbers

/-! Containers -/

/-- A text that starts with neither white space nor a closing bracket. -/
def Starts (s : Text) : Prop := ∃ c t, s = c :: t ∧ isJsonSpace c = false ∧ c ≠ 93 ∧ c ≠ 125

/-- Before a printed value there is no white space to skip. -/
theorem Starts.skipSpace {s : Text} (h : Starts s) (rest : Text) : skipSpace (s ++ rest) = s ++ rest := by
  obtain ⟨c, t, rfl, hSpace, -⟩ := h
  rw [Python.skipSpace, List.cons_append, List.dropWhile_cons, hSpace]
  rfl

/-- Texts with commas between them. -/
def joinItems {α : Type} (print : α → Text) : List α → Text
  | [] => []
  | [x] => print x
  | x :: xs => print x ++ text ", " ++ joinItems print xs

/-- An element that is read back. -/
def Reads {α : Type} (element : Text → Except JsonError (α × Text)) (print : α → Text) (x : α) : Prop :=
  Starts (print x) ∧ ∀ rest, Ends rest → element (print x ++ rest) = .ok (x, rest)

theorem Starts.append {s : Text} (h : Starts s) (rest : Text) : Starts (s ++ rest) := by
  obtain ⟨c, t, rfl, hStart⟩ := h
  exact ⟨c, t ++ rest, rfl, hStart⟩

section Containers

variable {α : Type} {element : Text → Except JsonError (α × Text)} {print : α → Text} {close : CodePoint}

/-- Printed items start as the first of them does. -/
theorem starts_joinItems {x : α} {xs : List α} (h : Starts (print x)) : Starts (joinItems print (x :: xs)) := by
  cases xs with
  | nil => exact h
  | cons y ys => exact (h.append _).append _

/-- Printed items are read back one by one, up to the bracket that closes them. The fuel
must be enough for their number. -/
theorem scanItems_joinItems (hClose : close = 93 ∨ close = 125) {xs : List α} (hNonempty : xs ≠ [])
    (h : ∀ x ∈ xs, Reads element print x) {fuel : Nat} (hFuel : xs.length ≤ fuel) (rest : Text) :
    scanItems element close fuel (joinItems print xs ++ close :: rest) = .ok (xs, rest) := by
  induction xs generalizing fuel with
  | nil => exact absurd rfl hNonempty
  | cons x xs ih =>
      obtain ⟨fuel, rfl⟩ : ∃ n, fuel = n + 1 := ⟨fuel - 1, by rw [List.length_cons] at hFuel; omega⟩
      have hRead := (h x List.mem_cons_self).2
      have hCloses : skipSpace (close :: rest) = close :: rest := by
        rcases hClose with rfl | rfl <;> rfl
      cases xs with
      | nil =>
          have hElement : element (print x ++ close :: rest) = .ok (x, close :: rest) :=
            hRead (close :: rest) fun c hc => by
              obtain rfl : close = c := Option.some.inj hc
              exact .inr (hClose.imp_right .inl)
          rw [joinItems, scanItems, hElement]
          dsimp only [bind, Except.bind]
          rw [hCloses]
          dsimp only
          rw [if_pos rfl]
      | cons y ys =>
          have hElement : element (print x ++ (text ", " ++ (joinItems print (y :: ys) ++ close :: rest))) =
              .ok (x, text ", " ++ (joinItems print (y :: ys) ++ close :: rest)) :=
            hRead _ fun c hc => .inl (Option.some.inj hc).symm
          have hNext : skipSpace (32 :: (joinItems print (y :: ys) ++ close :: rest)) =
              joinItems print (y :: ys) ++ close :: rest :=
            (starts_joinItems (h y (List.mem_cons_of_mem x List.mem_cons_self)).1).skipSpace _
          have hComma : (44 : CodePoint) ≠ close := by
            rcases hClose with rfl | rfl <;> decide
          have hTail :
              scanItems element close fuel (joinItems print (y :: ys) ++ close :: rest) = .ok (y :: ys, rest) :=
            ih (List.cons_ne_nil y ys) (fun z hz => h z (List.mem_cons_of_mem x hz)) (by simpa using hFuel)
          rw [joinItems, List.append_assoc, List.append_assoc, scanItems, hElement]
          · dsimp only [bind, Except.bind]
            rw [show skipSpace (text ", " ++ (joinItems print (y :: ys) ++ close :: rest)) =
              44 :: 32 :: (joinItems print (y :: ys) ++ close :: rest) from rfl]
            dsimp only
            rw [if_neg hComma, if_pos rfl, hNext, hTail]
            rfl
          · exact List.cons_ne_nil y ys

/-- Every item is printed with a character at least, so that the length of a text bounds
the number of its items. -/
theorem length_le_joinItems {xs : List α} (h : ∀ x ∈ xs, Starts (print x)) :
    xs.length ≤ (joinItems print xs).length := by
  induction xs with
  | nil => exact Nat.zero_le _
  | cons x xs ih =>
      obtain ⟨c, t, hPrint, -⟩ := h x List.mem_cons_self
      have hTail := ih fun y hy => h y (List.mem_cons_of_mem x hy)
      cases xs with
      | nil =>
          rw [joinItems, hPrint]
          exact Nat.succ_le_succ (Nat.zero_le _)
      | cons y ys =>
          rw [joinItems, hPrint, List.length_append, List.length_append]
          · simp only [List.length_cons] at hTail ⊢
            omega
          · exact List.cons_ne_nil y ys

/-- A printed container is read back. The fuel that the scanner takes from the length of
its text is enough for the items. -/
theorem scanContainer_joinItems (hClose : close = 93 ∨ close = 125) {xs : List α}
    (h : ∀ x ∈ xs, Reads element print x) (rest : Text) :
    scanContainer element close (joinItems print xs ++ close :: rest) = .ok (xs, rest) := by
  cases xs with
  | nil =>
      have hCloses : skipSpace (close :: rest) = close :: rest := by
        rcases hClose with rfl | rfl <;> rfl
      rw [joinItems, List.nil_append, scanContainer, hCloses]
      dsimp only
      rw [if_pos rfl]
  | cons x xs =>
      have hStarts : Starts (joinItems print (x :: xs)) := starts_joinItems (h x List.mem_cons_self).1
      have hLength := length_le_joinItems fun y hy => (h y hy).1
      rw [scanContainer, hStarts.skipSpace]
      obtain ⟨c, t, hText, -, hArray, hObject⟩ := hStarts
      have hFuel : (x :: xs).length ≤ (t ++ close :: rest).length + 2 := by
        rw [hText] at hLength
        simp only [List.length_cons, List.length_append] at hLength ⊢
        omega
      have hOther : c ≠ close := by
        rintro rfl
        exact hClose.elim hArray hObject
      rw [hText, List.cons_append]
      dsimp only
      rw [if_neg hOther, ← List.cons_append, ← hText]
      exact scanItems_joinItems hClose (List.cons_ne_nil x xs) h hFuel rest

end Containers

/-! Values -/

/-- A key that is new goes to the end of the fields. -/
theorem keys_set (fields : Fields) {key : Text} (v : Json) (h : key ∉ fields.map Prod.fst) :
    Fields.set fields key v = fields ++ [(key, v)] := by
  induction fields with
  | nil => rfl
  | cons field fields ih =>
      rw [List.map_cons, List.mem_cons, not_or] at h
      rw [Fields.set, if_neg fun hSame => h.1 hSame.symm, ih h.2]
      rfl

/-- Fields with keys that are all new are appended in their order. -/
theorem foldl_set {before fields : Fields} (h : ((before ++ fields).map Prod.fst).Nodup) :
    fields.foldl (fun fields pair => Fields.set fields pair.1 pair.2) before = before ++ fields := by
  induction fields generalizing before with
  | nil => rw [List.foldl_nil, List.append_nil]
  | cons field fields ih =>
      have hNew : field.1 ∉ before.map Prod.fst := by
        rw [List.map_append, List.map_cons] at h
        exact fun hMem => (List.nodup_append.mp h).2.2 field.1 hMem field.1 List.mem_cons_self rfl
      rw [List.foldl_cons, keys_set before field.2 hNew, ih (by simpa using h), List.append_assoc]
      rfl

/-- A `dict` is that of its own items: built from its items one by one, it has the same
fields in the same order. -/
theorem ofPairs_of_nodup {fields : Fields} (h : (fields.map Prod.fst).Nodup) : Fields.ofPairs fields = fields :=
  foldl_set h

/-- A value without floats, which nests so deep at most, and with nothing that `loads`
would read as something else. -/
inductive Json.Plain : Nat → Json → Prop where
  | null (limit : Nat) : Plain limit .null
  | bool (limit : Nat) (b : Bool) : Plain limit (.bool b)
  | int (limit : Nat) (i : Int) (h : (digitsText i.natAbs).length ≤ maxDigits) : Plain limit (.int i)
  | str (limit : Nat) (s : Text) (h : unpaired s = true) : Plain limit (.str s)
  | arr (limit : Nat) (items : List Json) (h : ∀ v ∈ items, Plain limit v) : Plain (limit + 1) (.arr items)
  | obj (limit : Nat) (fields : Fields) (hKeys : (fields.map Prod.fst).Nodup)
      (hTexts : ∀ field ∈ fields, unpaired field.1 = true) (h : ∀ field ∈ fields, Plain limit field.2) :
      Plain (limit + 1) (.obj fields)

section Values

variable (tables : Tables) (parseFloat : Text → PyFloat)

/-- The items of an array are printed with commas between them. -/
theorem dumpsItems_eq (items : List Json) : dumpsItems tables items = joinItems (dumps tables) items := by
  induction items with
  | nil => rfl
  | cons v items ih =>
      cases items with
      | nil => rfl
      | cons w items =>
          rw [dumpsItems, ih]
          · rfl
          · exact List.cons_ne_nil w items

def dumpsField (field : Text × Json) : Text := dumpsText field.1 ++ text ": " ++ dumps tables field.2

/-- The fields of an object are printed with commas between them. -/
theorem dumpsFields_eq (fields : Fields) : dumpsFields tables fields = joinItems (dumpsField tables) fields := by
  induction fields with
  | nil => rfl
  | cons field fields ih =>
      cases fields with
      | nil => rfl
      | cons field' fields =>
          rw [dumpsFields, ih]
          · rfl
          · exact List.cons_ne_nil field' fields

/-- No printed value starts with white space or a closing bracket. Floats are left out,
whose texts are a parameter. -/
theorem starts_dumps (v : Json) (h : ∀ f, v ≠ .float f) : Starts (dumps tables v) := by
  cases v with
  | null => exact ⟨_, _, rfl, by decide⟩
  | bool b => cases b <;> exact ⟨_, _, rfl, by decide⟩
  | float f => exact absurd rfl (h f)
  | int i =>
      have hDigits (n : Nat) : Starts (digitsText n) := by
        obtain ⟨c, s, hHead, -⟩ := head_digitsText n
        have hDigit : isJsonDigit c = true := mem_digitsText (hHead ▸ List.mem_cons_self)
        refine ⟨c, s, hHead, ?_, ?_, ?_⟩
        · by_contra hSpace
          simp only [isJsonSpace, Bool.not_eq_false, Bool.or_eq_true, decide_eq_true_eq] at hSpace
          rcases hSpace with ((rfl | rfl) | rfl) | rfl <;> cases hDigit
        · rintro rfl
          cases hDigit
        · rintro rfl
          cases hDigit
      cases i with
      | ofNat n => exact hDigits n
      | negSucc n => exact ⟨45, _, rfl, by decide⟩
  | str s => exact ⟨34, _, rfl, by decide⟩
  | arr items => exact ⟨91, _, rfl, by decide⟩
  | obj fields => exact ⟨123, _, rfl, by decide⟩

theorem scanOnce_string (limit : Nat) {s : Text} (h : unpaired s = true) (rest : Text) :
    scanOnce parseFloat limit (dumpsText s ++ rest) = .ok (.str s, rest) := by
  have hText : dumpsText s ++ rest = 34 :: (s.flatMap escape ++ 34 :: rest) := by simp [dumpsText]
  rw [hText, scanOnce.eq_def]
  dsimp only
  rw [if_pos rfl, scanString_dumpsText h]
  rfl

/-- A field is read back where its value is: its key up to the colon, and then the
value. -/
theorem reads_field {scan : Text → Except JsonError (Json × Text)} {field : Text × Json}
    (hKey : unpaired field.1 = true) (h : Reads scan (dumps tables) field.2) :
    Reads (scanField scan) (dumpsField tables) field := by
  refine ⟨⟨34, _, rfl, by decide⟩, fun rest hRest => ?_⟩
  have hText : dumpsField tables field ++ rest =
      34 :: (field.1.flatMap escape ++ 34 :: (58 :: 32 :: (dumps tables field.2 ++ rest))) := by
    simp [dumpsField, dumpsText, text]
  have hValue : skipSpace (32 :: (dumps tables field.2 ++ rest)) = dumps tables field.2 ++ rest := h.1.skipSpace rest
  rw [hText, scanField]
  dsimp only
  rw [if_pos rfl, scanString_dumpsText hKey]
  dsimp only [bind, Except.bind]
  rw [show skipSpace (58 :: 32 :: (dumps tables field.2 ++ rest)) = 58 :: 32 :: (dumps tables field.2 ++ rest) from rfl]
  dsimp only
  rw [if_pos rfl, hValue, h.2 rest hRest]
  rfl

/-- A value is read up to its end, and what follows is left as it is. By induction on how
the value is built, with the depth that is left to it. -/
theorem reads_dumps {limit : Nat} {v : Json} (h : v.Plain limit) :
    Reads (scanOnce parseFloat limit) (dumps tables) v := by
  induction h with
  | null limit =>
      refine ⟨starts_dumps tables _ (by simp), fun rest _ => ?_⟩
      rw [show dumps tables .null ++ rest = 110 :: 117 :: 108 :: 108 :: rest from rfl,
        scanOnce_literal _ _ (by decide) (by decide)]
      rfl
  | bool limit b =>
      refine ⟨starts_dumps tables _ (by simp), fun rest _ => ?_⟩
      cases b with
      | false =>
          rw [show dumps tables (.bool false) ++ rest = 102 :: 97 :: 108 :: 115 :: 101 :: rest from rfl,
            scanOnce_literal _ _ (by decide) (by decide)]
          rfl
      | true =>
          rw [show dumps tables (.bool true) ++ rest = 116 :: 114 :: 117 :: 101 :: rest from rfl,
            scanOnce_literal _ _ (by decide) (by decide)]
          rfl
  | int limit i h =>
      refine ⟨starts_dumps tables _ (by simp), fun rest hRest => ?_⟩
      exact scanOnce_int limit h hRest
  | str limit s h =>
      refine ⟨starts_dumps tables _ (by simp), fun rest _ => ?_⟩
      exact scanOnce_string parseFloat limit h rest
  | arr limit items h ih =>
      refine ⟨starts_dumps tables _ (by simp), fun rest _ => ?_⟩
      have hText : dumps tables (.arr items) ++ rest = 91 :: (joinItems (dumps tables) items ++ 93 :: rest) := by
        rw [dumps, dumpsItems_eq]
        simp [text]
      rw [hText, scanOnce.eq_def]
      dsimp only
      rw [if_neg (by decide), if_pos (by decide), if_neg (by decide), scanContainer_joinItems (.inl rfl) ih]
      rfl
  | obj limit fields hKeys hTexts h ih =>
      refine ⟨starts_dumps tables _ (by simp), fun rest _ => ?_⟩
      have hText : dumps tables (.obj fields) ++ rest =
          123 :: (joinItems (dumpsField tables) fields ++ 125 :: rest) := by
        rw [dumps, dumpsFields_eq]
        simp [text]
      rw [hText, scanOnce.eq_def]
      dsimp only
      rw [if_neg (by decide), if_pos (by decide), if_pos rfl, scanContainer_joinItems (.inr rfl) fun field hMem =>
        reads_field tables (hTexts field hMem) (ih field hMem)]
      dsimp only [Except.map]
      rw [ofPairs_of_nodup hKeys]

/-- A printed value is read back by `json.loads`, also from a line that its newline
ends. -/
theorem loads_dumps {limit : Nat} {v : Json} (h : v.Plain limit) {rest : Text} (hRest : rest = [] ∨ rest = [10]) :
    loads parseFloat limit (dumps tables v ++ rest) = .ok v := by
  obtain ⟨hStarts, hReads⟩ := reads_dumps tables parseFloat h
  have hEnds : Ends rest := by
    rcases hRest with rfl | rfl
    · exact fun c hc => nomatch hc
    · exact fun c hc => .inr (.inr (.inr (Option.some.inj hc).symm))
  have hSpace : (skipSpace rest).isEmpty = true := by
    rcases hRest with rfl | rfl <;> rfl
  rw [loads, hStarts.skipSpace, hReads rest hEnds]
  dsimp only [bind, Except.bind]
  rw [if_pos hSpace]

/-! Printed texts are ASCII -/

def Printable (s : Text) : Prop := ∀ c ∈ s, 32 ≤ c.val ∧ c.val ≤ 126

instance printable_decidable (s : Text) : Decidable (Printable s) :=
  decidable_of_iff (s.all fun c => 32 ≤ c.val ∧ c.val ≤ 126) (by simp [Printable])

theorem Printable.append {s t : Text} (hs : Printable s) (ht : Printable t) : Printable (s ++ t) := by
  intro c hc
  exact (List.mem_append.mp hc).elim (hs c) (ht c)

theorem printable_hexChar {x : Nat} (h : x < 16) : 32 ≤ (hexChar x).val ∧ (hexChar x).val ≤ 126 := by
  revert x
  decide

/-- An escape is ASCII, whatever it stands for. -/
theorem printable_unicodeEscape (x : Nat) : Printable (unicodeEscape x) := by
  refine Printable.append (by decide) fun c hc => ?_
  obtain ⟨shift, -, rfl⟩ := List.mem_map.mp hc
  exact printable_hexChar (Nat.mod_lt _ (by omega))

/-- Each code point is printed in ASCII: as itself, with a short escape or with its
digits. -/
theorem printable_escape (c : CodePoint) : Printable (escape c) := by
  rw [escape]
  split
  case h_8 =>
    split_ifs with hAscii
    · simpa [Printable] using hAscii
    · exact printable_unicodeEscape c.val
    · exact (printable_unicodeEscape _).append (printable_unicodeEscape _)
  all_goals decide

theorem printable_dumpsText (s : Text) : Printable (dumpsText s) := by
  intro c hc
  simp only [dumpsText, List.cons_append, List.mem_cons, List.mem_append, List.mem_flatMap, List.not_mem_nil,
    or_false] at hc
  rcases hc with rfl | ⟨d, -, hc⟩ | rfl
  · decide
  · exact printable_escape d c hc
  · decide

theorem printable_dumpsInt (i : Int) : Printable (dumpsInt i) := by
  have hDigits (n : Nat) : Printable (digitsText n) := by
    intro c hc
    have hDigit : 48 ≤ c.val ∧ c.val ≤ 57 := by
      have hDigit := mem_digitsText hc
      rw [isJsonDigit, Bool.and_eq_true, decide_eq_true_eq, decide_eq_true_eq] at hDigit
      exact hDigit
    omega
  cases i with
  | ofNat n => exact hDigits n
  | negSucc n => exact Printable.append (s := [45]) (by decide) (hDigits (n + 1))

theorem printable_joinItems {α : Type} {print : α → Text} {xs : List α} (h : ∀ x ∈ xs, Printable (print x)) :
    Printable (joinItems print xs) := by
  induction xs with
  | nil => exact fun c hc => nomatch hc
  | cons x xs ih =>
      have hHead := h x List.mem_cons_self
      have hTail := ih fun y hy => h y (List.mem_cons_of_mem x hy)
      cases xs with
      | nil => exact hHead
      | cons y ys => exact (hHead.append (by decide)).append hTail

/-- What `json.dumps` prints is ASCII without control characters, so that a line holds no
newline of its own. Floats are left out. -/
theorem printable_dumps {limit : Nat} {v : Json} (h : v.Plain limit) : Printable (dumps tables v) := by
  induction h with
  | null => exact show Printable (text "null") by decide
  | bool limit b => cases b <;> exact show Printable (text _) by decide
  | int limit i => exact printable_dumpsInt i
  | str limit s => exact printable_dumpsText s
  | arr limit items h ih =>
      rw [dumps, dumpsItems_eq]
      exact (Printable.append (by decide) (printable_joinItems ih)).append (by decide)
  | obj limit fields hKeys hTexts h ih =>
      rw [dumps, dumpsFields_eq]
      refine (Printable.append (by decide) (printable_joinItems fun field hMem => ?_)).append (by decide)
      exact ((printable_dumpsText field.1).append (by decide)).append (ih field hMem)

end Values

end Python
