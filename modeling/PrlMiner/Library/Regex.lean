import Mathlib.Data.List.Basic

/-! Regular expressions as a backtracking matcher tries them: alternatives in their
order, and of a repetition the longest first. -/
namespace Regexes

variable {α : Type*}

/-- A repetition is of single characters. An assertion sees the characters at both
sides of its place. -/
inductive Regex (α : Type*) where
  | empty
  | one (p : α → Bool)
  | assert (p : Option α → Option α → Bool)
  | seq (r s : Regex α)
  | alt (r s : Regex α)
  | many (limit : Option Nat) (p : α → Bool)
  | group (r : Regex α)

/-- A place in a text. What is before it is reversed. -/
@[ext]
structure Place (α : Type*) where
  before : List α
  after : List α
  captured : Option (List α)

def Place.step (p : α → Bool) (c : Place α) : List (Place α) :=
  match c.after with
  | [] => []
  | x :: rest => if p x then [⟨x :: c.before, rest, c.captured⟩] else []

def Place.steps (p : α → Bool) : Nat → Place α → List (Place α)
  | 0, c => [c]
  | n + 1, c => (c.step p).flatMap (Place.steps p n) ++ [c]

/-- Where the matches from a place end, the first one tried first. -/
def Regex.run : Regex α → Place α → List (Place α)
  | .empty, c => [c]
  | .one p, c => c.step p
  | .assert p, c => if p c.before.head? c.after.head? then [c] else []
  | .seq r s, c => (r.run c).flatMap s.run
  | .alt r s, c => r.run c ++ s.run c
  | .many limit p, c => c.steps p (limit.getD c.after.length)
  | .group r, c => (r.run c).map fun d =>
      { d with captured := some (c.after.take (c.after.length - d.after.length)) }

def Regex.searchFrom (r : Regex α) : List α → List α → Option (Place α)
  | before, [] => (r.run ⟨before, [], none⟩).head?
  | before, x :: rest => (r.run ⟨before, x :: rest, none⟩).head?.or (r.searchFrom (x :: before) rest)

/-- The leftmost match. -/
def Regex.search (r : Regex α) (s : List α) : Option (Place α) := r.searchFrom [] s

/-- The regex `r` leads from a place to another. -/
inductive Matches : Regex α → Place α → Place α → Prop
  | empty {c : Place α} : Matches .empty c c
  | one {p : α → Bool} {x : α} {before rest : List α} {captured : Option (List α)} (h : p x = true) :
      Matches (.one p) ⟨before, x :: rest, captured⟩ ⟨x :: before, rest, captured⟩
  | assert {p : Option α → Option α → Bool} {c : Place α} (h : p c.before.head? c.after.head? = true) :
      Matches (.assert p) c c
  | seq {r s : Regex α} {c d e : Place α} (hFirst : Matches r c d) (hSecond : Matches s d e) :
      Matches (.seq r s) c e
  | left {r s : Regex α} {c d : Place α} (h : Matches r c d) : Matches (.alt r s) c d
  | right {r s : Regex α} {c d : Place α} (h : Matches s c d) : Matches (.alt r s) c d
  | many {limit : Option Nat} {p : α → Bool} {xs before rest : List α} {captured : Option (List α)}
      (hAll : ∀ x ∈ xs, p x = true) (hLimit : ∀ n ∈ limit, xs.length ≤ n) :
      Matches (.many limit p) ⟨before, xs ++ rest, captured⟩ ⟨xs.reverse ++ before, rest, captured⟩
  | group {r : Regex α} {c d : Place α} {xs : List α} (h : Matches r c d) (hText : c.after = xs ++ d.after) :
      Matches (.group r) c { d with captured := some xs }

section Matching

variable {p : α → Bool} {c d : Place α} {r s : Regex α}

/-- A step takes one character that `p` holds of from the text to what is before the
place. What is captured stays. -/
theorem mem_step : d ∈ c.step p ↔
    ∃ x, p x = true ∧ c.after = x :: d.after ∧ d.before = x :: c.before ∧ d.captured = c.captured := by
  obtain ⟨before, after, captured⟩ := c
  obtain ⟨before', after', captured'⟩ := d
  cases after with
  | nil => simp [Place.step]
  | cons x rest =>
      cases hx : p x with
      | false => simp [Place.step, hx]
      | true =>
          simp only [Place.step, hx, if_true, List.mem_singleton, Place.mk.injEq, List.cons.injEq]
          constructor
          · rintro ⟨rfl, rfl, rfl⟩
            exact ⟨x, hx, ⟨rfl, rfl⟩, rfl, rfl⟩
          · rintro ⟨y, -, ⟨rfl, rfl⟩, rfl, rfl⟩
            exact ⟨rfl, rfl, rfl⟩

/-- Steps take as many characters that `p` holds of as they like, up to their number. -/
theorem mem_steps {n : Nat} : d ∈ c.steps p n ↔
    ∃ xs, (∀ x ∈ xs, p x = true) ∧ xs.length ≤ n ∧ c.after = xs ++ d.after ∧
      d.before = xs.reverse ++ c.before ∧ d.captured = c.captured := by
  induction n generalizing c with
  | zero =>
      rw [Place.steps, List.mem_singleton]
      constructor
      · rintro rfl
        exact ⟨[], by simp, Nat.le_refl _, rfl, rfl, rfl⟩
      · rintro ⟨xs, -, hLength, hAfter, hBefore, hCaptured⟩
        obtain rfl := List.eq_nil_of_length_eq_zero (Nat.le_zero.mp hLength)
        exact Place.ext hBefore hAfter.symm hCaptured
  | succ n ih =>
      simp only [Place.steps, List.mem_append, List.mem_flatMap, List.mem_singleton, mem_step, ih]
      constructor
      · rintro (⟨e, ⟨x, hx, hAfter, hBefore, hCaptured⟩, xs, hAll, hLength, hAfter', hBefore', hCaptured'⟩ | rfl)
        · refine ⟨x :: xs, List.forall_mem_cons.mpr ⟨hx, hAll⟩, Nat.succ_le_succ hLength, ?_, ?_,
            hCaptured'.trans hCaptured⟩
          · rw [hAfter, hAfter', List.cons_append]
          · rw [hBefore', hBefore, List.reverse_cons, List.append_assoc, List.singleton_append]
        · exact ⟨[], by simp, Nat.zero_le _, rfl, rfl, rfl⟩
      · rintro ⟨xs, hAll, hLength, hAfter, hBefore, hCaptured⟩
        cases xs with
        | nil => exact .inr (Place.ext hBefore hAfter.symm hCaptured)
        | cons x xs =>
            left
            obtain ⟨hx, hRest⟩ := List.forall_mem_cons.mp hAll
            refine ⟨⟨x :: c.before, xs ++ d.after, c.captured⟩, ⟨x, hx, hAfter, rfl, rfl⟩, xs, hRest,
              Nat.le_of_succ_le_succ hLength, rfl, ?_, hCaptured⟩
            rw [hBefore, List.reverse_cons, List.append_assoc, List.singleton_append]

/-- A match moves the place over a text: what it takes from the rest is before the place
afterwards, and the whole text stays the same. -/
theorem Matches.consumes (h : Matches r c d) : ∃ xs, c.after = xs ++ d.after ∧ d.before = xs.reverse ++ c.before := by
  induction h with
  | empty => exact ⟨[], rfl, rfl⟩
  | one h => exact ⟨[_], rfl, rfl⟩
  | assert h => exact ⟨[], rfl, rfl⟩
  | seq _ _ ihFirst ihSecond =>
      obtain ⟨xs, hAfter, hBefore⟩ := ihFirst
      obtain ⟨ys, hAfter', hBefore'⟩ := ihSecond
      refine ⟨xs ++ ys, ?_, ?_⟩
      · rw [hAfter, hAfter', List.append_assoc]
      · rw [hBefore', hBefore, List.reverse_append, List.append_assoc]
  | left _ ih => exact ih
  | right _ ih => exact ih
  | many hAll hLimit => exact ⟨_, rfl, rfl⟩
  | group _ _ ih => exact ih

theorem matches_empty : Matches .empty c d ↔ d = c := by
  constructor
  · intro h
    cases h
    rfl
  · rintro rfl
    exact .empty

/-- A match of one character: `p` holds of it, and it is before the place afterwards. -/
theorem matches_one : Matches (.one p) c d ↔
    ∃ x, p x = true ∧ c.after = x :: d.after ∧ d.before = x :: c.before ∧ d.captured = c.captured := by
  constructor
  · intro h
    cases h with
    | one h => exact ⟨_, h, rfl, rfl, rfl⟩
  · rintro ⟨x, hx, hAfter, hBefore, hCaptured⟩
    obtain ⟨before, after, captured⟩ := c
    obtain ⟨before', after', captured'⟩ := d
    dsimp only at hAfter hBefore hCaptured
    subst hAfter hBefore hCaptured
    exact .one hx

theorem matches_assert {p : Option α → Option α → Bool} : Matches (.assert p) c d ↔
    p c.before.head? c.after.head? = true ∧ d = c := by
  constructor
  · intro h
    cases h with
    | assert h => exact ⟨h, rfl⟩
  · rintro ⟨h, rfl⟩
    exact .assert h

/-- A match of a sequence stops at some place in between, where the second part goes
on. -/
theorem matches_seq : Matches (.seq r s) c d ↔ ∃ e, Matches r c e ∧ Matches s e d := by
  constructor
  · intro h
    cases h with
    | seq hFirst hSecond => exact ⟨_, hFirst, hSecond⟩
  · rintro ⟨e, hFirst, hSecond⟩
    exact .seq hFirst hSecond

theorem matches_alt : Matches (.alt r s) c d ↔ Matches r c d ∨ Matches s c d := by
  constructor
  · intro h
    cases h with
    | left h => exact .inl h
    | right h => exact .inr h
  · rintro (h | h)
    · exact .left h
    · exact .right h

/-- A match of a repetition takes characters that `p` holds of each, no more than the
limit and as few as it likes. -/
theorem matches_many {limit : Option Nat} : Matches (.many limit p) c d ↔
    ∃ xs, (∀ x ∈ xs, p x = true) ∧ (∀ n ∈ limit, xs.length ≤ n) ∧ c.after = xs ++ d.after ∧
      d.before = xs.reverse ++ c.before ∧ d.captured = c.captured := by
  constructor
  · intro h
    cases h with
    | many hAll hLimit => exact ⟨_, hAll, hLimit, rfl, rfl, rfl⟩
  · rintro ⟨xs, hAll, hLimit, hAfter, hBefore, hCaptured⟩
    obtain ⟨before, after, captured⟩ := c
    obtain ⟨before', after', captured'⟩ := d
    dsimp only at hAfter hBefore hCaptured
    subst hAfter hBefore hCaptured
    exact .many hAll hLimit

/-- A match of a group is one of its regex, and captures the text that this takes, over
what was captured before. -/
theorem matches_group : Matches (.group r) c d ↔
    ∃ e xs, Matches r c e ∧ c.after = xs ++ e.after ∧ d = { e with captured := some xs } := by
  constructor
  · intro h
    cases h with
    | group hMatch hText => exact ⟨_, _, hMatch, hText, rfl⟩
  · rintro ⟨e, xs, hMatch, hText, rfl⟩
    exact .group hMatch hText

/-- The limit of the matcher is that of the repetition, or the length of the rest of the
text where there is none. The rest has no more characters to take. -/
theorem mem_run_many {limit : Option Nat} : d ∈ (Regex.many limit p).run c ↔ Matches (.many limit p) c d := by
  rw [Regex.run, mem_steps, matches_many]
  refine exists_congr fun xs => and_congr_right fun _ => ?_
  cases limit with
  | none =>
      constructor
      · rintro ⟨-, hPlaces⟩
        exact ⟨by simp, hPlaces⟩
      · rintro ⟨-, hAfter, hPlaces⟩
        exact ⟨by simp [hAfter], hAfter, hPlaces⟩
  | some n => simp

/-- The matcher cuts what a group captures from the text, by the lengths that are left
before and after. -/
theorem mem_run_group (ih : ∀ {c d : Place α}, d ∈ r.run c ↔ Matches r c d) :
    d ∈ (Regex.group r).run c ↔ Matches (.group r) c d := by
  simp only [Regex.run, List.mem_map, matches_group, ih]
  refine exists_congr fun e => ?_
  constructor
  · rintro ⟨hMatch, rfl⟩
    obtain ⟨xs, hAfter, -⟩ := hMatch.consumes
    exact ⟨xs, hMatch, hAfter, by simp [hAfter]⟩
  · rintro ⟨xs, hMatch, hAfter, rfl⟩
    exact ⟨hMatch, by simp [hAfter]⟩

/-- What the matcher finds are the matches: each of them is tried at some time, and
nothing else is. -/
theorem mem_run_iff : d ∈ r.run c ↔ Matches r c d := by
  induction r generalizing c d with
  | empty => rw [Regex.run, List.mem_singleton, matches_empty]
  | one p => rw [Regex.run, mem_step, matches_one]
  | assert p =>
      rw [Regex.run, matches_assert]
      split <;> simp [*]
  | seq r s ihr ihs => simp only [Regex.run, List.mem_flatMap, matches_seq, ihr, ihs]
  | alt r s ihr ihs => rw [Regex.run, List.mem_append, matches_alt, ihr, ihs]
  | many limit p => exact mem_run_many
  | group r ih => exact mem_run_group ih
/-- There is a first place to try exactly where there is a match at all. -/
theorem head?_run_isSome : (r.run c).head?.isSome ↔ ∃ d, Matches r c d := by
  cases h : r.run c with
  | nil =>
      refine iff_of_false (by simp) fun ⟨d, hMatch⟩ => ?_
      exact List.not_mem_nil (h ▸ mem_run_iff.mpr hMatch)
  | cons d ds => exact iff_of_true (by simp) ⟨d, mem_run_iff.mp (h ▸ List.mem_cons_self)⟩

/-- A search that has come to some place finds a match exactly where there is one further
on, at this place or behind characters that it skips. -/
theorem searchFrom_isSome {before s : List α} : (r.searchFrom before s).isSome ↔
    ∃ skipped after d, s = skipped ++ after ∧ Matches r ⟨skipped.reverse ++ before, after, none⟩ d := by
  induction s generalizing before with
  | nil =>
      rw [Regex.searchFrom, head?_run_isSome]
      constructor
      · rintro ⟨d, h⟩
        exact ⟨[], [], d, rfl, h⟩
      · rintro ⟨skipped, after, d, hText, h⟩
        obtain ⟨rfl, rfl⟩ := List.append_eq_nil_iff.mp hText.symm
        exact ⟨d, h⟩
  | cons x rest ih =>
      rw [Regex.searchFrom, Option.isSome_or, Bool.or_eq_true, head?_run_isSome, ih]
      constructor
      · rintro (⟨d, h⟩ | ⟨skipped, after, d, rfl, h⟩)
        · exact ⟨[], _, d, rfl, h⟩
        · exact ⟨x :: skipped, after, d, rfl, by simpa using h⟩
      · rintro ⟨skipped, after, d, hText, h⟩
        cases skipped with
        | nil => exact .inl ⟨d, by simpa [hText] using h⟩
        | cons y skipped =>
            obtain ⟨rfl, hRest⟩ := List.cons.inj hText
            exact .inr ⟨skipped, after, d, hRest, by simpa using h⟩

/-- A search finds a match exactly where there is one, anywhere in the text. Which one it
finds this does not say. -/
theorem search_isSome {s : List α} : (r.search s).isSome ↔
    ∃ before after d, s = before ++ after ∧ Matches r ⟨before.reverse, after, none⟩ d := by
  rw [Regex.search, searchFrom_isSome]
  simp only [List.append_nil]

end Matching

section Literals

variable (same : α → α → Bool) {c d : Place α} {w : List α}

def Regex.all : List (Regex α) → Regex α := List.foldr .seq .empty

def Regex.opt (r : Regex α) : Regex α := .alt r .empty

/-- Each character as `same` has it. -/
def Regex.literal (w : List α) : Regex α := .all (w.map fun x => .one (same x))

/-- A literal takes as many characters as it has, each the same as its own up to the given
notion of sameness. -/
theorem matches_literal : Matches (.literal same w) c d ↔
    ∃ xs, List.Forall₂ (fun x y => same x y = true) w xs ∧ c.after = xs ++ d.after ∧
      d.before = xs.reverse ++ c.before ∧ d.captured = c.captured := by
  induction w generalizing c with
  | nil =>
      constructor
      · intro h
        cases h
        exact ⟨[], .nil, rfl, rfl, rfl⟩
      · rintro ⟨xs, hSame, hAfter, hBefore, hCaptured⟩
        cases hSame
        obtain ⟨before, after, captured⟩ := c
        obtain ⟨before', after', captured'⟩ := d
        simp only [List.nil_append, List.reverse_nil] at hAfter hBefore hCaptured
        rw [hAfter, hBefore, hCaptured]
        exact .empty
  | cons x w ih =>
      constructor
      · intro h
        cases h with
        | seq hFirst hSecond =>
            cases hFirst with
            | one hx =>
                obtain ⟨xs, hSame, hAfter, hBefore, hCaptured⟩ := ih.mp hSecond
                refine ⟨_ :: xs, .cons hx hSame, congrArg _ hAfter, ?_, hCaptured⟩
                rw [hBefore, List.reverse_cons, List.append_assoc, List.singleton_append]
      · rintro ⟨xs, hSame, hAfter, hBefore, hCaptured⟩
        cases hSame with
        | @cons _ y _ ys hx hSame =>
            obtain ⟨before, after, captured⟩ := c
            simp only [List.cons_append] at hAfter
            rw [hAfter]
            refine .seq (.one hx) (ih.mpr ⟨ys, hSame, rfl, ?_, hCaptured⟩)
            rw [hBefore, List.reverse_cons, List.append_assoc, List.singleton_append]

end Literals

end Regexes
