import PrlMiner.Library.Regex

/-! A character at the end of a text that a search does not see. -/
namespace Regexes

variable {α : Type*} {x : α}

/-- The same place with a character at the end of its text. -/
def Place.extend (x : α) (c : Place α) : Place α := ⟨c.before, c.after ++ [x], c.captured⟩

/-- The places short of the end of the text. -/
def inside (places : List (Place α)) : List (Place α) := places.filter fun c => !c.after.isEmpty

/-- An assertion holds before `x` as it does at the end of the text. -/
def Regex.Blind (x : α) : Regex α → Prop
  | .assert p => ∀ before, p before (some x) = p before none
  | .seq r s | .alt r s => r.Blind x ∧ s.Blind x
  | .group r => r.Blind x
  | _ => True

section Blind

variable {r s : Regex α}

/-- Only an assertion looks at what comes next: the other atoms are blind to everything, -/
@[simp] theorem blind_empty : (Regex.empty : Regex α).Blind x := trivial

@[simp] theorem blind_one (p : α → Bool) : (Regex.one p).Blind x := trivial

@[simp] theorem blind_many (limit : Option Nat) (p : α → Bool) : (Regex.many limit p).Blind x := trivial

/-- and a compound is blind where its parts are. -/
@[simp] theorem blind_seq : (Regex.seq r s).Blind x ↔ r.Blind x ∧ s.Blind x := Iff.rfl

@[simp] theorem blind_alt : (Regex.alt r s).Blind x ↔ r.Blind x ∧ s.Blind x := Iff.rfl

@[simp] theorem blind_group : (Regex.group r).Blind x ↔ r.Blind x := Iff.rfl

@[simp] theorem blind_opt : (Regex.opt r).Blind x ↔ r.Blind x := and_iff_left trivial

/-- A sequence is blind to `x` where all its parts are. -/
@[simp] theorem blind_all {l : List (Regex α)} : (Regex.all l).Blind x ↔ ∀ r ∈ l, r.Blind x := by
  induction l with
  | nil => exact iff_of_true trivial nofun
  | cons r l ih => rw [List.forall_mem_cons, ← ih, Regex.all, List.foldr_cons, blind_seq]

end Blind

/-- A match that takes something does not end with `x`, -/
def Regex.Keeps (x : α) (r : Regex α) : Prop :=
  ∀ c d, Matches r c d → d.before = c.before ∨ d.before.head? ≠ some x

/-- and a match takes something that does not end with `x`. -/
def Regex.Ends (x : α) (r : Regex α) : Prop := ∀ c d, Matches r c d → ∃ y, y ≠ x ∧ d.before.head? = some y

section Extended

variable {p : α → Bool} {c d : Place α} {r : Regex α}

@[simp] theorem inside_append (l l' : List (Place α)) : inside (l ++ l') = inside l ++ inside l' :=
  List.filter_append _ _

/-- From the end of the text no match comes to a place short of the end. -/
theorem inside_run_end (h : c.after = []) : inside (r.run c) = [] := by
  simp only [inside, List.filter_eq_nil_iff, Bool.not_eq_true', Bool.not_eq_false, List.isEmpty_iff]
  intro d hMem
  obtain ⟨xs, hAfter, -⟩ := (mem_run_iff.mp hMem).consumes
  rw [h] at hAfter
  exact (List.append_eq_nil_iff.mp hAfter.symm).2

/-- A character at the end of the text gives a step one more place to come to at most, and
this is the end. -/
theorem step_extend : inside ((c.extend x).step p) = (c.step p).map (Place.extend x) := by
  obtain ⟨before, after, captured⟩ := c
  cases after with
  | nil => by_cases hx : p x <;> simp [Place.extend, Place.step, inside, hx]
  | cons y rest => by_cases hy : p y <;> simp [Place.extend, Place.step, inside, hy]

/-- In sequence: where two lists of places agree short of the end, and what follows each
place does, the sequences agree short of the end. -/
theorem inside_flatMap {f g : Place α → List (Place α)} {places places' : List (Place α)}
    (hPlaces : inside places = places'.map (Place.extend x)) (hEnd : ∀ c, c.after = [] → inside (f c) = [])
    (hInside : ∀ c ∈ places', inside (f (c.extend x)) = (g c).map (Place.extend x)) :
    inside (places.flatMap f) = (places'.flatMap g).map (Place.extend x) := by
  have hDrop : inside (places.flatMap f) = (inside places).flatMap fun c => inside (f c) := by
    clear hPlaces
    induction places with
    | nil => rfl
    | cons c places ih =>
        rw [List.flatMap_cons, inside_append, ih]
        cases hAfter : c.after with
        | nil =>
            rw [hEnd c hAfter, List.nil_append]
            simp [inside, hAfter]
        | cons y rest => simp [inside, hAfter]
  rw [hDrop, hPlaces, List.flatMap_map, List.map_flatMap]
  exact List.flatMap_congr hInside

/-- A repetition with more rounds than there are characters takes no more than these. -/
theorem steps_of_length_le {n : Nat} (h : c.after.length ≤ n) : c.steps p n = c.steps p c.after.length := by
  induction n generalizing c with
  | zero => rw [Nat.le_zero.mp h]
  | succ n ih =>
      obtain ⟨before, after, captured⟩ := c
      cases after with
      | nil => simp [Place.steps, Place.step]
      | cons y rest =>
          rw [Place.steps, List.length_cons, Place.steps, Place.step]
          dsimp only
          by_cases hy : p y
          · rw [if_pos hy, List.flatMap_singleton, List.flatMap_singleton]
            rw [ih (Nat.le_of_succ_le_succ h)]
          · rw [if_neg hy]
            rfl

theorem inside_steps_end (n : Nat) (h : c.after = []) : inside (c.steps p n) = [] := by
  simp only [inside, List.filter_eq_nil_iff, Bool.not_eq_true', Bool.not_eq_false, List.isEmpty_iff]
  intro d hMem
  obtain ⟨xs, -, -, hAfter, -, -⟩ := mem_steps.mp hMem
  rw [h] at hAfter
  exact (List.append_eq_nil_iff.mp hAfter.symm).2

/-- Steps over a text with one character more come to the same places short of the end, in
the same order. -/
theorem steps_extend (n : Nat) : inside ((c.extend x).steps p n) = (c.steps p n).map (Place.extend x) := by
  induction n generalizing c with
  | zero => simp [Place.steps, Place.extend, inside]
  | succ n ih =>
      rw [Place.steps, Place.steps, inside_append, List.map_append,
        inside_flatMap step_extend (fun c => inside_steps_end n) fun c _ => ih]
      simp [inside, Place.extend]

/-- The matches short of a character that no assertion sees are those of the text without
it, in the order in which they are tried. -/
theorem run_extend (hBlind : r.Blind x) : inside (r.run (c.extend x)) = (r.run c).map (Place.extend x) := by
  induction r generalizing c with
  | empty => simp [Regex.run, inside, Place.extend]
  | one p => exact step_extend
  | assert p =>
      have hSame : p (c.extend x).before.head? (c.extend x).after.head? = p c.before.head? c.after.head? := by
        obtain ⟨before, after, captured⟩ := c
        cases after with
        | nil => exact hBlind before.head?
        | cons y rest => rfl
      rw [Regex.run, Regex.run, hSame]
      by_cases hHolds : p c.before.head? c.after.head? <;> simp [hHolds, inside, Place.extend]
  | seq r s ihr ihs =>
      exact inside_flatMap (ihr hBlind.1) (fun c => inside_run_end) fun c _ => ihs hBlind.2
  | alt r s ihr ihs =>
      rw [Regex.run, Regex.run, inside_append, List.map_append, ihr hBlind.1, ihs hBlind.2]
  | many limit p =>
      rw [Regex.run, Regex.run]
      cases limit with
      | some n => exact steps_extend n
      | none =>
          have hLong : c.steps p ((c.extend x).after.length) = c.steps p c.after.length :=
            steps_of_length_le (by simp [Place.extend])
          rw [Option.getD_none, Option.getD_none, steps_extend, hLong]
  | group r ih =>
      have hCommutes (f : Place α → Option (List α)) (l : List (Place α)) :
          inside (l.map fun d => { d with captured := f d }) = (inside l).map fun d => { d with captured := f d } := by
        rw [inside, List.filter_map]
        rfl
      rw [Regex.run, Regex.run, hCommutes, ih hBlind, List.map_map, List.map_map]
      refine List.map_congr_left fun d _ => ?_
      have hText : (c.after ++ [x]).take ((c.after ++ [x]).length - (d.after ++ [x]).length) =
          c.after.take (c.after.length - d.after.length) := by
        rw [List.length_append, List.length_append, Nat.add_sub_add_right]
        exact List.take_append_of_le_length (Nat.sub_le _ _)
      simp only [Function.comp_apply, Place.extend]
      rw [hText]

end Extended

section Search

variable {p : α → Bool} {r s : Regex α} {l : List α}

/-- A search does not see a character that no match ends with and no assertion sees: it
finds the same match, or none, in the text without it. -/
theorem searchFrom_extend (hBlind : r.Blind x) (hEnds : r.Ends x) (before : List α) :
    r.searchFrom before (l ++ [x]) = (r.searchFrom before l).map (Place.extend x) := by
  have hWhole (c : Place α) : r.run (c.extend x) = (r.run c).map (Place.extend x) := by
    rw [← run_extend hBlind, inside, eq_comm, List.filter_eq_self]
    intro d hMem
    have hMatch := mem_run_iff.mp hMem
    obtain ⟨xs, hAfter, hBefore⟩ := hMatch.consumes
    obtain ⟨y, hy, hLast⟩ := hEnds _ _ hMatch
    cases hRest : d.after with
    | cons z rest => rfl
    | nil =>
        rw [hRest, List.append_nil] at hAfter
        rw [hBefore, ← hAfter] at hLast
        simp only [Place.extend, List.reverse_append, List.reverse_singleton, List.cons_append, List.head?_cons,
          Option.some.injEq] at hLast
        exact absurd hLast.symm hy
  induction l generalizing before with
  | nil =>
      have hAtEnd : (r.run ⟨x :: before, [], none⟩).head? = none := by
        rw [List.head?_eq_none_iff, List.eq_nil_iff_forall_not_mem]
        intro d hMem
        have hMatch := mem_run_iff.mp hMem
        obtain ⟨xs, hAfter, hBefore⟩ := hMatch.consumes
        obtain ⟨y, hy, hLast⟩ := hEnds _ _ hMatch
        rw [(List.append_eq_nil_iff.mp hAfter.symm).1] at hBefore
        rw [hBefore] at hLast
        exact hy (Option.some.inj hLast).symm
      have hPlace := hWhole ⟨before, [], none⟩
      rw [List.nil_append, Regex.searchFrom, Regex.searchFrom, Regex.searchFrom, hAtEnd, Option.or_none]
      exact (congrArg List.head? hPlace).trans List.head?_map
  | cons y rest ih =>
      have hPlace := hWhole ⟨before, y :: rest, none⟩
      rw [List.cons_append, Regex.searchFrom, Regex.searchFrom, ih, Option.map_or, ← List.head?_map, ← hPlace]
      rfl

/-- The same for a search from the start of the text. -/
theorem search_extend (hBlind : r.Blind x) (hEnds : r.Ends x) :
    r.search (l ++ [x]) = (r.search l).map (Place.extend x) := searchFrom_extend hBlind hEnds []

theorem keeps_empty : (Regex.empty : Regex α).Keeps x := by
  intro c d h
  cases h
  exact .inl rfl

theorem keeps_assert {p : Option α → Option α → Bool} : (Regex.assert p).Keeps x := by
  intro c d h
  cases h
  exact .inl rfl

/-- A repetition of characters other than `x` takes no `x`. -/
theorem keeps_many {limit : Option Nat} (hx : p x = false) : (Regex.many limit p).Keeps x := by
  intro c d h
  cases h with
  | @many _ _ xs before rest captured hAll =>
      rcases List.eq_nil_or_concat xs with rfl | ⟨ys, y, rfl⟩
      · exact .inl rfl
      · right
        have hy := hAll y (by simp)
        simp only [List.concat_eq_append, List.reverse_append, List.reverse_singleton, List.cons_append,
          List.head?_cons, ne_eq, Option.some.injEq]
        rintro rfl
        exact Bool.false_ne_true (hx.symm.trans hy)

/-- A regex whose matches all take something and end otherwise keeps to this a
fortiori. -/
theorem Regex.Ends.keeps (h : r.Ends x) : r.Keeps x := by
  intro c d hMatch
  obtain ⟨y, hy, hLast⟩ := h c d hMatch
  right
  rw [hLast]
  exact fun hSame => hy (Option.some.inj hSame)

/-- A sequence ends as its second part does, or as the first where the second takes
nothing. -/
theorem keeps_seq (hr : r.Keeps x) (hs : s.Keeps x) : (Regex.seq r s).Keeps x := by
  intro c e h
  cases h with
  | seq hFirst hSecond =>
      rcases hs _ _ hSecond with hSame | hOther
      · rw [hSame]
        exact hr _ _ hFirst
      · exact .inr hOther

theorem keeps_alt (hr : r.Keeps x) (hs : s.Keeps x) : (Regex.alt r s).Keeps x := by
  intro c d h
  cases h with
  | left h => exact hr c d h
  | right h => exact hs c d h

theorem ends_one (hx : p x = false) : (Regex.one p).Ends x := by
  intro c d h
  cases h with
  | @one _ y _ _ _ hy =>
      refine ⟨y, ?_, rfl⟩
      rintro rfl
      exact Bool.false_ne_true (hx.symm.trans hy)

theorem ends_alt (hr : r.Ends x) (hs : s.Ends x) : (Regex.alt r s).Ends x := by
  intro c d h
  cases h with
  | left h => exact hr c d h
  | right h => exact hs c d h

theorem ends_group (hr : r.Ends x) : (Regex.group r).Ends x := by
  intro c d h
  cases h with
  | @group _ _ d _ hMatch hText => exact hr c d hMatch

/-- A sequence whose second part takes something ends as this does. -/
theorem ends_last (hs : s.Ends x) : (Regex.seq r s).Ends x := by
  intro c e h
  cases h with
  | seq hFirst hSecond => exact hs _ _ hSecond

/-- A sequence whose second part may take nothing ends as the first then does. -/
theorem ends_first (hr : r.Ends x) (hs : s.Keeps x) : (Regex.seq r s).Ends x := by
  intro c e h
  cases h with
  | seq hFirst hSecond =>
      obtain ⟨y, hy, hLast⟩ := hr _ _ hFirst
      rcases hs _ _ hSecond with hSame | hOther
      · exact ⟨y, hy, hSame ▸ hLast⟩
      · obtain ⟨xs, -, hBefore⟩ := hSecond.consumes
        cases hList : xs.reverse with
        | nil => exact ⟨y, hy, by rw [hBefore, hList, List.nil_append, hLast]⟩
        | cons z zs =>
            rw [hBefore, hList] at hOther
            exact ⟨z, fun hSame => hOther (congrArg some hSame), by rw [hBefore, hList]; rfl⟩

end Search

section Literals

variable {same : α → α → Bool} {w : List α}

theorem blind_literal : (Regex.literal same w).Blind x := by
  refine blind_all.mpr fun r hMem => ?_
  obtain ⟨c, -, rfl⟩ := List.mem_map.mp hMem
  exact trivial

theorem keeps_literal (h : ∀ c ∈ w, same c x = false) : (Regex.literal same w).Keeps x := by
  induction w with
  | nil => exact keeps_empty
  | cons c w ih =>
      obtain ⟨hFirst, hOthers⟩ := List.forall_mem_cons.mp h
      exact keeps_seq (ends_one hFirst).keeps (ih hOthers)

/-- A literal without `x` takes something that does not end with `x`, unless it is the
empty one. -/
theorem ends_literal (hSome : w ≠ []) (h : ∀ c ∈ w, same c x = false) : (Regex.literal same w).Ends x := by
  cases w with
  | nil => exact absurd rfl hSome
  | cons c w =>
      obtain ⟨hFirst, hOthers⟩ := List.forall_mem_cons.mp h
      exact ends_first (ends_one hFirst) (keeps_literal hOthers)

end Literals

end Regexes
