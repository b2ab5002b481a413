import Mathlib.Data.List.Basic

/-! Streams of lines, each ended by a separator, and the cut at the first one. -/
namespace Lines

variable {α : Type*} [DecidableEq α] {sep : α} {l line first rest : List α} {lines : List (List α)}

/-- What is before the first separator, and what is after it. -/
def split (sep : α) : List α → Option (List α × List α)
  | [] => none
  | x :: l => if x = sep then some ([], l) else (split sep l).map fun cut => (x :: cut.1, cut.2)

/-- The stream of some lines. -/
def joined (sep : α) (lines : List (List α)) : List α := lines.flatMap (· ++ [sep])

omit [DecidableEq α] in
@[simp] theorem joined_nil : joined sep [] = [] := rfl

omit [DecidableEq α] in
@[simp] theorem joined_cons : joined sep (line :: lines) = line ++ sep :: joined sep lines := by
  simp [joined]

omit [DecidableEq α] in
@[simp] theorem joined_append {lines' : List (List α)} :
    joined sep (lines ++ lines') = joined sep lines ++ joined sep lines' := List.flatMap_append

omit [DecidableEq α] in
/-- Every line has its separator, also an empty one, so that only the stream of no lines
is empty. -/
theorem joined_eq_nil (h : joined sep lines = []) : lines = [] := by
  cases lines with
  | nil => rfl
  | cons line lines => simp at h

/-- The cut is at the first separator, whatever follows it. -/
theorem split_append (h : sep ∉ line) : split sep (line ++ sep :: rest) = some (line, rest) := by
  induction line with
  | nil => simp [split]
  | cons x line ih =>
      rw [List.mem_cons, not_or] at h
      rw [List.cons_append, split, if_neg (Ne.symm h.1), ih h.2]
      rfl

/-- A cut is at a separator, and at no later one than the first. -/
theorem split_eq_some (h : split sep l = some (first, rest)) : sep ∉ first ∧ l = first ++ sep :: rest := by
  induction l generalizing first with
  | nil => cases h
  | cons x l ih =>
      rw [split] at h
      by_cases hSep : x = sep
      · rw [if_pos hSep] at h
        cases h
        rw [hSep]
        exact ⟨List.not_mem_nil, rfl⟩
      · rw [if_neg hSep] at h
        obtain ⟨⟨first', rest'⟩, hCut, hEq⟩ := Option.map_eq_some_iff.mp h
        cases hEq
        obtain ⟨hMem, rfl⟩ := ih hCut
        simp [Ne.symm hSep, hMem]

/-- A stream is not cut exactly where no separator has come yet. -/
theorem split_eq_none_iff : split sep l = none ↔ sep ∉ l := by
  induction l with
  | nil => simp [split]
  | cons x l ih =>
      rw [split, List.mem_cons]
      by_cases hSep : x = sep
      · simp [hSep]
      · simp [hSep, Ne.symm hSep, ih]

/-- The cut of a stream is at the end of its first line, also where only a part of the
stream is at hand and the tail is still to come. -/
theorem split_of_joined {tail : List α} (hLine : sep ∉ line) (hStream : l ++ tail = joined sep (line :: lines))
    (h : split sep l = some (first, rest)) : first = line ∧ rest ++ tail = joined sep lines := by
  obtain ⟨hFirst, rfl⟩ := split_eq_some h
  rw [joined_cons, List.append_assoc, List.cons_append] at hStream
  have hCut : split sep (line ++ sep :: joined sep lines) = some (line, joined sep lines) :=
    split_append hLine
  rw [← hStream, split_append hFirst] at hCut
  exact Prod.mk.inj (Option.some.inj hCut)

/-- The same where the stream breaks off: what is at hand and what is still to come are
the first part of it. -/
theorem split_of_prefix {tail : List α} (hLine : sep ∉ line) (hStream : l ++ tail <+: joined sep (line :: lines))
    (h : split sep l = some (first, rest)) : first = line ∧ rest ++ tail <+: joined sep lines := by
  obtain ⟨missing, hWhole⟩ := hStream
  rw [List.append_assoc] at hWhole
  obtain ⟨hFirst, hRest⟩ := split_of_joined hLine hWhole h
  exact ⟨hFirst, missing, by rw [List.append_assoc, hRest]⟩

end Lines
