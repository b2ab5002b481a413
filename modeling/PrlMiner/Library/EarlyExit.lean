import Mathlib.Data.List.Forall2

/-! Computations with two ends, each with its postcondition. -/
namespace EarlyExit

universe u v

variable {ε : Type u} {α β : Type v} {x : Except ε α} {post : α → Prop} {ended : ε → Prop}

/-- `post` of a result, `ended` of an early end. -/
def Ends (x : Except ε α) (post : α → Prop) (ended : ε → Prop) : Prop :=
  match x with
  | .ok a => post a
  | .error e => ended e

@[simp] theorem ends_ok (a : α) : Ends (.ok a : Except ε α) post ended ↔ post a := Iff.rfl

@[simp] theorem ends_error (e : ε) : Ends (.error e : Except ε α) post ended ↔ ended e := Iff.rfl

/-- In sequence: an early end of the first part is one of the whole, so that both parts
must allow it. A result of the first part is what the second goes on with. -/
theorem Ends.bind {f : α → Except ε β} {next : β → Prop} (h : Ends x post ended)
    (hf : ∀ a, post a → Ends (f a) next ended) : Ends (x >>= f) next ended := by
  cases x with
  | ok a => exact hf a h
  | error e => exact h

/-- A function of the result changes the postcondition of the result, and nothing about an
early end. -/
theorem Ends.map {f : α → β} {next : β → Prop} (h : Ends x post ended)
    (hf : ∀ a, post a → next (f a)) : Ends (x.map f) next ended := by
  cases x with
  | ok a => exact hf a h
  | error e => exact h

/-- Both postconditions can be weakened. -/
theorem Ends.mono {post' : α → Prop} {ended' : ε → Prop} (h : Ends x post ended)
    (hPost : ∀ a, post a → post' a) (hEnded : ∀ e, ended e → ended' e) : Ends x post' ended' := by
  cases x with
  | ok a => exact hPost a h
  | error e => exact hEnded e h

/-- A sequence with a result has one in both parts. -/
theorem bind_eq_ok {f : α → Except ε β} {b : β} : x >>= f = .ok b ↔ ∃ a, x = .ok a ∧ f a = .ok b := by
  cases x with
  | ok a => exact ⟨fun h => ⟨a, rfl, h⟩, fun ⟨_, hSame, h⟩ => Except.ok.inj hSame ▸ h⟩
  | error e =>
      constructor
      · intro h
        cases h
      · intro ⟨_, h, _⟩
        cases h

/-- A computation on every element of a list returns if it returns on each of them. No two
of the elements share a state. -/
theorem mapM_returns {γ : Type u} {f : γ → Except ε β} {xs : List γ} (h : ∀ x ∈ xs, ∃ y, f x = .ok y) :
    ∃ ys, xs.mapM f = .ok ys := by
  induction xs with
  | nil => exact ⟨[], rfl⟩
  | cons x xs ih =>
      obtain ⟨y, hHead⟩ := h x List.mem_cons_self
      obtain ⟨ys, hTail⟩ := ih fun x' hMem => h x' (List.mem_cons_of_mem x hMem)
      rw [List.mapM_cons, hHead]
      dsimp only [bind, Except.bind]
      rw [hTail]
      exact ⟨_, rfl⟩

/-- A computation on every element that has returned has done so on each of them, and its
results stand in the order of the elements. -/
theorem forall₂_of_mapM {γ : Type u} {f : γ → Except ε β} {xs : List γ} {ys : List β}
    (h : xs.mapM f = .ok ys) : List.Forall₂ (fun x y => f x = .ok y) xs ys := by
  induction xs generalizing ys with
  | nil =>
      cases h
      exact .nil
  | cons x xs ih =>
      rw [List.mapM_cons] at h
      obtain ⟨y, hHead, h⟩ := bind_eq_ok.mp h
      obtain ⟨rest, hTail, h⟩ := bind_eq_ok.mp h
      cases h
      exact .cons hHead (ih hTail)

section Two

variable {ε' : Type u} {α' β' : Type v} {ends : ε → ε' → Prop} {same : α → α' → Prop} {x : Except ε α}
  {x' : Except ε' α'}

/-- Two computations that end the same way, in related results or in related early ends. -/
inductive Matches (ends : ε → ε' → Prop) (same : α → α' → Prop) : Except ε α → Except ε' α' → Prop where
  | ok {a : α} {a' : α'} (h : same a a') : Matches ends same (.ok a) (.ok a')
  | error {e : ε} {e' : ε'} (h : ends e e') : Matches ends same (.error e) (.error e')

/-- Sequences match where their first parts do and the second parts do on every two
related results. -/
theorem Matches.bind {f : α → Except ε β} {f' : α' → Except ε' β'} {next : β → β' → Prop}
    (h : Matches ends same x x') (hf : ∀ a a', same a a' → Matches ends next (f a) (f' a')) :
    Matches ends next (x >>= f) (x' >>= f') := by
  cases h with
  | ok h => exact hf _ _ h
  | error h => exact .error h

/-- Functions that take related results to related ones keep a match, and early ends with
it. -/
theorem Matches.map {f : α → β} {f' : α' → β'} {next : β → β' → Prop} (h : Matches ends same x x')
    (hf : ∀ a a', same a a' → next (f a) (f' a')) : Matches ends next (x.map f) (x'.map f') := by
  cases h with
  | ok h => exact .ok (hf _ _ h)
  | error h => exact .error h

/-- The relation between early ends can be weakened, and the same holds for every match in
a sequence. -/
theorem Matches.mono {ends' : ε → ε' → Prop} (h : Matches ends same x x') (hEnds : ∀ e e', ends e e' → ends' e e') :
    Matches ends' same x x' := by
  cases h with
  | ok h => exact .ok h
  | error h => exact .error (hEnds _ _ h)

/-- Read the other way, by relations that say so of results and of early ends. -/
theorem Matches.symm {ends' : ε' → ε → Prop} {same' : α' → α → Prop} (h : Matches ends same x x')
    (hEnds : ∀ e e', ends e e' → ends' e' e) (hSame : ∀ a a', same a a' → same' a' a) : Matches ends' same' x' x := by
  cases h with
  | ok h => exact .ok (hSame _ _ h)
  | error h => exact .error (hEnds _ _ h)

/-- A computation matches itself where both relations are reflexive. -/
theorem Matches.refl {ends : ε → ε → Prop} {same : α → α → Prop} (hEnds : ∀ e, ends e e)
    (hSame : ∀ a, same a a) (x : Except ε α) : Matches ends same x x := by
  cases x with
  | ok a => exact .ok (hSame a)
  | error e => exact .error (hEnds e)

end Two

end EarlyExit
