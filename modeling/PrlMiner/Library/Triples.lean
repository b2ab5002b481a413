import Mathlib.Tactic.Cases

/-! Programs over a state that can stop early, and what holds of the state after them. -/
namespace Triples

/-- A program that returns, or stops with an error. Either way it leaves a state. -/
abbrev Prog (σ ε α : Type) : Type := ExceptT ε (StateM σ) α

variable {σ ε α β : Type} {P P' : σ → Prop} {E : σ → Prop}

/-- The end of a program: `Q` of what it returns, or `E`. -/
def Ends (Q : α → σ → Prop) (E : σ → Prop) : Except ε α × σ → Prop
  | (.ok a, s) => Q a s
  | (.error _, s) => E s

/-- From states in `P` the program returns into `Q`, or stops in `E`. -/
def Triple (P : σ → Prop) (m : Prog σ ε α) (Q : α → σ → Prop) (E : σ → Prop) : Prop :=
  ∀ s, P s → Ends Q E (m s)

/-- One postcondition of the state for both ends is that of the state, however the program
ends. -/
theorem ends_state {out : Except ε α × σ} : Ends (fun _ => P) P out ↔ P out.2 := by
  obtain ⟨result, s⟩ := out
  cases result with
  | ok a => exact Iff.rfl
  | error e => exact Iff.rfl

/-- The precondition can be strengthened. -/
theorem Triple.pre {m : Prog σ ε α} {Q : α → σ → Prop} (h : Triple P m Q E) (hPre : ∀ s, P' s → P s) :
    Triple P' m Q E := fun s hs => h s (hPre s hs)

theorem triple_pure {a : α} {Q : α → σ → Prop} (h : ∀ s, P s → Q a s) :
    Triple P (pure a : Prog σ ε α) Q E := h

/-- A sequence stops where its first part does, in the state that this has left. -/
theorem bind_apply (m : Prog σ ε α) (f : α → Prog σ ε β) (s : σ) :
    (m >>= f) s =
      match (m s : Except ε α × σ) with
      | (.ok a, s') => (f a s' : Except ε β × σ)
      | (.error e, s') => (.error e, s') := by
  change StateT.bind m (ExceptT.bindCont f) s = _
  rw [StateT.bind]
  generalize m s = out
  obtain ⟨result, s'⟩ := out
  cases result with
  | ok a => rfl
  | error e => rfl

/-- What the first part leaves with its result is what the second starts from. Both may
end early with the same postcondition. -/
theorem triple_bind {m : Prog σ ε α} {f : α → Prog σ ε β} {R : α → σ → Prop} {Q : β → σ → Prop}
    (hFirst : Triple P m R E) (hRest : ∀ a, Triple (R a) (f a) Q E) : Triple P (m >>= f) Q E := by
  intro s hs
  have hRun := hFirst s hs
  rw [bind_apply]
  generalize m s = out at hRun
  obtain ⟨result, s'⟩ := out
  cases result with
  | ok a => exact hRest a s' hRun
  | error e => exact hRun

/-- Each branch is run under its own condition only. -/
theorem triple_ite {c : Prop} [Decidable c] {m m' : Prog σ ε α} {Q : α → σ → Prop}
    (hThen : c → Triple P m Q E) (hElse : ¬c → Triple P m' Q E) : Triple P (if c then m else m') Q E := by
  by_cases h : c
  · rw [if_pos h]
    exact hThen h
  · rw [if_neg h]
    exact hElse h

end Triples
