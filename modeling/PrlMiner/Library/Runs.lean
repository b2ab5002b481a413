import Mathlib.Data.List.Induction
import Mathlib.Tactic.Cases

/-! Runs of a system that takes labelled steps, one event after the other. -/
namespace Runs

variable {σ ε : Type*}

/-- The events taken from `start`, the last one last, and the state they lead to.
A step that cannot be taken is `none`. -/
inductive Run (step : σ → ε → Option σ) (start : σ) : List ε → σ → Prop where
  | nil : Run step start [] start
  | snoc {events : List ε} {s s' : σ} (prior : Run step start events s) (e : ε)
      (last : step s e = some s') : Run step start (events ++ [e]) s'

variable {step : σ → ε → Option σ} {start s s' : σ} {events : List ε} {e : ε}

/-- The last event of a run is a step from the state after the events before. -/
theorem Run.of_snoc (run : Run step start (events ++ [e]) s') :
    ∃ s, Run step start events s ∧ step s e = some s' := by
  generalize hEvents : events ++ [e] = all at run
  cases run with
  | nil => simp at hEvents
  | snoc prior e' last =>
      obtain ⟨rfl, hLast⟩ := List.append_inj' hEvents rfl
      cases hLast
      exact ⟨_, prior, last⟩

/-- Events decide the state, since a step is a function of the state and of the event. -/
theorem Run.unique (run : Run step start events s) (run' : Run step start events s') : s = s' := by
  induction run generalizing s' with
  | nil =>
      generalize hEvents : ([] : List ε) = all at run'
      cases run' with
      | nil => rfl
      | snoc => simp at hEvents
  | snoc prior e last ih =>
      obtain ⟨middle, prior', last'⟩ := run'.of_snoc
      rw [ih prior', last'] at last
      exact (Option.some.inj last).symm

/-- Runs can be continued. -/
theorem Run.append {before after : List ε} (left : Run step start before s)
    (right : Run step s after s') : Run step start (before ++ after) s' := by
  induction right with
  | nil => rwa [List.append_nil]
  | snoc prior e last ih =>
      rw [← List.append_assoc]
      exact ih.snoc e last

/-- A run over events in two parts passes a state between them. -/
theorem Run.of_append {before after : List ε} (run : Run step start (before ++ after) s') :
    ∃ s, Run step start before s ∧ Run step s after s' := by
  induction after using List.reverseRecOn generalizing s' with
  | nil => exact ⟨s', by simpa using run, .nil⟩
  | append_singleton after e ih =>
      rw [← List.append_assoc] at run
      obtain ⟨middle, prior, last⟩ := run.of_snoc
      obtain ⟨s, left, right⟩ := ih prior
      exact ⟨s, left, right.snoc e last⟩

/-- The first event of a run is a step from the start, and the others are a run from
there. -/
theorem Run.of_cons {after : List ε} (run : Run step start (e :: after) s') :
    ∃ s, step start e = some s ∧ Run step s after s' := by
  obtain ⟨s, first, rest⟩ := Run.of_append (show Run step start ([e] ++ after) s' from run)
  obtain ⟨s₀, start_eq, hStep⟩ := Run.of_snoc (show Run step start ([] ++ [e]) s from first)
  cases start_eq.unique .nil
  exact ⟨s, hStep, rest⟩

/-- Runs can be computed, one step after the other, where the step function can be. -/
theorem run_iff_foldlM : Run step start events s ↔ events.foldlM step start = some s := by
  constructor
  · intro run
    induction run with
    | nil => rfl
    | snoc prior e last ih =>
        rw [List.foldlM_append, ih]
        simpa using last
  · intro h
    induction events generalizing start with
    | nil =>
        cases Option.some.inj h
        exact .nil
    | cons e events ih =>
        rw [List.foldlM_cons] at h
        obtain ⟨middle, hFirst, hRest⟩ := Option.bind_eq_some_iff.mp h
        exact Run.append (show Run step start [e] middle from .snoc .nil e hFirst) (ih hRest)

/-- What holds at the start and is kept by every step holds after every run. Safety of a
system is shown in this way, with an invariant that says enough. -/
theorem Run.invariant (inv : σ → Prop) (run : Run step start events s) (hStart : inv start)
    (hStep : ∀ s e s', inv s → step s e = some s' → inv s') : inv s := by
  induction run with
  | nil => exact hStart
  | snoc prior e last ih => exact hStep _ e _ ih last

/-- A second system follows step by step: it takes the same events and stays related. The
condition is on the events of the run only, and only for related states. -/
theorem Run.followed {τ : Type*} {step' : τ → ε → Option τ} {start' : τ} (related : σ → τ → Prop)
    (run : Run step start events s) (hStart : related start start')
    (hStep : ∀ e ∈ events, ∀ s t s', related s t → step s e = some s' →
      ∃ t', step' t e = some t' ∧ related s' t') :
    ∃ t, Run step' start' events t ∧ related s t := by
  induction run with
  | nil => exact ⟨start', .nil, hStart⟩
  | snoc prior e last ih =>
      obtain ⟨t, run', hRelated⟩ := ih fun e hMem => hStep e (List.mem_append_left _ hMem)
      obtain ⟨t', hNext, hRelated'⟩ := hStep e (by simp) _ t _ hRelated last
      exact ⟨t', run'.snoc e hNext, hRelated'⟩

/-- Every step of the events that can be taken from `start` satisfies `p`. -/
def EveryStep (step : σ → ε → Option σ) (start : σ) (p : σ → ε → Prop) (events : List ε) : Prop :=
  ∀ before e after s, events = before ++ e :: after → Run step start before s → p s e

theorem everyStep_nil {p : σ → ε → Prop} : EveryStep step start p [] := by
  intro before e after s hEvents
  simp at hEvents

/-- A condition holds at every step of a longer run if it holds at the steps before and at
the last one, in the state there. -/
theorem everyStep_snoc {p : σ → ε → Prop} (run : Run step start events s) :
    EveryStep step start p (events ++ [e]) ↔ EveryStep step start p events ∧ p s e := by
  constructor
  · intro h
    refine ⟨fun before e' after s' hEvents => h before e' (after ++ [e]) s' (by simp [hEvents]), ?_⟩
    exact h events e [] s rfl run
  · rintro ⟨hBefore, hLast⟩ before e' after s' hEvents run'
    rcases List.eq_nil_or_concat after with rfl | ⟨after', e'', rfl⟩
    · obtain ⟨rfl, hSame⟩ := List.append_inj' hEvents rfl
      cases hSame
      rwa [run'.unique run]
    · rw [List.concat_eq_append, ← List.cons_append, ← List.append_assoc] at hEvents
      obtain ⟨hEvents, -⟩ := List.append_inj' hEvents rfl
      exact hBefore before e' after' s' hEvents run'

/-- Events behind one that cannot happen are no steps, so that nothing is asked of
them. -/
theorem everyStep_snoc_of_stuck {p : σ → ε → Prop} (hStuck : ∀ s, ¬Run step start events s) :
    EveryStep step start p (events ++ [e]) ↔ EveryStep step start p events := by
  constructor
  · exact fun h before e' after s hEvents => h before e' (after ++ [e]) s (by simp [hEvents])
  · intro hBefore before e' after s' hEvents run'
    rcases List.eq_nil_or_concat after with rfl | ⟨after', e'', rfl⟩
    · obtain ⟨rfl, -⟩ := List.append_inj' hEvents rfl
      exact absurd run' (hStuck s')
    · rw [List.concat_eq_append, ← List.cons_append, ← List.append_assoc] at hEvents
      obtain ⟨hEvents, -⟩ := List.append_inj' hEvents rfl
      exact hBefore before e' after' s' hEvents run'

/-- Conditions that agree in every state of every run agree on runs. -/
theorem everyStep_congr {p q : σ → ε → Prop}
    (h : ∀ before s e, Run step start before s → (p s e ↔ q s e)) :
    EveryStep step start p events ↔ EveryStep step start q events := by
  constructor
  · exact fun hAll before e after s hEvents run => (h before s e run).mp (hAll before e after s hEvents run)
  · exact fun hAll before e after s hEvents run => (h before s e run).mpr (hAll before e after s hEvents run)

/-- Every state that the events pass through satisfies `inv`. -/
def EveryState (step : σ → ε → Option σ) (start : σ) (inv : σ → Prop) (events : List ε) : Prop :=
  ∀ before after s, events = before ++ after → Run step start before s → inv s

theorem everyState_nil {inv : σ → Prop} : EveryState step start inv [] ↔ inv start := by
  constructor
  · exact fun h => h [] [] start rfl .nil
  · intro hStart before after s hEvents run
    obtain ⟨rfl, -⟩ := List.append_eq_nil_iff.mp hEvents.symm
    rwa [run.unique .nil]

/-- A property holds in every state of a longer run if it holds in those before and in the
last one, where there is one. -/
theorem everyState_snoc {inv : σ → Prop} : EveryState step start inv (events ++ [e]) ↔
    EveryState step start inv events ∧ ∀ s, Run step start (events ++ [e]) s → inv s := by
  constructor
  · intro h
    refine ⟨fun before after s hEvents => h before (after ++ [e]) s (by simp [hEvents]), ?_⟩
    exact fun s => h _ [] s (List.append_nil _).symm
  · rintro ⟨hBefore, hLast⟩ before after s hEvents run
    rcases List.eq_nil_or_concat after with rfl | ⟨after', e', rfl⟩
    · rw [List.append_nil] at hEvents
      exact hLast s (hEvents ▸ run)
    · rw [List.concat_eq_append, ← List.append_assoc] at hEvents
      obtain ⟨hEvents, -⟩ := List.append_inj' hEvents rfl
      exact hBefore before after' s hEvents run

/-- A property of states holds all along exactly when every step meets the condition under
which a step keeps it. Where no step is possible, the condition must hold of itself. -/
theorem everyState_iff_everyStep {inv : σ → Prop} {p : σ → ε → Prop} (hStart : inv start)
    (hStep : ∀ events s e s', Run step start events s → inv s → step s e = some s' → (inv s' ↔ p s e))
    (hStuck : ∀ s e, step s e = none → p s e) (events : List ε) :
    EveryState step start inv events ↔ EveryStep step start p events := by
  induction events using List.reverseRecOn with
  | nil => exact iff_of_true (everyState_nil.mpr hStart) everyStep_nil
  | append_singleton events e ih =>
      rw [everyState_snoc, ih]
      by_cases hRun : ∃ s, Run step start events s
      · obtain ⟨s, run⟩ := hRun
        rw [everyStep_snoc run]
        refine and_congr_right fun hEvery => ?_
        have hInv : inv s := ih.mpr hEvery events [] s (List.append_nil _).symm run
        cases hNext : step s e with
        | none =>
            refine iff_of_true (fun s' run' => ?_) (hStuck s e hNext)
            obtain ⟨s₁, run₁, hLast⟩ := run'.of_snoc
            rw [run₁.unique run, hNext] at hLast
            cases hLast
        | some s' =>
            rw [← hStep events s e s' run hInv hNext]
            constructor
            · exact fun h => h s' (run.snoc e hNext)
            · intro hInv' s'' run''
              rwa [run''.unique (run.snoc e hNext)]
      · have hNone := not_exists.mp hRun
        rw [everyStep_snoc_of_stuck hNone]
        refine and_iff_left fun s run => ?_
        obtain ⟨s₁, run₁, -⟩ := run.of_snoc
        exact absurd run₁ (hNone s₁)

end Runs
