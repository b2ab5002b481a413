import PrlMiner.Miner.CircuitBreaker
import PrlMiner.Miner.MineLoopRuns

/-! The outcomes that the metrics count for a submission. A callback that raises
inside the `try` block makes them two, an interrupt leaves none. -/
namespace Miner

open LittleEndian Runs

/-- Every submission is accepted or rejected. -/
def LoopState.Balanced (s : LoopState) : Prop :=
  s.metrics.submitted = s.metrics.accepted + s.metrics.rejected

/-- The submit call is not interrupted, and its callback raises no exception once the
gateway has answered. -/
def Iteration.OneOutcome (it : Iteration) : Prop :=
  match it.ack with
  | .ok ack => ∀ text, it.onEvent (.submit ack) ≠ some (.exception text)
  | .error (.exception _) => True
  | .error .interrupt => False

/-- An iteration that gets to its submit gives it one outcome. -/
def SubmitCounted (cfg : LoopConfig) (s : LoopState) (it : Iteration) : Prop :=
  ∀ job result proof, s.raised = none → it.poll = .ok job → it.announces s job →
    it.thermal = .ok none → it.search = .ok result → result.winner = some proof →
    (cfg.staleCancel = true → it.confirms job = true) → it.OneOutcome

variable {cfg : LoopConfig} {safety : SafetyMonitor} {it : Iteration} {its : List Iteration}
  {s s' : LoopState}

/-- The end of an iteration changes no counter, however it comes. -/
theorem metrics_raised (s : LoopState) (e : Option Raised) :
    LoopState.metrics { s with raised := e } = s.metrics := rfl

/-- A submit keeps the balance exactly when it has one outcome: it is counted as accepted
or as rejected, and not as both. -/
theorem submit_balanced (submission : PlainProofSubmission) (hBalanced : s.Balanced) :
    (endState (submit it submission s)).Balanced ↔ it.OneOutcome := by
  rw [LoopState.Balanced] at hBalanced
  unfold LoopState.Balanced Iteration.OneOutcome
  rw [submit, trySubmit]
  cases hAck : it.ack with
  | error e =>
      cases e with
      | interrupt =>
          refine iff_of_false (fun h => ?_) id
          change s.metrics.submitted + 1 = s.metrics.accepted + s.metrics.rejected at h
          omega
      | exception text =>
          refine iff_of_true ?_ trivial
          dsimp only
          rw [endState_notify metrics_raised]
          change s.metrics.submitted + 1 = s.metrics.accepted + (s.metrics.rejected + 1)
          omega
  | ok ack =>
      dsimp only [notify]
      cases hEvent : it.onEvent (.submit ack) with
      | none =>
          refine iff_of_true ?_ fun text h => by cases h
          dsimp only [endState, LoopState.call]
          split_ifs <;> dsimp only <;> omega
      | some e =>
          cases e with
          | interrupt =>
              refine iff_of_true ?_ fun text h => by cases h
              dsimp only [endState, LoopState.call]
              split_ifs <;> dsimp only <;> omega
          | exception text =>
              -- counted by the `try` block and again by its handler
              refine iff_of_false (fun h => ?_) (fun h => h text rfl)
              dsimp only at h
              change (endState (notify it (.submitError text) _)).metrics.submitted =
                (endState (notify it (.submitError text) _)).metrics.accepted +
                  (endState (notify it (.submitError text) _)).metrics.rejected at h
              rw [endState_notify metrics_raised] at h
              dsimp only [LoopState.call] at h
              split_ifs at h <;> dsimp only at h <;> omega

/-- An iteration keeps the balance exactly if its submit, if it comes to one, has one
outcome. -/
theorem balanced_step (hBalanced : s.Balanced) (hStep : mineLoopStep cfg s it = some s') :
    s'.Balanced ↔ SubmitCounted cfg s it := by
  obtain ⟨hRaised, hPass⟩ := pass_of_step hStep
  cases hPass with
  | unpolled ended hPoll => exact iff_of_true hBalanced fun job _ _ _ hJob => absurd hJob (hPoll job)
  | unannounced job e hPoll hChanged hEvent =>
      refine iff_of_true hBalanced fun job' _ _ _ hJob hNew => ?_
      cases hPoll.symm.trans hJob
      exact absurd (hNew hChanged) (by simp [hEvent])
  | unsearched job ended hPoll hNone =>
      refine iff_of_true hBalanced fun _ result _ _ _ _ hThermal hSearch => ?_
      rcases hNone with hNone | hNone
      · exact absurd hThermal hNone
      · exact absurd hSearch (hNone result)
  | missed job result hPoll hNew hThermal hSearch hWinner =>
      constructor
      · intro _ _ result' _ _ _ _ _ hSearch' hWinner'
        cases hSearch.symm.trans hSearch'
        cases hWinner.symm.trans hWinner'
      · intro _
        rw [LoopState.Balanced, finish_eq metrics_raised]
        exact hBalanced
  | unconfirmed job result proof e hPoll hNew hThermal hSearch hWinner hStale hRecheck =>
      refine iff_of_true hBalanced fun job' _ _ _ _ _ _ _ _ hConfirms => ?_
      have hConfirmed := hConfirms hStale
      rw [Iteration.confirms, hRecheck] at hConfirmed
      cases hConfirmed
  | drops job result proof hPoll hNew hThermal hSearch hWinner hStale hRecheck =>
      refine iff_of_true ?_ fun job' _ _ _ hPoll' _ _ _ _ hConfirms => ?_
      · rw [LoopState.Balanced, finish_eq metrics_raised, endState_dropStale metrics_raised]
        exact hBalanced
      · have hConfirmed := hConfirms hStale
        cases hPoll.symm.trans hPoll'
        rcases hRecheck with hRecheck | ⟨latest, hRecheck, hOld⟩
        · rw [Iteration.confirms, hRecheck] at hConfirmed
          cases hConfirmed
        · rw [Iteration.confirms, hRecheck] at hConfirmed
          exact absurd (of_decide_eq_true hConfirmed) hOld
  | submits job result proof s₁ hPoll hNew hThermal hSearch hWinner hCurrent =>
      have hBefore : s₁.Balanced := by
        rcases hCurrent with ⟨-, rfl⟩ | ⟨-, rfl, -⟩
        · exact hBalanced
        · exact hBalanced
      have hAfter : (it.finish (submit it ⟨proof, job⟩ s₁)).Balanced ↔ it.OneOutcome := by
        rw [LoopState.Balanced, finish_eq metrics_raised]
        exact submit_balanced ⟨proof, job⟩ hBefore
      rw [hAfter]
      refine ⟨fun h _ _ _ _ _ _ _ _ _ _ => h, fun h => h job result proof hRaised hPoll hNew hThermal
        hSearch hWinner fun hStale => ?_⟩
      rcases hCurrent with ⟨hOff, -⟩ | ⟨-, -, latest, hRecheck, hSame⟩
      · rw [hStale] at hOff
        cases hOff
      · rw [Iteration.confirms, hRecheck]
        exact decide_eq_true hSame

/-- All along a run every submission has one outcome exactly when no submit call is
interrupted and no callback of an answered submit raises an exception. -/
theorem submit_outcomes_iff (cfg : LoopConfig) (safety : SafetyMonitor) (its : List Iteration) :
    EveryState (mineLoopStep cfg) (LoopState.init safety) LoopState.Balanced its ↔
      EveryStep (mineLoopStep cfg) (LoopState.init safety) (SubmitCounted cfg) its := by
  refine everyState_iff_everyStep (show (LoopState.init safety).Balanced from rfl)
    (fun _ _ _ _ _ hBalanced hStep => balanced_step hBalanced hStep) ?_ its
  intro s it hStuck job result proof hRaised
  obtain ⟨s', hStep⟩ : ∃ s', mineLoopStep cfg s it = some s' := mineLoopStep_of_running hRaised
  rw [hStuck] at hStep
  cases hStep

/-- The callback of an accepted submit raises. -/
def brokenCallback : Iteration where
  poll := .ok ⟨[], 1⟩
  thermal := .ok none
  search := .ok ⟨true, some [], 1, some 1⟩
  recheck := .ok ⟨[], 1⟩
  ack := .ok "submitted"
  onEvent
    | .submit _ => some (.exception "broken pipe")
    | _ => none
  onStatus := none

theorem brokenCallback_ends : (mineLoopStep ⟨true⟩ (LoopState.init ⟨10, 0⟩) brokenCallback).map
    (fun s => (s.metrics.submitted, s.metrics.accepted, s.metrics.rejected, s.raised)) =
    some (1, 1, 1, none) := rfl

/-- One submission, accepted and rejected: the callback raises after the acknowledgement,
inside the `try` block. -/
theorem submit_counted_twice : ¬EveryState (mineLoopStep ⟨true⟩) (LoopState.init ⟨10, 0⟩)
    LoopState.Balanced [brokenCallback] := by
  intro h
  obtain ⟨s, hStep, hEnd⟩ := Option.map_eq_some_iff.mp brokenCallback_ends
  obtain ⟨hSubmitted, hAccepted, hRejected, -⟩ : s.metrics.submitted = 1 ∧ s.metrics.accepted = 1 ∧
    s.metrics.rejected = 1 ∧ s.raised = none := by simpa using hEnd
  have hBalanced := h [brokenCallback] [] s rfl (Run.snoc .nil brokenCallback hStep)
  rw [LoopState.Balanced] at hBalanced
  omega

end Miner
