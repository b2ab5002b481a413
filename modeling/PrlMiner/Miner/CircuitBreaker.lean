import Mathlib.Logic.Function.Iterate
import PrlMiner.Library.EarlyExit
import PrlMiner.Miner.Runtime

/-! The invalid-proof circuit breaker. The loop never feeds the monitor, so it
stops in time only when it ends for another reason. -/
namespace Miner

open LittleEndian Runs EarlyExit

/-- Fed with every rejection, the monitor itself would trip in time: it counts each call,
and changes nothing else. -/
theorem noteInvalidProof_iterate (safety : SafetyMonitor) (n : Nat) :
    (fun safety : SafetyMonitor => safety.noteInvalidProof.2)^[n] safety =
      { safety with invalidProofs := safety.invalidProofs + n } := by
  induction n with
  | zero => simp
  | succ n ih =>
      rw [Function.iterate_succ_apply', ih]
      simp [SafetyMonitor.noteInvalidProof, add_assoc]

/-- A submit answered otherwise than by `submitted`. -/
def GatewayCall.isRejected : GatewayCall → Bool
  | .getMiningInfo _ => false
  | .submitPlainProof _ (.ok ack) => decide (ack ≠ "submitted")
  | .submitPlainProof _ (.error _) => true

/-- Rejected submissions so far. -/
def LoopState.rejections (s : LoopState) : Nat := s.wire.countP GatewayCall.isRejected

/-- The second answer of the gateway has the header of the job. -/
def Iteration.confirms (it : Iteration) (job : MiningJob) : Bool :=
  match it.recheck with
  | .ok latest => decide (latest.headerId = job.headerId)
  | .error _ => false

/-- The submission that the inputs of an iteration lead to. -/
def Iteration.submission (cfg : LoopConfig) (it : Iteration) : Option PlainProofSubmission :=
  match it.poll, it.thermal, it.search with
  | .ok job, .ok none, .ok ⟨true, some proof, _, _⟩ =>
      if cfg.staleCancel && !it.confirms job then none else some ⟨proof, job⟩
  | _, _, _ => none

/-- The inputs of an iteration lead to a rejected submission. -/
def Iteration.rejects (cfg : LoopConfig) (it : Iteration) : Bool :=
  match it.submission cfg with
  | none => false
  | some submission => (GatewayCall.submitPlainProof submission it.ack).isRejected

/-- The breaker bounds the rejected submissions of some iterations: at each point
there are at most `exit_after_invalid`, and fewer where the loop goes on. -/
def BreakerHolds (cfg : LoopConfig) (safety : SafetyMonitor) (its : List Iteration) : Prop :=
  ∀ before after s, its = before ++ after → MineLoop cfg safety before s →
    (s.rejections : Int) ≤ safety.exitAfterInvalid ∧
      (after ≠ [] → (s.rejections : Int) < safety.exitAfterInvalid)

/-- The parts of the loop before the submit reject nothing. -/
structure Quiet (s s' : LoopState) : Prop where
  rejections : s'.rejections = s.rejections
  safety : s'.safety = s.safety

theorem Quiet.trans {s₁ s₂ s₃ : LoopState} (h : Quiet s₁ s₂) (h' : Quiet s₂ s₃) : Quiet s₁ s₃ :=
  ⟨h'.rejections.trans h.rejections, h'.safety.trans h.safety⟩

/-- Only a submit that the gateway refuses is a rejection. -/
theorem rejections_call (s : LoopState) (c : GatewayCall) :
    (s.call c).rejections = s.rejections + if c.isRejected then 1 else 0 := by
  rw [LoopState.rejections, LoopState.call, List.countP_append, List.countP_singleton]
  rfl

/-- A quiet end without an exception is one of inputs that lead to no submission. -/
def QuietEnd (cfg : LoopConfig) (it : Iteration) (s : LoopState) (e : LoopState × Option Raised) : Prop :=
  Quiet s e.1 ∧ (e.2 = none → it.submission cfg = none)

section Body

variable (cfg : LoopConfig) (it : Iteration) (s : LoopState)

theorem notify_ends (event : Event) : Ends (notify it event s) (· = s) (fun e => e.1 = s ∧ e.2 ≠ none) := by
  rw [notify]
  cases it.onEvent event with
  | none => exact rfl
  | some e => exact ⟨rfl, Option.some_ne_none e⟩

/-- The poll adds no rejection, and a loop that goes on after it has a job. -/
theorem pollJob_ends : Ends (pollJob it s) (fun r => Quiet s r.2 ∧ it.poll = .ok r.1)
    (QuietEnd cfg it s) := by
  have hCall (answer : Except InfoError MiningJob) :
      (s.call (.getMiningInfo answer)).rejections = s.rejections := rejections_call s _
  rw [pollJob]
  cases hPoll : it.poll with
  | error e =>
      cases e with
      | miningPaused => exact ⟨⟨hCall _, rfl⟩, fun _ => by rw [Iteration.submission, hPoll]⟩
      | raised e => exact ⟨⟨hCall _, rfl⟩, fun h => nomatch h⟩
  | ok job =>
      dsimp only [JobManager.poll]
      split_ifs with hChanged
      · refine Ends.map (Ends.mono (notify_ends it _ _) (fun s' h => h) ?_) ?_
        · rintro ⟨s', r⟩ ⟨rfl, hRaised⟩
          exact ⟨⟨hCall _, rfl⟩, fun h => absurd h hRaised⟩
        · rintro s' rfl
          exact ⟨⟨hCall _, rfl⟩, rfl⟩
      · exact ⟨⟨hCall _, rfl⟩, rfl⟩

theorem checkThermal_ends : Ends (checkThermal it s) (fun s' => s' = s ∧ it.thermal = .ok none)
    (QuietEnd cfg it s) := by
  rw [checkThermal]
  cases hThermal : it.thermal with
  | error e => exact ⟨⟨rfl, rfl⟩, fun h => nomatch h⟩
  | ok reason =>
      cases reason with
      | none => exact ⟨rfl, rfl⟩
      | some reason =>
          refine Ends.bind (Ends.mono (notify_ends it _ _) (fun s' h => h) ?_) ?_
          · rintro ⟨s', r⟩ ⟨rfl, hRaised⟩
            exact ⟨⟨rfl, rfl⟩, fun h => absurd h hRaised⟩
          · rintro s' rfl
            refine ⟨⟨rfl, rfl⟩, fun _ => ?_⟩
            rw [Iteration.submission, hThermal]
            cases it.poll <;> rfl

/-- The search adds no rejection either, and a loop that goes on after it has a result. -/
theorem search_ends : Ends (search it s) (fun r => Quiet s r.2 ∧ it.search = .ok r.1)
    (QuietEnd cfg it s) := by
  rw [search]
  cases it.search with
  | error e => exact ⟨⟨rfl, rfl⟩, fun h => nomatch h⟩
  | ok result => exact ⟨⟨rfl, rfl⟩, rfl⟩

/-- The drop of a stale winner ends the body, and nothing has been submitted. -/
theorem dropStale_ends (hNone : it.submission cfg = none) :
    Ends (dropStale it s) (fun _ => False) (QuietEnd cfg it s) := by
  refine Ends.bind (Ends.mono (notify_ends it _ _) (fun s' h => h) ?_) ?_
  · rintro ⟨s', r⟩ ⟨rfl, -⟩
    exact ⟨⟨rfl, rfl⟩, fun _ => hNone⟩
  · rintro s' rfl
    exact ⟨⟨rfl, rfl⟩, fun _ => hNone⟩

/-- The header is confirmed, or the inputs lead to no submission. It is confirmed by a
second poll of the same header. -/
theorem confirmCurrent_ends {job : MiningJob} (hPoll : it.poll = .ok job)
    (hStale : cfg.staleCancel = true) :
    Ends (confirmCurrent it job s)
      (fun s' => Quiet s s' ∧ ∃ latest, it.recheck = .ok latest ∧ latest.headerId = job.headerId)
      (QuietEnd cfg it s) := by
  have hCall (answer : Except InfoError MiningJob) : Quiet s (s.call (.getMiningInfo answer)) :=
    ⟨rejections_call s _, rfl⟩
  have hDropped (answer : Except InfoError MiningJob) (hNone : it.submission cfg = none) :
      Ends (dropStale it (s.call (.getMiningInfo answer)))
        (fun s' => Quiet s s' ∧ ∃ latest, answer = .ok latest ∧ latest.headerId = job.headerId)
        (QuietEnd cfg it s) :=
    (dropStale_ends cfg it _ hNone).mono (fun _ h => h.elim) (fun _ h => ⟨(hCall _).trans h.1, h.2⟩)
  have hNone (hOld : it.confirms job = false) : it.submission cfg = none := by
    rw [Iteration.submission, hPoll]
    split
    · rename_i hJob _ _
      cases hJob
      rw [hStale, hOld]
      rfl
    · rfl
  rw [confirmCurrent]
  cases hRecheck : it.recheck with
  | error e =>
      cases e with
      | raised e => exact ⟨hCall _, fun h => nomatch h⟩
      | miningPaused => exact hDropped _ (hNone (by rw [Iteration.confirms, hRecheck]))
  | ok latest =>
      dsimp only
      split_ifs with hOld
      · exact hDropped _ (hNone (by rw [Iteration.confirms, hRecheck]; exact decide_eq_false hOld))
      · exact ⟨hCall _, latest, rfl, not_not.mp hOld⟩

/-- A submit adds its own rejection where the gateway refuses it, and ends the body only
with an exception, at most one rejection later. -/
theorem submit_ends (submission : PlainProofSubmission) :
    Ends (submit it submission s)
      (fun s' => s'.rejections = s.rejections +
        (if (GatewayCall.submitPlainProof submission it.ack).isRejected then 1 else 0) ∧
        s'.safety = s.safety)
      (fun e => e.1.rejections ≤ s.rejections + 1 ∧ e.1.safety = s.safety ∧ e.2 ≠ none) := by
  have hCall (metrics metrics' : Metrics) : LoopState.rejections
      { LoopState.call { s with metrics := metrics } (.submitPlainProof submission it.ack) with
        metrics := metrics' } =
      s.rejections + (if (GatewayCall.submitPlainProof submission it.ack).isRejected then 1 else 0) :=
    rejections_call s _
  have hBound (metrics metrics' : Metrics) : LoopState.rejections
      { LoopState.call { s with metrics := metrics } (.submitPlainProof submission it.ack) with
        metrics := metrics' } ≤ s.rejections + 1 := by
    rw [hCall]
    split_ifs <;> omega
  have hNotify (metrics metrics' : Metrics) (event : Event) :
      Ends (notify it event { LoopState.call { s with metrics := metrics }
        (.submitPlainProof submission it.ack) with metrics := metrics' })
      (fun s' => s'.rejections = s.rejections +
        (if (GatewayCall.submitPlainProof submission it.ack).isRejected then 1 else 0) ∧
        s'.safety = s.safety)
      (fun e => e.1.rejections ≤ s.rejections + 1 ∧ e.1.safety = s.safety ∧ e.2 ≠ none) := by
    refine Ends.mono (notify_ends it _ _) ?_ ?_
    · rintro s' rfl
      exact ⟨hCall _ _, rfl⟩
    · rintro ⟨s', r⟩ ⟨rfl, hRaised⟩
      exact ⟨hBound _ _, rfl, hRaised⟩
  rw [submit, trySubmit]
  cases hAck : it.ack with
  | error e =>
      rw [hAck] at hNotify hBound
      cases e with
      | interrupt => exact ⟨hBound _ _, rfl, Option.some_ne_none _⟩
      | exception text => exact hNotify _ _ _
  | ok ack =>
      rw [hAck] at hCall hBound hNotify
      dsimp only [notify]
      cases it.onEvent (.submit ack) with
      | none => exact ⟨hCall _ _, rfl⟩
      | some e =>
          cases e with
          | interrupt => exact ⟨hBound _ _, rfl, Option.some_ne_none _⟩
          | exception text =>
              -- the callback raised inside the `try` block
              exact hNotify _ _ _

/-- At the end of a part of the body the rejections are those the inputs lead to,
but for an iteration that an exception ends. -/
def Counted (s s' : LoopState) : Prop :=
  s'.rejections = s.rejections + (if it.rejects cfg then 1 else 0) ∧ s'.safety = s.safety

def CountedEnd (e : LoopState × Option Raised) : Prop :=
  e.1.rejections ≤ s.rejections + 1 ∧ e.1.safety = s.safety ∧ (e.2 = none → Counted cfg it s e.1)

theorem QuietEnd.counted {cfg : LoopConfig} {it : Iteration} {s : LoopState}
    {e : LoopState × Option Raised} (h : QuietEnd cfg it s e) : CountedEnd cfg it s e := by
  obtain ⟨⟨hSame, hSafety⟩, hNone⟩ := h
  refine ⟨by omega, hSafety, fun hRaised => ⟨?_, hSafety⟩⟩
  rw [Iteration.rejects, hNone hRaised]
  exact hSame

/-- What was quiet before a quiet end is quiet up to it. -/
theorem QuietEnd.after {cfg : LoopConfig} {it : Iteration} {s s' : LoopState}
    {e : LoopState × Option Raised} (hEnd : QuietEnd cfg it s' e) (h : Quiet s s') :
    QuietEnd cfg it s e := ⟨h.trans hEnd.1, hEnd.2⟩

/-- A result leads to the submission that the inputs of the iteration tell, and its
rejection is counted. -/
theorem handleResult_ends {job : MiningJob} {result : BackendResult} (hPoll : it.poll = .ok job)
    (hThermal : it.thermal = .ok none) (hSearch : it.search = .ok result) :
    Ends (handleResult cfg it job result s) (Counted cfg it s) (CountedEnd cfg it s) := by
  obtain ⟨found, plainProof, workUnits, attempts⟩ := result
  have hQuiet (hNone : it.submission cfg = none) : Counted cfg it s s := by
    rw [Counted, Iteration.rejects, hNone]
    exact ⟨rfl, rfl⟩
  cases found with
  | false => exact hQuiet (by rw [Iteration.submission, hPoll, hThermal, hSearch])
  | true =>
      cases plainProof with
      | none => exact hQuiet (by rw [Iteration.submission, hPoll, hThermal, hSearch])
      | some proof =>
          -- the submit follows a confirmed header, or no check at all
          have hSubmit (s' : LoopState) (hSame : Quiet s s')
              (hCurrent : (cfg.staleCancel && !it.confirms job) = false) :
              Ends (submit it ⟨proof, job⟩ s') (Counted cfg it s) (CountedEnd cfg it s) := by
            have hSubmission : it.submission cfg = some ⟨proof, job⟩ := by
              rw [Iteration.submission, hPoll, hThermal, hSearch]
              dsimp only
              rw [hCurrent]
              rfl
            refine (submit_ends it s' ⟨proof, job⟩).mono ?_ ?_
            · rintro s'' ⟨hCount, hSafety⟩
              refine ⟨?_, hSafety.trans hSame.safety⟩
              rw [hCount, hSame.rejections, Iteration.rejects, hSubmission]
            · rintro e ⟨hCount, hSafety, hRaised⟩
              exact ⟨by have := hSame.rejections; omega, hSafety.trans hSame.safety,
                fun hNone => absurd hNone hRaised⟩
          cases hStale : cfg.staleCancel with
          | false =>
              rw [handleResult, hStale]
              exact hSubmit s ⟨rfl, rfl⟩ (by rw [hStale, Bool.false_and])
          | true =>
              rw [handleResult, hStale]
              refine Ends.bind ((confirmCurrent_ends cfg it s hPoll hStale).mono (fun _ h => h)
                (fun _ h => h.counted)) ?_
              rintro s' ⟨hSame, latest, hRecheck, hHeader⟩
              refine hSubmit s' hSame ?_
              simp [Iteration.confirms, hRecheck, hHeader]

/-- One pass of the loop body that goes on has added the rejection that its inputs lead
to. One that ends has added one at most. -/
theorem loopBody_ends : Ends (loopBody cfg it s) (Counted cfg it s) (CountedEnd cfg it s) := by
  refine Ends.bind ((pollJob_ends cfg it s).mono (fun _ h => h) (fun _ h => h.counted)) ?_
  rintro ⟨job, s₁⟩ ⟨hQuiet₁, hPoll⟩
  refine Ends.bind ((checkThermal_ends cfg it s₁).mono (fun _ h => h)
    (fun _ h => (h.after hQuiet₁).counted)) ?_
  rintro s₂ ⟨rfl, hThermal⟩
  refine Ends.bind ((search_ends cfg it s₂).mono (fun _ h => h)
    (fun _ h => (h.after hQuiet₁).counted)) ?_
  rintro ⟨result, s₃⟩ ⟨hQuiet₃, hSearch⟩
  have hSame := hQuiet₁.trans hQuiet₃
  refine Ends.bind ((handleResult_ends cfg it s₃ hPoll hThermal hSearch).mono
    (fun s₄ h => (⟨h.1.trans (by rw [hSame.rejections]), h.2.trans hSame.safety⟩ : Counted cfg it s s₄))
    ?_) ?_
  · rintro e ⟨hBound, hSafety, hCounted⟩
    refine ⟨by rw [← hSame.rejections]; exact hBound, hSafety.trans hSame.safety, fun hNone => ?_⟩
    obtain ⟨hCount, -⟩ := hCounted hNone
    exact ⟨by rw [hCount, hSame.rejections], hSafety.trans hSame.safety⟩
  · rintro s₄ ⟨hCount, hSafety⟩
    cases it.onStatus with
    | none => exact ⟨hCount, hSafety⟩
    | some e =>
        refine ⟨?_, hSafety, fun h => nomatch h⟩
        rw [hCount]
        split_ifs <;> omega

end Body

variable {cfg : LoopConfig} {safety : SafetyMonitor} {it : Iteration} {its : List Iteration}
  {s s' : LoopState}

/-- One iteration adds at most one rejection, and never feeds the monitor. -/
theorem mineLoopStep_spec (hStep : mineLoopStep cfg s it = some s') :
    s.raised = none ∧ s'.rejections ≤ s.rejections + 1 ∧ s'.safety = s.safety ∧
      (s'.raised = none → Counted cfg it s s') := by
  have hBody := loopBody_ends cfg it s
  obtain ⟨hRaised, hEnd | ⟨s₁, ended, hEnd, rfl⟩⟩ := mineLoopStep_eq_some hStep
  · rw [hEnd] at hBody
    obtain ⟨hCount, hSafety⟩ := hBody
    refine ⟨hRaised, ?_, hSafety, fun _ => ⟨hCount, hSafety⟩⟩
    rw [hCount]
    split_ifs <;> omega
  · rw [hEnd] at hBody
    obtain ⟨hBound, hSafety, hCounted⟩ := hBody
    exact ⟨hRaised, hBound, hSafety, hCounted⟩

/-- After any number of iterations the monitor is as it was before the first. -/
theorem MineLoop.safety_eq (run : MineLoop cfg safety its s) : s.safety = safety :=
  Runs.Run.invariant (fun s => s.safety = safety) run rfl
    fun _ _ _ hSafety hStep => (mineLoopStep_spec hStep).2.2.1.trans hSafety

/-- A loop that has not ended has made the rejected submissions its inputs lead to, one
for each such iteration. -/
theorem MineLoop.rejections_eq (run : MineLoop cfg safety its s) (hRaised : s.raised = none) :
    s.rejections = its.countP (·.rejects cfg) := by
  induction run with
  | nil => rfl
  | snoc prior it hStep ih =>
      obtain ⟨hPrior, -, -, hCounted⟩ := mineLoopStep_spec hStep
      obtain ⟨hCount, -⟩ := hCounted hRaised
      rw [hCount, ih hPrior, List.countP_append, List.countP_singleton]

/-- The breaker bounds a run exactly when fewer than `exit_after_invalid` iterations
before its last one lead to a rejected submission. -/
theorem breaker_holds_iff (run : MineLoop cfg safety its s) :
    BreakerHolds cfg safety its ↔
      0 ≤ safety.exitAfterInvalid ∧
        (its ≠ [] → (its.dropLast.countP (·.rejects cfg) : Int) < safety.exitAfterInvalid) := by
  constructor
  · intro h
    refine ⟨(h [] its _ rfl .nil).1, fun hSome => ?_⟩
    obtain ⟨before, it, rfl⟩ := (List.eq_nil_or_concat its).resolve_left hSome
    rw [List.concat_eq_append] at run h ⊢
    obtain ⟨s₁, prior, hStep⟩ := run.of_snoc
    rw [List.dropLast_concat, ← MineLoop.rejections_eq prior (mineLoopStep_spec hStep).1]
    exact (h before [it] s₁ rfl prior).2 (List.cons_ne_nil it [])
  · rintro ⟨hLimit, hFew⟩ before after s₁ rfl run₁
    have hGoesOn {middle rest : List Iteration} {it : Iteration} {s₂ s₃ : LoopState}
        (hIts : before ++ after = middle ++ it :: rest) (run₂ : MineLoop cfg safety middle s₂)
        (hStep : mineLoopStep cfg s₂ it = some s₃) : (s₂.rejections : Int) < safety.exitAfterInvalid := by
      have hPrefix : middle.Sublist (before ++ after).dropLast := by
        rw [hIts, List.dropLast_append_of_ne_nil (List.cons_ne_nil it rest)]
        exact List.sublist_append_left _ _
      have hLess := hFew (by rw [hIts]; simp)
      have hCount := hPrefix.countP_le (p := (·.rejects cfg))
      rw [MineLoop.rejections_eq run₂ (mineLoopStep_spec hStep).1]
      omega
    cases after with
    | cons it after =>
        obtain ⟨s₂, run₂, rest⟩ := run.of_append
        cases run₂.unique run₁
        obtain ⟨s₃, hStep, -⟩ := rest.of_cons
        have hLess := hGoesOn rfl run₁ hStep
        exact ⟨le_of_lt hLess, fun _ => hLess⟩
    | nil =>
        refine ⟨?_, fun h => absurd rfl h⟩
        cases run₁ with
        | nil => exact hLimit
        | snoc prior it hStep =>
            have hLess := hGoesOn (List.append_nil _) prior hStep
            have hBound := (mineLoopStep_spec hStep).2.1
            omega

/-- A found proof that the gateway answers with an error. -/
def refusedIteration : Iteration where
  poll := .ok ⟨[], 1⟩
  thermal := .ok none
  search := .ok ⟨true, some [], 1, some 1⟩
  recheck := .ok ⟨[], 1⟩
  ack := .error (.exception "-32602: invalid proof")
  onEvent := fun _ => none
  onStatus := none

/-- Eleven refused submissions, one after the other, and the loop has not ended. -/
theorem eleven_refused :
    ((List.replicate 11 refusedIteration).foldlM (mineLoopStep ⟨true⟩) (LoopState.init ⟨10, 0⟩)).map
      (fun s => (s.rejections, s.raised)) = some (11, none) := rfl

/-- Under the limit 10 the loop makes an eleventh refused submission, and goes on. Its
monitor has counted none of them; one told of every refusal would have said so at the tenth. -/
theorem breaker_exceeded : ∃ s, MineLoop ⟨true⟩ ⟨10, 0⟩ (List.replicate 11 refusedIteration) s ∧
    s.rejections = 11 ∧ s.raised = none ∧ s.safety.invalidProofs = 0 ∧
    ((fun safety => safety.noteInvalidProof.2)^[9] (⟨10, 0⟩ : SafetyMonitor)).noteInvalidProof.1 = true ∧
    ¬BreakerHolds ⟨true⟩ ⟨10, 0⟩ (List.replicate 11 refusedIteration) := by
  obtain ⟨s, hRun, hEnd⟩ := Option.map_eq_some_iff.mp eleven_refused
  obtain ⟨hCount, hRaised⟩ := Prod.mk.inj hEnd
  rw [← run_iff_foldlM] at hRun
  have hMonitor : s.safety.invalidProofs = 0 := by rw [MineLoop.safety_eq hRun]
  have hTold : ((fun safety => safety.noteInvalidProof.2)^[9] (⟨10, 0⟩ : SafetyMonitor)).noteInvalidProof.1 =
      true := by
    rw [noteInvalidProof_iterate]
    rfl
  refine ⟨s, hRun, hCount, hRaised, hMonitor, hTold, fun h => ?_⟩
  have hBound : (s.rejections : Int) ≤ 10 := (h _ [] s (List.append_nil _).symm hRun).1
  omega

/-- The eleven refused iterations have ten of them before the last, so by the condition
the breaker does not bound their run. -/
theorem breaker_holds_iff_eleven :
    ¬BreakerHolds ⟨true⟩ ⟨10, 0⟩ (List.replicate 11 refusedIteration) := by
  obtain ⟨s, hRun, -⟩ := Option.map_eq_some_iff.mp eleven_refused
  rw [breaker_holds_iff (run_iff_foldlM.mpr hRun)]
  decide

end Miner
