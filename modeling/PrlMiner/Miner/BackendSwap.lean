import PrlMiner.Miner.BackendsAgree
import PrlMiner.Miner.Nonces

/-! The mine loop under a change of backend. Two backends that find the same
leave loops that differ in the bytes of their proofs and in the texts of exceptions only. -/
namespace Miner

open LittleEndian FixedWidth Runs EarlyExit

/-- An iteration whose search, if it gets there, is that of a backend. -/
def withBackend (search : MiningJob → Int → Except Raised BackendResult) (it : Iteration) (s : LoopState) :
    Iteration :=
  match searchCall it s with
  | none => it
  | some (job, s₁) => { it with search := search job s₁.attempt }

/-- The step of `mine_loop` with a backend. -/
def backendStep (search : MiningJob → Int → Except Raised BackendResult) (cfg : LoopConfig) (s : LoopState)
    (it : Iteration) : Option LoopState :=
  mineLoopStep cfg s (withBackend search it s)

def SameRaised (e e' : Raised) : Prop :=
  e = e' ∨ ∃ text text', e = .exception text ∧ e' = .exception text'

inductive SameCall : GatewayCall → GatewayCall → Prop where
  | info (answer : Except InfoError MiningJob) : SameCall (.getMiningInfo answer) (.getMiningInfo answer)
  | submit (job : MiningJob) (proof proof' : List Byte) (answer : Except Raised String) :
      SameCall (.submitPlainProof ⟨proof, job⟩ answer) (.submitPlainProof ⟨proof', job⟩ answer)

/-- The same result, up to the bytes of the proof. -/
structure SameResult (r r' : BackendResult) : Prop where
  found : r.found = r'.found
  proof : r.plainProof.isSome = r'.plainProof.isSome
  work : r.workUnits = r'.workUnits
  attempts : r.attempts = r'.attempts

/-- The same state, up to the bytes of the proofs and the texts of exceptions. -/
structure SameLoop (s s' : LoopState) : Prop where
  safety : s.safety = s'.safety
  jm : s.jm = s'.jm
  attempt : s.attempt = s'.attempt
  metrics : s.metrics = s'.metrics
  wire : List.Forall₂ SameCall s.wire s'.wire
  raised : Option.Rel SameRaised s.raised s'.raised

/-- The same answers from outside, and searches with the same result. -/
structure SameIteration (it it' : Iteration) : Prop where
  poll : it.poll = it'.poll
  thermal : it.thermal = it'.thermal
  search : Matches SameRaised SameResult it.search it'.search
  recheck : it.recheck = it'.recheck
  ack : it.ack = it'.ack
  onEvent : it.onEvent = it'.onEvent
  onStatus : it.onStatus = it'.onStatus

/-- Early ends of the body. -/
def SameEnd (e e' : LoopState × Option Raised) : Prop := SameLoop e.1 e'.1 ∧ Option.Rel SameRaised e.2 e'.2

/-- Early ends with one exception. -/
def ExactEnd (e e' : LoopState × Option Raised) : Prop := SameLoop e.1 e'.1 ∧ e.2 = e'.2

theorem SameRaised.refl (e : Raised) : SameRaised e e := .inl rfl

/-- The same exception as one with a text is one with a text. It is neither an interrupt
nor an exit. -/
theorem sameRaised_exception {e : Option Raised} {text : String}
    (h : Option.Rel SameRaised e (some (.exception text))) :
    ∃ text', e = some (.exception text') := by
  cases h with
  | some h =>
      rcases h with rfl | ⟨text', _, rfl, -⟩
      · exact ⟨text, rfl⟩
      · exact ⟨text', rfl⟩

theorem sameRaised_option (e : Option Raised) : Option.Rel SameRaised e e := by
  cases e with
  | none => exact .none
  | some e => exact .some (.refl e)

/-- Loops that end with one and the same exception end alike. -/
theorem ExactEnd.same {e e' : LoopState × Option Raised} (h : ExactEnd e e') : SameEnd e e' :=
  ⟨h.1, h.2 ▸ sameRaised_option e.2⟩

theorem SameResult.refl (r : BackendResult) : SameResult r r := ⟨rfl, rfl, rfl, rfl⟩

variable {cfg : LoopConfig} {it it' : Iteration} {s s' : LoopState}

/-- The same exchange with the gateway, up to the bytes of a proof, keeps two loops
alike. -/
theorem SameLoop.call (h : SameLoop s s') {c c' : GatewayCall} (hCall : SameCall c c') :
    SameLoop (s.call c) (s'.call c') :=
  ⟨h.safety, h.jm, h.attempt, h.metrics, List.rel_append h.wire (.cons hCall .nil), h.raised⟩

/-- Counting does not tell two loops apart, since they have the same metrics to count
from. -/
theorem SameLoop.count (h : SameLoop s s') (f : Metrics → Metrics) :
    SameLoop { s with metrics := f s.metrics } { s' with metrics := f s'.metrics } :=
  ⟨h.safety, h.jm, h.attempt, congrArg f h.metrics, h.wire, h.raised⟩

/-- A new header starts over: both loops begin with its first attempt. -/
theorem SameLoop.restart (h : SameLoop s s') :
    SameLoop { s with attempt := 0, metrics := { s.metrics with jobSwitches := s.metrics.jobSwitches + 1 } }
      { s' with attempt := 0, metrics := { s'.metrics with jobSwitches := s'.metrics.jobSwitches + 1 } } :=
  ⟨h.safety, h.jm, rfl, congrArg (fun m : Metrics => { m with jobSwitches := m.jobSwitches + 1 }) h.metrics,
    h.wire, h.raised⟩

section Body

variable (hIt : SameIteration it it')
include hIt

/-- The callback sees the event, which has no proof in it. It raises in both loops or in
neither, and the same. -/
theorem notify_exact (h : SameLoop s s') (event : Event) :
    Matches ExactEnd SameLoop (notify it event s) (notify it' event s') := by
  rw [notify, notify, hIt.onEvent]
  cases it'.onEvent event with
  | none => exact .ok h
  | some e => exact .error ⟨h, rfl⟩

theorem notify_same (h : SameLoop s s') (event : Event) :
    Matches SameEnd SameLoop (notify it event s) (notify it' event s') :=
  (notify_exact hIt h event).mono fun _ _ => ExactEnd.same

/-- The poll does not see the backend: both loops get the same job, or end with the same
exception. -/
theorem pollJob_same (h : SameLoop s s') :
    Matches SameEnd (fun p p' => p.1 = p'.1 ∧ SameLoop p.2 p'.2) (pollJob it s) (pollJob it' s') := by
  have hCalled := h.call (.info it'.poll)
  rw [pollJob, pollJob, hIt.poll]
  dsimp only
  rw [hCalled.jm]
  cases (s'.call (.getMiningInfo it'.poll)).jm.poll it'.poll with
  | error e => exact .error ⟨hCalled, .some (.refl e)⟩
  | ok polled =>
      obtain ⟨_ | job, changed, jm⟩ := polled
      · exact .error ⟨hCalled, .none⟩
      · have hPolled : SameLoop { s.call (.getMiningInfo it'.poll) with jm := jm }
            { s'.call (.getMiningInfo it'.poll) with jm := jm } :=
          ⟨hCalled.safety, rfl, hCalled.attempt, hCalled.metrics, hCalled.wire, hCalled.raised⟩
        cases changed with
        | false => exact .ok ⟨rfl, hPolled⟩
        | true =>
            dsimp only
            rw [if_pos rfl, if_pos rfl]
            have hNotify := notify_same hIt hPolled.restart (.newJob job.target)
            exact hNotify.map fun _ _ h => ⟨rfl, h⟩

theorem checkThermal_same (h : SameLoop s s') :
    Matches SameEnd SameLoop (checkThermal it s) (checkThermal it' s') := by
  rw [checkThermal, checkThermal, hIt.thermal]
  cases it'.thermal with
  | error e => exact .error ⟨h, .some (.refl e)⟩
  | ok reason =>
      cases reason with
      | none => exact .ok h
      | some reason => exact (notify_same hIt h (.throttle reason)).bind fun _ _ h => .error ⟨h, .none⟩

/-- The searches differ in the bytes of the proof and in the text of an exception. This is
all that the rest of the iteration can differ in. -/
theorem search_same (h : SameLoop s s') :
    Matches SameEnd (fun p p' => SameResult p.1 p'.1 ∧ SameLoop p.2 p'.2) (search it s) (search it' s') := by
  have hSearch := hIt.search
  rw [search, search]
  revert hSearch
  generalize it.search = x
  generalize it'.search = x'
  intro hSearch
  cases hSearch with
  | error hError => exact .error ⟨h, .some hError⟩
  | ok hResult =>
      refine .ok ⟨hResult, ⟨h.safety, h.jm, ?_, ?_, h.wire, h.raised⟩⟩
      · dsimp only
        rw [h.attempt, hResult.attempts]
      · dsimp only
        rw [h.metrics, hResult.attempts, hResult.work]

theorem dropStale_same (h : SameLoop s s') : Matches SameEnd SameLoop (dropStale it s) (dropStale it' s') :=
  (notify_same hIt (h.count fun m => { m with stale := m.stale + 1 }) .staleDrop).bind
    fun _ _ h => .error ⟨h, .none⟩

/-- The second poll compares headers, and the jobs of both loops have the same. -/
theorem confirmCurrent_same (h : SameLoop s s') (job : MiningJob) :
    Matches SameEnd SameLoop (confirmCurrent it job s) (confirmCurrent it' job s') := by
  rw [confirmCurrent, confirmCurrent, hIt.recheck]
  cases it'.recheck with
  | error e =>
      cases e with
      | miningPaused => exact dropStale_same hIt (h.call (.info _))
      | raised e => exact .error ⟨h.call (.info _), .some (.refl e)⟩
  | ok latest =>
      dsimp only
      split_ifs
      · exact dropStale_same hIt (h.call (.info _))
      · exact .ok (h.call (.info _))

/-- The exceptions of a submit are those of the gateway and of the callback, which are the
same in both loops. The bytes of the proof do not matter. -/
theorem trySubmit_exact (h : SameLoop s s') (job : MiningJob) (proof proof' : List Byte) :
    Matches ExactEnd SameLoop (trySubmit it ⟨proof, job⟩ s) (trySubmit it' ⟨proof', job⟩ s') := by
  rw [trySubmit, trySubmit, hIt.ack]
  cases it'.ack with
  | error e => exact .error ⟨h.call (.submit job proof proof' _), rfl⟩
  | ok ack =>
      have hCalled := h.call (.submit job proof proof' (.ok ack))
      dsimp only
      split_ifs
      · exact notify_exact hIt (hCalled.count fun m => { m with accepted := m.accepted + 1 }) (.submit ack)
      · exact notify_exact hIt (hCalled.count fun m => { m with rejected := m.rejected + 1 }) (.submit ack)

/-- A submit that fails is counted as rejected in both loops, or is an interrupt in
both. -/
theorem submit_same (h : SameLoop s s') (job : MiningJob) (proof proof' : List Byte) :
    Matches SameEnd SameLoop (submit it ⟨proof, job⟩ s) (submit it' ⟨proof', job⟩ s') := by
  have hCounted := h.count fun m => { m with submitted := m.submitted + 1 }
  have hTry := trySubmit_exact hIt hCounted job proof proof'
  rw [submit, submit]
  dsimp only at hTry ⊢
  revert hTry
  generalize trySubmit it ⟨proof, job⟩ { s with metrics := { s.metrics with submitted := s.metrics.submitted + 1 } } = x
  generalize trySubmit it' ⟨proof', job⟩
    { s' with metrics := { s'.metrics with submitted := s'.metrics.submitted + 1 } } = x'
  intro hTry
  cases hTry with
  | ok h => exact .ok h
  | @error e e' h =>
      obtain ⟨s₁, raised⟩ := e
      obtain ⟨s₁', raised'⟩ := e'
      obtain ⟨h, rfl : raised = raised'⟩ := h
      cases raised with
      | none => exact .error ⟨h, .none⟩
      | some raised =>
          cases raised with
          | interrupt => exact .error ⟨h, .some (.refl _)⟩
          | exception text =>
              exact notify_same hIt (h.count fun m => { m with rejected := m.rejected + 1 }) (.submitError text)

/-- What is done with a result depends on whether there is a proof, not on its bytes. -/
theorem handleResult_same (h : SameLoop s s') (job : MiningJob) {result result' : BackendResult}
    (hResult : SameResult result result') :
    Matches SameEnd SameLoop (handleResult cfg it job result s) (handleResult cfg it' job result' s') := by
  obtain ⟨found, proof, work, attempts⟩ := result
  obtain ⟨found', proof', work', attempts'⟩ := result'
  obtain ⟨rfl, hProof, rfl, rfl⟩ := hResult
  cases found with
  | false => exact .ok h
  | true =>
      cases proof with
      | none =>
          cases proof' with
          | none => exact .ok h
          | some proof' => cases hProof
      | some proof =>
          cases proof' with
          | none => cases hProof
          | some proof' =>
              rw [handleResult_of_winner rfl, handleResult_of_winner rfl]
              cases cfg.staleCancel with
              | false => exact submit_same hIt h job proof proof'
              | true => exact (confirmCurrent_same hIt h job).bind fun _ _ h => submit_same hIt h job proof proof'

/-- Up to the search the two loops do the same, and from there on what they do depends on
what it found. -/
theorem loopBody_same (h : SameLoop s s') : Matches SameEnd SameLoop (loopBody cfg it s) (loopBody cfg it' s') := by
  refine (pollJob_same hIt h).bind ?_
  rintro ⟨job, s₁⟩ ⟨_, s₁'⟩ ⟨rfl, h₁⟩
  refine (checkThermal_same hIt h₁).bind fun s₂ s₂' h₂ => (search_same hIt h₂).bind ?_
  rintro ⟨result, s₃⟩ ⟨result', s₃'⟩ ⟨hResult, h₃⟩
  refine (handleResult_same hIt h₃ job hResult).bind fun s₄ s₄' h₄ => ?_
  rw [hIt.onStatus]
  cases it'.onStatus with
  | none => exact .ok h₄
  | some e => exact .error ⟨h₄, .some (.refl e)⟩

/-- A step of one loop is matched by a step of the other, and the two are alike again
after it. -/
theorem mineLoopStep_same (h : SameLoop s s') {s₁ : LoopState} (hStep : mineLoopStep cfg s it = some s₁) :
    ∃ s₁', mineLoopStep cfg s' it' = some s₁' ∧ SameLoop s₁ s₁' := by
  obtain ⟨hNone, rfl⟩ := mineLoopStep_eq hStep
  have hRaised := h.raised
  rw [hNone] at hRaised
  have hBody : Matches SameEnd SameLoop (loopBody cfg it s) (loopBody cfg it' s') := loopBody_same hIt h
  have hNone' : s'.raised = none := by
    cases hRaised' : s'.raised with
    | none => rfl
    | some e =>
        rw [hRaised'] at hRaised
        cases hRaised
  rw [mineLoopStep, hNone']
  revert hBody
  generalize loopBody cfg it s = x
  generalize loopBody cfg it' s' = x'
  intro hBody
  cases hBody with
  | ok h => exact ⟨_, rfl, h⟩
  | @error e e' h =>
      exact ⟨_, rfl, ⟨h.1.safety, h.1.jm, h.1.attempt, h.1.metrics, h.1.wire, h.2⟩⟩

end Body

section Runs

/-- Two backends with the same results. -/
abbrev SameBackend (search search' : MiningJob → Int → Except Raised BackendResult) : Prop :=
  ∀ job attempt, Matches SameRaised SameResult (search job attempt) (search' job attempt)

variable {search search' : MiningJob → Int → Except Raised BackendResult}

theorem SameRaised.symm {e e' : Raised} (h : SameRaised e e') : SameRaised e' e := by
  rcases h with rfl | ⟨text, text', rfl, rfl⟩
  · exact .refl e
  · exact .inr ⟨text', text, rfl, rfl⟩

theorem SameCall.symm {c c' : GatewayCall} (h : SameCall c c') : SameCall c' c := by
  cases h with
  | info answer => exact .info answer
  | submit job proof proof' answer => exact .submit job proof' proof answer

theorem sameRaised_symm {e e' : Option Raised} (h : Option.Rel SameRaised e e') : Option.Rel SameRaised e' e := by
  cases h with
  | none => exact .none
  | some h => exact .some h.symm

theorem SameLoop.symm (h : SameLoop s s') : SameLoop s' s :=
  ⟨h.safety.symm, h.jm.symm, h.attempt.symm, h.metrics.symm, h.wire.flip.imp fun _ _ => SameCall.symm,
    sameRaised_symm h.raised⟩

theorem SameBackend.symm (h : SameBackend search search') : SameBackend search' search := fun job attempt =>
  (h job attempt).symm (fun _ _ => SameRaised.symm)
    fun _ _ h => ⟨h.found.symm, h.proof.symm, h.work.symm, h.attempts.symm⟩

theorem sameLoop_init (safety : SafetyMonitor) : SameLoop (LoopState.init safety) (LoopState.init safety) :=
  ⟨rfl, rfl, rfl, rfl, .nil, .none⟩

/-- Related loops get to their searches together, with one job and one attempt, so that
the two backends are asked the same. -/
theorem withBackend_same (hSame : SameBackend search search') (h : SameLoop s s') (it : Iteration) :
    SameIteration (withBackend search it s) (withBackend search' it s') := by
  have hIt : SameIteration it it :=
    ⟨rfl, rfl, .refl SameRaised.refl SameResult.refl _, rfl, rfl, rfl, rfl⟩
  let body (s : LoopState) : Body (MiningJob × LoopState) :=
    pollJob it s >>= fun polled => checkThermal it polled.2 >>= fun s => .ok (polled.1, s)
  have hBody : Matches SameEnd (fun p p' => p.1 = p'.1 ∧ SameLoop p.2 p'.2) (body s) (body s') := by
    refine (pollJob_same hIt h).bind ?_
    rintro ⟨job, s₁⟩ ⟨_, s₁'⟩ ⟨rfl, h₁⟩
    exact (checkThermal_same hIt h₁).bind fun _ _ h₂ => .ok ⟨rfl, h₂⟩
  have hCall : searchCall it s = (body s).toOption := rfl
  have hCall' : searchCall it s' = (body s').toOption := rfl
  rw [withBackend, withBackend, hCall, hCall']
  revert hBody
  generalize body s = x
  generalize body s' = x'
  intro hBody
  cases hBody with
  | error _ => exact hIt
  | @ok p p' hCalled =>
      obtain ⟨job, s₁⟩ := p
      obtain ⟨job', s₁'⟩ := p'
      obtain ⟨rfl : job = job', h₁ : SameLoop s₁ s₁'⟩ := hCalled
      have hSearch : Matches SameRaised SameResult (search job s₁.attempt) (search' job s₁'.attempt) :=
        h₁.attempt ▸ hSame job s₁.attempt
      exact ⟨rfl, rfl, hSearch, rfl, rfl, rfl, rfl⟩

/-- Loops over two families of backends, one for each iteration: a run over the first is
matched by a run over the second, over the same events. -/
theorem swap_backend {ι : Type*} {backend backend' : ι → MiningJob → Int → Except Raised BackendResult}
    (cfg : LoopConfig) (safety : SafetyMonitor) {events : List (Iteration × ι)}
    (hSame : ∀ e ∈ events, SameBackend (backend e.2) (backend' e.2)) {s : LoopState}
    (run : Run (fun s (e : Iteration × ι) => backendStep (backend e.2) cfg s e.1) (LoopState.init safety) events s) :
    ∃ s', Run (fun s (e : Iteration × ι) => backendStep (backend' e.2) cfg s e.1) (LoopState.init safety) events s' ∧
      SameLoop s s' :=
  run.followed SameLoop (sameLoop_init safety) fun e hMem _ _ _ h hStep =>
    mineLoopStep_same (withBackend_same (hSame e hMem) h e.1) h hStep

end Runs

/-- The search of the CPU backend, as the loop sees it. -/
def cpuSearch (pk : Packages) (job : MiningJob) (attempt : Int) : Except Raised BackendResult :=
  (CpuBackend.search pk job attempt).map CpuResult.toBackendResult

/-- The search of the naive backend. -/
def naiveSearch (pk : Packages) (env : NaiveEnv) (job : MiningJob) (attempt : Int) : Except Raised BackendResult :=
  (CudaNaiveBackend.search pk env job attempt).map NaiveSearchResult.toBackendResult

/-- The naive kernels find what the reference finds, where no call to CUDA fails. -/
theorem cpuSearch_same_naiveSearch {pk : Packages} (hRange : pk.InRange) {env : NaiveEnv} (hRc : env.cudaRc = 0) :
    SameBackend (cpuSearch pk) (naiveSearch pk env) := by
  intro job attempt
  rw [cpuSearch, naiveSearch]
  rcases searches_agree hRange hRc job attempt with ⟨-, ⟨text, hCpu⟩, text', hNaive⟩ | ⟨-, cpu, naive, hCpu, hNaive, h⟩
  · rw [hCpu, hNaive]
    exact .error (.inr ⟨text, text', rfl, rfl⟩)
  · rw [hCpu, hNaive]
    refine .ok ⟨h.found.symm, ?_, h.work.symm, rfl⟩
    cases hFound : cpu.found with
    | false =>
        obtain ⟨hProof, hProof', -⟩ := h.missed hFound
        simp [CpuResult.toBackendResult, NaiveSearchResult.toBackendResult, hProof, hProof']
    | true =>
        obtain ⟨ob, row, col, hProof, hProof', -⟩ := h.opened hFound
        simp [CpuResult.toBackendResult, NaiveSearchResult.toBackendResult, hProof, hProof']

/-- A loop on the naive kernels is the loop on the CPU reference, iteration by
iteration, up to the bytes of the proofs and the texts of exceptions. -/
theorem naive_loop_is_cpu_loop (pk : Packages) (hRange : pk.InRange) (cfg : LoopConfig) (safety : SafetyMonitor)
    (events : List (Iteration × NaiveEnv)) (hRc : ∀ e ∈ events, e.2.cudaRc = 0) :
    (∀ s, Run (fun s (e : Iteration × NaiveEnv) => backendStep (cpuSearch pk) cfg s e.1) (LoopState.init safety)
        events s → ∃ s', Run (fun s (e : Iteration × NaiveEnv) => backendStep (naiveSearch pk e.2) cfg s e.1)
          (LoopState.init safety) events s' ∧ SameLoop s s') ∧
      ∀ s', Run (fun s (e : Iteration × NaiveEnv) => backendStep (naiveSearch pk e.2) cfg s e.1)
        (LoopState.init safety) events s' →
        ∃ s, Run (fun s (e : Iteration × NaiveEnv) => backendStep (cpuSearch pk) cfg s e.1) (LoopState.init safety)
          events s ∧ SameLoop s s' := by
  have hSame (e : Iteration × NaiveEnv) (hMem : e ∈ events) : SameBackend (cpuSearch pk) (naiveSearch pk e.2) :=
    cpuSearch_same_naiveSearch hRange (hRc e hMem)
  constructor
  · intro s run
    exact @swap_backend _ (fun _ => cpuSearch pk) (naiveSearch pk) cfg safety _ hSame s run
  · intro s' run
    obtain ⟨s, run', h⟩ := @swap_backend _ (naiveSearch pk) (fun _ => cpuSearch pk) cfg safety _
      (fun e hMem => SameBackend.symm (hSame e hMem)) s' run
    exact ⟨s, run', h.symm⟩

/-- What these packages draw is in range. -/
theorem constantPackages_inRange : constantPackages.InRange :=
  fun _ => ⟨fun _ _ => (by decide : -64 ≤ (1 : I8).toInt ∧ (1 : I8).toInt < 64),
    fun _ _ => (by decide : -64 ≤ (2 : I8).toInt ∧ (2 : I8).toInt < 64)⟩

section Calm

variable {pk : Packages} {search : MiningJob → Int → Except Raised BackendResult} {job : MiningJob}

theorem calm_backendStep_eq {found : Except Raised BackendResult} (hSearch : search job (s.startAttempt job) = found) :
    backendStep search ⟨true⟩ s (calmIteration job) =
      mineLoopStep ⟨true⟩ s { calmIteration job with search := found } := by
  have hSearches : (calmIteration job).Searches s job := ⟨rfl, fun _ => rfl, rfl⟩
  have hPolled : search job (s.polled (calmIteration job).poll job).attempt = found := hSearch
  rw [backendStep, withBackend, searchCall_of_searches hSearches]
  dsimp only
  rw [hPolled]

/-- An exception of the backend ends the loop, which has polled and has counted no
attempt. -/
theorem calm_backendStep_raises {e : Raised} (hRaised : s.raised = none)
    (hSearch : search job (s.startAttempt job) = .error e) :
    backendStep search ⟨true⟩ s (calmIteration job) = some { s.polled (.ok job) job with raised := some e } := by
  rw [calm_backendStep_eq hSearch, mineLoopStep, hRaised, loopBody, pollJob_of_announces rfl fun _ => rfl]
  rfl

/-- A calm iteration of a backend that returns: the search is counted, and its winner, if
there is one, is submitted. -/
theorem calm_backendStep {result : BackendResult} (hRaised : s.raised = none)
    (hSearch : search job (s.startAttempt job) = .ok result) :
    ∃ s', backendStep search ⟨true⟩ s (calmIteration job) = some s' ∧ s'.raised = none ∧
      s'.progress = (s.polled (.ok job) job).progress.searched result ∧
      s'.metrics.submitted = s.metrics.submitted + if result.winner.isSome then 1 else 0 := by
  have hCalm : Iteration.Calm { calmIteration job with search := .ok result } job result :=
    ⟨rfl, rfl, rfl, fun _ => rfl, rfl⟩
  have hStep : mineLoopStep ⟨true⟩ s _ = some _ := hCalm.settles hRaised rfl rfl rfl
  refine ⟨_, (calm_backendStep_eq hSearch).trans hStep, ?_, ?_, ?_⟩
  all_goals
    rw [LoopState.settled]
    cases result.winner
  · exact hRaised
  · exact hRaised
  · rfl
  · rfl
  · exact (add_zero _).symm
  · rfl

/-- The CPU backend returns on the attempts that eight bytes hold and the targets that are
a uint256, -/
theorem cpuSearch_returns (hRange : pk.InRange) {attempt : Int} (h : Searchable job attempt) :
    ∃ result, cpuSearch pk job attempt = .ok result ∧ result.attempts = none := by
  have hRc : (⟨default, default, 0, ""⟩ : NaiveEnv).cudaRc = 0 := rfl
  rcases searches_agree hRange hRc job attempt with ⟨hNot, -⟩ | ⟨-, cpu, -, hCpu, -⟩
  · exact absurd h hNot
  · refine ⟨cpu.toBackendResult, ?_, rfl⟩
    rw [cpuSearch, hCpu]
    rfl

/-- and wins at the easiest target, with the work of one product. -/
theorem cpuSearch_wins (hRange : pk.InRange) (job : MiningJob) {attempt : Int} (hTarget : job.target = 2 ^ 256 - 1)
    (hAttempt : 0 ≤ attempt ∧ attempt < 2 ^ 64) :
    ∃ proof, cpuSearch pk job attempt =
      .ok ⟨true, some proof, (CpuBackend.M * CpuBackend.K * CpuBackend.N : Nat), none⟩ := by
  obtain ⟨⟨⟨A, B⟩, keyA, keyB⟩, hDraw⟩ := (draw_isOk_iff pk job).mpr hAttempt
  obtain ⟨ref, hRef, hFound, hBlock⟩ := evaluate_eq (draw_drawn hRange hDraw) keyA keyB
    (show 2 ^ 256 - 1 < 2 ^ 256 by decide)
  rw [winningTile_easiest] at hFound hBlock
  have hJob : CpuBackend.evaluate A B keyA keyB job.target = .ok ref := by
    rw [hTarget]
    exact hRef
  rw [cpuSearch, cpu_search_eq hDraw, hJob]
  dsimp only [ofReference, Except.mapError, bind, Except.bind]
  rw [CpuBackend.report, if_neg (by rw [hFound]; decide), hBlock]
  exact ⟨_, rfl⟩

/-- Two jobs of a header, the easiest target first, and a job of the next header. -/
def swapJobs : List MiningJob := [⟨[1], 2 ^ 256 - 1⟩, ⟨[1], 0⟩, ⟨[2], 2 ^ 256 - 1⟩]

def quietEnv : NaiveEnv := ⟨default, default, 0, ""⟩

def swapEvents (jobs : List MiningJob) : List (Iteration × NaiveEnv) :=
  jobs.map fun job => (calmIteration job, quietEnv)

/-- A run over some jobs can be continued by one more. -/
theorem swapEvents_snoc (jobs : List MiningJob) {start : LoopState}
    (run : Run (fun s (e : Iteration × NaiveEnv) => backendStep search ⟨true⟩ s e.1) start (swapEvents jobs) s)
    (hStep : backendStep search ⟨true⟩ s (calmIteration job) = some s') :
    Run (fun s (e : Iteration × NaiveEnv) => backendStep search ⟨true⟩ s e.1) start
      (swapEvents (jobs ++ [job])) s' := by
  rw [swapEvents, List.map_append]
  exact run.snoc (calmIteration job, quietEnv) hStep

/-- The run of the CPU backend over these jobs: one attempt each, a header change before the
third, and at least the two easy ones are won. -/
theorem swapJobs_run : ∃ s,
    Run (fun s (e : Iteration × NaiveEnv) => backendStep (cpuSearch constantPackages) ⟨true⟩ s e.1)
      (LoopState.init ⟨10, 0⟩) (swapEvents swapJobs) s ∧
    s.metrics.attempts = 3 ∧ s.metrics.jobSwitches = 2 ∧ 2 ≤ s.metrics.submitted := by
  let job₁ : MiningJob := ⟨[1], 2 ^ 256 - 1⟩
  let job₂ : MiningJob := ⟨[1], 0⟩
  let job₃ : MiningJob := ⟨[2], 2 ^ 256 - 1⟩
  have hStart₁ : (LoopState.init ⟨10, 0⟩).startAttempt job₁ = 0 := rfl
  obtain ⟨proof₁, hSearch₁⟩ := cpuSearch_wins constantPackages_inRange job₁ rfl
    (show 0 ≤ (0 : Int) ∧ (0 : Int) < 2 ^ 64 by decide)
  obtain ⟨s₁, hStep₁, hRaised₁, hProgress₁, hSubmitted₁⟩ :=
    calm_backendStep (s := LoopState.init ⟨10, 0⟩) rfl (hStart₁ ▸ hSearch₁)
  -- the second job has the header of the first, so the attempt goes on
  have hPolled₁ := polled_progress_same (show s₁.progress.jm.current = some job₁ by rw [hProgress₁]; rfl)
    (show job₂.headerId = job₁.headerId from rfl) (.ok job₂)
  rw [hProgress₁] at hPolled₁
  have hStart₂ : s₁.startAttempt job₂ = 1 := congrArg Progress.attempt hPolled₁
  obtain ⟨result₂, hSearch₂, hOne₂⟩ := cpuSearch_returns constantPackages_inRange
    (show Searchable job₂ 1 from ⟨by decide, by decide⟩)
  obtain ⟨s₂, hStep₂, hRaised₂, hProgress₂, hSubmitted₂⟩ := calm_backendStep hRaised₁ (hStart₂ ▸ hSearch₂)
  rw [hPolled₁] at hProgress₂
  have hPolled₂ := polled_progress_changed (show s₂.progress.jm.current = some job₂ by rw [hProgress₂]; rfl)
    (show job₃.headerId ≠ job₂.headerId by decide) (.ok job₃)
  rw [hProgress₂] at hPolled₂
  have hStart₃ : s₂.startAttempt job₃ = 0 := congrArg Progress.attempt hPolled₂
  obtain ⟨proof₃, hSearch₃⟩ := cpuSearch_wins constantPackages_inRange job₃ rfl
    (show 0 ≤ (0 : Int) ∧ (0 : Int) < 2 ^ 64 by decide)
  obtain ⟨s₃, hStep₃, -, hProgress₃, hSubmitted₃⟩ := calm_backendStep hRaised₂ (hStart₃ ▸ hSearch₃)
  rw [hPolled₂] at hProgress₃
  refine ⟨s₃, swapEvents_snoc [job₁, job₂] (swapEvents_snoc [job₁] (swapEvents_snoc [] .nil hStep₁) hStep₂) hStep₃,
    ?_, congrArg Progress.switches hProgress₃, ?_⟩
  · have hAttempts₃ : s₃.metrics.attempts = 0 + 1 + result₂.attempts.getD 1 + 1 :=
      congrArg Progress.attempts hProgress₃
    rw [hAttempts₃, hOne₂]
    rfl
  · have hTwice : s₃.metrics.submitted = 0 + 1 + (if result₂.winner.isSome then 1 else 0) + 1 := by
      rw [hSubmitted₃, hSubmitted₂, hSubmitted₁]
      rfl
    split_ifs at hTwice <;> omega

/-- At a target of 257 bits the naive backend raises on the first search. -/
theorem wideTarget_raises : ∃ s' text',
    Run (fun s (e : Iteration × NaiveEnv) => backendStep (naiveSearch constantPackages e.2) ⟨true⟩ s e.1)
      (LoopState.init ⟨10, 0⟩) (swapEvents [⟨[1], 2 ^ 256⟩]) s' ∧ s'.raised = some (.exception text') := by
  obtain ⟨-, -, text', hNaiveSearch⟩ | ⟨h, -⟩ :=
    searches_agree constantPackages_inRange (show quietEnv.cudaRc = 0 from rfl) ⟨[1], 2 ^ 256⟩ 0
  · have hNaive : naiveSearch constantPackages quietEnv ⟨[1], 2 ^ 256⟩ 0 = .error (.exception text') := by
      rw [naiveSearch, hNaiveSearch]
      rfl
    have hStep := calm_backendStep_raises (s := LoopState.init ⟨10, 0⟩) rfl hNaive
    exact ⟨_, text', .snoc .nil (calmIteration ⟨[1], 2 ^ 256⟩, quietEnv) hStep, rfl⟩
  · exact absurd h.2.2 (by decide)

/-- A run on the CPU backend that submits under two headers and its counterpart, and a
run on the naive backend that ends at a target of 257 bits and its counterpart. -/
theorem naive_loop_is_cpu_loop_three :
    (∃ s s', Run (fun s (e : Iteration × NaiveEnv) => backendStep (cpuSearch constantPackages) ⟨true⟩ s e.1)
        (LoopState.init ⟨10, 0⟩) (swapEvents swapJobs) s ∧
      Run (fun s (e : Iteration × NaiveEnv) => backendStep (naiveSearch constantPackages e.2) ⟨true⟩ s e.1)
        (LoopState.init ⟨10, 0⟩) (swapEvents swapJobs) s' ∧ SameLoop s s' ∧
      s.metrics.attempts = 3 ∧ s.metrics.jobSwitches = 2 ∧ 2 ≤ s.metrics.submitted) ∧
    ∃ s s' text text', Run (fun s (e : Iteration × NaiveEnv) =>
        backendStep (naiveSearch constantPackages e.2) ⟨true⟩ s e.1) (LoopState.init ⟨10, 0⟩)
        (swapEvents [⟨[1], 2 ^ 256⟩]) s' ∧
      Run (fun s (e : Iteration × NaiveEnv) => backendStep (cpuSearch constantPackages) ⟨true⟩ s e.1)
        (LoopState.init ⟨10, 0⟩) (swapEvents [⟨[1], 2 ^ 256⟩]) s ∧ SameLoop s s' ∧
      s.raised = some (.exception text) ∧ s'.raised = some (.exception text') := by
  have hRc (jobs : List MiningJob) : ∀ e ∈ swapEvents jobs, e.2.cudaRc = 0 := by simp [swapEvents, quietEnv]
  have hLoops (jobs : List MiningJob) := naive_loop_is_cpu_loop constantPackages constantPackages_inRange ⟨true⟩
    ⟨10, 0⟩ (swapEvents jobs) (hRc jobs)
  constructor
  · obtain ⟨s, run, hCounts⟩ := swapJobs_run
    obtain ⟨s', run', hSame⟩ := (hLoops swapJobs).1 s run
    exact ⟨s, s', run, run', hSame, hCounts⟩
  · obtain ⟨s', text', run', hRaised'⟩ := wideTarget_raises
    obtain ⟨s, run, hSame⟩ := (hLoops [⟨[1], 2 ^ 256⟩]).2 s' run'
    obtain ⟨text, hRaised⟩ := sameRaised_exception (hRaised' ▸ hSame.raised)
    exact ⟨s, s', text, text', run', run, hSame, hRaised, hRaised'⟩

end Calm

end Miner
