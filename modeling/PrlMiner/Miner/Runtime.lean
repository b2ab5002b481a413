import PrlMiner.Library.LittleEndian
import PrlMiner.Library.Runs

/-! The mine loop. What an iteration gets from outside, the answers of the gateway,
the thermal check, the search of the backend and the callbacks, is its input.
Wall-clock fields of the metrics are left out. -/
namespace Miner

open LittleEndian

structure MiningJob where
  incompleteHeaderBytes : List Byte
  target : Int
  deriving DecidableEq

/-- Identity used for stale detection. -/
def MiningJob.headerId (job : MiningJob) : List Byte := job.incompleteHeaderBytes

structure PlainProofSubmission where
  plainProof : List Byte
  job : MiningJob

/-- `detail` is its entry `attempts`, the only one the loop reads. -/
structure BackendResult where
  found : Bool
  plainProof : Option (List Byte)
  workUnits : Int
  attempts : Option Int

/-- `interrupt` stands for what `except Exception` lets through. -/
inductive Raised where
  | exception (text : String)
  | interrupt
  deriving DecidableEq

/-- How `get_mining_info` fails. -/
inductive InfoError where
  | miningPaused
  | raised (e : Raised)
  deriving DecidableEq

/-- Events of the loop, with what their details are made of. -/
inductive Event where
  | newJob (target : Int)
  | throttle (reason : String)
  | staleDrop
  | submit (ack : String)
  | submitError (error : String)

structure Metrics where
  workUnits : Int
  attempts : Int
  submitted : Nat
  accepted : Nat
  rejected : Nat
  stale : Nat
  jobSwitches : Nat

def Metrics.init : Metrics := ⟨0, 0, 0, 0, 0, 0, 0⟩

structure SafetyMonitor where
  exitAfterInvalid : Int
  invalidProofs : Int

/-- True once the limit is reached: the caller should exit. -/
def SafetyMonitor.noteInvalidProof (safety : SafetyMonitor) : Bool × SafetyMonitor :=
  let safety := { safety with invalidProofs := safety.invalidProofs + 1 }
  (decide (safety.invalidProofs ≥ safety.exitAfterInvalid), safety)

structure JobManager where
  current : Option MiningJob

/-- The job, none while mining is paused, and whether its header is a new one. -/
def JobManager.poll (jm : JobManager) (answer : Except InfoError MiningJob) :
    Except Raised (Option MiningJob × Bool × JobManager) :=
  match answer with
  | .error .miningPaused => .ok (none, false, jm)
  | .error (.raised e) => .error e
  | .ok job =>
      let changed := match jm.current with
        | none => true
        | some current => decide (job.headerId ≠ current.headerId)
      .ok (some job, changed, ⟨some job⟩)

structure LoopConfig where
  staleCancel : Bool

/-- One exchange with the gateway. -/
inductive GatewayCall where
  | getMiningInfo (answer : Except InfoError MiningJob)
  | submitPlainProof (submission : PlainProofSubmission) (answer : Except Raised String)

/-- Variables of the loop, the exchanges with the gateway so far and the exception
that ended it. -/
structure LoopState where
  safety : SafetyMonitor
  jm : JobManager
  attempt : Int
  metrics : Metrics
  wire : List GatewayCall
  raised : Option Raised

/-- At the start of `mine_loop`, under fresh metrics. -/
def LoopState.init (safety : SafetyMonitor) : LoopState := ⟨safety, ⟨none⟩, 0, Metrics.init, [], none⟩

/-- What one iteration gets from outside. Callbacks return or raise. `search` is
the result of the backend for the polled job and the current attempt. -/
structure Iteration where
  poll : Except InfoError MiningJob
  thermal : Except Raised (Option String)
  search : Except Raised BackendResult
  recheck : Except InfoError MiningJob
  ack : Except Raised String
  onEvent : Event → Option Raised
  onStatus : Option Raised

/-- A part of the loop body. An error ends the iteration: with an exception, or
without one by `continue`. -/
abbrev Body (α : Type) := Except (LoopState × Option Raised) α

def LoopState.call (s : LoopState) (c : GatewayCall) : LoopState := { s with wire := s.wire ++ [c] }

/-- `on_event`, where there is one. -/
def notify (it : Iteration) (event : Event) (s : LoopState) : Body LoopState :=
  match it.onEvent event with
  | none => .ok s
  | some e => .error (s, some e)

def pollJob (it : Iteration) (s : LoopState) : Body (MiningJob × LoopState) :=
  let s := s.call (.getMiningInfo it.poll)
  match s.jm.poll it.poll with
  | .error e => .error (s, some e)
  | .ok (none, _, _) => .error (s, none)
  | .ok (some job, changed, jm) =>
      let s := { s with jm := jm }
      if changed then
        let s := { s with attempt := 0, metrics := { s.metrics with jobSwitches := s.metrics.jobSwitches + 1 } }
        (notify it (.newJob job.target) s).map (job, ·)
      else .ok (job, s)

def checkThermal (it : Iteration) (s : LoopState) : Body LoopState :=
  match it.thermal with
  | .error e => .error (s, some e)
  | .ok none => .ok s
  | .ok (some reason) => do
      let s ← notify it (.throttle reason) s
      .error (s, none)

def search (it : Iteration) (s : LoopState) : Body (BackendResult × LoopState) :=
  match it.search with
  | .error e => .error (s, some e)
  | .ok result =>
      let attempted := result.attempts.getD 1
      .ok (result, { s with
        attempt := s.attempt + attempted
        metrics := { s.metrics with
          attempts := s.metrics.attempts + attempted
          workUnits := s.metrics.workUnits + result.workUnits } })

def dropStale (it : Iteration) (s : LoopState) : Body LoopState := do
  let s ← notify it .staleDrop { s with metrics := { s.metrics with stale := s.metrics.stale + 1 } }
  .error (s, none)

/-- Re-confirm the header, past the job manager. -/
def confirmCurrent (it : Iteration) (job : MiningJob) (s : LoopState) : Body LoopState :=
  let s := s.call (.getMiningInfo it.recheck)
  match it.recheck with
  | .error (.raised e) => .error (s, some e)
  | .error .miningPaused => dropStale it s
  | .ok latest => if latest.headerId ≠ job.headerId then dropStale it s else .ok s

/-- The `try` block of a submit. -/
def trySubmit (it : Iteration) (submission : PlainProofSubmission) (s : LoopState) : Body LoopState :=
  let s := s.call (.submitPlainProof submission it.ack)
  match it.ack with
  | .error e => .error (s, some e)
  | .ok ack =>
      let metrics := if ack = "submitted" then { s.metrics with accepted := s.metrics.accepted + 1 }
        else { s.metrics with rejected := s.metrics.rejected + 1 }
      notify it (.submit ack) { s with metrics := metrics }

def submit (it : Iteration) (submission : PlainProofSubmission) (s : LoopState) : Body LoopState :=
  let s := { s with metrics := { s.metrics with submitted := s.metrics.submitted + 1 } }
  match trySubmit it submission s with
  | .error (s, some (.exception text)) =>
      notify it (.submitError text) { s with metrics := { s.metrics with rejected := s.metrics.rejected + 1 } }
  | outcome => outcome

/-- What follows a search. -/
def handleResult (cfg : LoopConfig) (it : Iteration) (job : MiningJob) (result : BackendResult)
    (s : LoopState) : Body LoopState :=
  match result.found, result.plainProof with
  | true, some proof => do
      let s ← if cfg.staleCancel then confirmCurrent it job s else .ok s
      submit it ⟨proof, job⟩ s
  | _, _ => .ok s

/-- The body of the `while` loop. -/
def loopBody (cfg : LoopConfig) (it : Iteration) (s : LoopState) : Body LoopState := do
  let (job, s) ← pollJob it s
  let s ← checkThermal it s
  let (result, s) ← search it s
  let s ← handleResult cfg it job result s
  match it.onStatus with
  | none => .ok s
  | some e => .error (s, some e)

/-- One iteration of a loop that has not ended. -/
def mineLoopStep (cfg : LoopConfig) (s : LoopState) (it : Iteration) : Option LoopState :=
  match s.raised with
  | some _ => none
  | none =>
      match loopBody cfg it s with
      | .ok s => some s
      | .error (s, ended) => some { s with raised := ended }

/-- Iterations of `mine_loop` up to some point. -/
abbrev MineLoop (cfg : LoopConfig) (safety : SafetyMonitor) : List Iteration → LoopState → Prop :=
  Runs.Run (mineLoopStep cfg) (LoopState.init safety)

section Step

variable {cfg : LoopConfig} {it : Iteration} {s s' : LoopState}

/-- A loop that has not ended goes through its body, and has ended if the body ends
early. -/
theorem mineLoopStep_eq_some (hStep : mineLoopStep cfg s it = some s') :
    s.raised = none ∧ (loopBody cfg it s = .ok s' ∨
      ∃ s₁ ended, loopBody cfg it s = .error (s₁, ended) ∧ s' = { s₁ with raised := ended }) := by
  rw [mineLoopStep] at hStep
  cases hRaised : s.raised with
  | some e =>
      rw [hRaised] at hStep
      cases hStep
  | none =>
      rw [hRaised] at hStep
      refine ⟨rfl, ?_⟩
      cases hBody : loopBody cfg it s with
      | ok s₁ =>
          rw [hBody] at hStep
          cases hStep
          exact .inl rfl
      | error e =>
          rw [hBody] at hStep
          cases hStep
          exact .inr ⟨e.1, e.2, rfl, rfl⟩

/-- A loop that has not ended can always take its next step. -/
theorem mineLoopStep_of_running (hRaised : s.raised = none) : ∃ s', mineLoopStep cfg s it = some s' := by
  rw [mineLoopStep, hRaised]
  dsimp only
  cases loopBody cfg it s with
  | ok s' => exact ⟨s', rfl⟩
  | error e => exact ⟨_, rfl⟩

end Step

end Miner
