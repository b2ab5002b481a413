import PrlMiner.Miner.BackendSwap
import PrlMiner.Miner.MockGateway

/-! The self-test: a mine loop on the CPU backend and the mock gateway it talks to, as
one system. How many iterations its four seconds leave time for is left open. -/
namespace Miner

open LittleEndian FixedWidth Runs

/-- The first argument of `on_event`. -/
def Event.key : Event → String
  | .newJob _ => "new_job"
  | .throttle _ => "throttle"
  | .staleDrop => "stale_drop"
  | .submit _ => "submit"
  | .submitError _ => "submit_error"

/-- What is reported once a search has won. -/
def submitEvents (cfg : LoopConfig) (it : Iteration) (job : MiningJob) : List Event :=
  let submitted := match it.ack with
    | .ok ack => [.submit ack]
    | .error (.exception text) => [.submitError text]
    | .error .interrupt => []
  if cfg.staleCancel = false then submitted
  else
    match it.recheck with
    | .error (.raised _) => []
    | .error .miningPaused => [.staleDrop]
    | .ok latest => if latest.headerId ≠ job.headerId then [.staleDrop] else submitted

/-- The calls of `on_event` in one iteration, where each of them returns. -/
def Iteration.events (cfg : LoopConfig) (it : Iteration) (s : LoopState) : List Event :=
  match it.poll with
  | .error _ => []
  | .ok job =>
      (if s.headerChanged job then [.newJob job.target] else []) ++
        match it.thermal with
        | .error _ => []
        | .ok (some reason) => [.throttle reason]
        | .ok none =>
            match it.search with
            | .error _ => []
            | .ok result => if result.winner.isSome then submitEvents cfg it job else []

/-- `sum(1 for k, _ in events if k == key)`. -/
def countKey (key : String) (events : List Event) : Nat := events.countP (·.key = key)

structure SelfTest where
  loop : LoopState
  gw : MockGateway
  events : List Event

namespace SelfTest

def init (target rotateAfter pausedFirst : Int) : SelfTest :=
  ⟨LoopState.init ⟨10, 0⟩, .init target rotateAfter pausedFirst, []⟩

/-- What an iteration submits if it gets there. -/
def submission (it : Iteration) : Option PlainProofSubmission :=
  match it.poll, it.search with
  | .ok job, .ok result => result.winner.map (⟨·, job⟩)
  | _, _ => none

/-- The next iteration: the gateway answers its calls in turn. The CPU backend has no
temperatures, and the callbacks print or collect. -/
def iteration (search : MiningJob → Int → Except Raised BackendResult) (t : SelfTest) : Iteration :=
  let (poll, gw) := t.gw.getMiningInfo
  let (recheck, gw) := gw.getMiningInfo
  let it := withBackend search
    ⟨poll, .ok none, .error .interrupt, recheck, .error .interrupt, fun _ => none, none⟩ t.loop
  match submission it with
  | none => it
  | some submission => { it with ack := (gw.submitPlainProof submission).1 }

/-- The gateway serves the exchanges that the iteration adds to the wire. -/
def step (search : MiningJob → Int → Except Raised BackendResult) (cfg : LoopConfig) (t : SelfTest) :
    Option SelfTest := do
  let it := t.iteration search
  let loop ← mineLoopStep cfg t.loop it
  let gw ← (loop.wire.drop t.loop.wire.length).foldlM MockGateway.serve t.gw
  some ⟨loop, gw, t.events ++ it.events cfg t.loop⟩

/-- After some iterations. -/
def after (search : MiningJob → Int → Except Raised BackendResult) (target rotateAfter pausedFirst : Int) :
    Nat → Option SelfTest
  | 0 => some (init target rotateAfter pausedFirst)
  | n + 1 => after search target rotateAfter pausedFirst n >>= step search ⟨true⟩

def checks (t : SelfTest) : List (String × Bool) :=
  [("polled work", decide (t.loop.metrics.attempts > 0)),
    ("saw >=1 job", decide (countKey "new_job" t.events ≥ 1)),
    ("detected job rotation (stale handling exercised)", decide (t.loop.metrics.jobSwitches ≥ 2)),
    ("submitted >=1 proof", decide (countKey "submit" t.events ≥ 1)),
    ("gateway accepted >=1 submit", decide (t.gw.accepted ≥ 1))]

/-- The exit code. -/
def exitCode (t : SelfTest) : Nat := if t.checks.all Prod.snd then 0 else 1

end SelfTest

/-- `cmd_self_test`. -/
def cmdSelfTest (pk : Packages) (iterations : Nat) : Option (Except Raised Nat) := do
  let t ← SelfTest.after (cpuSearch pk) maxTarget 4 0 iterations
  match t.loop.raised with
  | some e => some (.error e)
  | none => some (.ok t.exitCode)

namespace MockGateway

/-- The header of an epoch that 8 bytes hold. -/
def headerOf (epoch : Nat) : List Byte :=
  (magic ++ (List.range 8).map fun i => BitVec.ofNat 8 (epoch / 256 ^ i)).rightpad 80 0

/-- The header of an epoch below `2 ^ 64` is its number behind the magic bytes, filled up
with zeros. -/
theorem currentHeader_eq {gw : MockGateway} (h : gw.epoch < 2 ^ 64) : gw.currentHeader = .ok (headerOf gw.epoch) := by
  have hBytes : Python.toBytesLittle 8 gw.epoch =
      .ok ((List.range 8).map fun i => BitVec.ofNat 8 (gw.epoch / 256 ^ i)) := by
    rw [Python.toBytesLittle, if_neg (by omega), Int.toNat_natCast, if_pos (by omega)]
  rw [currentHeader, hBytes]
  rfl

theorem headerOf_ne_nil (epoch : Nat) : headerOf epoch ≠ [] := by
  simp [headerOf, magic, List.rightpad]

/-- Epochs are told apart by their headers, as long as eight bytes hold them. -/
theorem headerOf_inj {epoch epoch' : Nat} (h : epoch < 2 ^ 64) (h' : epoch' < 2 ^ 64) :
    headerOf epoch = headerOf epoch' ↔ epoch = epoch' := by
  refine ⟨fun hHeader => ?_, congrArg headerOf⟩
  have hDigits : (List.range 8).map (fun i => BitVec.ofNat 8 (epoch / 256 ^ i)) =
      (List.range 8).map fun i => BitVec.ofNat 8 (epoch' / 256 ^ i) := by
    have hTake := congrArg (fun bytes => (bytes.drop 8).take 8) hHeader
    simpa [headerOf, magic, List.rightpad] using hTake
  have hBytes (i : Nat) (hi : i < 8) :
      BitVec.ofNat 8 (epoch / 2 ^ (8 * i)) = BitVec.ofNat 8 (epoch' / 2 ^ (8 * i)) := by
    have hPow : (2 : Nat) ^ (8 * i) = 256 ^ i := by rw [pow_mul]; rfl
    rw [hPow]
    exact List.map_inj_left.mp hDigits i (List.mem_range.mpr hi)
  calc epoch = ofDigits 8 (fun i => BitVec.ofNat 8 (epoch / 2 ^ (8 * i))) := by
        rw [ofDigits_ofNat, Nat.mod_eq_of_lt h]
    _ = ofDigits 8 (fun i => BitVec.ofNat 8 (epoch' / 2 ^ (8 * i))) := ofDigits_congr hBytes
    _ = epoch' := by rw [ofDigits_ofNat, Nat.mod_eq_of_lt h']

/-- The header turns with every `rotate_after`-th call past the pause. -/
structure Ticking (rotateAfter pausedFirst paused calls : Nat) (gw : MockGateway) : Prop where
  rotates : gw.rotateAfter = rotateAfter
  pauses : gw.pausedFirst = pausedFirst
  epoch : gw.epoch = calls / rotateAfter
  count : gw.calls = paused + calls

variable {gw : MockGateway} {rotateAfter pausedFirst paused calls : Nat}

/-- Past the pause every call turns the header if its number is a multiple of
`rotate_after`, so that the epoch is the quotient. -/
theorem Ticking.nextJob (h : Ticking rotateAfter pausedFirst pausedFirst calls gw) (hEpoch : calls + 1 < 2 ^ 64) :
    gw.nextJob = (.ok (some (headerOf ((calls + 1) / rotateAfter))),
      { gw with calls := gw.calls + 1, epoch := (calls + 1) / rotateAfter }) := by
  have hCalls : (((gw.calls + 1 : Nat) : Int) - gw.pausedFirst) = ((calls + 1 : Nat) : Int) := by
    rw [h.count, h.pauses]
    omega
  have hTurn :
      (gw.rotateAfter ≠ 0 ∧ ((calls + 1 : Nat) : Int).fmod gw.rotateAfter = 0) ↔ rotateAfter ∣ calls + 1 := by
    rw [h.rotates, ← Int.dvd_iff_fmod_eq_zero, Int.natCast_dvd_natCast]
    constructor
    · exact fun hTurn => hTurn.2
    · intro hDvd
      refine ⟨fun hZero => ?_, hDvd⟩
      rw [Int.natCast_eq_zero.mp hZero] at hDvd
      exact absurd (Nat.eq_zero_of_zero_dvd hDvd) (by omega)
  have hNext : (if gw.rotateAfter ≠ 0 ∧ ((calls + 1 : Nat) : Int).fmod gw.rotateAfter = 0 then
      { { gw with calls := gw.calls + 1 } with epoch := gw.epoch + 1 } else { gw with calls := gw.calls + 1 }) =
      { gw with calls := gw.calls + 1, epoch := (calls + 1) / rotateAfter } := by
    rw [Nat.succ_div, ← h.epoch]
    by_cases hDvd : rotateAfter ∣ calls + 1
    · rw [if_pos (hTurn.mpr hDvd), if_pos hDvd]
    · rw [if_neg fun h => hDvd (hTurn.mp h), if_neg hDvd]
      rfl
  have hLater : ¬((gw.calls + 1 : Nat) : Int) ≤ gw.pausedFirst := by
    rw [h.count, h.pauses]
    omega
  have hSmall : (calls + 1) / rotateAfter < 2 ^ 64 := lt_of_le_of_lt (Nat.div_le_self _ _) hEpoch
  rw [MockGateway.nextJob]
  dsimp only
  rw [if_neg hLater, hCalls, hNext, currentHeader_eq hSmall]
  rfl

/-- Past one more call. -/
def tick (gw : MockGateway) (epoch : Nat) : MockGateway := { gw with calls := gw.calls + 1, epoch := epoch }

/-- One call more is counted. -/
theorem Ticking.tick (h : Ticking rotateAfter pausedFirst paused calls gw) :
    Ticking rotateAfter pausedFirst paused (calls + 1) (gw.tick ((calls + 1) / rotateAfter)) :=
  ⟨h.rotates, h.pauses, rfl, congrArg (· + 1) h.count⟩

/-- Past the pause a poll gets the job of the header of its call, at the target of the
gateway. -/
theorem Ticking.getMiningInfo (h : Ticking rotateAfter pausedFirst pausedFirst calls gw) (hEpoch : calls + 1 < 2 ^ 64)
    (hTarget : 0 ≤ gw.target ∧ gw.target ≤ maxTarget) :
    gw.getMiningInfo =
      (.ok ⟨headerOf ((calls + 1) / rotateAfter), gw.target⟩, gw.tick ((calls + 1) / rotateAfter)) := by
  rw [MockGateway.getMiningInfo, h.nextJob hEpoch]
  dsimp only
  rw [MiningJob.fromDict, if_neg (not_not.mpr hTarget), if_neg (headerOf_ne_nil _)]
  rfl

/-- A call during the pause gets no job, and does not turn the header. -/
theorem getMiningInfo_paused (h : ((gw.calls + 1 : Nat) : Int) ≤ gw.pausedFirst) :
    gw.getMiningInfo = (.error .miningPaused, gw.tick gw.epoch) := by
  rw [MockGateway.getMiningInfo, MockGateway.nextJob]
  dsimp only
  rw [if_pos h]
  rfl

/-- Past a submission under the current header. -/
def accept (gw : MockGateway) (submission : PlainProofSubmission) : MockGateway :=
  { gw with
    submissions := gw.submissions ++ [submission]
    acceptedByHeader := bump submission.job.incompleteHeaderBytes gw.acceptedByHeader }

/-- A submit under the current header is accepted and acknowledged. -/
theorem submitPlainProof_accepts {submission : PlainProofSubmission} (hEpoch : gw.epoch < 2 ^ 64)
    (hHeader : submission.job.incompleteHeaderBytes = headerOf gw.epoch) :
    gw.submitPlainProof submission = (.ok "submitted", gw.accept submission) := by
  have hCurrent : currentHeader { gw with submissions := gw.submissions ++ [submission] } =
      .ok (headerOf gw.epoch) := currentHeader_eq hEpoch
  rw [submitPlainProof, recordSubmit]
  dsimp only
  rw [hCurrent]
  dsimp only
  rw [if_pos hHeader]
  rfl

theorem accepted_accept (gw : MockGateway) (submission : PlainProofSubmission) :
    (gw.accept submission).accepted = gw.accepted + 1 := sum_bump _ gw.acceptedByHeader

/-- A submit is no call for a job, and turns no header. -/
theorem Ticking.accept (h : Ticking rotateAfter pausedFirst paused calls gw) (submission : PlainProofSubmission) :
    Ticking rotateAfter pausedFirst paused calls (gw.accept submission) := ⟨h.rotates, h.pauses, h.epoch, h.count⟩

end MockGateway

section Loop

variable {cfg : LoopConfig} {it : Iteration} {s : LoopState}

/-- A poll during the pause ends the iteration, and nothing is counted. -/
theorem mineLoopStep_paused (hRaised : s.raised = none) (hPoll : it.poll = .error .miningPaused) :
    mineLoopStep cfg s it = some (s.call (.getMiningInfo it.poll)) := by
  rw [mineLoopStep, hRaised, loopBody, pollJob, hPoll]
  simp [JobManager.poll, LoopState.call, bind, Except.bind, hRaised]

end Loop

end Miner
