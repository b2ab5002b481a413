import Mathlib.Data.Nat.GCD.Basic
import PrlMiner.Miner.SelfTest

/-! Runs of the self-test: what the loop and the gateway have counted after some
iterations. -/
namespace Miner

open LittleEndian FixedWidth Runs

namespace MockGateway

variable {gw gw' : MockGateway}

theorem serve_polled {answer : Except InfoError MiningJob} (h : gw.getMiningInfo = (answer, gw')) :
    serve gw (.getMiningInfo answer) = some gw' := by
  rw [serve, h, if_pos rfl]

theorem serve_submitted {submission : PlainProofSubmission} {answer : Except Raised String}
    (h : gw.submitPlainProof submission = (answer, gw')) :
    serve gw (.submitPlainProof submission answer) = some gw' := by
  rw [serve, h, if_pos rfl]

end MockGateway

namespace SelfTest

/-- Attempts from one stale winner to the next. -/
def stalePeriod (rotateAfter : Nat) : Nat := rotateAfter / rotateAfter.gcd 2

/-- Headers polled over some attempts: two calls each, the first one a poll. -/
def switches (rotateAfter attempts : Nat) : Nat := min attempts ((2 * attempts - 1) / rotateAfter + 1)

/-- Two calls for each attempt: the calls come to a multiple of `rotate_after` when the
attempts come to one of the period. -/
theorem dvd_two_mul_iff (rotateAfter attempts : Nat) :
    rotateAfter ∣ 2 * attempts ↔ stalePeriod rotateAfter ∣ attempts := by
  have hPos : 0 < rotateAfter.gcd 2 := Nat.gcd_pos_of_pos_right _ (by omega)
  have hPeriod : stalePeriod rotateAfter * rotateAfter.gcd 2 = rotateAfter :=
    Nat.div_mul_cancel (Nat.gcd_dvd_left _ _)
  have hTwo : 2 / rotateAfter.gcd 2 * rotateAfter.gcd 2 = 2 := Nat.div_mul_cancel (Nat.gcd_dvd_right _ _)
  calc rotateAfter ∣ 2 * attempts
      ↔ stalePeriod rotateAfter * rotateAfter.gcd 2 ∣ 2 / rotateAfter.gcd 2 * attempts * rotateAfter.gcd 2 := by
        rw [hPeriod, Nat.mul_right_comm, hTwo]
    _ ↔ stalePeriod rotateAfter ∣ 2 / rotateAfter.gcd 2 * attempts := Nat.mul_dvd_mul_iff_right hPos
    _ ↔ stalePeriod rotateAfter ∣ attempts := (Nat.coprime_div_gcd_div_gcd hPos).dvd_mul_left

/-- The header turns between the two calls of an attempt exactly at every attempt of the
period. -/
theorem turns_iff (rotateAfter attempts : Nat) :
    (2 * attempts + 2) / rotateAfter ≠ (2 * attempts + 1) / rotateAfter ↔
      stalePeriod rotateAfter ∣ attempts + 1 := by
  rw [← dvd_two_mul_iff, Nat.succ_div, show 2 * attempts + 1 + 1 = 2 * (attempts + 1) by ring]
  split_ifs with h
  · simp [h]
  · simp [h]

/-- An attempt is a switch of jobs if the header has turned since the poll of the attempt
before it. The first attempt is one. -/
theorem switches_succ (rotateAfter attempts : Nat) :
    switches rotateAfter (attempts + 1) = switches rotateAfter attempts +
      if attempts = 0 ∨ (2 * attempts + 1) / rotateAfter ≠ (2 * attempts - 1) / rotateAfter then 1 else 0 := by
  rw [switches, switches, show 2 * (attempts + 1) - 1 = 2 * attempts + 1 by omega]
  rcases Nat.eq_zero_or_pos attempts with rfl | hAttempts
  · simp
  obtain ⟨calls, hCalls⟩ : ∃ calls, 2 * attempts = calls + 1 := ⟨2 * attempts - 1, by omega⟩
  rw [hCalls, Nat.add_sub_cancel, show calls + 1 + 1 = calls + 2 by ring]
  match rotateAfter with
  | 0 =>
      simp only [Nat.div_zero]
      split_ifs <;> omega
  | 1 =>
      simp only [Nat.div_one]
      split_ifs <;> omega
  | period + 2 =>
      have hNext : (calls + 2) / (period + 2) ≤ calls / (period + 2) + 1 := by
        rw [← Nat.add_div_right _ (by omega)]
        exact Nat.div_le_div_right (by omega)
      have hMono : calls / (period + 2) ≤ (calls + 2) / (period + 2) := Nat.div_le_div_right (by omega)
      have hHalf : (calls + 2) / (period + 2) ≤ (calls + 2) / 2 := Nat.div_le_div_left (by omega) (by omega)
      have hHalf' : calls / (period + 2) ≤ calls / 2 := Nat.div_le_div_left (by omega) (by omega)
      split_ifs <;> omega

/-- A backend that wins at every attempt that fits into 8 bytes. -/
def AlwaysWins (search : MiningJob → Int → Except Raised BackendResult) (target work : Int) : Prop :=
  ∀ job attempt, job.target = target → 0 ≤ attempt → attempt < 2 ^ 64 →
    ∃ proof, search job attempt = .ok ⟨true, some proof, work, none⟩

/-- After some polls of a paused gateway and then some attempts. -/
structure Holds (target work : Int) (rotateAfter pausedFirst paused attempts : Nat) (t : SelfTest) : Prop where
  running : t.loop.raised = none
  current : t.loop.jm.current =
    if attempts = 0 then none else some ⟨MockGateway.headerOf ((2 * attempts - 1) / rotateAfter), target⟩
  attempt : 0 ≤ t.loop.attempt ∧ t.loop.attempt ≤ attempts
  metrics : t.loop.metrics = {
    workUnits := attempts * work
    attempts := attempts
    submitted := attempts - attempts / stalePeriod rotateAfter
    accepted := attempts - attempts / stalePeriod rotateAfter
    rejected := 0
    stale := attempts / stalePeriod rotateAfter
    jobSwitches := switches rotateAfter attempts }
  served : Run MockGateway.serve (.init target rotateAfter pausedFirst) t.loop.wire t.gw
  ticking : MockGateway.Ticking rotateAfter pausedFirst paused (2 * attempts) t.gw
  target : t.gw.target = target
  accepted : t.gw.accepted = attempts - attempts / stalePeriod rotateAfter
  droppedStale : t.gw.droppedStale = 0
  newJobs : countKey "new_job" t.events = switches rotateAfter attempts
  submits : countKey "submit" t.events = attempts - attempts / stalePeriod rotateAfter
  stales : countKey "stale_drop" t.events = attempts / stalePeriod rotateAfter

variable {search : MiningJob → Int → Except Raised BackendResult} {target work : Int}
  {rotateAfter pausedFirst paused attempts : Nat} {t : SelfTest}

theorem holds_init (target work : Int) (rotateAfter pausedFirst : Nat) :
    Holds target work rotateAfter pausedFirst 0 0 (init target rotateAfter pausedFirst) where
  running := rfl
  current := rfl
  attempt := ⟨le_rfl, le_rfl⟩
  metrics := by simp [init, LoopState.init, Metrics.init, switches]
  served := .nil
  ticking := ⟨rfl, rfl, by simp [init, MockGateway.init], rfl⟩
  target := rfl
  accepted := by simp [init, MockGateway.init, MockGateway.accepted]
  droppedStale := rfl
  newJobs := by simp [init, countKey, switches]
  submits := by simp [init, countKey]
  stales := by simp [init, countKey]

theorem countKey_append (key : String) (events events' : List Event) :
    countKey key (events ++ events') = countKey key events + countKey key events' := List.countP_append

/-- A backend does not change the poll of an iteration. -/
theorem withBackend_poll (search : MiningJob → Int → Except Raised BackendResult) (it : Iteration) (s : LoopState) :
    (withBackend search it s).poll = it.poll := by
  rw [withBackend]
  split <;> rfl

theorem iteration_poll (search : MiningJob → Int → Except Raised BackendResult) (t : SelfTest) :
    (t.iteration search).poll = t.gw.getMiningInfo.1 := by
  rw [iteration]
  dsimp only
  split <;> exact withBackend_poll search _ _

/-- The gateway serves what an iteration adds to the wire, and both go on from there. -/
theorem step_of_served {loop : LoopState} {gw : MockGateway} {calls : List GatewayCall}
    (hLoop : mineLoopStep ⟨true⟩ t.loop (t.iteration search) = some loop)
    (hWire : loop.wire = t.loop.wire ++ calls) (hServed : Run MockGateway.serve t.gw calls gw) :
    step search ⟨true⟩ t = some ⟨loop, gw, t.events ++ (t.iteration search).events ⟨true⟩ t.loop⟩ := by
  have hDrop : (loop.wire.drop t.loop.wire.length).foldlM MockGateway.serve t.gw = some gw := by
    rw [hWire, List.drop_left]
    exact run_iff_foldlM.mp hServed
  rw [step]
  dsimp only [bind, Option.bind]
  rw [hLoop]
  dsimp only
  rw [hDrop]

/-- A poll during the pause: the gateway counts its call, and the loop nothing. -/
theorem Holds.wait (h : Holds target work rotateAfter pausedFirst paused 0 t) (hPaused : paused < pausedFirst) :
    ∃ t', step search ⟨true⟩ t = some t' ∧ Holds target work rotateAfter pausedFirst (paused + 1) 0 t' := by
  have hInfo : t.gw.getMiningInfo = (.error .miningPaused, t.gw.tick t.gw.epoch) := by
    apply MockGateway.getMiningInfo_paused
    rw [h.ticking.count, h.ticking.pauses]
    omega
  have hPoll : (t.iteration search).poll = .error .miningPaused := by
    rw [iteration_poll, hInfo]
  have hLoop : mineLoopStep ⟨true⟩ t.loop (t.iteration search) = _ := mineLoopStep_paused h.running hPoll
  have hServed : Run MockGateway.serve t.gw [.getMiningInfo (t.iteration search).poll] (t.gw.tick t.gw.epoch) := by
    rw [hPoll]
    exact .snoc .nil _ (MockGateway.serve_polled hInfo)
  refine ⟨_, step_of_served hLoop rfl hServed, ?_⟩
  have hEvents : (t.iteration search).events ⟨true⟩ t.loop = [] := by
    rw [Iteration.events, hPoll]
  rw [hEvents, List.append_nil]
  exact ⟨h.running, h.current, h.attempt, h.metrics, h.served.append hServed,
    ⟨h.ticking.rotates, h.ticking.pauses, h.ticking.epoch, by
      have hCalls := h.ticking.count
      show t.gw.calls + 1 = paused + 1 + 2 * 0
      omega⟩, h.target, h.accepted, h.droppedStale, h.newJobs, h.submits, h.stales⟩

/-- An iteration at which the backend wins polls the gateway twice, and then submits or
does not. -/
theorem iteration_of_wins {gw₁ gw₂ : MockGateway} {job : MiningJob} {recheck : Except InfoError MiningJob}
    {result : BackendResult} {proof : List Byte} (hPoll : t.gw.getMiningInfo = (.ok job, gw₁))
    (hRecheck : gw₁.getMiningInfo = (recheck, gw₂))
    (hSearch : search job (t.loop.polled (.ok job) job).attempt = .ok result) (hWinner : result.winner = some proof) :
    t.iteration search = ⟨.ok job, .ok none, .ok result, recheck, (gw₂.submitPlainProof ⟨proof, job⟩).1,
      fun _ => none, none⟩ := by
  let it : Iteration := ⟨.ok job, .ok none, .error .interrupt, recheck, .error .interrupt, fun _ => none, none⟩
  have hCall : searchCall it t.loop = some (job, t.loop.polled (.ok job) job) :=
    searchCall_of_searches ⟨rfl, fun _ => rfl, rfl⟩
  have hIt : withBackend search it t.loop = { it with search := .ok result } := by
    rw [withBackend, hCall]
    exact congrArg (fun search => { it with search := search }) hSearch
  rw [iteration, hPoll]
  dsimp only
  rw [hRecheck]
  dsimp only
  rw [hIt, submission]
  dsimp only [it]
  rw [hWinner]
  rfl

/-- The job of a call past the pause. -/
def jobAt (target : Int) (rotateAfter calls : Nat) : MiningJob :=
  ⟨MockGateway.headerOf (calls / rotateAfter), target⟩

/-- Once the backend has searched. -/
def searchedAt (t : SelfTest) (job : MiningJob) (proof : List Byte) (work : Int) : LoopState :=
  (t.loop.polled (.ok job) job).searched ⟨true, some proof, work, none⟩

/-- What the gateway and the backend answer over one attempt: the winner is at hand, and
the gateway has been polled again. -/
structure Answered (search : MiningJob → Int → Except Raised BackendResult) (target work : Int)
    (rotateAfter pausedFirst attempts : Nat) (t : SelfTest) (proof : List Byte) (gw : MockGateway) : Prop where
  iteration : t.iteration search =
    ⟨.ok (jobAt target rotateAfter (2 * attempts + 1)), .ok none, .ok ⟨true, some proof, work, none⟩,
      .ok (jobAt target rotateAfter (2 * attempts + 2)),
      (gw.submitPlainProof ⟨proof, jobAt target rotateAfter (2 * attempts + 1)⟩).1, fun _ => none, none⟩
  served : Run MockGateway.serve t.gw [.getMiningInfo (.ok (jobAt target rotateAfter (2 * attempts + 1))),
    .getMiningInfo (.ok (jobAt target rotateAfter (2 * attempts + 2)))] gw
  ticking : MockGateway.Ticking rotateAfter pausedFirst pausedFirst (2 * (attempts + 1)) gw
  target : gw.target = target
  accepted : gw.accepted = t.gw.accepted
  droppedStale : gw.droppedStale = t.gw.droppedStale

section Attempt

variable (h : Holds target work rotateAfter pausedFirst pausedFirst attempts t) (hCalls : 2 * attempts + 2 < 2 ^ 64)
include h hCalls

/-- Whether the poll of an attempt finds a new header, from the numbers of the calls. -/
theorem Holds.headerChanged : t.loop.headerChanged (jobAt target rotateAfter (2 * attempts + 1)) =
    decide (attempts = 0 ∨ (2 * attempts + 1) / rotateAfter ≠ (2 * attempts - 1) / rotateAfter) := by
  rw [LoopState.headerChanged, h.current]
  have hSmall (calls : Nat) (hLe : calls ≤ 2 * attempts + 1) : calls / rotateAfter < 2 ^ 64 :=
    lt_of_le_of_lt (Nat.div_le_self _ _) (by omega)
  have hHeaders := MockGateway.headerOf_inj (hSmall (2 * attempts + 1) le_rfl) (hSmall (2 * attempts - 1) (by omega))
  by_cases hZero : attempts = 0
  · simp [hZero]
  · simp [hZero, jobAt, MiningJob.headerId, hHeaders]

/-- After the search one attempt more is counted, with its work, and a switch if the
header was new. -/
theorem Holds.searched_metrics (proof : List Byte) :
    (t.searchedAt (jobAt target rotateAfter (2 * attempts + 1)) proof work).metrics = {
      t.loop.metrics with
      workUnits := (attempts + 1 : Nat) * work
      attempts := (attempts + 1 : Nat)
      jobSwitches := switches rotateAfter (attempts + 1) } := by
  rw [searchedAt, LoopState.searched, LoopState.polled, h.headerChanged hCalls, switches_succ, h.metrics]
  simp only [decide_eq_true_eq, Option.getD_none, Nat.cast_add, Nat.cast_one]
  rw [add_mul, one_mul]

/-- The attempt of a header is no later than the attempts of all headers, so that eight
bytes hold it. -/
theorem Holds.polled_attempt (job : MiningJob) :
    0 ≤ (t.loop.polled (.ok job) job).attempt ∧ (t.loop.polled (.ok job) job).attempt ≤ attempts := by
  have hAttempt := h.attempt
  rw [LoopState.polled, LoopState.startAttempt]
  dsimp only
  split_ifs <;> omega

/-- The gateway and the backend over one attempt: both polls are answered, and the backend
finds a winner. -/
theorem Holds.answers (hTarget : 0 ≤ target ∧ target ≤ maxTarget) (hWins : AlwaysWins search target work) :
    ∃ proof gw, Answered search target work rotateAfter pausedFirst attempts t proof gw := by
  have hGw := h.target
  have hPoll := h.ticking.getMiningInfo (by omega) (hGw ▸ hTarget)
  have hRecheck := h.ticking.tick.getMiningInfo (by omega)
    (show 0 ≤ t.gw.target ∧ t.gw.target ≤ maxTarget from hGw ▸ hTarget)
  have hJob (calls : Nat) :
      (⟨MockGateway.headerOf (calls / rotateAfter), t.gw.target⟩ : MiningJob) = jobAt target rotateAfter calls := by
    rw [hGw]
    rfl
  rw [hJob] at hPoll
  have hRecheck := hRecheck.trans (congrArg (fun job => (Except.ok job, _)) (hJob (2 * attempts + 1 + 1)))
  obtain ⟨hLow, hHigh⟩ := h.polled_attempt hCalls (jobAt target rotateAfter (2 * attempts + 1))
  obtain ⟨proof, hSearch⟩ := hWins (jobAt target rotateAfter (2 * attempts + 1)) _ rfl hLow (by omega)
  exact ⟨proof, _, {
    iteration := iteration_of_wins hPoll hRecheck hSearch rfl
    served := .snoc (.snoc .nil _ (MockGateway.serve_polled hPoll)) _ (MockGateway.serve_polled hRecheck)
    ticking := h.ticking.tick.tick
    target := hGw
    accepted := rfl
    droppedStale := rfl }⟩

/-- The state after an attempt, from how often its winner was dropped and accepted, which
is once in all. -/
theorem Holds.next {loop : LoopState} {gw : MockGateway} (proof : List Byte) {outcome : List Event}
    {stale accepted : Nat} (hOne : stale + accepted = 1)
    (hStale : (attempts + 1) / stalePeriod rotateAfter = attempts / stalePeriod rotateAfter + stale)
    (hLoop : loop = { t.searchedAt (jobAt target rotateAfter (2 * attempts + 1)) proof work with
      wire := loop.wire
      metrics := { (t.searchedAt (jobAt target rotateAfter (2 * attempts + 1)) proof work).metrics with
        submitted := t.loop.metrics.submitted + accepted
        accepted := t.loop.metrics.accepted + accepted
        stale := t.loop.metrics.stale + stale } })
    (hServed : Run MockGateway.serve (.init target rotateAfter pausedFirst) loop.wire gw)
    (hTicking : MockGateway.Ticking rotateAfter pausedFirst pausedFirst (2 * (attempts + 1)) gw)
    (hTarget : gw.target = target) (hAccepted : gw.accepted = t.gw.accepted + accepted)
    (hDropped : gw.droppedStale = t.gw.droppedStale) (hNew : countKey "new_job" outcome = 0)
    (hSubmits : countKey "submit" outcome = accepted) (hStales : countKey "stale_drop" outcome = stale) :
    Holds target work rotateAfter pausedFirst pausedFirst (attempts + 1) ⟨loop, gw, t.events ++
      ((if t.loop.headerChanged (jobAt target rotateAfter (2 * attempts + 1)) then [.newJob target] else []) ++
        outcome)⟩ := by
  have hLe : attempts / stalePeriod rotateAfter ≤ attempts := Nat.div_le_self _ _
  have hAttempt := h.polled_attempt hCalls (jobAt target rotateAfter (2 * attempts + 1))
  have hMetrics := h.metrics
  have hAnnounced (key : String) (changed : Bool) : countKey key (if changed then [.newJob target] else []) =
      if key = "new_job" ∧ changed then 1 else 0 := by
    cases changed <;> simp [countKey, Event.key, eq_comm]
  constructor
  · rw [hLoop]
    exact h.running
  · rw [hLoop]
    rfl
  · rw [hLoop]
    show 0 ≤ (t.loop.polled _ _).attempt + 1 ∧ (t.loop.polled _ _).attempt + 1 ≤ _
    omega
  · rw [hLoop]
    dsimp only
    rw [h.searched_metrics hCalls, hMetrics, hStale]
    simp only [Metrics.mk.injEq, true_and, and_true]
    omega
  · exact hServed
  · exact hTicking
  · exact hTarget
  · rw [hAccepted, h.accepted, hStale]
    omega
  · exact hDropped.trans h.droppedStale
  · rw [countKey_append, countKey_append, hAnnounced, hNew, h.newJobs, h.headerChanged hCalls, switches_succ]
    simp
  · rw [countKey_append, countKey_append, hAnnounced, hSubmits, h.submits, hStale]
    simp
    omega
  · rw [countKey_append, countKey_append, hAnnounced, hStales, h.stales, hStale]
    simp

omit h in
/-- The header that the winner was found for is still that of the gateway when it is
polled again, but for one attempt of each period. -/
theorem header_kept_iff : (jobAt target rotateAfter (2 * attempts + 2)).headerId =
    (jobAt target rotateAfter (2 * attempts + 1)).headerId ↔ ¬ stalePeriod rotateAfter ∣ attempts + 1 := by
  have hSmall (calls : Nat) (hLe : calls ≤ 2 * attempts + 2) : calls / rotateAfter < 2 ^ 64 :=
    lt_of_le_of_lt (Nat.div_le_self _ _) (by omega)
  rw [← turns_iff, not_not]
  exact MockGateway.headerOf_inj (hSmall _ le_rfl) (hSmall _ (by omega))

variable {proof : List Byte} {gw : MockGateway}
  (answered : Answered search target work rotateAfter pausedFirst attempts t proof gw)

omit h hCalls in
include answered in
theorem Answered.wins : (t.iteration search).Wins (jobAt target rotateAfter (2 * attempts + 1))
    ⟨true, some proof, work, none⟩ proof := by
  rw [answered.iteration]
  exact ⟨rfl, rfl, rfl, rfl, fun _ => rfl, rfl⟩

include answered

/-- The gateway turns its header before it is polled again: the winner is dropped by the
loop, and the gateway never sees it. -/
theorem Holds.drop_step (hTurn : stalePeriod rotateAfter ∣ attempts + 1) :
    ∃ t', step search ⟨true⟩ t = some t' ∧
      Holds target work rotateAfter pausedFirst pausedFirst (attempts + 1) t' := by
  have hIt := answered.iteration
  have hOther : (jobAt target rotateAfter (2 * attempts + 2)).headerId ≠
      (jobAt target rotateAfter (2 * attempts + 1)).headerId := fun hSame =>
    (header_kept_iff hCalls).mp hSame hTurn
  have hLoop : mineLoopStep ⟨true⟩ t.loop (t.iteration search) = _ :=
    answered.wins.drops h.running rfl (by rw [hIt]) hOther
  have hEvents : (t.iteration search).events ⟨true⟩ t.loop =
      (if t.loop.headerChanged (jobAt target rotateAfter (2 * attempts + 1)) then [.newJob target] else []) ++
        [.staleDrop] := by
    have hSubmit : submitEvents ⟨true⟩ (t.iteration search) (jobAt target rotateAfter (2 * attempts + 1)) =
        [.staleDrop] := by
      rw [hIt, submitEvents]
      exact if_pos hOther
    rw [← hSubmit, hIt]
    rfl
  have hWire : (((t.loop.polled (t.iteration search).poll (jobAt target rotateAfter (2 * attempts + 1))).searched
      ⟨true, some proof, work, none⟩).dropped (t.iteration search).recheck).wire =
      t.loop.wire ++ [.getMiningInfo (.ok (jobAt target rotateAfter (2 * attempts + 1))),
        .getMiningInfo (.ok (jobAt target rotateAfter (2 * attempts + 2)))] := by
    rw [hIt]
    exact List.append_assoc _ _ _
  refine ⟨_, step_of_served hLoop hWire answered.served, ?_⟩
  rw [hEvents]
  refine h.next hCalls proof (show 1 + 0 = 1 from rfl) ?_ ?_ ?_ answered.ticking answered.target answered.accepted
    answered.droppedStale rfl rfl rfl
  · rw [Nat.succ_div, if_pos hTurn]
  · rw [hIt]
    rfl
  · rw [hWire]
    exact h.served.append answered.served

/-- The gateway keeps its header, and accepts the winner that is submitted. -/
theorem Holds.submit_step (hKeep : ¬ stalePeriod rotateAfter ∣ attempts + 1) :
    ∃ t', step search ⟨true⟩ t = some t' ∧
      Holds target work rotateAfter pausedFirst pausedFirst (attempts + 1) t' := by
  have hIt := answered.iteration
  have hSame : (jobAt target rotateAfter (2 * attempts + 2)).headerId =
      (jobAt target rotateAfter (2 * attempts + 1)).headerId := (header_kept_iff hCalls).mpr hKeep
  have hAck : gw.submitPlainProof ⟨proof, jobAt target rotateAfter (2 * attempts + 1)⟩ =
      (.ok "submitted", gw.accept ⟨proof, jobAt target rotateAfter (2 * attempts + 1)⟩) := by
    apply MockGateway.submitPlainProof_accepts
    · rw [answered.ticking.epoch]
      exact lt_of_le_of_lt (Nat.div_le_self _ _) (by omega)
    · rw [answered.ticking.epoch]
      exact hSame.symm
  rw [hAck] at hIt
  have hLoop : mineLoopStep ⟨true⟩ t.loop (t.iteration search) = _ :=
    answered.wins.submits h.running rfl (by rw [hIt]) hSame (by rw [hIt])
  have hEvents : (t.iteration search).events ⟨true⟩ t.loop =
      (if t.loop.headerChanged (jobAt target rotateAfter (2 * attempts + 1)) then [.newJob target] else []) ++
        [.submit "submitted"] := by
    have hSubmit : submitEvents ⟨true⟩ (t.iteration search) (jobAt target rotateAfter (2 * attempts + 1)) =
        [.submit "submitted"] := by
      rw [hIt, submitEvents]
      exact if_neg (not_not.mpr hSame)
    rw [← hSubmit, hIt]
    rfl
  have hServed := answered.served.snoc (.submitPlainProof ⟨proof, _⟩ (.ok "submitted"))
    (MockGateway.serve_submitted hAck)
  have hWire : (((t.loop.polled (t.iteration search).poll (jobAt target rotateAfter (2 * attempts + 1))).searched
      ⟨true, some proof, work, none⟩).accepted (t.iteration search).recheck
        ⟨proof, jobAt target rotateAfter (2 * attempts + 1)⟩).wire = t.loop.wire ++
        ([.getMiningInfo (.ok (jobAt target rotateAfter (2 * attempts + 1))),
          .getMiningInfo (.ok (jobAt target rotateAfter (2 * attempts + 2)))] ++
            [.submitPlainProof ⟨proof, jobAt target rotateAfter (2 * attempts + 1)⟩ (.ok "submitted")]) := by
    rw [hIt]
    exact List.append_assoc _ _ _
  refine ⟨_, step_of_served hLoop hWire hServed, ?_⟩
  rw [hEvents]
  refine h.next hCalls proof (show 0 + 1 = 1 from rfl) ?_ ?_ ?_ (answered.ticking.accept _) answered.target ?_
    answered.droppedStale rfl rfl rfl
  · rw [Nat.succ_div, if_neg hKeep]
  · rw [hIt]
    rfl
  · rw [hWire]
    exact h.served.append hServed
  · rw [MockGateway.accepted_accept, answered.accepted]

end Attempt

/-- One attempt, past the pause: its winner is dropped or accepted, and all is counted. -/
theorem Holds.attempt_step (h : Holds target work rotateAfter pausedFirst pausedFirst attempts t)
    (hTarget : 0 ≤ target ∧ target ≤ maxTarget) (hWins : AlwaysWins search target work)
    (hCalls : 2 * attempts + 2 < 2 ^ 64) :
    ∃ t', step search ⟨true⟩ t = some t' ∧
      Holds target work rotateAfter pausedFirst pausedFirst (attempts + 1) t' := by
  obtain ⟨proof, gw, answered⟩ := h.answers hCalls hTarget hWins
  by_cases hTurn : stalePeriod rotateAfter ∣ attempts + 1
  · exact h.drop_step hCalls answered hTurn
  · exact h.submit_step hCalls answered hTurn

/-- A run: polls while the gateway is paused, then attempts. By induction on the
iterations, of which each is one of the two. -/
theorem holds_after (hTarget : 0 ≤ target ∧ target ≤ maxTarget) (hWins : AlwaysWins search target work) (n : Nat)
    (hCalls : 2 * (n - pausedFirst) < 2 ^ 64) :
    ∃ t, after search target rotateAfter pausedFirst n = some t ∧
      Holds target work rotateAfter pausedFirst (min n pausedFirst) (n - pausedFirst) t := by
  induction n with
  | zero =>
      refine ⟨_, rfl, ?_⟩
      rw [Nat.zero_min, Nat.zero_sub]
      exact holds_init target work rotateAfter pausedFirst
  | succ n ih =>
      obtain ⟨t, hAfter, h⟩ := ih (by omega)
      rw [after, hAfter]
      by_cases hPaused : n < pausedFirst
      · rw [Nat.min_eq_left hPaused.le, Nat.sub_eq_zero_of_le hPaused.le] at h
        rw [Nat.min_eq_left hPaused, Nat.sub_eq_zero_of_le hPaused]
        exact h.wait hPaused
      · rw [Nat.min_eq_right (by omega)] at h
        rw [Nat.min_eq_right (by omega), Nat.succ_sub (by omega)]
        exact h.attempt_step hTarget hWins (by omega)

end SelfTest

/-- The CPU backend wins at the easiest target with every attempt, at the work of one
product. -/
theorem cpuSearch_alwaysWins {pk : Packages} (hRange : pk.InRange) :
    SelfTest.AlwaysWins (cpuSearch pk) maxTarget (CpuBackend.M * CpuBackend.K * CpuBackend.N : Nat) :=
  fun job _ hTarget hLow hHigh => cpuSearch_wins hRange job hTarget ⟨hLow, hHigh⟩

/-- Against a mock gateway that turns its header with every `rotate_after`-th call after
some paused ones, the loop searches once for each further poll, and every proof it does
not drop is accepted. -/
theorem self_test_accounts (pk : Packages) (hRange : pk.InRange) (rotateAfter pausedFirst iterations : Nat)
    (hCalls : 2 * (iterations - pausedFirst) < 2 ^ 64) :
    let attempts := iterations - pausedFirst
    let stale := attempts / SelfTest.stalePeriod rotateAfter
    ∃ t, SelfTest.after (cpuSearch pk) maxTarget rotateAfter pausedFirst iterations = some t ∧
      t.loop.raised = none ∧
      t.loop.metrics = {
        workUnits := attempts * (CpuBackend.M * CpuBackend.K * CpuBackend.N : Nat)
        attempts := attempts
        submitted := attempts - stale
        accepted := attempts - stale
        rejected := 0
        stale := stale
        jobSwitches := SelfTest.switches rotateAfter attempts } ∧
      Run MockGateway.serve (.init maxTarget rotateAfter pausedFirst) t.loop.wire t.gw ∧
      t.gw.calls = min iterations pausedFirst + 2 * attempts ∧ t.gw.epoch = 2 * attempts / rotateAfter ∧
      t.gw.accepted = attempts - stale ∧ t.gw.droppedStale = 0 ∧
      countKey "new_job" t.events = SelfTest.switches rotateAfter attempts ∧
      countKey "submit" t.events = attempts - stale ∧ countKey "stale_drop" t.events = stale := by
  intro attempts stale
  obtain ⟨t, hAfter, h⟩ :=
    SelfTest.holds_after ⟨by decide, le_rfl⟩ (cpuSearch_alwaysWins hRange) iterations hCalls
  exact ⟨t, hAfter, h.running, h.metrics, h.served, h.ticking.count, h.ticking.epoch, h.accepted, h.droppedStale,
    h.newJobs, h.submits, h.stales⟩

/-- Three iterations against a header that turns with every fourth call: the second proof
is dropped as stale, and the other two are accepted. -/
theorem self_test_accounts_three : ∃ t,
    SelfTest.after (cpuSearch constantPackages) maxTarget (4 : Nat) (0 : Nat) 3 = some t ∧
      t.loop.metrics.stale = 1 ∧ t.gw.accepted = 2 := by
  obtain ⟨t, hAfter, -, hMetrics, -, -, -, hAccepted, -⟩ :=
    self_test_accounts constantPackages constantPackages_inRange 4 0 3 (by decide)
  refine ⟨t, hAfter, ?_, hAccepted⟩
  rw [hMetrics]
  rfl

/-- The self-test passes when its time is enough for three iterations: only then has the
header turned, so that a new job and a switch are seen. -/
theorem self_test_passes_iff (pk : Packages) (hRange : pk.InRange) (iterations : Nat)
    (hCalls : 2 * iterations < 2 ^ 64) :
    cmdSelfTest pk iterations = some (.ok (if 3 ≤ iterations then 0 else 1)) := by
  have hAfter : ∃ t, SelfTest.after (cpuSearch pk) maxTarget (4 : Nat) (0 : Nat) iterations = some t ∧
      SelfTest.Holds maxTarget _ 4 0 (min iterations 0) iterations t :=
    SelfTest.holds_after ⟨by decide, le_rfl⟩ (cpuSearch_alwaysWins hRange) iterations hCalls
  obtain ⟨t, hAfter, h⟩ := hAfter
  have hPeriod : SelfTest.stalePeriod 4 = 2 := rfl
  have hAttempts : t.loop.metrics.attempts = iterations := by rw [h.metrics]
  have hSwitches : t.loop.metrics.jobSwitches = SelfTest.switches 4 iterations := by rw [h.metrics]
  have hChecks : t.checks.all Prod.snd = true ↔ 3 ≤ iterations := by
    simp only [SelfTest.checks, List.all_cons, List.all_nil, Bool.and_true, Bool.and_eq_true, decide_eq_true_eq]
    rw [hAttempts, h.newJobs, hSwitches, h.submits, h.accepted, hPeriod, SelfTest.switches]
    omega
  have hAfter : SelfTest.after (cpuSearch pk) maxTarget 4 0 iterations = some t := hAfter
  rw [cmdSelfTest, hAfter]
  dsimp only [bind, Option.bind]
  rw [h.running, SelfTest.exitCode, if_congr hChecks rfl rfl]

/-- Three iterations are enough, and two are not. -/
theorem self_test_passes_iff_three : cmdSelfTest constantPackages 3 = some (.ok 0) ∧
    cmdSelfTest constantPackages 2 = some (.ok 1) :=
  ⟨self_test_passes_iff constantPackages constantPackages_inRange 3 (by decide),
    self_test_passes_iff constantPackages constantPackages_inRange 2 (by decide)⟩

end Miner
