import PrlMiner.Miner.Runtime

/-! What an iteration of the mine loop can do. -/
namespace Miner

open LittleEndian Runs

/-- The polled header is a new one. -/
def LoopState.headerChanged (s : LoopState) (job : MiningJob) : Bool :=
  match s.jm.current with
  | none => true
  | some current => decide (job.headerId ≠ current.headerId)

/-- Where a search of the polled job starts. -/
def LoopState.startAttempt (s : LoopState) (job : MiningJob) : Int :=
  if s.headerChanged job then 0 else s.attempt

/-- Once the job is polled. -/
def LoopState.polled (s : LoopState) (answer : Except InfoError MiningJob) (job : MiningJob) : LoopState :=
  { s.call (.getMiningInfo answer) with
    jm := ⟨some job⟩
    attempt := s.startAttempt job
    metrics := { s.metrics with
      jobSwitches := s.metrics.jobSwitches + if s.headerChanged job then 1 else 0 } }

/-- Once the backend has searched. -/
def LoopState.searched (s : LoopState) (result : BackendResult) : LoopState :=
  { s with
    attempt := s.attempt + result.attempts.getD 1
    metrics := { s.metrics with
      attempts := s.metrics.attempts + result.attempts.getD 1
      workUnits := s.metrics.workUnits + result.workUnits } }

/-- A result that is found and has a proof. -/
def BackendResult.winner (result : BackendResult) : Option (List Byte) :=
  if result.found then result.plainProof else none

/-- The callback of a new job returns. -/
def Iteration.announces (it : Iteration) (s : LoopState) (job : MiningJob) : Prop :=
  s.headerChanged job = true → it.onEvent (.newJob job.target) = none

/-- The state at the end of an iteration, with the status callback of a full one. -/
def Iteration.finish (it : Iteration) : Body LoopState → LoopState
  | .ok s =>
      match it.onStatus with
      | none => s
      | some e => { s with raised := some e }
  | .error (s, ended) => { s with raised := ended }

/-- The ways through the body of the loop. -/
inductive Pass (cfg : LoopConfig) (it : Iteration) (s : LoopState) : LoopState → Prop where
  | unpolled (ended : Option Raised) (hPoll : ∀ job, it.poll ≠ .ok job) :
      Pass cfg it s { s.call (.getMiningInfo it.poll) with raised := ended }
  | unannounced (job : MiningJob) (e : Raised) (hPoll : it.poll = .ok job)
      (hChanged : s.headerChanged job = true) (hEvent : it.onEvent (.newJob job.target) = some e) :
      Pass cfg it s { s.polled it.poll job with raised := some e }
  | unsearched (job : MiningJob) (ended : Option Raised) (hPoll : it.poll = .ok job)
      (hNone : it.thermal ≠ .ok none ∨ ∀ result, it.search ≠ .ok result) :
      Pass cfg it s { s.polled it.poll job with raised := ended }
  | missed (job : MiningJob) (result : BackendResult) (hPoll : it.poll = .ok job)
      (hNew : it.announces s job) (hThermal : it.thermal = .ok none) (hSearch : it.search = .ok result)
      (hWinner : result.winner = none) :
      Pass cfg it s (it.finish (.ok ((s.polled it.poll job).searched result)))
  | unconfirmed (job : MiningJob) (result : BackendResult) (proof : List Byte) (e : Raised)
      (hPoll : it.poll = .ok job) (hNew : it.announces s job) (hThermal : it.thermal = .ok none)
      (hSearch : it.search = .ok result) (hWinner : result.winner = some proof)
      (hStale : cfg.staleCancel = true) (hRecheck : it.recheck = .error (.raised e)) :
      Pass cfg it s { ((s.polled it.poll job).searched result).call (.getMiningInfo it.recheck) with
        raised := some e }
  | drops (job : MiningJob) (result : BackendResult) (proof : List Byte)
      (hPoll : it.poll = .ok job) (hNew : it.announces s job) (hThermal : it.thermal = .ok none)
      (hSearch : it.search = .ok result) (hWinner : result.winner = some proof)
      (hStale : cfg.staleCancel = true)
      (hRecheck : it.recheck = .error .miningPaused ∨
        ∃ latest, it.recheck = .ok latest ∧ latest.headerId ≠ job.headerId) :
      Pass cfg it s (it.finish
        (dropStale it (((s.polled it.poll job).searched result).call (.getMiningInfo it.recheck))))
  | submits (job : MiningJob) (result : BackendResult) (proof : List Byte) (s₁ : LoopState)
      (hPoll : it.poll = .ok job) (hNew : it.announces s job) (hThermal : it.thermal = .ok none)
      (hSearch : it.search = .ok result) (hWinner : result.winner = some proof)
      (hCurrent : (cfg.staleCancel = false ∧ s₁ = (s.polled it.poll job).searched result) ∨
        (cfg.staleCancel = true ∧ s₁ = ((s.polled it.poll job).searched result).call (.getMiningInfo it.recheck) ∧
          ∃ latest, it.recheck = .ok latest ∧ latest.headerId = job.headerId)) :
      Pass cfg it s (it.finish (submit it ⟨proof, job⟩ s₁))

variable {cfg : LoopConfig} {it : Iteration} {s s' : LoopState}

/-- The state that a pass of the body leaves. -/
def endState : Body LoopState → LoopState
  | .ok s => s
  | .error (s, ended) => { s with raised := ended }

section Ending

variable {α : Type*} {f : LoopState → α} (hRaised : ∀ s e, f { s with raised := e } = f s)
include hRaised

/-- A callback that raises shows in `raised` only. Whatever else is observed of the state
is as before it. -/
theorem endState_notify (event : Event) : f (endState (notify it event s)) = f s := by
  rw [notify]
  cases it.onEvent event with
  | none => rfl
  | some e => exact hRaised s (some e)

/-- A stale drop counts one stale winner, and its callback may raise. -/
theorem endState_dropStale : f (endState (dropStale it s)) =
    f { s with metrics := { s.metrics with stale := s.metrics.stale + 1 } } := by
  rw [dropStale, notify]
  cases it.onEvent .staleDrop with
  | none => exact hRaised _ none
  | some e => exact hRaised _ (some e)

/-- The status callback at the end of an iteration does not change the state either. -/
theorem finish_eq (body : Body LoopState) : f (it.finish body) = f (endState body) := by
  cases body with
  | error e => rfl
  | ok s =>
      rw [Iteration.finish]
      cases it.onStatus with
      | none => rfl
      | some e => exact hRaised s (some e)

end Ending

/-- A step is the body of a loop that has not ended, and the end of a body is in the state
that it leaves. -/
theorem mineLoopStep_eq (hStep : mineLoopStep cfg s it = some s') :
    s.raised = none ∧ s' = endState (loopBody cfg it s) := by
  obtain ⟨hRaised, hBody | ⟨s₁, ended, hBody, rfl⟩⟩ := mineLoopStep_eq_some hStep
  · rw [hBody]
    exact ⟨hRaised, rfl⟩
  · rw [hBody]
    exact ⟨hRaised, rfl⟩

/-- A poll without a job ends the body, with nothing done but the exchange. -/
theorem pollJob_of_error (hPoll : ∀ job, it.poll ≠ .ok job) :
    ∃ ended, pollJob it s = .error (s.call (.getMiningInfo it.poll), ended) := by
  rw [pollJob]
  cases h : it.poll with
  | ok job => exact absurd h (hPoll job)
  | error e =>
      cases e with
      | miningPaused => exact ⟨none, rfl⟩
      | raised e => exact ⟨some e, rfl⟩

/-- A polled job becomes the current one, and a new header is announced to the
callback. -/
theorem pollJob_of_ok {job : MiningJob} (hPoll : it.poll = .ok job) :
    pollJob it s =
      if s.headerChanged job then (notify it (.newJob job.target) (s.polled it.poll job)).map (job, ·)
      else .ok (job, s.polled it.poll job) := by
  have hPolled : pollJob it s =
      if s.headerChanged job then
        (notify it (.newJob job.target) { s.call (.getMiningInfo it.poll) with
          jm := ⟨some job⟩
          attempt := 0
          metrics := { s.metrics with jobSwitches := s.metrics.jobSwitches + 1 } }).map (job, ·)
      else .ok (job, { s.call (.getMiningInfo it.poll) with jm := ⟨some job⟩ }) := by
    rw [pollJob, hPoll]
    rfl
  rw [hPolled, LoopState.polled, LoopState.startAttempt]
  cases s.headerChanged job <;> rfl

/-- A polled job whose callback, if due, returns: the body goes on with it. -/
theorem pollJob_of_announces {job : MiningJob} (hPoll : it.poll = .ok job) (hNew : it.announces s job) :
    pollJob it s = .ok (job, s.polled it.poll job) := by
  rw [pollJob_of_ok hPoll]
  split_ifs with hChanged
  · rw [notify, hNew hChanged]
    rfl
  · rfl

/-- The part of the body around the search, which is made -/
theorem search_bind {α : Type} {result : BackendResult} (hThermal : it.thermal = .ok none)
    (hSearch : it.search = .ok result) (f : LoopState → BackendResult × LoopState → Body α) :
    (checkThermal it s >>= fun s => search it s >>= f s) = f s (result, s.searched result) := by
  rw [checkThermal, hThermal]
  change search it s >>= f s = _
  rw [search, hSearch]
  rfl

/-- or is not, because it is too hot, or because the search or the thermal check
raises. -/
theorem unsearched_bind (hNone : it.thermal ≠ .ok none ∨ ∀ result, it.search ≠ .ok result) :
    ∃ ended, ∀ {α : Type} (f : LoopState → BackendResult × LoopState → Body α),
      (checkThermal it s >>= fun s => search it s >>= f s) = .error (s, ended) := by
  rw [checkThermal]
  cases hThermal : it.thermal with
  | error e => exact ⟨some e, fun _ => rfl⟩
  | ok reason =>
      cases reason with
      | some reason =>
          dsimp only [notify]
          cases it.onEvent (.throttle reason) with
          | none => exact ⟨none, fun _ => rfl⟩
          | some e => exact ⟨some e, fun _ => rfl⟩
      | none =>
          cases hSearch : it.search with
          | error e =>
              refine ⟨some e, fun f => ?_⟩
              change search it s >>= f s = _
              rw [search, hSearch]
              rfl
          | ok result =>
              rcases hNone with hNone | hNone
              · exact absurd hThermal hNone
              · exact absurd hSearch (hNone result)

/-- The body past the search: what is done with the result, and the status callback if it
comes to that. -/
theorem endState_of_search {job : MiningJob} {result : BackendResult} (hPoll : it.poll = .ok job)
    (hNew : it.announces s job) (hThermal : it.thermal = .ok none) (hSearch : it.search = .ok result) :
    endState (loopBody cfg it s) =
      it.finish (handleResult cfg it job result ((s.polled it.poll job).searched result)) := by
  have hBody : loopBody cfg it s = (do
      let s ← handleResult cfg it job result ((s.polled it.poll job).searched result)
      match it.onStatus with
      | none => .ok s
      | some e => .error (s, some e)) := by
    rw [loopBody, pollJob_of_announces hPoll hNew]
    exact search_bind hThermal hSearch _
  rw [hBody]
  cases handleResult cfg it job result ((s.polled it.poll job).searched result) with
  | error e => rfl
  | ok s₁ =>
      dsimp only [bind, Except.bind, Iteration.finish]
      cases it.onStatus <;> rfl

/-- A winner is submitted, after a second poll of its header where stale winners are
dropped. -/
theorem handleResult_of_winner {job : MiningJob} {result : BackendResult} {proof : List Byte}
    (hWinner : result.winner = some proof) :
    handleResult cfg it job result s = (do
      let s ← if cfg.staleCancel then confirmCurrent it job s else .ok s
      submit it ⟨proof, job⟩ s) := by
  obtain ⟨found, plainProof, workUnits, attempts⟩ := result
  cases found with
  | false => cases hWinner
  | true =>
      cases hWinner
      rfl

theorem handleResult_of_none {job : MiningJob} {result : BackendResult} (hWinner : result.winner = none) :
    handleResult cfg it job result s = .ok s := by
  obtain ⟨found, plainProof, workUnits, attempts⟩ := result
  cases found with
  | false => rfl
  | true =>
      cases hWinner
      rfl

/-- A stale drop ends the iteration, so that what follows it is never reached. -/
theorem dropStale_bind (f : LoopState → Body LoopState) : (dropStale it s >>= f) = dropStale it s := by
  rw [dropStale, notify]
  cases it.onEvent .staleDrop <;> rfl

/-- An iteration that finds a winner is one of those that submit it, drop it or end before
either. -/
theorem pass_of_winner {job : MiningJob} {result : BackendResult} {proof : List Byte}
    (hPoll : it.poll = .ok job) (hNew : it.announces s job) (hThermal : it.thermal = .ok none)
    (hSearch : it.search = .ok result) (hWinner : result.winner = some proof) :
    Pass cfg it s (it.finish (handleResult cfg it job result ((s.polled it.poll job).searched result))) := by
  rw [handleResult_of_winner hWinner]
  cases hStale : cfg.staleCancel with
  | false => exact .submits job result proof _ hPoll hNew hThermal hSearch hWinner (.inl ⟨hStale, rfl⟩)
  | true =>
      rw [if_pos rfl, confirmCurrent]
      cases hRecheck : it.recheck with
      | error e =>
          cases e with
          | raised e =>
              have hPass := Pass.unconfirmed job result proof e hPoll hNew hThermal hSearch hWinner hStale hRecheck
              rwa [hRecheck] at hPass
          | miningPaused =>
              have hPass := Pass.drops job result proof hPoll hNew hThermal hSearch hWinner hStale (.inl hRecheck)
              rw [hRecheck] at hPass
              dsimp only
              rwa [dropStale_bind]
      | ok latest =>
          dsimp only
          split_ifs with hOld
          · have hPass := Pass.drops job result proof hPoll hNew hThermal hSearch hWinner hStale
              (.inr ⟨latest, hRecheck, hOld⟩)
            rw [hRecheck] at hPass
            rwa [dropStale_bind]
          · have hPass := Pass.submits job result proof _ hPoll hNew hThermal hSearch hWinner
              (.inr ⟨hStale, rfl, latest, hRecheck, not_not.mp hOld⟩)
            rwa [hRecheck] at hPass

/-- The body before the search, where no search is made. Only the poll has had an
effect. -/
theorem pass_of_unsearched {job : MiningJob} (hPoll : it.poll = .ok job) (hNew : it.announces s job)
    (hNone : it.thermal ≠ .ok none ∨ ∀ result, it.search ≠ .ok result) :
    Pass cfg it s (endState (loopBody cfg it s)) := by
  obtain ⟨ended, hEnd⟩ := unsearched_bind (s := s.polled it.poll job) hNone
  have hBody : loopBody cfg it s = .error (s.polled it.poll job, ended) := by
    rw [loopBody, pollJob_of_announces hPoll hNew]
    exact hEnd _
  rw [hBody]
  exact .unsearched job ended hPoll hNone

theorem pass_of_unpolled (hPoll : ∀ job, it.poll ≠ .ok job) :
    Pass cfg it s (endState (loopBody cfg it s)) := by
  obtain ⟨ended, hEnd⟩ := pollJob_of_error (s := s) hPoll
  have hBody : loopBody cfg it s = .error (s.call (.getMiningInfo it.poll), ended) := by
    rw [loopBody, hEnd]
    rfl
  rw [hBody]
  exact .unpolled ended hPoll

theorem pass_of_unannounced {job : MiningJob} (hPoll : it.poll = .ok job) (hNew : ¬it.announces s job) :
    Pass cfg it s (endState (loopBody cfg it s)) := by
  obtain ⟨hChanged, hSome⟩ := Classical.not_imp.mp hNew
  obtain ⟨e, hEvent⟩ := Option.ne_none_iff_exists'.mp hSome
  have hBody : loopBody cfg it s = .error (s.polled it.poll job, some e) := by
    rw [loopBody, pollJob_of_ok hPoll, if_pos hChanged, notify, hEvent]
    rfl
  rw [hBody]
  exact .unannounced job e hPoll hChanged hEvent

/-- Every step of the loop passes in one of these ways. What holds of the loop is proved
from them. -/
theorem pass_of_step (hStep : mineLoopStep cfg s it = some s') : s.raised = none ∧ Pass cfg it s s' := by
  obtain ⟨hRaised, rfl⟩ := mineLoopStep_eq hStep
  refine ⟨hRaised, ?_⟩
  cases hPoll : it.poll with
  | error e => exact pass_of_unpolled (by simp [hPoll])
  | ok job =>
      by_cases hNew : it.announces s job
      · by_cases hSearched : it.thermal = .ok none ∧ ∃ result, it.search = .ok result
        · obtain ⟨hThermal, result, hSearch⟩ := hSearched
          rw [endState_of_search hPoll hNew hThermal hSearch]
          cases hWinner : result.winner with
          | none =>
              rw [handleResult_of_none hWinner]
              exact .missed job result hPoll hNew hThermal hSearch hWinner
          | some proof => exact pass_of_winner hPoll hNew hThermal hSearch hWinner
        · rw [not_and_or, not_exists] at hSearched
          exact pass_of_unsearched hPoll hNew hSearched
      · exact pass_of_unannounced hPoll hNew

section Calm

variable {job latest : MiningJob} {result : BackendResult} {proof : List Byte}

/-- A search that wins under callbacks that return. -/
structure Iteration.Wins (it : Iteration) (job : MiningJob) (result : BackendResult) (proof : List Byte) : Prop where
  poll : it.poll = .ok job
  thermal : it.thermal = .ok none
  search : it.search = .ok result
  winner : result.winner = some proof
  onEvent : ∀ event, it.onEvent event = none
  onStatus : it.onStatus = none

/-- After a submission that is accepted. -/
def LoopState.accepted (s : LoopState) (recheck : Except InfoError MiningJob) (submission : PlainProofSubmission) :
    LoopState :=
  { s with
    wire := s.wire ++ [.getMiningInfo recheck, .submitPlainProof submission (.ok "submitted")]
    metrics := { s.metrics with
      submitted := s.metrics.submitted + 1
      accepted := s.metrics.accepted + 1 } }

/-- After a winner that is dropped. -/
def LoopState.dropped (s : LoopState) (recheck : Except InfoError MiningJob) : LoopState :=
  { s with
    wire := s.wire ++ [.getMiningInfo recheck]
    metrics := { s.metrics with stale := s.metrics.stale + 1 } }

/-- A search under callbacks that return, with or without a winner. -/
structure Iteration.Calm (it : Iteration) (job : MiningJob) (result : BackendResult) : Prop where
  poll : it.poll = .ok job
  thermal : it.thermal = .ok none
  search : it.search = .ok result
  onEvent : ∀ event, it.onEvent event = none
  onStatus : it.onStatus = none

/-- Past the winner of a search, if there is one, that is confirmed and accepted. -/
def LoopState.settled (s : LoopState) (it : Iteration) (job : MiningJob) (result : BackendResult) : LoopState :=
  match result.winner with
  | none => s
  | some proof => s.accepted it.recheck ⟨proof, job⟩

/-- An iteration that wins is one at which nothing fails up to the result. -/
theorem Iteration.Wins.calm (h : it.Wins job result proof) : it.Calm job result :=
  ⟨h.poll, h.thermal, h.search, h.onEvent, h.onStatus⟩

/-- A calm iteration comes to its result, and what is left is what is done with it. -/
theorem Iteration.Calm.step (h : it.Calm job result) (hRaised : s.raised = none) :
    mineLoopStep cfg s it =
      some (it.finish (handleResult cfg it job result ((s.polled it.poll job).searched result))) := by
  obtain ⟨s', hStep⟩ : ∃ s', mineLoopStep cfg s it = some s' := mineLoopStep_of_running hRaised
  rw [hStep, (mineLoopStep_eq hStep).2, endState_of_search h.poll (fun _ => h.onEvent _) h.thermal h.search]

/-- A winner under a header that is still current is submitted and counted as accepted. -/
theorem Iteration.Wins.submits (h : it.Wins job result proof) (hRaised : s.raised = none)
    (hCancel : cfg.staleCancel = true) (hRecheck : it.recheck = .ok latest) (hSame : latest.headerId = job.headerId)
    (hAck : it.ack = .ok "submitted") :
    mineLoopStep cfg s it = some (((s.polled it.poll job).searched result).accepted it.recheck ⟨proof, job⟩) := by
  rw [h.calm.step hRaised, handleResult_of_winner h.winner, hCancel, if_pos rfl, confirmCurrent, hRecheck]
  simp [hSame, bind, Except.bind, submit, trySubmit, hAck, notify, h.onEvent, Iteration.finish, h.onStatus,
    LoopState.call, LoopState.accepted]

/-- A winner under another header than the current one is dropped and counted as stale. -/
theorem Iteration.Wins.drops (h : it.Wins job result proof) (hRaised : s.raised = none)
    (hCancel : cfg.staleCancel = true) (hRecheck : it.recheck = .ok latest)
    (hOther : latest.headerId ≠ job.headerId) :
    mineLoopStep cfg s it = some (((s.polled it.poll job).searched result).dropped it.recheck) := by
  rw [h.calm.step hRaised, handleResult_of_winner h.winner, hCancel, if_pos rfl, confirmCurrent, hRecheck]
  have hRunning : ((s.polled it.poll job).searched result).raised = none := hRaised
  simp [hOther, bind, Except.bind, dropStale, notify, h.onEvent, Iteration.finish, LoopState.call, LoopState.dropped,
    hRunning]

/-- A calm iteration on a header that is still current goes on to the next one, with its
winner accepted if it has one. -/
theorem Iteration.Calm.settles (h : it.Calm job result) (hRaised : s.raised = none)
    (hCancel : cfg.staleCancel = true) (hRecheck : it.recheck = .ok job) (hAck : it.ack = .ok "submitted") :
    mineLoopStep cfg s it = some (((s.polled it.poll job).searched result).settled it job result) := by
  cases hWinner : result.winner with
  | none =>
      rw [h.step hRaised, handleResult_of_none hWinner, LoopState.settled, hWinner, Iteration.finish, h.onStatus]
  | some proof =>
      have hWins : it.Wins job result proof := ⟨h.poll, h.thermal, h.search, hWinner, h.onEvent, h.onStatus⟩
      rw [hWins.submits hRaised hCancel hRecheck rfl hAck, LoopState.settled, hWinner]

end Calm

end Miner
