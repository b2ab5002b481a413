import PrlMiner.Miner.CudaSearch
import PrlMiner.Miner.SubmitOutcomes

/-! Nonces of the fused backend: between two header changes the searches of the loop
take contiguous ranges from 0 on. -/
namespace Miner

open LittleEndian Cuda Runs
open CudaMineBackend hiding init

/-- What the loop knows of its searches. -/
structure Progress where
  jm : JobManager
  attempt : Int
  attempts : Int
  workUnits : Int
  switches : Nat

def LoopState.progress (s : LoopState) : Progress :=
  ⟨s.jm, s.attempt, s.metrics.attempts, s.metrics.workUnits, s.metrics.jobSwitches⟩

/-- After a search. -/
def Progress.searched (p : Progress) (result : BackendResult) : Progress :=
  { p with
    attempt := p.attempt + result.attempts.getD 1
    attempts := p.attempts + result.attempts.getD 1
    workUnits := p.workUnits + result.workUnits }

/-- Number of nonces that some searches report. -/
def tried (searches : List CudaSearch) : Int := (searches.map fun r => r.result.detail.attempts).sum

/-- The searches between two header changes. -/
def ofJob (switches : Nat) (searches : List CudaSearch) : List CudaSearch :=
  searches.filter fun r => r.switches = switches

/-- A search after those before it: same job, next nonces, all of them evaluated. -/
structure Continues (pk : Packages) (before : List CudaSearch) (r : CudaSearch) : Prop where
  contiguous : r.attempt = tried (ofJob r.switches before)
  header : ∀ q ∈ ofJob r.switches before, q.job.headerId = r.job.headerId
  evaluated : Evaluated pk r.job r.attempt r.result

/-- The invariant of the loop. -/
structure NonceInv (pk : Packages) (p : Progress) (searches : List CudaSearch) : Prop where
  attempts : p.attempts = tried searches
  work : p.workUnits = M * K * N * tried searches
  next : p.attempt = tried (ofJob p.switches searches)
  seen : ∀ r ∈ searches, r.switches ≤ p.switches
  header : ∀ r ∈ ofJob p.switches searches, ∃ job, p.jm.current = some job ∧ job.headerId = r.job.headerId
  order : ∀ before r after, searches = before ++ r :: after → Continues pk before r

variable {pk : Packages} {cfg : LoopConfig} {it : Iteration} {s s' : LoopState} {job : MiningJob}
  {searches : List CudaSearch}

/-- The nonces tried by searches one after the other add up. -/
theorem tried_append (searches searches' : List CudaSearch) :
    tried (searches ++ searches') = tried searches + tried searches' := by
  rw [tried, List.map_append, List.sum_append]
  rfl

theorem progress_raised (s : LoopState) (e : Option Raised) :
    LoopState.progress { s with raised := e } = s.progress := rfl

/-- What is done with a winner does not change which nonce is next. -/
theorem submit_progress (submission : PlainProofSubmission) :
    (endState (submit it submission s)).progress = s.progress := by
  rw [submit, trySubmit]
  cases hAck : it.ack with
  | error e =>
      cases e with
      | interrupt => rfl
      | exception text => exact endState_notify progress_raised _
  | ok ack =>
      dsimp only [notify]
      cases hEvent : it.onEvent (.submit ack) with
      | none => split_ifs <;> rfl
      | some e =>
          cases e with
          | interrupt => split_ifs <;> rfl
          | exception text =>
              refine (endState_notify progress_raised _).trans ?_
              split_ifs <;> rfl

/-- An iteration gets to its search. -/
def Iteration.Searches (it : Iteration) (s : LoopState) (job : MiningJob) : Prop :=
  it.poll = .ok job ∧ it.announces s job ∧ it.thermal = .ok none

/-- An iteration goes past the nonces that its search reports, or past none where no
search returns. The poll before it may start over. -/
theorem pass_progress (hPass : Pass cfg it s s') :
    (∃ job result, it.Searches s job ∧ it.search = .ok result ∧
      s'.progress = ((s.polled it.poll job).searched result).progress) ∨
    (∀ job, it.Searches s job → ∀ result, it.search ≠ .ok result) ∧
      (s'.progress = s.progress ∨ ∃ job, s'.progress = (s.polled it.poll job).progress) := by
  cases hPass with
  | unpolled ended hPoll => exact .inr ⟨fun job h => absurd h.1 (hPoll job), .inl rfl⟩
  | unannounced job e hPoll hChanged hEvent =>
      refine .inr ⟨fun job' h => ?_, .inr ⟨job, rfl⟩⟩
      obtain rfl := Except.ok.inj (hPoll.symm.trans h.1)
      have hNone := h.2.1 hChanged
      rw [hEvent] at hNone
      cases hNone
  | unsearched job ended hPoll hNone =>
      refine .inr ⟨fun job' h => ?_, .inr ⟨job, rfl⟩⟩
      exact hNone.resolve_left (not_not.mpr h.2.2)
  | missed job result hPoll hNew hThermal hSearch hWinner =>
      exact .inl ⟨job, result, ⟨hPoll, hNew, hThermal⟩, hSearch, finish_eq progress_raised _⟩
  | unconfirmed job result proof e hPoll hNew hThermal hSearch hWinner hStale hRecheck =>
      exact .inl ⟨job, result, ⟨hPoll, hNew, hThermal⟩, hSearch, rfl⟩
  | drops job result proof hPoll hNew hThermal hSearch hWinner hStale hRecheck =>
      refine .inl ⟨job, result, ⟨hPoll, hNew, hThermal⟩, hSearch, ?_⟩
      rw [finish_eq progress_raised, endState_dropStale progress_raised]
      rfl
  | submits job result proof s₁ hPoll hNew hThermal hSearch hWinner hCurrent =>
      refine .inl ⟨job, result, ⟨hPoll, hNew, hThermal⟩, hSearch, ?_⟩
      rw [finish_eq progress_raised, submit_progress]
      rcases hCurrent with ⟨-, rfl⟩ | ⟨-, rfl, -⟩ <;> rfl

/-- The search of an iteration is that of the polled job, from the attempt that the poll
has left. -/
theorem searchCall_of_searches (h : it.Searches s job) : searchCall it s = some (job, s.polled it.poll job) := by
  rw [searchCall, pollJob_of_announces h.1 h.2.1]
  dsimp only [bind, Except.bind]
  rw [checkThermal, h.2.2]
  rfl

theorem searchCall_eq_none (h : ∀ job, ¬it.Searches s job) : searchCall it s = none := by
  rw [searchCall]
  cases hPoll : it.poll with
  | error e =>
      have hError : ∀ job, it.poll ≠ .ok job := by simp [hPoll]
      obtain ⟨ended, hEnd⟩ := pollJob_of_error (s := s) hError
      rw [hEnd]
      rfl
  | ok job =>
      by_cases hNew : it.announces s job
      · rw [pollJob_of_announces hPoll hNew]
        dsimp only [bind, Except.bind]
        rw [checkThermal]
        cases hThermal : it.thermal with
        | error e => rfl
        | ok reason =>
            cases reason with
            | none => exact absurd ⟨hPoll, hNew, hThermal⟩ (h job)
            | some reason =>
                dsimp only [notify]
                cases it.onEvent (.throttle reason) <;> rfl
      · obtain ⟨hChanged, hSome⟩ := Classical.not_imp.mp hNew
        obtain ⟨e, hEvent⟩ := Option.ne_none_iff_exists'.mp hSome
        rw [pollJob_of_ok hPoll, if_pos hChanged, notify, hEvent]
        rfl

/-- A search is made only after a poll with a job, and when it is not too hot. -/
theorem searches_of_searchCall {s₁ : LoopState} (h : searchCall it s = some (job, s₁)) :
    it.Searches s job ∧ s₁ = s.polled it.poll job := by
  by_cases hSearches : ∃ job, it.Searches s job
  · obtain ⟨job', hSearches⟩ := hSearches
    rw [searchCall_of_searches hSearches] at h
    cases h
    exact ⟨hSearches, rfl⟩
  · rw [searchCall_eq_none (not_exists.mp hSearches)] at h
    cases h

/-- The poll of a job: a new header starts over from the first nonce, the same one goes
on. -/
theorem NonceInv.polled (hInv : NonceInv pk s.progress searches) (answer : Except InfoError MiningJob)
    (job : MiningJob) : NonceInv pk (s.polled answer job).progress searches := by
  have hAttempts : (s.polled answer job).progress.attempts = s.progress.attempts := rfl
  have hWork : (s.polled answer job).progress.workUnits = s.progress.workUnits := rfl
  cases hChanged : s.headerChanged job with
  | true =>
      have hSwitches : (s.polled answer job).progress.switches = s.progress.switches + 1 := by
        simp [LoopState.polled, LoopState.progress, hChanged]
      have hAttempt : (s.polled answer job).progress.attempt = 0 := by
        simp [LoopState.polled, LoopState.progress, LoopState.startAttempt, hChanged]
      have hNone : ofJob (s.progress.switches + 1) searches = [] := by
        refine List.filter_eq_nil_iff.mpr fun r hMem => ?_
        have hSeen := hInv.seen r hMem
        simp only [decide_eq_true_eq]
        omega
      refine ⟨hAttempts.trans hInv.attempts, hWork.trans hInv.work, ?_, ?_, ?_, hInv.order⟩
      · rw [hSwitches, hNone, hAttempt]
        rfl
      · intro r hMem
        have hSeen := hInv.seen r hMem
        omega
      · rw [hSwitches, hNone]
        intro r hMem
        cases hMem
  | false =>
      have hSwitches : (s.polled answer job).progress.switches = s.progress.switches := by
        simp [LoopState.polled, LoopState.progress, hChanged]
      have hAttempt : (s.polled answer job).progress.attempt = s.progress.attempt := by
        simp [LoopState.polled, LoopState.progress, LoopState.startAttempt, hChanged]
      refine ⟨hAttempts.trans hInv.attempts, hWork.trans hInv.work, ?_, ?_, ?_, hInv.order⟩
      · rw [hSwitches, hAttempt]
        exact hInv.next
      · rw [hSwitches]
        exact hInv.seen
      · rw [hSwitches]
        intro r hMem
        obtain ⟨current, hCurrent, hHeader⟩ := hInv.header r hMem
        refine ⟨job, rfl, ?_⟩
        rw [LoopState.headerChanged, show s.jm.current = some current from hCurrent] at hChanged
        have hSame : job.headerId = current.headerId := by simpa using hChanged
        exact hSame.trans hHeader

/-- A search that returned goes on where the last one of its job ended, and leaves the
next nonce behind its own. -/
theorem NonceInv.searched (hInv : NonceInv pk s.progress searches) {result : CudaResult}
    (hCurrent : s.jm.current = some job) (hEvaluated : Evaluated pk job s.attempt result) :
    NonceInv pk (s.searched result.toBackendResult).progress
      (searches ++ [⟨s.metrics.jobSwitches, job, s.attempt, result⟩]) := by
  have hTried : tried [⟨s.metrics.jobSwitches, job, s.attempt, result⟩] = result.detail.attempts := by
    simp [tried]
  have hOf : ofJob s.progress.switches (searches ++ [⟨s.metrics.jobSwitches, job, s.attempt, result⟩]) =
      ofJob s.progress.switches searches ++ [⟨s.metrics.jobSwitches, job, s.attempt, result⟩] := by
    simp [ofJob, LoopState.progress]
  have hHeaders : ∀ q ∈ ofJob s.progress.switches searches, q.job.headerId = job.headerId := by
    intro q hMem
    obtain ⟨current, hSome, hHeader⟩ := hInv.header q hMem
    rw [show s.progress.jm.current = some job from hCurrent] at hSome
    cases hSome
    exact hHeader.symm
  refine ⟨?_, ?_, ?_, ?_, ?_, ?_⟩
  · rw [tried_append, hTried, ← hInv.attempts]
    rfl
  · rw [tried_append, hTried, mul_add, ← hInv.work, ← hEvaluated.work]
    rfl
  · change s.attempt + result.detail.attempts = tried (ofJob s.progress.switches _)
    rw [hOf, tried_append, hTried, ← hInv.next]
    rfl
  · intro r hMem
    rcases List.mem_append.mp hMem with hMem | hMem
    · exact hInv.seen r hMem
    · cases List.mem_singleton.mp hMem
      exact Nat.le_refl _
  · intro r hMem
    rw [show (s.searched result.toBackendResult).progress.switches = s.progress.switches from rfl, hOf] at hMem
    refine ⟨job, hCurrent, ?_⟩
    rcases List.mem_append.mp hMem with hMem | hMem
    · exact (hHeaders r hMem).symm
    · cases List.mem_singleton.mp hMem
      rfl
  · intro before r after hSearches
    rcases List.eq_nil_or_concat after with rfl | ⟨after', r', rfl⟩
    · obtain ⟨rfl, hLast⟩ := List.append_inj' hSearches rfl
      cases hLast
      exact ⟨hInv.next, hHeaders, hEvaluated⟩
    · rw [List.concat_eq_append, ← List.cons_append, ← List.append_assoc] at hSearches
      obtain ⟨hSearches, -⟩ := List.append_inj' hSearches rfl
      exact hInv.order before r after' hSearches

/-- What every iteration keeps. -/
structure CudaInv (pk : Packages) (t : CudaLoop) : Prop where
  holds : t.backend.Holds pk
  size : 0 < t.backend.batchSize
  nonces : NonceInv pk t.loop.progress t.searches

/-- Every step keeps the nonces contiguous, and what is known of the backend and its
matrices. -/
theorem cudaStep_inv {t t' : CudaLoop} {e : Iteration × SearchEnv} (hInv : CudaInv pk t)
    (hStep : cudaStep pk cfg t e = some t') : CudaInv pk t' := by
  obtain ⟨it, env⟩ := e
  rw [cudaStep] at hStep
  cases hCall : searchCall it t.loop with
  | none =>
      rw [hCall] at hStep
      obtain ⟨s', hLoop, rfl⟩ := Option.map_eq_some_iff.mp hStep
      refine ⟨hInv.holds, hInv.size, ?_⟩
      rcases pass_progress (pass_of_step hLoop).2 with ⟨job, result, hSearches, -⟩ | ⟨-, hSame | ⟨job, hPolled⟩⟩
      · rw [searchCall_of_searches hSearches] at hCall
        cases hCall
      · exact hSame ▸ hInv.nonces
      · exact hPolled ▸ hInv.nonces.polled it.poll job
  | some call =>
      obtain ⟨job, s₁⟩ := call
      obtain ⟨hSearches, rfl⟩ := searches_of_searchCall hCall
      rw [hCall] at hStep
      dsimp only at hStep
      by_cases hDefined : (t.backend.batch job - 1) * 8 ≥ 2 ^ 31
      · rw [if_pos hDefined] at hStep
        cases hStep
      rw [if_neg hDefined] at hStep
      obtain ⟨s', hLoop, hEnd⟩ := Option.map_eq_some_iff.mp hStep
      have hPass := pass_progress (pass_of_step hLoop).2
      have hPolled := hInv.nonces.polled it.poll job
      cases hOutcome : CudaMineBackend.search pk env job (t.loop.polled it.poll job).attempt t.backend with
      | error e =>
          rw [hOutcome] at hEnd hPass
          subst hEnd
          refine ⟨hInv.holds, hInv.size, ?_⟩
          rcases hPass with ⟨_, _, _, hSearch, _⟩ | ⟨-, hSame | ⟨job', hProgress⟩⟩
          · cases hSearch
          · exact hSame ▸ hInv.nonces
          · exact hProgress ▸ hInv.nonces.polled it.poll job'
      | ok found =>
          obtain ⟨result, backend⟩ := found
          rw [hOutcome] at hEnd hPass
          subst hEnd
          obtain ⟨hHolds, hSize, hEvaluated, -⟩ :=
            search_spec hInv.holds hInv.size (Int.not_le.mp hDefined) hOutcome
          refine ⟨hHolds, hSize ▸ hInv.size, ?_⟩
          rcases hPass with ⟨job', result', hSearches', hSearch, hProgress⟩ | ⟨hNone, -⟩
          · obtain rfl := Except.ok.inj (hSearches.1.symm.trans hSearches'.1)
            cases hSearch
            exact hProgress ▸ hPolled.searched rfl hEvaluated
          · exact absurd rfl (hNone job hSearches _)

/-- The invariant holds of every run, with any batch size and any calls that fail. -/
theorem cudaInv_of_run {safety : SafetyMonitor} {prlCudaBatch : Int} {events : List (Iteration × SearchEnv)}
    {t : CudaLoop} (run : Run (cudaStep pk cfg) (CudaLoop.init safety prlCudaBatch) events t) : CudaInv pk t := by
  refine run.invariant (CudaInv pk) ⟨rfl, ?_, ?_⟩ fun _ _ _ hInv hStep => cudaStep_inv hInv hStep
  · exact lt_of_lt_of_le Int.one_pos (le_max_left 1 prlCudaBatch)
  · refine ⟨rfl, rfl, rfl, ?_, ?_, ?_⟩
    · exact fun r hMem => absurd hMem List.not_mem_nil
    · exact fun r hMem => absurd hMem List.not_mem_nil
    · intro before r after hSearches
      simp [CudaLoop.init] at hSearches

/-- No nonce is skipped or repeated within a job, and the metrics count them. The batch
sizes are those that the backend can index with an `int`. -/
theorem nonces_contiguous (pk : Packages) (cfg : LoopConfig) (safety : SafetyMonitor) (prlCudaBatch : Int)
    {events : List (Iteration × SearchEnv)} {t : CudaLoop}
    (run : Run (cudaStep pk cfg) (CudaLoop.init safety prlCudaBatch) events t) :
    (∀ before r after, t.searches = before ++ r :: after → Continues pk before r) ∧
      t.loop.metrics.attempts = tried t.searches ∧
      t.loop.metrics.workUnits = M * K * N * tried t.searches := by
  have hInv := cudaInv_of_run run
  exact ⟨hInv.nonces.order, hInv.nonces.attempts, hInv.nonces.work⟩

section Calm

variable {t : CudaLoop} {env : SearchEnv} {result : CudaResult} {backend : CudaMineBackend}

/-- An iteration whose search returns: the loop goes on from what it has found, and the
search is recorded. -/
theorem cudaStep_of_search (hSearches : it.Searches t.loop job) (hDefined : (t.backend.batch job - 1) * 8 < 2 ^ 31)
    (hSearch : CudaMineBackend.search pk env job (t.loop.startAttempt job) t.backend = .ok (result, backend))
    (hLoop : mineLoopStep cfg t.loop { it with search := .ok result.toBackendResult } = some s) :
    cudaStep pk cfg t (it, env) = some ⟨s, backend, t.searches ++
      [⟨(t.loop.polled it.poll job).metrics.jobSwitches, job, t.loop.startAttempt job, result⟩]⟩ := by
  have hOutcome : CudaMineBackend.search pk env job (t.loop.polled it.poll job).attempt t.backend =
    .ok (result, backend) := hSearch
  rw [cudaStep]
  dsimp only
  rw [searchCall_of_searches hSearches]
  dsimp only
  rw [if_neg (not_le.mpr hDefined), hOutcome]
  exact Option.map_eq_some_iff.mpr ⟨s, hLoop, rfl⟩

/-- The poll of the current header keeps the attempt and counts no switch, -/
theorem polled_progress_same {current : MiningJob} (hCurrent : s.progress.jm.current = some current)
    (hSame : job.headerId = current.headerId) (answer : Except InfoError MiningJob) :
    (s.polled answer job).progress = { s.progress with jm := ⟨some job⟩ } := by
  have hChanged : s.headerChanged job = false := by
    rw [LoopState.headerChanged, show s.jm.current = some current from hCurrent]
    simp [hSame]
  simp [LoopState.polled, LoopState.progress, LoopState.startAttempt, LoopState.call, hChanged]

/-- and that of a new header starts over, counts a switch and makes the job current. -/
theorem polled_progress_changed {current : MiningJob} (hCurrent : s.progress.jm.current = some current)
    (hOther : job.headerId ≠ current.headerId) (answer : Except InfoError MiningJob) :
    (s.polled answer job).progress =
      { s.progress with jm := ⟨some job⟩, attempt := 0, switches := s.progress.switches + 1 } := by
  have hChanged : s.headerChanged job = true := by
    rw [LoopState.headerChanged, show s.jm.current = some current from hCurrent]
    simp [hOther]
  simp [LoopState.polled, LoopState.progress, LoopState.startAttempt, LoopState.call, hChanged]

/-- A job that stays, callbacks that return and a gateway that accepts. -/
def calmIteration (job : MiningJob) : Iteration :=
  ⟨.ok job, .ok none, .error .interrupt, .ok job, .ok "submitted", fun _ => none, none⟩

/-- A calm iteration whose calls succeed adds a search of the next nonces, and the loop
goes on. -/
theorem CudaInv.calm_step (hInv : CudaInv pk t) (job : MiningJob) (hRaised : t.loop.raised = none)
    (hReady : t.backend.Ready) (hEnv : env.Succeeds) (hTarget : 0 ≤ job.target ∧ job.target < 2 ^ 256)
    (hDefined : (t.backend.batch job - 1) * 8 < 2 ^ 31) (hLow : 0 ≤ t.loop.startAttempt job)
    (hHigh : t.loop.startAttempt job + t.backend.batch job ≤ 2 ^ 64) :
    ∃ result t', cudaStep pk ⟨true⟩ t (calmIteration job, env) = some t' ∧
      t'.searches = t.searches ++
        [⟨(t.loop.polled (.ok job) job).metrics.jobSwitches, job, t.loop.startAttempt job, result⟩] ∧
      t'.loop.progress = (t.loop.polled (.ok job) job).progress.searched result.toBackendResult ∧
      t'.loop.raised = none ∧ t'.backend.Ready ∧ t'.backend.batchSize = t.backend.batchSize ∧
      result.detail.attempts ≤ t.backend.batch job := by
  obtain ⟨result, backend, hSearch, hNext⟩ :=
    search_returns pk hEnv hReady hInv.size hTarget hLow hHigh
  obtain ⟨-, hSize, -, hWithin⟩ := search_spec hInv.holds hInv.size hDefined hSearch
  have hCalm : Iteration.Calm { calmIteration job with search := .ok result.toBackendResult } job
      result.toBackendResult := ⟨rfl, rfl, rfl, fun _ => rfl, rfl⟩
  have hLoop : mineLoopStep ⟨true⟩ t.loop _ = some _ := hCalm.settles hRaised rfl rfl rfl
  have hSearches : (calmIteration job).Searches t.loop job := ⟨rfl, fun _ => rfl, rfl⟩
  refine ⟨result, _, cudaStep_of_search hSearches hDefined hSearch hLoop, rfl, ?_, ?_, hNext, hSize, hWithin⟩
  all_goals
    rw [LoopState.settled]
    split
  · rfl
  · rfl
  · exact hRaised
  · exact hRaised

end Calm

/-- Constant digests and matrices. -/
def constantPackages : Packages :=
  ⟨fun _ _ => 7, fun _ => (fun _ => 1, fun _ => 2), ⟨fun _ => [], fun _ => false, fun _ => none⟩⟩

/-- Two searches of a job in batches of two, and one after a header change: the second
goes on behind the first, the third starts over. -/
theorem nonces_contiguous_three : ∃ events t r₁ r₂ r₃,
    Run (cudaStep constantPackages ⟨true⟩) (CudaLoop.init ⟨10, 0⟩ 2) events t ∧ t.searches = [r₁, r₂, r₃] ∧
    r₁.job = ⟨[1], 0⟩ ∧ r₂.job = ⟨[1], 0⟩ ∧ r₃.job = ⟨[2], 1⟩ ∧ r₂.switches = r₁.switches ∧
    r₃.switches = r₂.switches + 1 ∧ Continues constantPackages [] r₁ ∧ Continues constantPackages [r₁] r₂ ∧
    Continues constantPackages [r₁, r₂] r₃ ∧ r₂.attempt = r₁.result.detail.attempts ∧ r₃.attempt = 0 ∧
    t.loop.metrics.attempts = tried [r₁, r₂, r₃] := by
  let env : SearchEnv := ⟨default, default, false, 0, 0, ""⟩
  let job : MiningJob := ⟨[1], 0⟩
  let job' : MiningJob := ⟨[2], 1⟩
  have hEnv : env.Succeeds := ⟨rfl, rfl, rfl, rfl, rfl, rfl, rfl⟩
  have run₀ : Run (cudaStep constantPackages ⟨true⟩) (CudaLoop.init ⟨10, 0⟩ 2) [] (CudaLoop.init ⟨10, 0⟩ 2) := .nil
  have hReady₀ : (CudaLoop.init ⟨10, 0⟩ 2).backend.Ready := fun _ hCtx => absurd hCtx.symm (Option.some_ne_none _)
  have hStart₀ : (CudaLoop.init ⟨10, 0⟩ 2).loop.startAttempt job = 0 := rfl
  have hBatch₀ : (CudaLoop.init ⟨10, 0⟩ 2).backend.batch job = 2 := rfl
  obtain ⟨res₁, t₁, hStep₁, hSearches₁, hProgress₁, hRaised₁, hReady₁, hSize₁, hWithin₁⟩ :=
    (cudaInv_of_run run₀).calm_step job rfl hReady₀ hEnv (by decide) (by rw [hBatch₀]; decide) hStart₀.ge
      (by rw [hStart₀, hBatch₀]; decide)
  have run₁ := run₀.snoc _ hStep₁
  have hCurrent₁ : t₁.loop.progress.jm.current = some job := by rw [hProgress₁]; rfl
  have hPolled₁ := polled_progress_same hCurrent₁ rfl (.ok job)
  have hStart₁ : t₁.loop.startAttempt job = res₁.detail.attempts := by
    change (t₁.loop.polled (.ok job) job).progress.attempt = _
    rw [hPolled₁, hProgress₁]
    exact zero_add _
  have hPos₁ : 0 < res₁.detail.attempts :=
    ((nonces_contiguous _ _ _ _ run₁).1 [] _ [] hSearches₁).evaluated.pos
  have hBatch₁ : t₁.backend.batch job = 2 := by rw [CudaMineBackend.batch, hSize₁]; rfl
  have hLess₁ : res₁.detail.attempts ≤ 2 := hWithin₁
  obtain ⟨res₂, t₂, hStep₂, hSearches₂, hProgress₂, hRaised₂, hReady₂, hSize₂, -⟩ :=
    (cudaInv_of_run run₁).calm_step job hRaised₁ hReady₁ hEnv (by decide) (by rw [hBatch₁]; decide)
      (by rw [hStart₁]; omega) (by rw [hStart₁, hBatch₁]; omega)
  have run₂ := run₁.snoc _ hStep₂
  have hCurrent₂ : t₂.loop.progress.jm.current = some job := by rw [hProgress₂]; rfl
  have hPolled₂ := polled_progress_changed hCurrent₂ (show job'.headerId ≠ job.headerId by decide) (.ok job')
  have hStart₂ : t₂.loop.startAttempt job' = 0 := congrArg Progress.attempt hPolled₂
  have hBatch₂ : t₂.backend.batch job' = 1 := rfl
  obtain ⟨res₃, t₃, hStep₃, hSearches₃, -⟩ :=
    (cudaInv_of_run run₂).calm_step job' hRaised₂ hReady₂ hEnv (by decide) (by rw [hBatch₂]; decide)
      hStart₂.ge (by rw [hStart₂, hBatch₂]; decide)
  have run₃ := run₂.snoc _ hStep₃
  let r₁ : CudaSearch := ⟨1, job, 0, res₁⟩
  let r₂ : CudaSearch := ⟨(t₁.loop.polled (.ok job) job).metrics.jobSwitches, job, t₁.loop.startAttempt job, res₂⟩
  let r₃ : CudaSearch := ⟨(t₂.loop.polled (.ok job') job').metrics.jobSwitches, job', t₂.loop.startAttempt job', res₃⟩
  have hAll : t₃.searches = [r₁, r₂, r₃] := by
    rw [hSearches₃, hSearches₂, hSearches₁]
    rfl
  obtain ⟨hOrder, hAttempts, -⟩ := nonces_contiguous _ _ _ _ run₃
  have hSwitches₂ : r₂.switches = r₁.switches :=
    (congrArg Progress.switches hPolled₁).trans (congrArg Progress.switches hProgress₁)
  have hSwitches₃ : r₃.switches = r₂.switches + 1 :=
    (congrArg Progress.switches hPolled₂).trans (congrArg (fun p => p.switches + 1) hProgress₂)
  exact ⟨_, t₃, r₁, r₂, r₃, run₃, hAll, rfl, rfl, rfl, hSwitches₂, hSwitches₃, hOrder [] r₁ [r₂, r₃] hAll,
    hOrder [r₁] r₂ [r₃] hAll, hOrder [r₁, r₂] r₃ [] hAll, hStart₁, hStart₂, hAll ▸ hAttempts⟩

end Miner
