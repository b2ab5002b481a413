import PrlMiner.Miner.Searches

/-! Winners of the mine loop: each is submitted under a header just confirmed, or
counted as stale. -/
namespace Miner

open LittleEndian Runs

/-- No transport failure, no exception, and every callback returns. -/
structure Iteration.Smooth (it : Iteration) : Prop where
  poll : ∀ e, it.poll ≠ .error (.raised e)
  thermal : ∀ e, it.thermal ≠ .error e
  search : ∀ e, it.search ≠ .error e
  recheck : ∀ e, it.recheck ≠ .error (.raised e)
  ack : ∀ e, it.ack ≠ .error e
  onEvent : ∀ event, it.onEvent event = none
  onStatus : it.onStatus = none

def submissions (wire : List GatewayCall) : List PlainProofSubmission :=
  wire.filterMap fun
    | .getMiningInfo _ => none
    | .submitPlainProof submission _ => some submission

/-- The winners of some searches, with the jobs they were found for. -/
def winners (searches : List SearchRecord) : List PlainProofSubmission :=
  searches.filterMap fun r => r.result.winner.map (⟨·, r.job⟩)

/-- Every submit of a wire is acknowledged and comes right after an answer with its header. -/
inductive Confirmed : List GatewayCall → Prop where
  | nil : Confirmed []
  | info {wire : List GatewayCall} (h : Confirmed wire) (answer : Except InfoError MiningJob) :
      Confirmed (wire ++ [.getMiningInfo answer])
  | submit {wire : List GatewayCall} (h : Confirmed wire) (latest : MiningJob)
      (submission : PlainProofSubmission) (ack : String) (hHeader : latest.headerId = submission.job.headerId) :
      Confirmed (wire ++ [.getMiningInfo (.ok latest)] ++ [.submitPlainProof submission (.ok ack)])

/-- What becomes of the winner of one iteration: its exchanges with the gateway and
what it adds to `stale` and to `submitted`. -/
inductive Settled : Option PlainProofSubmission → List GatewayCall → Nat → Nat → Prop where
  | unfound (poll : Except InfoError MiningJob) : Settled none [.getMiningInfo poll] 0 0
  | dropped (winner : PlainProofSubmission) (poll recheck : Except InfoError MiningJob) :
      Settled (some winner) [.getMiningInfo poll, .getMiningInfo recheck] 1 0
  | submitted (winner : PlainProofSubmission) (poll : Except InfoError MiningJob) (latest : MiningJob)
      (ack : String) (hHeader : latest.headerId = winner.job.headerId) :
      Settled (some winner)
        [.getMiningInfo poll, .getMiningInfo (.ok latest), .submitPlainProof winner (.ok ack)] 0 1

/-- A step that settles the winner of its search. -/
def Settles (t t' : Traced) : Prop :=
  ∃ winner calls stale submitted, Settled winner calls stale submitted ∧
    winners t'.searches = winners t.searches ++ winner.toList ∧
    t'.loop.wire = t.loop.wire ++ calls ∧
    t'.loop.metrics.stale = t.loop.metrics.stale + stale ∧
    t'.loop.metrics.submitted = t.loop.metrics.submitted + submitted

/-- What holds of a smooth run at each iteration boundary. -/
structure StaleSafe (t : Traced) : Prop where
  carried : (submissions t.loop.wire).Sublist (winners t.searches)
  confirmed : Confirmed t.loop.wire
  counted : (winners t.searches).length = t.loop.metrics.stale + t.loop.metrics.submitted
  once : (submissions t.loop.wire).length = t.loop.metrics.submitted

variable {cfg : LoopConfig} {safety : SafetyMonitor} {it : Iteration} {its : List Iteration}
  {s s' : LoopState} {t t' : Traced} {wire : List GatewayCall}

theorem submissions_append (wire wire' : List GatewayCall) :
    submissions (wire ++ wire') = submissions wire ++ submissions wire' := List.filterMap_append

theorem winners_append (searches searches' : List SearchRecord) :
    winners (searches ++ searches') = winners searches ++ winners searches' := List.filterMap_append

/-- A search with a winner adds it, with the job that it was found for. -/
theorem winners_of_winner {searches : List SearchRecord} {r : SearchRecord} {proof : List Byte}
    (hWinner : r.result.winner = some proof) :
    winners (searches ++ [r]) = winners searches ++ [⟨proof, r.job⟩] := by
  rw [winners_append]
  simp [winners, hWinner]

theorem winners_of_none {searches : List SearchRecord} {r : SearchRecord}
    (hWinner : r.result.winner = none) : winners (searches ++ [r]) = winners searches := by
  rw [winners_append]
  simp [winners, hWinner]

/-- Every submit of such a wire was acknowledged. -/
theorem Confirmed.acked (h : Confirmed wire) {submission : PlainProofSubmission} {answer : Except Raised String}
    (hMem : .submitPlainProof submission answer ∈ wire) : ∃ ack, answer = .ok ack := by
  induction h with
  | nil => cases hMem
  | info h _ ih =>
      rcases List.mem_append.mp hMem with hMem | hMem
      · exact ih hMem
      · simp at hMem
  | submit h latest submission' ack hHeader ih =>
      rcases List.mem_append.mp hMem with hMem | hMem
      · rcases List.mem_append.mp hMem with hMem | hMem
        · exact ih hMem
        · simp at hMem
      · cases List.mem_singleton.mp hMem
        exact ⟨ack, rfl⟩

/-- The exchange before a submit is a poll that was answered with the header of its
job. -/
theorem Confirmed.latest (h : Confirmed wire) {submission : PlainProofSubmission} {answer : Except Raised String}
    {before after : List GatewayCall} (hWire : wire = before ++ .submitPlainProof submission answer :: after) :
    ∃ earlier latest, before = earlier ++ [.getMiningInfo (.ok latest)] ∧
      latest.headerId = submission.job.headerId := by
  -- the submit is the last exchange, or it is one of a shorter wire
  induction h generalizing after with
  | nil => simp at hWire
  | info h _ ih =>
      rcases List.eq_nil_or_concat after with rfl | ⟨after', c, rfl⟩
      · obtain ⟨-, hLast⟩ := List.append_inj' hWire rfl
        simp at hLast
      · rw [List.concat_eq_append, ← List.cons_append, ← List.append_assoc] at hWire
        exact ih (List.append_inj' hWire rfl).1
  | @submit wire h latest submission' ack hHeader ih =>
      rcases List.eq_nil_or_concat after with rfl | ⟨after', c, rfl⟩
      · obtain ⟨rfl, hLast⟩ := List.append_inj' hWire rfl
        cases hLast
        exact ⟨wire, latest, rfl, hHeader⟩
      · rw [List.concat_eq_append, ← List.cons_append, ← List.append_assoc] at hWire
        have hEarlier := (List.append_inj' hWire rfl).1
        rcases List.eq_nil_or_concat after' with rfl | ⟨after'', c', rfl⟩
        · obtain ⟨-, hLast⟩ := List.append_inj' hEarlier rfl
          simp at hLast
        · rw [List.concat_eq_append, ← List.cons_append, ← List.append_assoc] at hEarlier
          exact ih (List.append_inj' hEarlier rfl).1

/-- An iteration that settles its winner keeps all winners settled: its own is submitted
or stale, and the ones before it are as they were. -/
theorem StaleSafe.settles (hSafe : StaleSafe t) (hSettles : Settles t t') : StaleSafe t' := by
  obtain ⟨winner, calls, stale, submitted, hSettled, hWinners, hWire, hStale, hSubmitted⟩ := hSettles
  have hCounted := hSafe.counted
  have hOnce := hSafe.once
  cases hSettled with
  | unfound poll =>
      have hNone : submissions t'.loop.wire = submissions t.loop.wire := by
        rw [hWire, submissions_append]
        exact List.append_nil _
      refine ⟨?_, ?_, ?_, ?_⟩
      · rw [hNone, hWinners, Option.toList_none, List.append_nil]
        exact hSafe.carried
      · rw [hWire]
        exact hSafe.confirmed.info poll
      · rw [hWinners, hStale, hSubmitted, Option.toList_none, List.append_nil, hCounted]
        rfl
      · rw [hNone, hSubmitted, hOnce]
        rfl
  | dropped winner poll recheck =>
      have hNone : submissions t'.loop.wire = submissions t.loop.wire := by
        rw [hWire, submissions_append]
        exact List.append_nil _
      refine ⟨?_, ?_, ?_, ?_⟩
      · rw [hNone, hWinners]
        exact hSafe.carried.trans (List.sublist_append_left _ _)
      · rw [hWire, List.append_cons]
        exact (hSafe.confirmed.info poll).info recheck
      · rw [hWinners, hStale, hSubmitted, List.length_append, Option.toList_some, List.length_singleton]
        omega
      · rw [hNone, hSubmitted, hOnce]
        rfl
  | submitted winner poll latest ack hHeader =>
      have hOne : submissions t'.loop.wire = submissions t.loop.wire ++ [winner] := by
        rw [hWire, submissions_append]
        rfl
      refine ⟨?_, ?_, ?_, ?_⟩
      · rw [hOne, hWinners]
        exact hSafe.carried.append (List.Sublist.refl _)
      · rw [hWire, List.append_cons, List.append_cons (t.loop.wire ++ _)]
        exact (hSafe.confirmed.info poll).submit latest winner ack hHeader
      · rw [hWinners, hStale, hSubmitted, List.length_append, Option.toList_some, List.length_singleton]
        omega
      · rw [hOne, hSubmitted, List.length_append, List.length_singleton, hOnce]

theorem finish_of_smooth (hSmooth : it.Smooth) : it.finish (.ok s) = s := by
  rw [Iteration.finish, hSmooth.onStatus]

/-- A stale drop of a smooth iteration counts one stale winner, and the loop goes on. -/
theorem dropStale_of_smooth (hSmooth : it.Smooth) :
    it.finish (dropStale it s) =
      { s with metrics := { s.metrics with stale := s.metrics.stale + 1 }, raised := none } := by
  rw [dropStale, notify, hSmooth.onEvent]
  rfl

/-- A submit of a smooth iteration is acknowledged, and counted as one outcome. -/
theorem submit_of_smooth (hSmooth : it.Smooth) (submission : PlainProofSubmission) : ∃ ack accepted rejected,
    it.finish (submit it submission s) =
      { s.call (.submitPlainProof submission (.ok ack)) with
        metrics := { s.metrics with
          submitted := s.metrics.submitted + 1
          accepted := accepted
          rejected := rejected } } := by
  cases hAck : it.ack with
  | error e => exact absurd hAck (hSmooth.ack e)
  | ok ack =>
      rw [submit, trySubmit, hAck]
      dsimp only [notify]
      rw [hSmooth.onEvent]
      dsimp only
      rw [finish_of_smooth hSmooth]
      by_cases hSubmitted : ack = "submitted"
      · rw [if_pos hSubmitted]
        exact ⟨ack, _, _, rfl⟩
      · rw [if_neg hSubmitted]
        exact ⟨ack, _, _, rfl⟩

/-- A smooth iteration settles its winner: it is submitted right after its header was
confirmed, or counted as stale. -/
theorem settles_of_step (hCancel : cfg.staleCancel = true) (hSmooth : it.Smooth)
    (hStep : tracedStep cfg t it = some t') : Settles t t' := by
  obtain ⟨hPass, hSearches⟩ := traced_pass hStep
  obtain ⟨s', searches'⟩ := t'
  dsimp only at hPass hSearches
  cases hPass with
  | unpolled ended hPoll =>
      rw [searchMade_of_unpolled hPoll] at hSearches
      exact ⟨none, _, 0, 0, .unfound it.poll, by simp [hSearches], rfl, rfl, rfl⟩
  | unannounced job e hPoll hChanged hEvent => exact absurd hEvent (by simp [hSmooth.onEvent])
  | unsearched job ended hPoll hNone =>
      rw [searchMade_of_unsearched hPoll hNone] at hSearches
      exact ⟨none, _, 0, 0, .unfound it.poll, by simp [hSearches], rfl, rfl, rfl⟩
  | missed job result hPoll hNew hThermal hSearch hWinner =>
      rw [searchMade_of_search hPoll hNew hThermal hSearch] at hSearches
      rw [finish_of_smooth hSmooth, hSearches]
      refine ⟨none, _, 0, 0, .unfound it.poll, ?_, rfl, rfl, rfl⟩
      simpa using winners_of_none hWinner
  | unconfirmed job result proof e hPoll hNew hThermal hSearch hWinner hStale hRecheck =>
      exact absurd hRecheck (hSmooth.recheck e)
  | drops job result proof hPoll hNew hThermal hSearch hWinner hStale hRecheck =>
      rw [searchMade_of_search hPoll hNew hThermal hSearch] at hSearches
      rw [dropStale_of_smooth hSmooth, hSearches]
      refine ⟨some ⟨proof, job⟩, _, 1, 0, .dropped ⟨proof, job⟩ it.poll it.recheck, ?_, ?_, rfl, rfl⟩
      · exact winners_of_winner hWinner
      · exact List.append_assoc _ _ _
  | submits job result proof s₁ hPoll hNew hThermal hSearch hWinner hCurrent =>
      rw [searchMade_of_search hPoll hNew hThermal hSearch] at hSearches
      rcases hCurrent with ⟨hOff, -⟩ | ⟨-, rfl, latest, hRecheck, hHeader⟩
      · rw [hCancel] at hOff
        cases hOff
      · obtain ⟨ack, accepted, rejected, hEnd⟩ := submit_of_smooth
          (s := ((t.loop.polled it.poll job).searched result).call (.getMiningInfo it.recheck))
          hSmooth ⟨proof, job⟩
        rw [hEnd, hSearches]
        refine ⟨some ⟨proof, job⟩, _, 0, 1, .submitted ⟨proof, job⟩ it.poll latest ack hHeader, ?_, ?_, rfl, rfl⟩
        · exact winners_of_winner hWinner
        · rw [← hRecheck]
          exact (List.append_assoc _ _ _).trans (List.append_assoc _ _ _)

/-- A smooth run with stale cancellation, by induction on its iterations. -/
theorem TracedLoop.staleSafe (hCancel : cfg.staleCancel = true) (run : TracedLoop cfg safety its t)
    (hSmooth : ∀ it ∈ its, it.Smooth) : StaleSafe t := by
  induction run with
  | nil => exact ⟨List.Sublist.refl _, .nil, rfl, rfl⟩
  | snoc prior it hStep ih =>
      have hSafe := ih fun it hIt => hSmooth it (by simp [hIt])
      exact hSafe.settles (settles_of_step hCancel (hSmooth it (by simp)) hStep)

end Miner
