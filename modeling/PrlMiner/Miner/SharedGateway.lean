import PrlMiner.Miner.GatewayHistory

/-! Mine loops whose clients share a gateway over the network: what the loops count is
what the gateway has recorded. -/
namespace Miner

open LittleEndian Python Runs

/-- The exchanges of a loop are the calls of its client, and none is under way. -/
structure Drives (wire : List GatewayCall) (conn : Conn) : Prop where
  ended : List.Forall₂ (fun c x => c.method = x.method ∧ Agrees c x.answer) wire conn.ended
  idle : conn.waiting = none

/-- What the gateway answered is what the loop was told. -/
def ReadsAs (c : GatewayCall) (entry : Nat × GatewayCall) : Prop :=
  c.method = entry.2.method ∧ ∃ answer, Agrees c answer ∧ Agrees entry.2 answer

section Drives

variable {rt : PyRuntime} {first : Nat} {calls : List Method} {conn : Conn} {part : List (Nat × GatewayCall)}
  {wire : List GatewayCall}

/-- A call that timed out has no answer that the gateway could have given. -/
theorem TimedOut.not_agrees {x : EndedCall} (h : TimedOut rt x) (c : GatewayCall) : ¬Agrees c x.answer := by
  rw [h]
  intro hAgrees
  cases hMethod : x.method with
  | getMiningInfo =>
      rw [hMethod] at hAgrees
      cases hAgrees
  | submitPlainProof submission =>
      rw [hMethod] at hAgrees
      cases hAgrees

/-- Calls that a loop was told of, and that were answered by the entries of a history, are
what the loop has read: entry by entry, with one answer that agrees with both. -/
theorem reads_of_answered {ended : List EndedCall} {done : List (Nat × GatewayCall)}
    (hDriven : List.Forall₂ (fun c x => c.method = x.method ∧ Agrees c x.answer) wire ended)
    (hAnswered : List.Forall₂ AnsweredBy ended done) : List.Forall₂ ReadsAs wire done := by
  induction hDriven generalizing done with
  | nil =>
      cases hAnswered
      exact .nil
  | cons hFirst hOthers ih =>
      cases hAnswered with
      | cons hEntry hEntries => exact .cons ⟨hFirst.1.trans hEntry.2.1.symm, _, hFirst.2, hEntry.2.2⟩ (ih hEntries)

/-- A client that no call has failed to answer has read its whole part of the history. -/
theorem Drives.reads (h : Drives wire conn) (follows : conn.Follows rt first calls part) :
    List.Forall₂ ReadsAs wire part := by
  obtain ⟨done, rest, good, bad, rfl, hEnded, hGood, hBad, -, hRest⟩ := follows.answered
  have hDriven := h.ended
  rw [hEnded] at hDriven
  cases bad with
  | cons x bad =>
      cases hDrop : wire.drop good.length with
      | nil => simpa [hDrop] using List.forall₂_drop_append wire good (x :: bad) hDriven
      | cons c wire' =>
          have hTail := List.forall₂_drop_append wire good (x :: bad) hDriven
          rw [hDrop, List.forall₂_cons] at hTail
          exact absurd hTail.1.2 ((hBad x (by simp)).not_agrees c)
  | nil =>
      have hAll : rest = [] := by
        have hLength := hRest rfl
        rw [h.idle] at hLength
        exact List.eq_nil_of_length_eq_zero (Nat.le_zero.mp hLength)
      rw [hAll, List.append_nil]
      rw [List.append_nil] at hDriven
      exact reads_of_answered hDriven hGood

/-- Then the gateway has recorded its submits, in the order in which the loop made
them. -/
theorem submissions_of_part
    (h : List.Forall₂ ReadsAs wire part) :
    submissions (part.map Prod.snd) = submissions wire := by
  induction h with
  | nil => rfl
  | @cons c entry wire part hFirst hOthers ih =>
      obtain ⟨hMethod, -⟩ := hFirst
      rw [List.map_cons, ← List.singleton_append, ← @List.singleton_append _ c wire, submissions_append,
        submissions_append, ih]
      congr 1
      obtain ⟨id, c'⟩ := entry
      cases c with
      | getMiningInfo answer =>
          cases c' with
          | getMiningInfo answer' => rfl
          | submitPlainProof submission' answer' => cases hMethod
      | submitPlainProof submission answer =>
          cases c' with
          | getMiningInfo answer' => cases hMethod
          | submitPlainProof submission' answer' =>
              cases hMethod
              rfl

/-- An entry is acknowledged if the loop was told so, which is the case for every submit
of a smooth loop. -/
theorem acked_of_part
    (h : List.Forall₂ ReadsAs wire part) (hConfirmed : Confirmed wire) {id : Nat} {submission : PlainProofSubmission}
    {answer : Except Raised String} (hMem : (id, .submitPlainProof submission answer) ∈ part) :
    ∃ ack, answer = .ok ack := by
  obtain ⟨c, hWire, hMethod, read, hAgrees, hAgrees'⟩ : ∃ c ∈ wire, c.method = .submitPlainProof submission ∧
      ∃ read, Agrees c read ∧ Agrees (.submitPlainProof submission answer) read := by
    clear hConfirmed
    induction h with
    | nil => cases hMem
    | @cons c entry wire part hFirst hOthers ih =>
        rcases List.mem_cons.mp hMem with rfl | hMem
        · obtain ⟨hMethod, read, hAgrees, hAgrees'⟩ := hFirst
          exact ⟨c, List.mem_cons_self, hMethod, read, hAgrees, hAgrees'⟩
        · obtain ⟨c', hWire, hRest⟩ := ih hMem
          exact ⟨c', List.mem_cons_of_mem c hWire, hRest⟩
  cases c with
  | getMiningInfo answer' => cases hMethod
  | submitPlainProof submission' answer' =>
      obtain ⟨ack, rfl⟩ := hConfirmed.acked hWire
      cases hAgrees
      cases hAgrees'
      exact ⟨"submitted", rfl⟩

end Drives

section Fleet

variable {ι : Type} [DecidableEq ι] {target rotateAfter pausedFirst : Int} {gw : MockGateway}

/-- The gateway records every submit that it handles, the stale ones included. -/
theorem serve_submissions {wire : List GatewayCall}
    (run : Run MockGateway.serve (.init target rotateAfter pausedFirst) wire gw) :
    gw.submissions = submissions wire := by
  induction run with
  | nil => rfl
  | @snoc wire gw₀ gw' prior c hLast ih =>
      rw [submissions_append, ← ih]
      cases c with
      | getMiningInfo answer =>
          obtain ⟨-, rfl⟩ := MockGateway.serve_getMiningInfo hLast
          rw [MockGateway.getMiningInfo_snd, MockGateway.nextJob]
          split_ifs <;> simp [submissions]
      | submitPlainProof submission answer =>
          obtain ⟨-, rfl⟩ := MockGateway.serve_submitPlainProof hLast
          rw [MockGateway.submitPlainProof, MockGateway.recordSubmit]
          dsimp only
          cases MockGateway.currentHeader { gw₀ with submissions := gw₀.submissions ++ [submission] } with
          | error e => rfl
          | ok header =>
              dsimp only
              split_ifs <;> rfl

/-- The history without the ids of the requests has the same parts for the clients. -/
theorem exchanges_part (history : List (ι × Nat × GatewayCall)) (i : ι) :
    exchanges (history.map fun entry => (entry.1, entry.2.2)) i = (part history i).map Prod.snd := by
  induction history with
  | nil => rfl
  | cons entry history ih =>
      by_cases hSame : entry.1 = i <;> simpa [exchanges, part, hSame] using ih

/-- Smooth loops on a gateway that they share, with their clients byte by byte on the
network: the gateway has recorded the submits that the loops count, each of a winner of
one of them, and has accepted or dropped each of them once. -/
theorem fleet_accounts [Fintype ι] (cfg : ι → LoopConfig) (safety : ι → SafetyMonitor) (its : ι → List Iteration)
    (t : ι → Traced) (hCancel : ∀ i, (cfg i).staleCancel = true)
    (loops : ∀ i, TracedLoop (cfg i) (safety i) (its i) (t i)) (hSmooth : ∀ i, ∀ it ∈ its i, it.Smooth)
    {rt : PyRuntime} (hLimit : 3 ≤ rt.limit) (hTarget : (digitsText target.natAbs).length ≤ maxDigits)
    {ids : ι → Nat} {events : List (NetEvent ι)} {net : Net ι}
    (run : Run (Net.step rt) (.init target rotateAfter pausedFirst ids) events net)
    (hDrives : ∀ i, Drives (t i).loop.wire (net.conns i)) :
    ∃ gw, net.server = .ofGateway gw ∧
      gw.accepted + gw.droppedStale = ∑ i, (t i).loop.metrics.submitted ∧
      gw.submissions.length = ∑ i, (t i).loop.metrics.submitted ∧
      (∀ submission ∈ gw.submissions, ∃ i, submission ∈ winners (t i).searches) ∧
      ∑ i, (winners (t i).searches).length =
        ∑ i, (t i).loop.metrics.stale + (gw.accepted + gw.droppedStale) := by
  have hSafe (i : ι) : StaleSafe (t i) := (loops i).staleSafe (hCancel i) (hSmooth i)
  obtain ⟨history, gw, h⟩ := linear_run hLimit hTarget (linear_init ids) run
  have hLinear := h.linearized
  have hReads (i : ι) : List.Forall₂ ReadsAs (t i).loop.wire (part history i) :=
    (hDrives i).reads (hLinear.clients i)
  let calls : List (ι × GatewayCall) := history.map fun entry => (entry.1, entry.2.2)
  have hCalls : calls.map Prod.snd = history.map (·.2.2) := by
    rw [List.map_map]
    rfl
  have hServed : Run MockGateway.serve (.init target rotateAfter pausedFirst) (calls.map Prod.snd) gw := by
    rw [hCalls]
    exact hLinear.served
  have hMine (i : ι) : submissions (exchanges calls i) = submissions (t i).loop.wire := by
    rw [exchanges_part, submissions_of_part (hReads i)]
  have hAcked (submission : PlainProofSubmission) (answer : Except Raised String)
      (hMem : .submitPlainProof submission answer ∈ calls.map Prod.snd) : ∃ ack, answer = .ok ack := by
    rw [hCalls] at hMem
    obtain ⟨⟨i, id, c⟩, hEntry, rfl⟩ := List.mem_map.mp hMem
    have hOwn : (id, .submitPlainProof submission answer) ∈ part history i :=
      List.mem_map.mpr ⟨_, List.mem_filter.mpr ⟨hEntry, by simp⟩, rfl⟩
    exact acked_of_part (hReads i) (hSafe i).confirmed hOwn
  have hCounted : (submissions (calls.map Prod.snd)).length = ∑ i, (t i).loop.metrics.submitted := by
    rw [← sum_submissions calls]
    refine Finset.sum_congr rfl fun i _ => ?_
    rw [hMine i, (hSafe i).once]
  have hTallies := MockGateway.tallies_eq_submissions hServed hAcked
  refine ⟨gw, hLinear.server, hTallies.trans hCounted, ?_, ?_, ?_⟩
  · rw [serve_submissions hServed, hCounted]
  · intro submission hMem
    rw [serve_submissions hServed] at hMem
    obtain ⟨c, hCall, hSubmission⟩ := List.mem_filterMap.mp hMem
    obtain ⟨⟨i, c⟩, hEntry, rfl⟩ := List.mem_map.mp hCall
    have hOwn : submission ∈ submissions (exchanges calls i) :=
      List.mem_filterMap.mpr ⟨c, mem_exchanges hEntry, hSubmission⟩
    rw [hMine i] at hOwn
    exact ⟨i, (hSafe i).carried.subset hOwn⟩
  · rw [hTallies, hCounted, ← Finset.sum_add_distrib]
    exact Finset.sum_congr rfl fun i _ => (hSafe i).counted

end Fleet

/-- What a client was told by the gateway. -/
def EndedCall.told (x : EndedCall) : Option GatewayCall :=
  match x.method, x.answer with
  | .getMiningInfo, .info (.ok job) => some (.getMiningInfo (.ok job))
  | .submitPlainProof submission, .submit (.ok message) =>
      if message = text "submitted" then some (.submitPlainProof submission (.ok "submitted")) else none
  | _, _ => none

/-- What an ended call tells the loop agrees with its answer. -/
theorem agrees_of_told {x : EndedCall} {c : GatewayCall} (h : x.told = some c) :
    c.method = x.method ∧ Agrees c x.answer := by
  obtain ⟨id, method, answer⟩ := x
  unfold EndedCall.told at h
  dsimp only at h ⊢
  split at h
  · cases h
    exact ⟨rfl, .job _⟩
  · split_ifs at h with hMessage
    cases h
    exact ⟨rfl, hMessage ▸ .submitted _⟩
  · cases h

/-- A loop whose wire is what the calls of its client tell is driven by them. -/
theorem drives_of_told {wire : List GatewayCall} {conn : Conn} (hEnded : conn.ended.map EndedCall.told = wire.map some)
    (hIdle : conn.waiting.isNone) : Drives wire conn where
  ended := by
    rw [← List.forall₂_eq_eq_eq, List.forall₂_map_right_iff, List.forall₂_map_left_iff] at hEnded
    exact hEnded.flip.imp fun _ _ h => agrees_of_told h
  idle := Option.isNone_iff_eq_none.mp hIdle

/-- Two miners whose requests and replies overlap: the poll of the second rotates the
header after the first one has found it current. -/
def fleetTrial : List (NetEvent Bool) :=
  [.call false .getMiningInfo, .upload false 40, .upload false 29, .handle false, .download false 192,
    .call false .getMiningInfo, .call true .getMiningInfo, .upload true 69, .upload false 69, .handle false,
    .handle true, .download false 100, .download true 192, .download false 92,
    .call false (.submitPlainProof ⟨[], mockJob 0⟩), .call true .getMiningInfo, .upload true 69, .upload false 257,
    .handle false, .handle true, .download true 192, .call true (.submitPlainProof ⟨[], mockJob 1⟩),
    .upload true 257, .handle true, .download false 51, .download true 51]

/-- The calls of a miner with one winner. -/
def winnerCalls (i : Bool) : List GatewayCall :=
  [.getMiningInfo (.ok (mockJob i.toNat)), .getMiningInfo (.ok (mockJob i.toNat)),
    .submitPlainProof ⟨[], mockJob i.toNat⟩ (.ok "submitted")]

deriving instance DecidableEq for PlainProofSubmission, GatewayCall

/-- Two loops with one winner each over one gateway, their requests cut and mixed on the
way: both submissions are recorded, and each is a winner of its loop. -/
theorem fleet_accounts_two : ∃ (t : Bool → Traced) (net : Net Bool),
    (∀ i : Bool, TracedLoop ⟨true⟩ ⟨10, 0⟩ [mockIteration i.toNat] (t i)) ∧
    Run (Net.step asciiRuntime) (.init 5 3 0 fun _ => 0) fleetTrial net ∧
    ∃ gw, net.server = .ofGateway gw ∧ ∑ i, (t i).loop.metrics.submitted = 2 ∧
      gw.accepted + gw.droppedStale = 2 ∧ gw.submissions.length = 2 ∧
      ∀ submission ∈ gw.submissions, ∃ i, submission ∈ winners (t i).searches := by
  have hRuns (i : Bool) : ∃ t, TracedLoop ⟨true⟩ ⟨10, 0⟩ [mockIteration i.toNat] t ∧
      t.loop.wire = winnerCalls i ∧ t.loop.metrics.submitted = 1 := by
    cases i <;> exact ⟨_, run_iff_foldlM.mpr rfl, rfl, rfl⟩
  choose t hRun hWire hSubmitted using hRuns
  obtain ⟨net, hNet, hTold⟩ := (Option.any_eq_true _ _).mp
    (show ((fleetTrial.foldlM (Net.step asciiRuntime) (.init 5 3 0 fun _ => 0)).any fun net =>
        decide (∀ i, (net.conns i).ended.map EndedCall.told = (winnerCalls i).map some ∧
          (net.conns i).waiting.isNone)) by
      decide +kernel)
  have hRunNet := run_iff_foldlM.mpr hNet
  have hDrives (i : Bool) : Drives (t i).loop.wire (net.conns i) := by
    rw [hWire i]
    obtain ⟨hEnded, hIdle⟩ := of_decide_eq_true hTold i
    exact drives_of_told hEnded hIdle
  have hCount : ∑ i, (t i).loop.metrics.submitted = 2 := by
    rw [Fintype.sum_bool, hSubmitted, hSubmitted]
  obtain ⟨gw, hServer, hTallies, hLength, hWinners, -⟩ := fleet_accounts (fun _ => ⟨true⟩) (fun _ => ⟨10, 0⟩)
    (fun i : Bool => [mockIteration i.toNat]) t (fun _ => rfl) hRun
    (fun i it hIt => by
      cases List.mem_singleton.mp hIt
      exact ⟨by simp [mockIteration], by simp [mockIteration], by simp [mockIteration], by simp [mockIteration],
        by simp [mockIteration], fun _ => rfl, rfl⟩)
    (show 3 ≤ asciiRuntime.limit by decide) (show (digitsText (5 : Int).natAbs).length ≤ maxDigits by decide +kernel)
    hRunNet hDrives
  exact ⟨t, net, hRun, hRunNet, gw, hServer, hCount, hTallies.trans hCount, hLength.trans hCount, hWinners⟩

end Miner
