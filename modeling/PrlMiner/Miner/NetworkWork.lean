import PrlMiner.Miner.NetworkCalls
import PrlMiner.Miner.SharedGateway
import PrlMiner.Miner.WorkProofs

/-! What the gateway has recorded from loops with the fused backend: proofs of work for
its own target, whatever the network does. -/
namespace Miner

open LittleEndian Python Runs Cuda Reference

section Jobs

variable {pk : Packages} {cfg : LoopConfig} {it : Iteration} {s s' : LoopState} {t t' : CudaLoop}
  {wire infos : List GatewayCall} {c : GatewayCall}

/-- Every submit is for a job that was polled before. -/
def JobsPolled (wire : List GatewayCall) : Prop :=
  ∀ before submission answer after, wire = before ++ .submitPlainProof submission answer :: after →
    .getMiningInfo (.ok submission.job) ∈ before

/-- A submit for a job that was polled before keeps all submits such, -/
theorem JobsPolled.snoc (h : JobsPolled wire)
    (hPolled : ∀ submission answer, c = .submitPlainProof submission answer →
      .getMiningInfo (.ok submission.job) ∈ wire) : JobsPolled (wire ++ [c]) := by
  intro before submission answer after hSplit
  rcases List.eq_nil_or_concat after with rfl | ⟨after, last, rfl⟩
  · obtain ⟨rfl, hLast⟩ := List.append_inj' hSplit rfl
    exact hPolled submission answer (List.cons.inj hLast).1
  · rw [List.concat_eq_append, ← List.cons_append, ← List.append_assoc] at hSplit
    exact h before submission answer after (List.append_inj' hSplit rfl).1

/-- and so do more polls. -/
theorem JobsPolled.append_infos (h : JobsPolled wire) (hInfos : ∀ c ∈ infos, ∃ answer, c = .getMiningInfo answer) :
    JobsPolled (wire ++ infos) := by
  induction infos using List.reverseRecOn with
  | nil => simpa using h
  | append_singleton infos c ih =>
      rw [← List.append_assoc]
      refine (ih fun c hMem => hInfos c (List.mem_append_left _ hMem)).snoc fun submission answer hCall => ?_
      obtain ⟨answer', hInfo⟩ := hInfos c (by simp)
      cases hCall.symm.trans hInfo

/-- A pass asks for jobs, and may then submit, once and for a job that it got. -/
theorem pass_wire (hPass : Pass cfg it s s') : ∃ infos submits, s'.wire = s.wire ++ infos ++ submits ∧
    (∀ c ∈ infos, ∃ answer, c = .getMiningInfo answer) ∧
    (submits = [] ∨ ∃ submission answer, submits = [.submitPlainProof submission answer] ∧
      .getMiningInfo (.ok submission.job) ∈ infos) := by
  have hRaised (s : LoopState) (e : Option Raised) : LoopState.wire { s with raised := e } = s.wire := rfl
  have hOne : ∀ c ∈ [GatewayCall.getMiningInfo it.poll], ∃ answer, c = .getMiningInfo answer := by simp
  have hTwo : ∀ c ∈ [GatewayCall.getMiningInfo it.poll, .getMiningInfo it.recheck],
      ∃ answer, c = .getMiningInfo answer := by simp
  cases hPass with
  | unpolled ended hPoll => exact ⟨_, [], (List.append_nil _).symm, hOne, .inl rfl⟩
  | unannounced job e hPoll hChanged hEvent => exact ⟨_, [], (List.append_nil _).symm, hOne, .inl rfl⟩
  | unsearched job ended hPoll hNone => exact ⟨_, [], (List.append_nil _).symm, hOne, .inl rfl⟩
  | missed job result hPoll hNew hThermal hSearch hWinner =>
      exact ⟨_, [], (finish_eq hRaised _).trans (List.append_nil _).symm, hOne, .inl rfl⟩
  | unconfirmed job result proof e hPoll hNew hThermal hSearch hWinner hStale hRecheck =>
      refine ⟨_, [], ?_, hTwo, .inl rfl⟩
      simp [LoopState.call, LoopState.searched, LoopState.polled]
  | drops job result proof hPoll hNew hThermal hSearch hWinner hStale hRecheck =>
      refine ⟨_, [], ?_, hTwo, .inl rfl⟩
      rw [finish_eq hRaised, endState_dropStale hRaised]
      simp [LoopState.call, LoopState.searched, LoopState.polled]
  | submits job result proof s₁ hPoll hNew hThermal hSearch hWinner hCurrent =>
      rw [finish_eq hRaised, submit_wire]
      rcases hCurrent with ⟨-, rfl⟩ | ⟨-, rfl, -⟩
      · exact ⟨_, _, rfl, hOne, .inr ⟨⟨proof, job⟩, it.ack, rfl, by simp [hPoll]⟩⟩
      · refine ⟨_, [.submitPlainProof ⟨proof, job⟩ it.ack], ?_, hTwo, .inr ⟨_, _, rfl, by simp [hPoll]⟩⟩
        simp [LoopState.call, LoopState.searched, LoopState.polled]

/-- An iteration submits only for a job that it has polled itself. -/
theorem jobsPolled_step (h : JobsPolled s.wire) (hStep : mineLoopStep cfg s it = some s') : JobsPolled s'.wire := by
  obtain ⟨infos, submits, hWire, hInfos, hSubmits⟩ := pass_wire (pass_of_step hStep).2
  rw [hWire]
  rcases hSubmits with rfl | ⟨submission, answer, rfl, hPolled⟩
  · simpa using h.append_infos hInfos
  · refine (h.append_infos hInfos).snoc fun submission' answer' hCall => ?_
    cases hCall
    exact List.mem_append_right _ hPolled

/-- A step with the fused backend is one of the loop, with the search of the backend as
its input. -/
theorem cudaStep_loop {e : Iteration × SearchEnv} (hStep : cudaStep pk cfg t e = some t') :
    ∃ it, mineLoopStep cfg t.loop it = some t'.loop := by
  rw [cudaStep] at hStep
  cases hCall : searchCall e.1 t.loop with
  | none =>
      rw [hCall] at hStep
      obtain ⟨s, hLoop, rfl⟩ := Option.map_eq_some_iff.mp hStep
      exact ⟨_, hLoop⟩
  | some call =>
      rw [hCall] at hStep
      dsimp only at hStep
      split_ifs at hStep
      obtain ⟨s, hLoop, rfl⟩ := Option.map_eq_some_iff.mp hStep
      refine ⟨_, hLoop.trans ?_⟩
      cases t.backend.search pk e.2 call.1 call.2.attempt <;> rfl

theorem jobsPolled_of_run {safety : SafetyMonitor} {prlCudaBatch : Int} {events : List (Iteration × SearchEnv)}
    (run : Run (cudaStep pk cfg) (CudaLoop.init safety prlCudaBatch) events t) : JobsPolled t.loop.wire := by
  refine run.invariant (fun t => JobsPolled t.loop.wire) ?_ fun t e t' h hStep => ?_
  · intro before submission answer after hSplit
    simp [CudaLoop.init, LoopState.init] at hSplit
  · obtain ⟨it, hLoop⟩ := cudaStep_loop hStep
    exact jobsPolled_step h hLoop

end Jobs

section Served

variable {gw : MockGateway} {job : MiningJob} {target rotateAfter pausedFirst : Int} {wire : List GatewayCall}

theorem getMiningInfo_target (h : gw.getMiningInfo.1 = .ok job) : job.target = gw.target := by
  have hKeeps := (MockServer.nextJob_keeps gw).2
  rw [MockGateway.getMiningInfo] at h
  generalize gw.nextJob = next at h hKeeps
  obtain ⟨_ | _ | header, gw'⟩ := next
  · cases h
  · cases h
  · dsimp only at h hKeeps
    cases hJob : MiningJob.fromDict header gw'.target with
    | error e =>
        rw [hJob] at h
        cases h
    | ok job' =>
        rw [hJob] at h
        cases h
        rw [(fromDict_eq_ok.mp hJob).1, hKeeps]

/-- Every job of the gateway has its target, which never changes. -/
theorem served_target (run : Run MockGateway.serve (.init target rotateAfter pausedFirst) wire gw) :
    gw.target = target ∧ ∀ job, .getMiningInfo (.ok job) ∈ wire → job.target = target := by
  induction run with
  | nil => exact ⟨rfl, by simp⟩
  | @snoc wire gw₀ gw' prior c hLast ih =>
      obtain ⟨hTarget, hJobs⟩ := ih
      cases c with
      | getMiningInfo answer =>
          obtain ⟨hAnswer, rfl⟩ := MockGateway.serve_getMiningInfo hLast
          refine ⟨?_, fun job hMem => ?_⟩
          · rw [MockGateway.getMiningInfo_snd, (MockServer.nextJob_keeps gw₀).2, hTarget]
          · rcases List.mem_append.mp hMem with hMem | hMem
            · exact hJobs job hMem
            · cases List.mem_singleton.mp hMem
              rw [getMiningInfo_target hAnswer, hTarget]
      | submitPlainProof submission answer =>
          obtain ⟨-, rfl⟩ := MockGateway.serve_submitPlainProof hLast
          refine ⟨?_, fun job hMem => hJobs job (by simpa using hMem)⟩
          rw [← hTarget, MockGateway.submitPlainProof, MockGateway.recordSubmit]
          dsimp only
          cases MockGateway.currentHeader { gw₀ with submissions := gw₀.submissions ++ [submission] } with
          | error e => rfl
          | ok header =>
              dsimp only
              split_ifs <;> rfl

end Served

section Order

variable {ι : Type} [DecidableEq ι] {rt : PyRuntime} {target rotateAfter pausedFirst : Int} {ids : ι → Nat}
  {events : List (NetEvent ι)} {net : Net ι}

/-- The calls that a client has begun. -/
def Conn.begun (conn : Conn) : List Method := conn.ended.map EndedCall.method ++ conn.waiting.toList

theorem begun_finish (conn : Conn) (result : Except Gateway.CallError Json) :
    (conn.finish rt result).begun = conn.begun := by
  rw [Conn.finish]
  cases hWaiting : conn.waiting with
  | none => rfl
  | some method => simp [Conn.begun, hWaiting]

theorem begun_readLine (conn : Conn) : (conn.readLine rt).begun = conn.begun := by
  rw [Conn.readLine]
  cases hWaiting : conn.waiting with
  | none => rfl
  | some method =>
      rw [Option.bind_some]
      cases Gateway.readReply (rt.handleReply conn.id) conn.buf with
      | none => rfl
      | some reply =>
          refine (begun_finish _ _).trans ?_
          simp [Conn.begun, hWaiting]

/-- A handler begins no call of a client. -/
theorem begun_handle {conn : Conn} {server : MockServer} {p : Conn × MockServer}
    (h : conn.handle rt server = some p) : p.1.begun = conn.begun := by
  rw [Conn.handle] at h
  cases hDied : conn.died with
  | true =>
      rw [hDied] at h
      cases h
  | false =>
      rw [hDied] at h
      cases hSplit : Lines.split Gateway.newline conn.rfile with
      | none =>
          rw [hSplit] at h
          cases h
      | some cut =>
          rw [hSplit] at h
          dsimp only at h
          cases hHandled : server.handleLine rt (cut.1 ++ [Gateway.newline]) with
          | skipped =>
              rw [hHandled] at h
              cases h
              rfl
          | died =>
              rw [hHandled] at h
              cases h
              rfl
          | replied reply server' =>
              rw [hHandled] at h
              cases h
              rfl

/-- The calls that each client has begun grow by those of the event. -/
theorem begun_setConn {conn : Conn} {e : NetEvent ι} {j : ι} (h : conn.begun = (net.conns j).begun ++ called [e] j)
    (hOthers : ∀ i, i ≠ j → called [e] i = []) (i : ι) :
    ((net.setConn j conn).conns i).begun = (net.conns i).begun ++ called [e] i := by
  dsimp only [Net.setConn]
  by_cases hSame : i = j
  · rw [hSame, Function.update_self, h]
  · rw [Function.update_of_ne hSame, hOthers i hSame, List.append_nil]

theorem begun_step {net' : Net ι} {e : NetEvent ι} (hStep : net.step rt e = some net') (i : ι) :
    (net'.conns i).begun = (net.conns i).begun ++ called [e] i := by
  cases e with
  | call j method =>
      obtain ⟨conn, hCall, rfl⟩ := Option.map_eq_some_iff.mp hStep
      rw [Conn.call] at hCall
      split_ifs at hCall with hGuard
      cases hCall
      rw [not_or, Option.not_isSome_iff_eq_none] at hGuard
      refine begun_setConn ?_ (fun i hOther => by simp [called, hOther.symm]) i
      rw [begun_readLine]
      simp [Conn.begun, called, hGuard.1]
  | upload j n =>
      obtain ⟨conn, hUpload, rfl⟩ := Option.map_eq_some_iff.mp hStep
      rw [Conn.upload] at hUpload
      split_ifs at hUpload
      cases hUpload
      exact begun_setConn (by simp [Conn.begun, called]) (fun i _ => by simp [called]) i
  | handle j =>
      obtain ⟨p, hHandle, rfl⟩ := Option.map_eq_some_iff.mp hStep
      refine begun_setConn ?_ (fun i _ => by simp [called]) i
      rw [begun_handle hHandle]
      simp [called]
  | download j n =>
      obtain ⟨conn, hDownload, rfl⟩ := Option.map_eq_some_iff.mp hStep
      rw [Conn.download] at hDownload
      split_ifs at hDownload
      cases hDownload
      refine begun_setConn ?_ (fun i _ => by simp [called]) i
      rw [begun_readLine]
      simp [Conn.begun, called]
  | timeout j =>
      obtain ⟨conn, hTimeout, rfl⟩ := Option.map_eq_some_iff.mp hStep
      rw [Conn.timeout] at hTimeout
      split_ifs at hTimeout
      cases hTimeout
      refine begun_setConn ?_ (fun i _ => by simp [called]) i
      rw [begun_finish]
      simp [called]
  | eof j =>
      obtain ⟨conn, hEof, rfl⟩ := Option.map_eq_some_iff.mp hStep
      rw [Conn.eof] at hEof
      split_ifs at hEof
      cases hEof
      refine begun_setConn ?_ (fun i _ => by simp [called]) i
      rw [begun_finish]
      simp [called]

/-- A client begins a call once the last one has ended, so that the events tell which
calls it has begun. -/
theorem begun_eq_called (run : Run (Net.step rt) (.init target rotateAfter pausedFirst ids) events net) (i : ι) :
    (net.conns i).begun = called events i := by
  induction run with
  | nil => rfl
  | snoc prior e hLast ih =>
      rw [begun_step hLast, ih, ← called_append]

end Order

section Recorded

variable {ι : Type} [DecidableEq ι] {rt : PyRuntime} {first : Nat} {calls : List Method} {conn : Conn}
  {own : List (Nat × GatewayCall)} {wire : List GatewayCall}

/-- The client makes the calls of a loop, and the loop is given the jobs that the client
reads. Calls may fail, and the loop may be ahead of the network. -/
structure Conn.Plays (wire : List GatewayCall) (conn : Conn) : Prop where
  made : conn.begun <+: wire.map GatewayCall.method
  told : ∀ (k : Nat) (job : MiningJob) (x : EndedCall), wire[k]? = some (.getMiningInfo (.ok job)) →
    conn.ended[k]? = some x → x.answer = .info (.ok job)

theorem answer_error_ne {method : Method} {e : Gateway.CallError} {job : MiningJob} :
    rt.answer method (.error e) ≠ .info (.ok job) := by
  cases method <;> simp [PyRuntime.answer, Except.mapError, bind, Except.bind]

/-- A call that was lost has not read a job. -/
theorem Lost.answer_ne {x : EndedCall} (h : Lost rt x) (job : MiningJob) : x.answer ≠ .info (.ok job) := by
  rcases h with h | ⟨got, h⟩
  · rw [h]
    exact answer_error_ne
  · rw [h]
    exact answer_error_ne

/-- A job that the client has read is in its part of the history, at the entry of the
request for it. -/
theorem Conn.Follows.read (h : conn.Follows rt first calls own) {x : EndedCall} (hMem : x ∈ conn.ended)
    {job : MiningJob} (hRead : x.answer = .info (.ok job)) : ∃ id, (id, .getMiningInfo (.ok job)) ∈ own := by
  obtain ⟨done, rest, good, bad, rfl, hEnded, hGood, -, hBad, -⟩ := h.answered
  rw [hEnded] at hMem
  rcases List.mem_append.mp hMem with hTrue | hLost
  · clear hEnded h hBad hMem
    induction hGood with
    | nil => cases hTrue
    | @cons y entry good done hFirst hOthers ih =>
        rcases List.mem_cons.mp hTrue with rfl | hTrue
        · obtain ⟨id, c⟩ := entry
          obtain ⟨-, -, hAgrees⟩ := hFirst
          rw [hRead] at hAgrees
          cases hAgrees
          exact ⟨id, by simp⟩
        · obtain ⟨id, hEntry⟩ := ih hTrue
          exact ⟨id, List.mem_cons_of_mem entry hEntry⟩
  · exact absurd hRead ((hBad x hLost).answer_ne job)

theorem getElem?_extends {α : Type} {l l' : List α} {n : Nat} {x : α} (h : l <+: l') (hx : l[n]? = some x) :
    l'[n]? = some x := by
  obtain ⟨hLength, rfl⟩ := List.getElem?_eq_some_iff.mp hx
  exact List.prefix_iff_getElem?.mp h n hLength

/-- What is recorded of a client is a submit of its loop, for a job in its part of the
history. This holds also of submits whose replies were lost. -/
theorem Conn.Plays.recorded (h : Conn.Plays wire conn) (follows : conn.Follows rt first conn.begun own)
    (hPolled : JobsPolled wire) {id : Nat} {submission : PlainProofSubmission} {answer : Except Raised String}
    (hMem : (id, .submitPlainProof submission answer) ∈ own) :
    submission ∈ submissions wire ∧ ∃ id', (id', .getMiningInfo (.ok submission.job)) ∈ own := by
  obtain ⟨n, hEntry⟩ := List.mem_iff_getElem?.mp hMem
  have hBegun : conn.begun[n]? = some (.submitPlainProof submission) := by
    refine getElem?_extends follows.made ?_
    rw [List.getElem?_map, hEntry]
    rfl
  obtain ⟨c, hCall, hMethod⟩ : ∃ c, wire[n]? = some c ∧ c.method = .submitPlainProof submission := by
    have hMade := getElem?_extends h.made hBegun
    rw [List.getElem?_map] at hMade
    exact Option.map_eq_some_iff.mp hMade
  cases c with
  | getMiningInfo answer' => cases hMethod
  | submitPlainProof submission' answer' =>
      cases hMethod
      refine ⟨List.mem_filterMap.mpr ⟨_, List.mem_of_getElem? hCall, rfl⟩, ?_⟩
      -- the poll of the job came before, so that its call has ended
      obtain ⟨hLength, hGet⟩ := List.getElem?_eq_some_iff.mp hCall
      have hSplit := hPolled (wire.take n) submission answer' (wire.drop (n + 1)) (by
        rw [← hGet, List.getElem_cons_drop, List.take_append_drop])
      obtain ⟨k, hPoll⟩ := List.mem_iff_getElem?.mp hSplit
      obtain ⟨hBefore, -⟩ := List.getElem?_eq_some_iff.mp hPoll
      rw [List.length_take] at hBefore
      obtain ⟨hCount, -⟩ := List.getElem?_eq_some_iff.mp hBegun
      have hEnded : k < conn.ended.length := by
        have hWaiting : conn.waiting.toList.length ≤ 1 := by cases conn.waiting <;> simp
        rw [Conn.begun, List.length_append, List.length_map] at hCount
        omega
      have hRead := h.told k submission.job conn.ended[k]
        (getElem?_extends (List.take_prefix n wire) hPoll) (List.getElem?_eq_getElem hEnded)
      exact follows.read (List.getElem_mem hEnded) hRead

/-- Loops with the fused backend, whose clients share a gateway over the network: whatever
is lost, late or interleaved, each submission that the gateway has recorded is for a job
that it gave out, and proves work for its own target. -/
theorem network_proves_work (pk : Packages) (hRange : pk.InRange) (cfg : ι → LoopConfig) (safety : ι → SafetyMonitor)
    (prlCudaBatch : ι → Int) {its : ι → List (Iteration × SearchEnv)} {t : ι → CudaLoop}
    (loops : ∀ i, Run (cudaStep pk (cfg i)) (CudaLoop.init (safety i) (prlCudaBatch i)) (its i) (t i))
    {target rotateAfter pausedFirst : Int} (hLimit : 3 ≤ rt.limit)
    (hTarget : (digitsText target.natAbs).length ≤ maxDigits) {ids : ι → Nat} {events : List (NetEvent ι)} {net : Net ι}
    (run : Run (Net.step rt) (.init target rotateAfter pausedFirst ids) events net)
    (hPlays : ∀ i, (net.conns i).Plays (t i).loop.wire) :
    ∃ history gw, Linearized rt target rotateAfter pausedFirst ids events net history gw ∧
      ∀ submission ∈ gw.submissions,
        (∃ i id, (i, id, .getMiningInfo (.ok submission.job)) ∈ history) ∧ submission.job.target = target ∧
        ∃ ref nonce keyA keyB row col, referenceAttempt pk submission.job nonce = .ok ref ∧ ref.found = true ∧
          ProvesWork pk submission.job submission.plainProof nonce keyA keyB row col := by
  obtain ⟨history, gw, h⟩ := linear_run hLimit hTarget (linear_init ids) run
  have hLinear := h.linearized
  refine ⟨history, gw, hLinear, fun submission hMem => ?_⟩
  rw [serve_submissions hLinear.served] at hMem
  obtain ⟨c, hCall, hSubmission⟩ := List.mem_filterMap.mp hMem
  obtain ⟨⟨i, id, c⟩, hEntry, rfl⟩ := List.mem_map.mp hCall
  cases c with
  | getMiningInfo answer => cases hSubmission
  | submitPlainProof submission' answer =>
      cases hSubmission
      have hOwn : (id, .submitPlainProof submission answer) ∈ part history i :=
        List.mem_map.mpr ⟨_, List.mem_filter.mpr ⟨hEntry, by simp⟩, rfl⟩
      have hFollows := hLinear.clients i
      rw [List.nil_append, ← begun_eq_called run i] at hFollows
      obtain ⟨hSubmitted, id', hPoll⟩ := (hPlays i).recorded hFollows (jobsPolled_of_run (loops i)) hOwn
      obtain ⟨⟨j, entry⟩, hFilter, rfl⟩ := List.mem_map.mp hPoll
      have hGiven := (List.mem_filter.mp hFilter).1
      obtain ⟨r, hRecorded, hJob, hFound, hProof⟩ := submitsWinners_of_run (loops i) submission hSubmitted
      refine ⟨⟨j, _, hGiven⟩, (served_target hLinear.served).2 _ (List.mem_map.mpr ⟨_, hGiven, rfl⟩), ?_⟩
      rw [← hJob]
      exact (cudaInv_of_run (loops i)).proves_work hRange hRecorded hFound hProof

/-- A client that has made all calls of a loop, with the answers of its part of the history. -/
theorem Conn.plays_of_answered (hIdle : conn.waiting = none) (hAnswered : List.Forall₂ AnsweredBy conn.ended own) :
    Conn.Plays (own.map Prod.snd) conn where
  made := by
    have hMethods : conn.ended.map EndedCall.method = own.map (·.2.method) := by
      rw [← List.forall₂_eq_eq_eq, List.forall₂_map_right_iff, List.forall₂_map_left_iff]
      exact hAnswered.imp fun _ _ h => h.2.1.symm
    rw [Conn.begun, hIdle, hMethods, List.map_map]
    simp [Function.comp_def]
  told k job x hCall hEnded := by
    rw [List.getElem?_map] at hCall
    obtain ⟨entry, hEntry, hInfo⟩ := Option.map_eq_some_iff.mp hCall
    obtain ⟨hCalls, rfl⟩ := List.getElem?_eq_some_iff.mp hEntry
    obtain ⟨hLength, rfl⟩ := List.getElem?_eq_some_iff.mp hEnded
    obtain ⟨-, -, hAgrees⟩ := (List.forall₂_iff_get.mp hAnswered).2 k hLength hCalls
    rw [show (own.get ⟨k, hCalls⟩).2 = .getMiningInfo (.ok job) from hInfo] at hAgrees
    generalize (conn.ended.get ⟨k, hLength⟩).answer = answer at hAgrees ⊢
    cases hAgrees
    rfl

end Recorded

section Easiest

/-- Two miners whose calls are interleaved. Each submits a proof for the first job. -/
theorem network_proves_work_two : ∃ (t : Bool → CudaLoop) (events : List (NetEvent Bool)) (net : Net Bool)
    (history : List (Bool × Nat × GatewayCall)) (gw : MockGateway),
    (∀ i, ∃ its, Run (cudaStep constantPackages ⟨true⟩) (CudaLoop.init ⟨10, 0⟩ 2) its (t i)) ∧
      Run (Net.step asciiRuntime) (.init (2 ^ 256 - 1) 0 0 fun _ => 0) events net ∧
      Linearized asciiRuntime (2 ^ 256 - 1) 0 0 (fun _ => 0) events net history gw ∧ gw.submissions.length = 2 ∧
      ∀ submission ∈ gw.submissions, ∃ nonce keyA keyB row col,
        ProvesWork constantPackages submission.job submission.plainProof nonce keyA keyB row col := by
  obtain ⟨its, t, proof, loop, hWire, -⟩ := easiest_run (MockGateway.headerOf 0)
  let info : GatewayCall := .getMiningInfo (.ok ⟨MockGateway.headerOf 0, 2 ^ 256 - 1⟩)
  let submission : PlainProofSubmission := ⟨proof, ⟨MockGateway.headerOf 0, 2 ^ 256 - 1⟩⟩
  let submit : GatewayCall := .submitPlainProof submission (.ok "submitted")
  let calls : List (Bool × GatewayCall) :=
    [(false, info), (true, info), (false, info), (true, info), (true, submit), (false, submit)]
  obtain ⟨gw₀, polls, hEpoch⟩ : ∃ gw₀, [info, info, info, info].foldlM MockGateway.serve (.init (2 ^ 256 - 1) 0 0) =
      some gw₀ ∧ gw₀.epoch = 0 := ⟨_, rfl, rfl⟩
  have hAccepts (gw : MockGateway) (hEpoch : gw.epoch = 0) : gw.serve submit = some (gw.accept submission) := by
    rw [MockGateway.serve, MockGateway.submitPlainProof_accepts (by omega) (by rw [hEpoch])]
    exact if_pos rfl
  have served : Run MockGateway.serve (.init (2 ^ 256 - 1) 0 0) (calls.map Prod.snd)
      ((gw₀.accept submission).accept submission) :=
    ((run_iff_foldlM.mpr polls).snoc submit (hAccepts gw₀ hEpoch)).snoc submit (hAccepts _ hEpoch)
  have hTwo : ((gw₀.accept submission).accept submission).submissions.length = 2 := by
    rw [serve_submissions served]
    rfl
  have hDigits : (digitsText (2 ^ 256 - 1 : Int).natAbs).length ≤ maxDigits := by decide +kernel
  have hPrints : ∀ entry ∈ calls, entry.2.method.Prints := by
    simp only [calls, List.forall_mem_cons]
    exact ⟨trivial, trivial, trivial, trivial, hDigits, hDigits, by simp⟩
  let ids : Bool → Nat := fun _ => 0
  have hIds : ∀ i, ∀ n ≤ 6, (digitsText (ids i + n)).length ≤ maxDigits := by
    intro i
    change ∀ n ≤ 6, (digitsText (0 + n)).length ≤ maxDigits
    decide +kernel
  have hLimit : 3 ≤ asciiRuntime.limit := by decide
  obtain ⟨events, net, history, run, h, hCalls, hQuiet⟩ := linear_of_served hLimit hDigits served hPrints hIds
  have hPlays (i : Bool) : (net.conns i).Plays t.loop.wire := by
    obtain ⟨⟨owed, pending, hTracks⟩, -⟩ := h.conns i
    have hPart : (part history i).map Prod.snd = t.loop.wire := by
      rw [← exchanges_part, hCalls, hWire]
      cases i <;> rfl
    exact hPart ▸ Conn.plays_of_answered (hQuiet i).idle (hTracks.of_quiet (hQuiet i)).2.2
  obtain ⟨history', gw', hLinearized, hWork⟩ := network_proves_work constantPackages constantPackages_inRange
    (fun _ => ⟨true⟩) (fun _ => ⟨10, 0⟩) (fun _ => 2) (fun _ : Bool => loop) hLimit hDigits run hPlays
  have hRecorded : gw'.submissions.length = 2 := by
    have hServer := congrArg (·.submissions.length) (hLinearized.server.symm.trans h.server)
    simpa [MockServer.ofGateway, hTwo] using hServer
  refine ⟨fun _ => t, events, net, history', gw', fun _ => ⟨its, loop⟩, run, hLinearized, hRecorded,
    fun submission hMem => ?_⟩
  obtain ⟨-, -, _, nonce, keyA, keyB, row, col, -, -, hProof⟩ := hWork submission hMem
  exact ⟨nonce, keyA, keyB, row, col, hProof⟩

end Easiest

end Miner
