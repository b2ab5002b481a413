import Mathlib.Algebra.BigOperators.Group.Finset.Piecewise
import Mathlib.Data.Fintype.Basic
import PrlMiner.Library.Python
import PrlMiner.Miner.StaleSafety

/-! The mock gateway as the peer of mine loops. Its lock makes each request one step.
What is on the wire between `_next_job` and a client (base64, JSON-RPC) is left out;
an error text is the one that the client raises. -/
namespace Miner

open LittleEndian Runs

def maxTarget : Int := 2 ^ 256 - 1

/-- `from_dict`, once the fields are read. -/
def MiningJob.fromDict (incompleteHeaderBytes : List Byte) (target : Int) : Except String MiningJob :=
  if ¬(0 ≤ target ∧ target ≤ maxTarget) then .error s!"target out of range: {target}"
  else if incompleteHeaderBytes = [] then .error "incomplete_header_bytes is empty"
  else .ok ⟨incompleteHeaderBytes, target⟩

structure MockGateway where
  target : Int
  rotateAfter : Int
  pausedFirst : Int
  calls : Nat
  epoch : Nat
  submissions : List PlainProofSubmission
  acceptedByHeader : List (List Byte × Nat)
  droppedStale : Nat

namespace MockGateway

def init (target rotateAfter pausedFirst : Int) : MockGateway :=
  ⟨target, rotateAfter, pausedFirst, 0, 0, [], [], 0⟩

/-- `b"PEARLHDR"`. -/
def magic : List Byte := [0x50, 0x45, 0x41, 0x52, 0x4c, 0x48, 0x44, 0x52]

def currentHeader (gw : MockGateway) : Except String (List Byte) := do
  let epoch ← Python.toBytesLittle 8 gw.epoch
  .ok ((magic ++ epoch).rightpad 80 0)

/-- The header to work on, none while paused. -/
def nextJob (gw : MockGateway) : Except String (Option (List Byte)) × MockGateway :=
  let gw := { gw with calls := gw.calls + 1 }
  if (gw.calls : Int) ≤ gw.pausedFirst then (.ok none, gw)
  else
    let gw := if gw.rotateAfter ≠ 0 ∧ ((gw.calls : Int) - gw.pausedFirst).fmod gw.rotateAfter = 0 then
      { gw with epoch := gw.epoch + 1 } else gw
    (gw.currentHeader.map some, gw)

/-- `d[header] = d.get(header, 0) + 1`. -/
def bump (header : List Byte) : List (List Byte × Nat) → List (List Byte × Nat)
  | [] => [(header, 1)]
  | (key, count) :: rest =>
      if key = header then (key, count + 1) :: rest else (key, count) :: bump header rest

/-- Submissions for a header that is no longer current are dropped. -/
def recordSubmit (gw : MockGateway) (params : PlainProofSubmission) : Except String Unit × MockGateway :=
  let gw := { gw with submissions := gw.submissions ++ [params] }
  match gw.currentHeader with
  | .error e => (.error e, gw)
  | .ok header =>
      if params.job.incompleteHeaderBytes = header then
        (.ok (), { gw with acceptedByHeader := bump params.job.incompleteHeaderBytes gw.acceptedByHeader })
      else (.ok (), { gw with droppedStale := gw.droppedStale + 1 })

/-- `getMiningInfo`, with the answer as `get_mining_info` has it. -/
def getMiningInfo (gw : MockGateway) : Except InfoError MiningJob × MockGateway :=
  match gw.nextJob with
  | (.error e, gw) => (.error (.raised (.exception s!"-32000: {e}")), gw)
  | (.ok none, gw) => (.error .miningPaused, gw)
  | (.ok (some header), gw) =>
      match MiningJob.fromDict header gw.target with
      | .error e => (.error (.raised (.exception e)), gw)
      | .ok job => (.ok job, gw)

/-- `submitPlainProof`, with the ack as `submit_plain_proof` has it. -/
def submitPlainProof (gw : MockGateway) (submission : PlainProofSubmission) :
    Except Raised String × MockGateway :=
  match gw.recordSubmit submission with
  | (.error e, gw) => (.error (.exception s!"-32000: {e}"), gw)
  | (.ok (), gw) => (.ok "submitted", gw)

/-- An exchange that is answered as the gateway answers. -/
def serve (gw : MockGateway) : GatewayCall → Option MockGateway
  | .getMiningInfo answer => if gw.getMiningInfo.1 = answer then some gw.getMiningInfo.2 else none
  | .submitPlainProof submission answer =>
      if (gw.submitPlainProof submission).1 = answer then some (gw.submitPlainProof submission).2 else none

/-- Sum of `accepted_by_header`. -/
def accepted (gw : MockGateway) : Nat := (gw.acceptedByHeader.map Prod.snd).sum

variable {gw gw' : MockGateway} {target rotateAfter pausedFirst : Int} {wire : List GatewayCall}

/-- A header more in the tally by header is an accepted submission more. -/
theorem sum_bump (header : List Byte) (counts : List (List Byte × Nat)) :
    ((bump header counts).map Prod.snd).sum = (counts.map Prod.snd).sum + 1 := by
  induction counts with
  | nil => rfl
  | cons entry rest ih =>
      obtain ⟨key, count⟩ := entry
      rw [bump]
      split_ifs
      · simp only [List.map_cons, List.sum_cons]
        omega
      · simp only [List.map_cons, List.sum_cons, ih]
        omega

/-- A poll changes no tally, also where it turns the header. -/
theorem nextJob_tallies (gw : MockGateway) :
    gw.nextJob.2.acceptedByHeader = gw.acceptedByHeader ∧ gw.nextJob.2.droppedStale = gw.droppedStale := by
  rw [nextJob]
  split_ifs <;> exact ⟨rfl, rfl⟩

/-- The header that a poll gives out is the current one afterwards. -/
theorem nextJob_header {header : List Byte} (h : gw.nextJob.1 = .ok (some header)) :
    gw.nextJob.2.currentHeader = .ok header := by
  rw [nextJob] at h ⊢
  dsimp only at h ⊢
  split_ifs at h ⊢
  · cases h
  all_goals
    cases hHeader : currentHeader _ with
    | error e =>
        rw [hHeader] at h
        cases h
    | ok current =>
        rw [hHeader] at h
        cases h
        rfl

theorem getMiningInfo_snd (gw : MockGateway) : gw.getMiningInfo.2 = gw.nextJob.2 := by
  rw [getMiningInfo]
  rcases gw.nextJob with ⟨_ | _ | header, gw'⟩
  · rfl
  · rfl
  · dsimp only
    cases MiningJob.fromDict header gw'.target <;> rfl

/-- A job that is read has the header that it was made from. -/
theorem fromDict_header {header : List Byte} {job : MiningJob} (h : MiningJob.fromDict header target = .ok job) :
    job.headerId = header := by
  rw [MiningJob.fromDict] at h
  split_ifs at h
  cases h
  rfl

/-- A job is answered under the header that is current from then on. -/
theorem getMiningInfo_header {job : MiningJob} (h : gw.getMiningInfo.1 = .ok job) :
    gw.getMiningInfo.2.currentHeader = .ok job.headerId := by
  rw [getMiningInfo_snd]
  rw [getMiningInfo] at h
  have hHeader (header : List Byte) : gw.nextJob.1 = .ok (some header) →
      gw.nextJob.2.currentHeader = .ok header := nextJob_header
  generalize gw.nextJob = next at h hHeader
  rcases next with ⟨_ | _ | header, gw'⟩
  · cases h
  · cases h
  · dsimp only at h hHeader ⊢
    cases hJob : MiningJob.fromDict header gw'.target with
    | error e =>
        rw [hJob] at h
        cases h
    | ok job' =>
        rw [hJob] at h
        cases h
        rw [hHeader header rfl, fromDict_header hJob]

/-- An acknowledged submit is in one tally, as accepted or as dropped, and never in
both. -/
theorem submitPlainProof_tallies {submission : PlainProofSubmission} {ack : String}
    (h : (gw.submitPlainProof submission).1 = .ok ack) :
    (gw.submitPlainProof submission).2.accepted + (gw.submitPlainProof submission).2.droppedStale =
      gw.accepted + gw.droppedStale + 1 := by
  rw [submitPlainProof, recordSubmit] at h ⊢
  dsimp only at h ⊢
  cases hHeader : currentHeader _ with
  | error e =>
      rw [hHeader] at h
      cases h
  | ok header =>
      dsimp only
      split_ifs
      · dsimp only [accepted]
        rw [sum_bump]
        omega
      · rfl

/-- A submit under the current header is not dropped, whatever was polled before it. -/
theorem submitPlainProof_current {submission : PlainProofSubmission}
    (h : gw.currentHeader = .ok submission.job.headerId) :
    (gw.submitPlainProof submission).2.droppedStale = gw.droppedStale := by
  have hHeader : currentHeader { gw with submissions := gw.submissions ++ [submission] } =
      .ok submission.job.headerId := h
  rw [submitPlainProof, recordSubmit]
  dsimp only
  rw [hHeader]
  dsimp only
  rw [if_pos (by rfl)]

theorem serve_getMiningInfo {answer : Except InfoError MiningJob}
    (h : serve gw (.getMiningInfo answer) = some gw') :
    gw.getMiningInfo.1 = answer ∧ gw' = gw.getMiningInfo.2 := by
  rw [serve] at h
  split_ifs at h with hAnswer
  exact ⟨hAnswer, (Option.some.inj h).symm⟩

theorem serve_submitPlainProof {submission : PlainProofSubmission} {answer : Except Raised String}
    (h : serve gw (.submitPlainProof submission answer) = some gw') :
    (gw.submitPlainProof submission).1 = answer ∧ gw' = (gw.submitPlainProof submission).2 := by
  rw [serve] at h
  split_ifs at h with hAnswer
  exact ⟨hAnswer, (Option.some.inj h).symm⟩

/-- A poll drops no submission, so that none is dropped up to it if none was before it. -/
theorem droppedStale_of_polled {answer : Except InfoError MiningJob}
    (h : EveryState serve (init target rotateAfter pausedFirst) (fun gw => gw.droppedStale = 0) wire) :
    EveryState serve (init target rotateAfter pausedFirst) (fun gw => gw.droppedStale = 0)
      (wire ++ [.getMiningInfo answer]) := by
  refine everyState_snoc.mpr ⟨h, fun gw' run => ?_⟩
  obtain ⟨gw, prior, hLast⟩ := run.of_snoc
  obtain ⟨-, rfl⟩ := serve_getMiningInfo hLast
  rw [getMiningInfo_snd, (nextJob_tallies gw).2]
  exact h wire [] gw (List.append_nil _).symm prior

/-- The only client, with each submit confirmed: no submission is dropped, since nobody
else turns the header in between. -/
theorem droppedStale_of_confirmed (hConfirmed : Confirmed wire) :
    EveryState serve (init target rotateAfter pausedFirst) (fun gw => gw.droppedStale = 0) wire := by
  induction hConfirmed with
  | nil => exact everyState_nil.mpr rfl
  | info h answer ih => exact droppedStale_of_polled ih
  | @submit wire h latest submission ack hHeader ih =>
      have hPolled : EveryState serve (init target rotateAfter pausedFirst) (fun gw => gw.droppedStale = 0)
          (wire ++ [.getMiningInfo (.ok latest)]) := droppedStale_of_polled ih
      refine everyState_snoc.mpr ⟨hPolled, fun gw'' run => ?_⟩
      obtain ⟨gw', prior, hLast⟩ := run.of_snoc
      obtain ⟨-, rfl⟩ := serve_submitPlainProof hLast
      have hZero := hPolled _ [] gw' (List.append_nil _).symm prior
      obtain ⟨gw, -, hInfo⟩ := prior.of_snoc
      obtain ⟨hAnswer, rfl⟩ := serve_getMiningInfo hInfo
      rw [submitPlainProof_current]
      · exact hZero
      · rw [getMiningInfo_header hAnswer, hHeader]

/-- With every submit acknowledged the two tallies add up to the submissions. -/
theorem tallies_eq_submissions (run : Run serve (init target rotateAfter pausedFirst) wire gw)
    (hAcked : ∀ submission answer, .submitPlainProof submission answer ∈ wire → ∃ ack, answer = .ok ack) :
    gw.accepted + gw.droppedStale = (Miner.submissions wire).length := by
  induction run with
  | nil => rfl
  | snoc prior c hLast ih =>
      have hTallies := ih fun submission answer hMem => hAcked submission answer (List.mem_append_left _ hMem)
      rw [submissions_append, List.length_append, ← hTallies]
      cases c with
      | getMiningInfo answer =>
          obtain ⟨-, rfl⟩ := serve_getMiningInfo hLast
          rw [getMiningInfo_snd, accepted, (nextJob_tallies _).1, (nextJob_tallies _).2]
          rfl
      | submitPlainProof submission answer =>
          obtain ⟨ack, rfl⟩ := hAcked submission answer (by simp)
          obtain ⟨hAnswer, rfl⟩ := serve_submitPlainProof hLast
          exact submitPlainProof_tallies hAnswer

end MockGateway

section Clients

variable {ι : Type} [DecidableEq ι]

/-- The exchanges of one client in the history of the gateway. -/
def exchanges (history : List (ι × GatewayCall)) (i : ι) : List GatewayCall :=
  (history.filter (·.1 = i)).map Prod.snd

theorem mem_exchanges {history : List (ι × GatewayCall)} {i : ι} {c : GatewayCall}
    (h : (i, c) ∈ history) : c ∈ exchanges history i :=
  List.mem_map.mpr ⟨(i, c), List.mem_filter.mpr ⟨h, by simp⟩, rfl⟩

/-- Each submit is one of a single client, so that those of all clients add up to all. -/
theorem sum_submissions [Fintype ι] (history : List (ι × GatewayCall)) :
    ∑ i, (submissions (exchanges history i)).length = (submissions (history.map Prod.snd)).length := by
  induction history with
  | nil => simp [exchanges, submissions]
  | cons entry history ih =>
      obtain ⟨j, c⟩ := entry
      have hClient (i : ι) : (submissions (exchanges ((j, c) :: history) i)).length =
          (if j = i then (submissions [c]).length else 0) + (submissions (exchanges history i)).length := by
        rw [exchanges, List.filter_cons]
        by_cases hSame : j = i
        · rw [if_pos (by simpa using hSame), if_pos hSame, List.map_cons, ← List.singleton_append,
            submissions_append, List.length_append]
          rfl
        · rw [if_neg (by simpa using hSame), if_neg hSame, Nat.zero_add]
          rfl
      rw [Finset.sum_congr rfl fun i _ => hClient i, Finset.sum_add_distrib, ih, Finset.sum_ite_eq,
        if_pos (Finset.mem_univ j), List.map_cons]
      rw [← List.length_append, ← submissions_append, List.singleton_append]

/-- Stale safety and single accounting, for mine loops that share a gateway, in every
interleaving of their requests. -/
theorem stale_safety [Fintype ι] (cfg : ι → LoopConfig) (safety : ι → SafetyMonitor)
    (its : ι → List Iteration) (t : ι → Traced) (hCancel : ∀ i, (cfg i).staleCancel = true)
    (run : ∀ i, TracedLoop (cfg i) (safety i) (its i) (t i)) (hSmooth : ∀ i, ∀ it ∈ its i, it.Smooth) :
    (∀ i,
      EveryStep (tracedStep (cfg i)) (Traced.init (safety i))
        (fun s it => ∀ s', tracedStep (cfg i) s it = some s' → Settles s s') (its i) ∧
      (∀ before submission answer after,
        (t i).loop.wire = before ++ .submitPlainProof submission answer :: after →
          submission ∈ winners (t i).searches ∧
          ∃ earlier latest, before = earlier ++ [.getMiningInfo (.ok latest)] ∧
            latest.headerId = submission.job.headerId) ∧
      (submissions (t i).loop.wire).Sublist (winners (t i).searches) ∧
      (submissions (t i).loop.wire).length = (t i).loop.metrics.submitted ∧
      (winners (t i).searches).length = (t i).loop.metrics.stale + (t i).loop.metrics.submitted) ∧
    ∀ target rotateAfter pausedFirst,
      (∀ i, EveryState MockGateway.serve (MockGateway.init target rotateAfter pausedFirst)
        (fun gw => gw.droppedStale = 0) (t i).loop.wire) ∧
      ∀ history gw, (∀ i, exchanges history i = (t i).loop.wire) →
        Run MockGateway.serve (MockGateway.init target rotateAfter pausedFirst) (history.map Prod.snd) gw →
        ∑ i, (t i).loop.metrics.submitted = gw.accepted + gw.droppedStale := by
  have hSafe (i : ι) : StaleSafe (t i) := (run i).staleSafe (hCancel i) (hSmooth i)
  refine ⟨fun i => ⟨?_, ?_, (hSafe i).carried, (hSafe i).once, (hSafe i).counted⟩, ?_⟩
  · intro before it after s hIts _ s' hStep
    have hMem : it ∈ its i := by
      rw [hIts]
      simp
    exact settles_of_step (hCancel i) (hSmooth i it hMem) hStep
  · intro before submission answer after hWire
    refine ⟨(hSafe i).carried.subset ?_, (hSafe i).confirmed.latest hWire⟩
    rw [hWire, submissions_append]
    exact List.mem_append_right _ List.mem_cons_self
  · intro target rotateAfter pausedFirst
    refine ⟨fun i => MockGateway.droppedStale_of_confirmed (hSafe i).confirmed, ?_⟩
    intro history gw hWires hServed
    have hAcked (submission : PlainProofSubmission) (answer : Except Raised String)
        (hMem : .submitPlainProof submission answer ∈ history.map Prod.snd) : ∃ ack, answer = .ok ack := by
      obtain ⟨⟨i, c⟩, hEntry, rfl⟩ := List.mem_map.mp hMem
      have hWire := mem_exchanges hEntry
      rw [hWires i] at hWire
      exact (hSafe i).confirmed.acked hWire
    calc ∑ i, (t i).loop.metrics.submitted
        = ∑ i, (submissions (exchanges history i)).length := by
          refine Finset.sum_congr rfl fun i _ => ?_
          rw [hWires i, (hSafe i).once]
      _ = (submissions (history.map Prod.snd)).length := sum_submissions history
      _ = gw.accepted + gw.droppedStale := (MockGateway.tallies_eq_submissions hServed hAcked).symm

end Clients

/-- A job of the mock gateway in one of its first epochs. -/
def mockJob (epoch : Nat) : MiningJob :=
  ⟨MockGateway.magic ++ BitVec.ofNat 8 epoch :: List.replicate 71 0, 5⟩

/-- A client that finds a proof for the job of an epoch. -/
def mockIteration (epoch : Nat) : Iteration where
  poll := .ok (mockJob epoch)
  thermal := .ok none
  search := .ok ⟨true, some [], 0, none⟩
  recheck := .ok (mockJob epoch)
  ack := .ok "submitted"
  onEvent _ := none
  onStatus := none

/-- The poll of the second client rotates the header between the check and the submit
of the first. -/
def mockHistory : List (Fin 2 × GatewayCall) :=
  [(0, .getMiningInfo (.ok (mockJob 0))), (0, .getMiningInfo (.ok (mockJob 0))),
    (1, .getMiningInfo (.ok (mockJob 1))), (0, .submitPlainProof ⟨[], mockJob 0⟩ (.ok "submitted")),
    (1, .getMiningInfo (.ok (mockJob 1))), (1, .submitPlainProof ⟨[], mockJob 1⟩ (.ok "submitted"))]

/-- Two loops, each with one winner: the gateway accepts one submission and drops the
other as stale, which makes two for the two that the loops count. -/
theorem stale_safety_two : ∃ t : Fin 2 → Traced, ∃ gw,
    (∀ i : Fin 2, TracedLoop ⟨true⟩ ⟨10, 0⟩ [mockIteration i] (t i)) ∧
    Run MockGateway.serve (MockGateway.init 5 3 0) (mockHistory.map Prod.snd) gw ∧
    gw.accepted = 1 ∧ gw.droppedStale = 1 ∧
    ∑ i, (t i).loop.metrics.submitted = gw.accepted + gw.droppedStale := by
  have hRuns (i : Fin 2) : ∃ t, TracedLoop ⟨true⟩ ⟨10, 0⟩ [mockIteration i] t ∧
      exchanges mockHistory i = t.loop.wire := by
    match i with
    | 0 => exact ⟨_, run_iff_foldlM.mpr rfl, rfl⟩
    | 1 => exact ⟨_, run_iff_foldlM.mpr rfl, rfl⟩
  choose t hRun hWire using hRuns
  have hSmooth (i : Fin 2) : (mockIteration i).Smooth :=
    ⟨nofun, nofun, nofun, nofun, nofun, fun _ => rfl, rfl⟩
  obtain ⟨gw, hServed, hAccepted, hDropped⟩ : ∃ gw,
      Run MockGateway.serve (MockGateway.init 5 3 0) (mockHistory.map Prod.snd) gw ∧
        gw.accepted = 1 ∧ gw.droppedStale = 1 := ⟨_, run_iff_foldlM.mpr rfl, rfl, rfl⟩
  refine ⟨t, gw, hRun, hServed, hAccepted, hDropped, ?_⟩
  have hSafety := stale_safety (fun _ => ⟨true⟩) (fun _ => ⟨10, 0⟩) (fun i : Fin 2 => [mockIteration i]) t
    (fun _ => rfl) hRun (fun i it hIt => by
      cases List.mem_singleton.mp hIt
      exact hSmooth i)
  exact (hSafety.2 5 3 0).2 mockHistory gw hWire hServed

end Miner
