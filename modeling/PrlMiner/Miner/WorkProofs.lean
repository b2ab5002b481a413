import PrlMiner.Miner.SelfTest
import PrlMiner.Miner.StaleSafety

/-! What a whole run of the fused backend finds, against the reference: the winners it
reports are the winners among the nonces it counts, and what it submits proves work. -/
namespace Miner

open LittleEndian FixedWidth Cuda Reference Search Runs EarlyExit
open CudaMineBackend hiding init

/-- What one search reports is what the reference finds for its nonces. -/
structure FindsReference (pk : Packages) (r : CudaSearch) : Prop where
  lost : ∀ nonce, r.attempt ≤ nonce → nonce < r.attempt + r.result.detail.attempts →
    (r.result.found = true → nonce < r.attempt + r.result.detail.attempts - 1) →
    ∃ ref, referenceAttempt pk r.job nonce = .ok ref ∧ ref.found = false
  won : r.result.found = true → r.result.detail.attempt = r.attempt + r.result.detail.attempts - 1 ∧
    ∃ ref block row col, referenceAttempt pk r.job r.result.detail.attempt = .ok ref ∧ ref.found = true ∧
      ref.openedBlock = some block ∧ block.A_row_indices.head? = some row ∧
      block.B_column_indices.head? = some col ∧ r.result.detail.tile = some ((row : Int), (col : Int)) ∧
      r.result.plainProof = some (plainProof pk ⟨1, row, col, block.transcript_words⟩)

/-- A transcript of the noised product of a header's matrices, hashed under the key of
a nonce, at most the target of the job. -/
structure ProvesWork (pk : Packages) (job : MiningJob) (proof : List Byte) (nonce : Int) (keyA keyB : Bytes 32)
    (row col : Nat) : Prop where
  keys : nonceKeys pk job.incompleteHeaderBytes nonce = .ok (keyA, keyB)
  rows : 16 ∣ row ∧ row + 16 ≤ M
  cols : 16 ∣ col ∧ col + 16 ≤ N
  proof : let (A, B) := matrices pk job.incompleteHeaderBytes
    let words := transcript (factorA A keyA keyB) (factorB B keyA keyB) 128 16 16 (K / 128) row col
    proof = plainProof pk ⟨1, row, col, (List.range 16).map words⟩ ∧
      (fromBytes (Blake3.keyedHash (packWords 64 words) keyA) : Int) ≤ job.target

variable {pk : Packages} {cfg : LoopConfig} {it : Iteration} {s s' : LoopState} {job : MiningJob}
  {searches : List CudaSearch}

/-- What a search reports of its nonces is what the reference finds for them, since each
nonce on the device is a nonce of the reference. -/
theorem Evaluated.findsReference (hRange : pk.InRange) {r : CudaSearch} (h : Evaluated pk r.job r.attempt r.result) :
    FindsReference pk r where
  lost nonce hFrom hTo hEarlier := by
    obtain ⟨res, hRes, hFound⟩ := h.lost nonce hFrom hTo hEarlier
    obtain ⟨ref, hRef, hReports⟩ := nonceResult_reports hRange hRes
    cases hReports with
    | missed hMissed => exact ⟨ref, hRef, hMissed⟩
    | opened _ _ _ hWins =>
        rw [hFound] at hWins
        cases hWins
  won hFound := by
    obtain ⟨hLast, res, hRes, hWins, hProof, hTile⟩ := h.won hFound
    obtain ⟨ref, hRef, hReports⟩ := nonceResult_reports hRange hRes
    refine ⟨hLast, ref, ?_⟩
    cases hReports with
    | missed _ hMissed =>
        rw [hWins] at hMissed
        cases hMissed
    | opened block hRefFound hBlock _ hRow hCol hWords =>
        obtain ⟨row, hHead, hRow⟩ := Option.map_eq_some_iff.mp hRow
        obtain ⟨col, hHead', hCol⟩ := Option.map_eq_some_iff.mp hCol
        refine ⟨block, row, col, hRef, hRefFound, hBlock, hHead, hHead', ?_, ?_⟩
        · rw [hTile, hRow, hCol]
        · rw [hProof, hRow, hCol, ← hWords, ← hWins]

/-- The nonces counted for a header are those of its searches: every one of them is in the
range of one search. -/
theorem covered_of_order (hOrder : ∀ before r after, searches = before ++ r :: after → Continues pk before r)
    (switches : Nat) {nonce : Int} (hLow : 0 ≤ nonce) (hHigh : nonce < tried (ofJob switches searches)) :
    ∃ r ∈ ofJob switches searches, r.attempt ≤ nonce ∧ nonce < r.attempt + r.result.detail.attempts := by
  -- the last search takes the nonces behind those of the others
  induction searches using List.reverseRecOn with
  | nil =>
      have hNone : tried (ofJob switches []) = 0 := rfl
      omega
  | append_singleton before r ih =>
      have hBefore := ih fun before' r' after' h => hOrder before' r' (after' ++ [r]) (by rw [h]; simp)
      by_cases hSwitches : r.switches = switches
      · have hOf : ofJob switches (before ++ [r]) = ofJob switches before ++ [r] := by
          simp [ofJob, hSwitches]
        have hOne : tried [r] = r.result.detail.attempts := by simp [tried]
        rw [hOf, tried_append, hOne] at hHigh
        rw [hOf]
        by_cases hEarlier : nonce < tried (ofJob switches before)
        · obtain ⟨r', hMem, hIn⟩ := hBefore hEarlier
          exact ⟨r', List.mem_append_left _ hMem, hIn⟩
        · have hNext := (hOrder before r [] rfl).contiguous
          rw [hSwitches] at hNext
          exact ⟨r, by simp, by omega, by omega⟩
      · have hOf : ofJob switches (before ++ [r]) = ofJob switches before := by
          simp [ofJob, hSwitches]
        rw [hOf] at hHigh ⊢
        exact hBefore hHigh

/-- Every search that a run has recorded has evaluated its nonces. -/
theorem CudaInv.evaluated {t : CudaLoop} (hInv : CudaInv pk t) {r : CudaSearch} (hMem : r ∈ t.searches) :
    Evaluated pk r.job r.attempt r.result := by
  obtain ⟨before, after, hSearches⟩ := List.append_of_mem hMem
  exact (hInv.nonces.order before r after hSearches).evaluated

/-- In every run, each report agrees with the reference, and of the nonces counted
for a header exactly the reported ones win in the reference. -/
theorem fused_run_finds_reference_winners (pk : Packages) (hRange : pk.InRange) (cfg : LoopConfig)
    (safety : SafetyMonitor) (prlCudaBatch : Int) {events : List (Iteration × SearchEnv)} {t : CudaLoop}
    (run : Run (cudaStep pk cfg) (CudaLoop.init safety prlCudaBatch) events t) :
    (∀ r ∈ t.searches, FindsReference pk r) ∧
      ∀ switches nonce, 0 ≤ nonce → nonce < tried (ofJob switches t.searches) →
        ∃ r ∈ ofJob switches t.searches, ∃ ref, referenceAttempt pk r.job nonce = .ok ref ∧
          (ref.found = true ↔ r.result.found = true ∧ r.result.detail.attempt = nonce) := by
  have hInv := cudaInv_of_run run
  have hFinds (r : CudaSearch) (hMem : r ∈ t.searches) : FindsReference pk r :=
    (hInv.evaluated hMem).findsReference hRange
  refine ⟨hFinds, fun switches nonce hLow hHigh => ?_⟩
  obtain ⟨r, hMem, hFrom, hTo⟩ := covered_of_order hInv.nonces.order switches hLow hHigh
  refine ⟨r, hMem, ?_⟩
  have hFinds := hFinds r (List.mem_filter.mp hMem).1
  by_cases hLast : r.result.found = true ∧ nonce = r.attempt + r.result.detail.attempts - 1
  · obtain ⟨hFound, hNonce⟩ := hLast
    obtain ⟨hAttempt, ref, block, row, col, hRef, hRefFound, -⟩ := hFinds.won hFound
    rw [← hAttempt] at hNonce
    rw [hNonce]
    exact ⟨ref, hRef, iff_of_true hRefFound ⟨hFound, rfl⟩⟩
  · obtain ⟨ref, hRef, hMissed⟩ := hFinds.lost nonce hFrom hTo fun hFound => by
      have hNe : nonce ≠ r.attempt + r.result.detail.attempts - 1 := fun h => hLast ⟨hFound, h⟩
      omega
    refine ⟨ref, hRef, iff_of_false (by rw [hMissed]; decide) fun h => hLast ⟨h.1, ?_⟩⟩
    rw [← h.2]
    exact (hFinds.won h.1).1

section Submissions

/-- What a loop has submitted so far. -/
def LoopState.submitted (s : LoopState) : List PlainProofSubmission := submissions s.wire

theorem submitted_raised (s : LoopState) (e : Option Raised) :
    LoopState.submitted { s with raised := e } = s.submitted := rfl

theorem submitted_call_info (s : LoopState) (answer : Except InfoError MiningJob) :
    (s.call (.getMiningInfo answer)).submitted = s.submitted := by
  rw [LoopState.submitted, LoopState.call, submissions_append]
  exact List.append_nil _

theorem submitted_polled (s : LoopState) (answer : Except InfoError MiningJob) (job : MiningJob) :
    (s.polled answer job).submitted = s.submitted := submitted_call_info s answer

/-- A submit adds its own exchange to the wire, however it ends. -/
theorem submit_wire (submission : PlainProofSubmission) (s : LoopState) :
    (endState (submit it submission s)).wire = s.wire ++ [.submitPlainProof submission it.ack] := by
  have hRaised (s : LoopState) (e : Option Raised) : LoopState.wire { s with raised := e } = s.wire := rfl
  rw [submit, trySubmit]
  cases hAck : it.ack with
  | error e =>
      cases e with
      | interrupt => rfl
      | exception text => exact endState_notify hRaised _
  | ok ack =>
      dsimp only [notify]
      cases hEvent : it.onEvent (.submit ack) with
      | none => split_ifs <;> rfl
      | some e =>
          cases e with
          | interrupt => split_ifs <;> rfl
          | exception text =>
              refine (endState_notify hRaised _).trans ?_
              split_ifs <;> rfl

theorem submit_submitted (submission : PlainProofSubmission) (s : LoopState) :
    (endState (submit it submission s)).submitted = s.submitted ++ [submission] := by
  rw [LoopState.submitted, submit_wire, submissions_append]
  rfl

/-- A pass submits nothing, or the winner of its own search. -/
theorem pass_submitted (hPass : Pass cfg it s s') :
    s'.submitted = s.submitted ∨ ∃ job result proof, it.Searches s job ∧ it.search = .ok result ∧
      result.winner = some proof ∧ s'.submitted = s.submitted ++ [⟨proof, job⟩] := by
  cases hPass with
  | unpolled ended hPoll => exact .inl (submitted_call_info s _)
  | unannounced job e hPoll hChanged hEvent => exact .inl (submitted_polled s _ job)
  | unsearched job ended hPoll hNone => exact .inl (submitted_polled s _ job)
  | missed job result hPoll hNew hThermal hSearch hWinner =>
      exact .inl ((finish_eq submitted_raised _).trans (submitted_polled s _ job))
  | unconfirmed job result proof e hPoll hNew hThermal hSearch hWinner hStale hRecheck =>
      exact .inl ((submitted_call_info _ _).trans (submitted_polled s _ job))
  | drops job result proof hPoll hNew hThermal hSearch hWinner hStale hRecheck =>
      refine .inl ?_
      rw [finish_eq submitted_raised, endState_dropStale submitted_raised]
      exact (submitted_call_info _ _).trans (submitted_polled s _ job)
  | submits job result proof s₁ hPoll hNew hThermal hSearch hWinner hCurrent =>
      refine .inr ⟨job, result, proof, ⟨hPoll, hNew, hThermal⟩, hSearch, hWinner, ?_⟩
      rw [finish_eq submitted_raised, submit_submitted]
      have hBefore : s₁.submitted = s.submitted := by
        rcases hCurrent with ⟨-, rfl⟩ | ⟨-, rfl, -⟩
        · exact submitted_polled s _ job
        · exact (submitted_call_info _ _).trans (submitted_polled s _ job)
      rw [hBefore]

/-- Every submission carries the winner of a recorded search. -/
def SubmitsWinners (t : CudaLoop) : Prop :=
  ∀ submission ∈ t.loop.submitted, ∃ r ∈ t.searches, r.job = submission.job ∧ r.result.found = true ∧
    r.result.plainProof = some submission.plainProof

/-- What is submitted is a winner of a recorded search: the search of an iteration is
recorded before its winner is submitted. -/
theorem cudaStep_submitsWinners {t t' : CudaLoop} {e : Iteration × SearchEnv} (hWinners : SubmitsWinners t)
    (hStep : cudaStep pk cfg t e = some t') : SubmitsWinners t' := by
  obtain ⟨it, env⟩ := e
  rw [cudaStep] at hStep
  cases hCall : searchCall it t.loop with
  | none =>
      rw [hCall] at hStep
      obtain ⟨s', hLoop, rfl⟩ := Option.map_eq_some_iff.mp hStep
      rcases pass_submitted (pass_of_step hLoop).2 with hSame | ⟨job, result, proof, hSearches, -⟩
      · intro submission hMem
        rw [hSame] at hMem
        exact hWinners submission hMem
      · rw [searchCall_of_searches hSearches] at hCall
        cases hCall
  | some call =>
      obtain ⟨job, s₁⟩ := call
      obtain ⟨hSearches, rfl⟩ := searches_of_searchCall hCall
      rw [hCall] at hStep
      dsimp only at hStep
      by_cases hDefined : (t.backend.batch job - 1) * 8 ≥ 2 ^ 31
      · rw [if_pos hDefined] at hStep
        cases hStep
      rw [if_neg hDefined] at hStep
      obtain ⟨s', hLoop, hEnd⟩ := Option.map_eq_some_iff.mp hStep
      have hPass := pass_submitted (pass_of_step hLoop).2
      cases hOutcome : CudaMineBackend.search pk env job (t.loop.polled it.poll job).attempt t.backend with
      | error e =>
          rw [hOutcome] at hEnd hPass
          subst hEnd
          rcases hPass with hSame | ⟨_, _, _, _, hSearch, _⟩
          · intro submission hMem
            rw [hSame] at hMem
            exact hWinners submission hMem
          · cases hSearch
      | ok found =>
          obtain ⟨result, backend⟩ := found
          rw [hOutcome] at hEnd hPass
          subst hEnd
          have hEarlier (submission : PlainProofSubmission) (hMem : submission ∈ t.loop.submitted) :=
            hWinners submission hMem
          rcases hPass with hSame | ⟨job', result', proof, hSearches', hSearch, hWinner, hMore⟩
          · intro submission hMem
            rw [hSame] at hMem
            obtain ⟨r, hRecorded, h⟩ := hEarlier submission hMem
            exact ⟨r, List.mem_append_left _ hRecorded, h⟩
          · intro submission hMem
            rw [hMore] at hMem
            rcases List.mem_append.mp hMem with hMem | hMem
            · obtain ⟨r, hRecorded, h⟩ := hEarlier submission hMem
              exact ⟨r, List.mem_append_left _ hRecorded, h⟩
            · obtain rfl := List.mem_singleton.mp hMem
              obtain rfl := Except.ok.inj (hSearches.1.symm.trans hSearches'.1)
              cases hSearch
              obtain ⟨hFound, hProof⟩ := Option.ite_none_right_eq_some.mp hWinner
              exact ⟨_, List.mem_append_right _ (List.mem_singleton_self _), rfl, hFound, hProof⟩

end Submissions

section Work

/-- A tile that the scan takes meets the target: the digest of its transcript, as a
number, is at most the target. -/
theorem winner_meets {m k n r th tw x : Nat} {A B : Mat I8} {key : Bytes 32} {target : Nat}
    (hTarget : target < 2 ^ 256)
    (h : winner (transcriptsOf A B k n r th tw) (wordAt key) (wordAt (toBytes 32 target)) m n r th tw = some x)
    (shape : TileShape m n r th tw) :
    let tile := powScanIndexToTile x (n / r) (r / th) (r / tw)
    tile.1 < m / th ∧ tile.2 < n / tw ∧
      (fromBytes (Blake3.keyedHash (packWords 64 (transcript A B r th tw (k / r) (tile.1 * th) (tile.2 * tw)))
        key) : Int) ≤ target := by
  intro tile
  have hx : x < totalTiles m n r th tw := by
    simpa using List.mem_of_find?_eq_some h
  obtain ⟨hRow, hCol⟩ := powScanIndexToTile_lt shape hx
  refine ⟨hRow, hCol, ?_⟩
  have hWins := List.find?_some h
  have hWords (s : Nat) (hs : s < 16) :
      tileWords (transcriptsOf A B k n r th tw) n tw tile.1 tile.2 s =
        transcript A B r th tw (k / r) (tile.1 * th) (tile.2 * tw) s :=
    holdsTranscripts_transcriptsOf A B m k n r th tw _ hRow _ hCol s hs
  rw [tileWins, digestLeTarget_eq_checkPowTarget _ key hTarget, checkPowTarget_congr hWords] at hWins
  exact of_decide_eq_true hWins

/-- A tile of sixteen rows lies within the output. -/
theorem sixteen_tile {tile extent : Nat} (h : tile < extent / 16) : 16 ∣ tile * 16 ∧ tile * 16 + 16 ≤ extent :=
  ⟨Nat.dvd_mul_left 16 tile, by omega⟩

/-- The block that the reference opens for a nonce proves its work: it names a tile of the
output, and carries its transcript. -/
theorem referenceAttempt_proves (hRange : pk.InRange) {nonce : Int} {ref : RunResult} {block : OpenedBlock}
    {row col : Nat} (hRef : referenceAttempt pk job nonce = .ok ref) (hBlock : ref.openedBlock = some block)
    (hRow : block.A_row_indices.head? = some row) (hCol : block.B_column_indices.head? = some col) :
    ∃ keyA keyB, ProvesWork pk job (plainProof pk ⟨1, row, col, block.transcript_words⟩) nonce keyA keyB row col := by
  obtain ⟨⟨keyA, keyB⟩, hKeys, hEvaluate⟩ := bind_eq_ok.mp hRef
  have hDrawn := hRange (ofDigits 8 (byteAt (pk.blake3 (job.incompleteHeaderBytes ++ [0x41, 0x42]))))
  have hRun : CpuBackend.evaluate (matrices pk job.incompleteHeaderBytes).1
      (matrices pk job.incompleteHeaderBytes).2 keyA keyB job.target = .ok ref := ofReference_eq_ok.mp hEvaluate
  obtain ⟨hLow, hHigh⟩ := (evaluate_isOk_iff hDrawn keyA keyB).mp ⟨ref, hRun⟩
  obtain ⟨target, hNat⟩ := Int.eq_ofNat_of_zero_le hLow
  rw [hNat] at hHigh hRun
  have hTarget : target < 2 ^ 256 := by exact_mod_cast hHigh
  obtain ⟨ref', hRun', -, hOpened⟩ := evaluate_eq hDrawn keyA keyB hTarget
  obtain rfl := Except.ok.inj (hRun.symm.trans hRun')
  rw [hBlock] at hOpened
  obtain ⟨x, hTile, rfl⟩ := Option.map_eq_some_iff.mp hOpened.symm
  obtain ⟨hRowIn, hColIn, hMeets⟩ := winner_meets hTarget hTile mineDims.mineShape
  have hHead (start : Nat) : ((List.range 16).map (start + ·)).head? = some start := rfl
  obtain rfl := Option.some.inj ((hHead _).symm.trans hRow)
  obtain rfl := Option.some.inj ((hHead _).symm.trans hCol)
  exact ⟨keyA, keyB, raising_eq_ok.mp hKeys, sixteen_tile hRowIn, sixteen_tile hColIn, rfl, hNat ▸ hMeets⟩

theorem submitsWinners_of_run {safety : SafetyMonitor} {prlCudaBatch : Int} {events : List (Iteration × SearchEnv)}
    {t : CudaLoop} (run : Run (cudaStep pk cfg) (CudaLoop.init safety prlCudaBatch) events t) : SubmitsWinners t := by
  refine run.invariant SubmitsWinners ?_ fun _ _ _ hWinners hStep => cudaStep_submitsWinners hWinners hStep
  exact fun submission hMem => absurd hMem List.not_mem_nil

/-- The winner of a recorded search proves work for a nonce of its job, at which the
reference wins. -/
theorem CudaInv.proves_work {t : CudaLoop} (hInv : CudaInv pk t) (hRange : pk.InRange) {r : CudaSearch}
    {proof : List Byte} (hRecorded : r ∈ t.searches) (hFound : r.result.found = true)
    (hProof : r.result.plainProof = some proof) : ∃ ref nonce keyA keyB row col,
      referenceAttempt pk r.job nonce = .ok ref ∧ ref.found = true ∧
        ProvesWork pk r.job proof nonce keyA keyB row col := by
  obtain ⟨-, ref, block, row, col, hRef, hRefFound, hBlock, hRow, hCol, -, hPlain⟩ :=
    ((hInv.evaluated hRecorded).findsReference hRange).won hFound
  obtain ⟨keyA, keyB, hWork⟩ := referenceAttempt_proves hRange hRef hBlock hRow hCol
  rw [Option.some.inj (hPlain.symm.trans hProof)] at hWork
  exact ⟨ref, _, keyA, keyB, row, col, hRef, hRefFound, hWork⟩

/-- In every run, each submission is a winner of the reference for a nonce of its job,
and the transcript in it meets the target of that job. -/
theorem submissions_prove_work (pk : Packages) (hRange : pk.InRange) (cfg : LoopConfig) (safety : SafetyMonitor)
    (prlCudaBatch : Int) {events : List (Iteration × SearchEnv)} {t : CudaLoop}
    (run : Run (cudaStep pk cfg) (CudaLoop.init safety prlCudaBatch) events t) :
    ∀ submission ∈ submissions t.loop.wire, ∃ ref nonce keyA keyB row col,
      referenceAttempt pk submission.job nonce = .ok ref ∧ ref.found = true ∧
      ProvesWork pk submission.job submission.plainProof nonce keyA keyB row col := by
  intro submission hMem
  obtain ⟨r, hRecorded, hJob, hFound, hProof⟩ := submitsWinners_of_run run submission hMem
  rw [← hJob]
  exact (cudaInv_of_run run).proves_work hRange hRecorded hFound hProof

end Work

section Easiest

/-- A job at the easiest target, where every tile wins. -/
def easiestJob : MiningJob := ⟨[1], 2 ^ 256 - 1⟩

/-- At the easiest target the reference wins with every nonce. -/
theorem referenceAttempt_easiest (hRange : pk.InRange) {header : List Byte} {nonce : Int} {ref : RunResult}
    (hRef : referenceAttempt pk ⟨header, 2 ^ 256 - 1⟩ nonce = .ok ref) : ref.found = true := by
  obtain ⟨⟨keyA, keyB⟩, hKeys, hEvaluate⟩ := bind_eq_ok.mp hRef
  obtain ⟨ref', hRun, hFound, -⟩ := evaluate_eq (hRange _) keyA keyB (show 2 ^ 256 - 1 < 2 ^ 256 by decide)
  obtain rfl := Except.ok.inj ((ofReference_eq_ok.mp hEvaluate).symm.trans hRun)
  rw [hFound, winningTile_easiest]
  rfl

/-- One search at the easiest target, and its submission under the confirmed header. -/
theorem easiest_run (header : List Byte) : ∃ events t proof,
    Run (cudaStep constantPackages ⟨true⟩) (CudaLoop.init ⟨10, 0⟩ 2) events t ∧
      t.loop.wire = [.getMiningInfo (.ok ⟨header, 2 ^ 256 - 1⟩), .getMiningInfo (.ok ⟨header, 2 ^ 256 - 1⟩),
        .submitPlainProof ⟨proof, ⟨header, 2 ^ 256 - 1⟩⟩ (.ok "submitted")] ∧ t.searches.length = 1 := by
  let env : SearchEnv := ⟨default, default, false, 0, 0, ""⟩
  let job : MiningJob := ⟨header, 2 ^ 256 - 1⟩
  let it : Iteration := calmIteration job
  have hSearches : it.Searches (LoopState.init ⟨10, 0⟩) job := ⟨rfl, fun _ => rfl, rfl⟩
  obtain ⟨result, backend, hSearch⟩ : ∃ result backend,
      CudaMineBackend.search constantPackages env job 0 (.init 2) = .ok (result, backend) := ⟨_, _, rfl⟩
  have hInit : CudaInv constantPackages (CudaLoop.init ⟨10, 0⟩ 2) :=
    cudaInv_of_run (.nil : Run (cudaStep constantPackages ⟨true⟩) (CudaLoop.init ⟨10, 0⟩ 2) [] _)
  have hBatch : ((CudaLoop.init ⟨10, 0⟩ 2).backend.batch job - 1) * 8 < 2 ^ 31 := by
    change ((1 : Int) - 1) * 8 < 2 ^ 31
    decide
  obtain ⟨-, -, hEvaluated, -⟩ := search_spec hInit.holds hInit.size hBatch hSearch
  let r : CudaSearch := ⟨1, job, 0, result⟩
  have hFinds : FindsReference constantPackages r := Evaluated.findsReference constantPackages_inRange hEvaluated
  have hFound : result.found = true := by
    by_contra hMissed
    obtain ⟨ref, hRef, hRefMissed⟩ := hFinds.lost 0 le_rfl (by simpa [r] using hEvaluated.pos)
      fun h => absurd h hMissed
    rw [referenceAttempt_easiest constantPackages_inRange hRef] at hRefMissed
    cases hRefMissed
  obtain ⟨-, _, block, row, col, -, -, -, -, -, -, hProof⟩ := hFinds.won hFound
  have hWins : Iteration.Wins { it with search := .ok result.toBackendResult } job result.toBackendResult
      (plainProof constantPackages ⟨1, row, col, block.transcript_words⟩) := by
    refine ⟨rfl, rfl, rfl, ?_, fun _ => rfl, rfl⟩
    rw [BackendResult.winner, CudaResult.toBackendResult, hFound, show result.plainProof = _ from hProof]
    rfl
  let s : LoopState := (((LoopState.init ⟨10, 0⟩).polled it.poll job).searched result.toBackendResult).accepted
    it.recheck ⟨plainProof constantPackages ⟨1, row, col, block.transcript_words⟩, job⟩
  have hStep : cudaStep constantPackages ⟨true⟩ (CudaLoop.init ⟨10, 0⟩ 2) (it, env) = some ⟨s, backend, [r]⟩ :=
    cudaStep_of_search hSearches hBatch hSearch (hWins.submits rfl rfl rfl rfl rfl)
  exact ⟨_, _, _, .snoc .nil _ hStep, rfl, rfl⟩

/-- One search at the easiest target, where the reference opens the first nonce. -/
theorem fused_run_finds_reference_winners_easiest : ∃ events t,
    Run (cudaStep constantPackages ⟨true⟩) (CudaLoop.init ⟨10, 0⟩ 2) events t ∧ t.searches.length = 1 ∧
      ∀ r ∈ t.searches, FindsReference constantPackages r := by
  obtain ⟨events, t, -, run, -, hOne⟩ := easiest_run [1]
  exact ⟨events, t, run, hOne,
    (fused_run_finds_reference_winners constantPackages constantPackages_inRange ⟨true⟩ ⟨10, 0⟩ 2 run).1⟩

/-- The submission of that search proves work for its job. -/
theorem submissions_prove_work_easiest : ∃ events t submission,
    Run (cudaStep constantPackages ⟨true⟩) (CudaLoop.init ⟨10, 0⟩ 2) events t ∧
      submission ∈ submissions t.loop.wire ∧ ∃ nonce keyA keyB row col,
        ProvesWork constantPackages submission.job submission.plainProof nonce keyA keyB row col := by
  obtain ⟨events, t, proof, run, hWire, -⟩ := easiest_run [1]
  have hMem : ⟨proof, easiestJob⟩ ∈ submissions t.loop.wire := by
    rw [hWire]
    exact List.mem_singleton_self _
  obtain ⟨_, nonce, keyA, keyB, row, col, -, -, hWork⟩ :=
    submissions_prove_work constantPackages constantPackages_inRange ⟨true⟩ ⟨10, 0⟩ 2 run _ hMem
  exact ⟨events, t, _, run, hMem, nonce, keyA, keyB, row, col, hWork⟩

end Easiest

end Miner
