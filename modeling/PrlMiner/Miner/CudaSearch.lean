import PrlMiner.Cuda.KeyBatchRuns
import PrlMiner.Miner.CudaBackend
import PrlMiner.Library.EarlyExit

/-! What a search of the fused backend reports about its nonces. -/
namespace Miner

open LittleEndian FixedWidth Cuda EarlyExit
open CudaMineBackend hiding init

/-- An attempt on the matrices of a header. -/
def keyedResult (pk : Packages) (hdr : List Byte) (keyA keyB : Bytes 32) (target : Buffer Byte) : MineResult :=
  let (A, B) := matrices pk hdr
  let noise := hostNoise keyA keyB M K N
  attemptResult (noisedA K A noise) (noisedB N B noise) (asWords (byteAt keyA)) (asWords target)
    M K N 128 16 16 fun _ => 0

/-- The attempt of one nonce, with its own keys. -/
def nonceResult (pk : Packages) (job : MiningJob) (nonce : Int) : Except String MineResult := do
  let (keyA, keyB) ← nonceKeys pk job.incompleteHeaderBytes nonce
  let target ← targetBytes job.target
  .ok (keyedResult pk job.incompleteHeaderBytes keyA keyB target)

/-- The reported nonces, from the first one on, were all attempted, and none before
the last one won. -/
structure Evaluated (pk : Packages) (job : MiningJob) (attempt : Int) (result : CudaResult) : Prop where
  pos : 0 < result.detail.attempts
  work : result.workUnits = M * K * N * result.detail.attempts
  lost : ∀ nonce, attempt ≤ nonce → nonce < attempt + result.detail.attempts →
    (result.found = true → nonce < attempt + result.detail.attempts - 1) →
    ∃ res, nonceResult pk job nonce = .ok res ∧ res.found = 0
  won : result.found = true → result.detail.attempt = attempt + result.detail.attempts - 1 ∧
    ∃ res, nonceResult pk job result.detail.attempt = .ok res ∧ res.found = 1 ∧
      result.plainProof = some (plainProof pk res) ∧ result.detail.tile = some (res.aRow, res.bCol)

/-- The matrices of the preloaded header are on the context. -/
def CudaMineBackend.Holds (pk : Packages) (b : CudaMineBackend) : Prop :=
  match b.preloadedHeaderId with
  | none => b.ctx = none
  | some hdr => ∃ c, b.ctx = some c ∧ Reached M K N c (some (matrices pk hdr))

variable {pk : Packages} {env : SearchEnv} {job : MiningJob} {attempt : Int} {b b' : CudaMineBackend}
  {result : CudaResult} {c c' : PrlMineCtx}

theorem raising_eq_ok {α : Type} {x : Except String α} {a : α} : raising x = .ok a ↔ x = .ok a := by
  cases x with
  | ok a' =>
      constructor
      all_goals
        intro h
        cases h
        rfl
  | error e =>
      constructor
      all_goals
        intro h
        cases h

/-- Words copied as a key: only those that are copied count. -/
theorem memcpy_congr {α : Type} {dst src src' : Buffer α} {n : Nat} (h : ∀ i < n, src i = src' i) :
    memcpy dst src n = memcpy dst src' n := by
  funext i
  rw [memcpy, memcpy]
  split_ifs with hi
  · exact h i hi
  · rfl

theorem keyBytes_byteAt (key : Bytes 32) : keyBytes (byteAt key) = key := by
  funext i
  exact byteAt_of_lt key i.isLt

/-- A keyed attempt reads its keys as eight words each, and nothing that stands behind
them. -/
theorem keyedPreloaded_congr (calls : CallEnv) {keyA keyA' keyB keyB' target : Buffer Byte}
    (hA : ∀ i < 8, asWords keyA i = asWords keyA' i) (hB : ∀ i < 8, asWords keyB i = asWords keyB' i) :
    prlMineCtxRunKeyedPreloaded calls keyA keyB target c =
      prlMineCtxRunKeyedPreloaded calls keyA' keyB' target c := by
  rw [prlMineCtxRunKeyedPreloaded, prlMineCtxRunKeyedPreloaded, memcpy_congr hA, memcpy_congr hB]

/-- An attempt finds something or nothing. -/
theorem keyedResult_found (pk : Packages) (hdr : List Byte) (keyA keyB : Bytes 32) (target : Buffer Byte) :
    (keyedResult pk hdr keyA keyB target).found = 0 ∨ (keyedResult pk hdr keyA keyB target).found = 1 :=
  attemptResult_found _ _ _ _ M K N 128 16 16 _

/-- A keyed attempt on the preloaded matrices finds what two keys alone decide, whatever
the context was used for before. -/
theorem keyedPreloaded_agrees {hdr : List Byte} (history : Reached M K N c (some (matrices pk hdr)))
    (calls : CallEnv) (keyA keyB : Bytes 32) (target : Buffer Byte) :
    (prlMineCtxRunKeyedPreloaded calls (byteAt keyA) (byteAt keyB) target c).1.Agrees
      (keyedResult pk hdr keyA keyB target) := by
  rw [prlMineCtxRunKeyedPreloaded_eq calls history.holds.1, keyBytes_byteAt, keyBytes_byteAt]
  exact attemptResult_agrees _ _ _ _ M K N 128 16 16 _ _

/-- A batch reports the first of its attempts that finds something, with the result of
this attempt on its own. -/
theorem batch_agrees {hdr : List Byte} (history : Reached M K N c (some (matrices pk hdr)))
    (calls : CallEnv) {keysA keysB : Nat → Bytes 32} {count : Nat} (hCount : count ≤ sentinel + 1)
    {target : Buffer Byte} {foundAttempt : Int} {res : MineResult}
    (hBatch : prlMineCtxRunKeyedPreloadedBatch calls (joinKeys keysA) (joinKeys keysB) count target c =
      (.ok (foundAttempt, res), c')) :
    (∃ i < count, res = keyedResult pk hdr (keysA i) (keysB i) target ∧ res.found = 1 ∧
        (∀ j < i, (keyedResult pk hdr (keysA j) (keysB j) target).found = 0) ∧ foundAttempt = i) ∨
      (∀ i < count, (keyedResult pk hdr (keysA i) (keysB i) target).found = 0) ∧ res.found = 0 := by
  have hSingle (i : Nat) : (prlMineCtxRunKeyedPreloaded calls (offset (joinKeys keysA) (i * 32))
      (offset (joinKeys keysB) (i * 32)) target c).1.Agrees (keyedResult pk hdr (keysA i) (keysB i) target) := by
    have hSame : prlMineCtxRunKeyedPreloaded calls (offset (joinKeys keysA) (i * 32))
        (offset (joinKeys keysB) (i * 32)) target c =
        prlMineCtxRunKeyedPreloaded calls (byteAt (keysA i)) (byteAt (keysB i)) target c :=
      keyedPreloaded_congr calls (fun x hx => asWords_joinKeys keysA i hx)
        (fun x hx => asWords_joinKeys keysB i hx)
    rw [hSame]
    exact keyedPreloaded_agrees history calls (keysA i) (keysB i) target
  rcases batch_latches history calls hCount hBatch (fun _ => c) (fun _ => calls) (fun _ _ => history) with
    ⟨i, hi, hWins, hBefore, rfl, hRes⟩ | ⟨hNone, -, hFound, -⟩
  · left
    refine ⟨i, hi, ?_, hRes ▸ hWins, fun j hj => ?_, rfl⟩
    · rw [hRes]
      exact (hSingle i).eq_of_found hWins
    · exact (hSingle j).found.symm.trans (hBefore j hj)
  · right
    exact ⟨fun i hi => (hSingle i).found.symm.trans (hNone i hi), hFound⟩

/-- The report of a search whose first winner, if any, is the one it got. It counts at
most the nonces of the batch: those up to the winner, or all. -/
theorem evaluated_report {count : Nat} (hCount : 0 < count) {foundAttempt : Int} {res : MineResult}
    {results : Nat → MineResult} (hResults : ∀ i < count, nonceResult pk job (attempt + i) = .ok (results i))
    (hFirst : (∃ i < count, res = results i ∧ res.found = 1 ∧ (∀ j < i, (results j).found = 0) ∧ foundAttempt = i) ∨
      (∀ i < count, (results i).found = 0) ∧ res.found = 0) :
    Evaluated pk job attempt (report pk attempt count foundAttempt res) ∧
      (report pk attempt count foundAttempt res).detail.attempts ≤ count := by
  rw [report]
  rcases hFirst with ⟨i, hi, rfl, hFound, hBefore, rfl⟩ | ⟨hNone, hFound⟩
  · rw [if_neg (by omega)]
    refine ⟨⟨?_, rfl, fun nonce hFrom hTo hEarlier => ?_,
      fun _ => ⟨?_, results i, hResults i hi, hFound, rfl, rfl⟩⟩, ?_⟩
    · dsimp only
      omega
    · have hLt := hEarlier rfl
      dsimp only at hTo hLt
      obtain ⟨j, rfl⟩ : ∃ j : Nat, nonce = attempt + j := ⟨(nonce - attempt).toNat, by omega⟩
      exact ⟨results j, hResults j (by omega), hBefore j (by omega)⟩
    · dsimp only
      omega
    · dsimp only
      omega
  · rw [if_pos hFound]
    refine ⟨⟨?_, rfl, fun nonce hFrom hTo _ => ?_, nofun⟩, le_rfl⟩
    · dsimp only
      omega
    · dsimp only at hTo
      obtain ⟨j, rfl⟩ : ∃ j : Nat, nonce = attempt + j := ⟨(nonce - attempt).toNat, by omega⟩
      exact ⟨results j, hResults j (by omega), hNone j (by omega)⟩

theorem CudaMineBackend.Holds.ctx (hHolds : b.Holds pk) (hCtx : b.ctx = some c) :
    ∃ loaded, Reached M K N c loaded := by
  rw [CudaMineBackend.Holds] at hHolds
  cases hHeader : b.preloadedHeaderId with
  | none =>
      rw [hHeader] at hHolds
      rw [show b.ctx = none from hHolds] at hCtx
      cases hCtx
  | some hdr =>
      rw [hHeader] at hHolds
      obtain ⟨c₁, hSome, history⟩ := hHolds
      rw [hSome] at hCtx
      cases hCtx
      exact ⟨_, history⟩

/-- A context is the one there was, or a new one of the fixed shape. -/
theorem ctxFor_cases {ctx : Option PrlMineCtx} (h : ctxFor env ctx = .ok c) :
    ctx = some c ∨ prlMineCtxCreate env.device M K N = some c := by
  cases ctx with
  | some c₁ =>
      cases h
      exact .inl rfl
  | none =>
      rw [ctxFor] at h
      cases hCreate : (if env.createFails then none else prlMineCtxCreate env.device M K N) with
      | none =>
          rw [hCreate] at h
          cases h
      | some c₁ =>
          rw [hCreate] at h
          cases h
          exact .inr (Option.ite_none_left_eq_some.mp hCreate).2

/-- A context that a search gets has been used in a run of calls, so that what holds of
every such context holds of it. -/
theorem ctxFor_reached (hHolds : b.Holds pk) (h : ctxFor env b.ctx = .ok c) : ∃ loaded, Reached M K N c loaded := by
  rcases ctxFor_cases h with hCtx | hCreate
  · exact hHolds.ctx hCtx
  · exact ⟨none, .create hCreate⟩

/-- After the preload the matrices are those of the job, whether they have just been
copied or were there from an earlier search. -/
theorem preload_spec (hHolds : b.Holds pk) (h : preload pk env job b = .ok b') :
    b'.batchSize = b.batchSize ∧ b'.preloadedHeaderId = some job.headerId ∧
      ∃ c, b'.ctx = some c ∧ Reached M K N c (some (matrices pk job.incompleteHeaderBytes)) := by
  rw [preload] at h
  by_cases hHeader : b.preloadedHeaderId = some job.headerId
  · rw [if_neg (not_not.mpr hHeader)] at h
    cases h
    rw [CudaMineBackend.Holds, hHeader] at hHolds
    exact ⟨rfl, hHeader, hHolds⟩
  · rw [if_pos hHeader] at h
    obtain ⟨c', hInputs, h⟩ := bind_eq_ok.mp h
    cases h
    obtain ⟨c, hCtx, h⟩ := bind_eq_ok.mp hInputs
    obtain ⟨loaded, history⟩ := ctxFor_reached hHolds hCtx
    split_ifs at h
    cases h
    exact ⟨rfl, rfl, _, rfl, .call history env.calls (.setInputs _ _) rfl⟩

/-- The keys of the nonces from `attempt` on, in the order of the nonces. -/
theorem keys_spec {hdr : List Byte} {count : Nat} {keys : List (Bytes 32 × Bytes 32)}
    (h : (List.range count).mapM (fun (i : Nat) => raising (nonceKeys pk hdr (attempt + i))) = .ok keys) :
    keys.length = count ∧ ∀ i < count, nonceKeys pk hdr (attempt + i) = .ok (keys.getD i (0, 0)) := by
  have hForall := forall₂_of_mapM h
  have hLength : keys.length = count := by rw [← hForall.length_eq, List.length_range]
  refine ⟨hLength, fun i hi => ?_⟩
  have hKey := (List.forall₂_iff_get.mp hForall).2 i (by simpa using hi) (by omega)
  rw [List.get_eq_getElem, List.getElem_range] at hKey
  rw [raising_eq_ok.mp hKey, List.getD_eq_getElem keys (0, 0) (by omega)]
  rfl

/-- The result of a nonce is that of its keys and of the target, where neither raises. -/
theorem nonceResult_eq {nonce : Int} {keyA keyB : Bytes 32} {target : Buffer Byte}
    (hKeys : nonceKeys pk job.incompleteHeaderBytes nonce = .ok (keyA, keyB))
    (hTarget : targetBytes job.target = .ok target) :
    nonceResult pk job nonce = .ok (keyedResult pk job.incompleteHeaderBytes keyA keyB target) := by
  rw [nonceResult, hKeys, hTarget]
  rfl

/-- A search of one nonce reports on this nonce. -/
theorem evaluated_single (history : Reached M K N c (some (matrices pk job.incompleteHeaderBytes)))
    (calls : CallEnv) {keyA keyB : Bytes 32} {target : Buffer Byte}
    (hKeys : nonceKeys pk job.incompleteHeaderBytes (attempt + (0 : Nat)) = .ok (keyA, keyB))
    (hTarget : targetBytes job.target = .ok target) :
    Evaluated pk job attempt
        (report pk attempt 1 0 (prlMineCtxRunKeyedPreloaded calls (byteAt keyA) (byteAt keyB) target c).1) ∧
      (report pk attempt 1 0
        (prlMineCtxRunKeyedPreloaded calls (byteAt keyA) (byteAt keyB) target c).1).detail.attempts ≤ 1 := by
  have hAgrees := keyedPreloaded_agrees history calls keyA keyB target
  have hFound := keyedResult_found pk job.incompleteHeaderBytes keyA keyB target
  rw [← hAgrees.found] at hFound
  have hResults (i : Nat) (hi : i < 1) : nonceResult pk job (attempt + i) =
      .ok (keyedResult pk job.incompleteHeaderBytes keyA keyB target) := by
    rw [Nat.lt_one_iff.mp hi]
    exact nonceResult_eq hKeys hTarget
  apply evaluated_report Nat.one_pos hResults
  rcases hFound with hNone | hWins
  · exact .inr ⟨fun _ _ => hAgrees.found.symm.trans hNone, hNone⟩
  · exact .inl ⟨0, Nat.one_pos, hAgrees.eq_of_found hWins, hWins, nofun, rfl⟩

theorem runKeyedPreloaded_spec {keyA keyB : Bytes 32} {powTarget : Int} {res : MineResult}
    (h : runKeyedPreloaded env keyA keyB powTarget (some c) = .ok (res, c')) :
    ∃ target, targetBytes powTarget = .ok target ∧
      prlMineCtxRunKeyedPreloaded env.calls (byteAt keyA) (byteAt keyB) target c = (res, c') := by
  obtain ⟨c₁, hFor, h⟩ := bind_eq_ok.mp h
  cases hFor
  obtain ⟨target, hTarget, h⟩ := bind_eq_ok.mp h
  split_ifs at h
  exact ⟨target, raising_eq_ok.mp hTarget, Except.ok.inj h⟩

theorem runKeyedPreloadedBatch_spec {keysA keysB : List (Bytes 32)} {powTarget : Int} {res : Int × MineResult}
    (h : runKeyedPreloadedBatch env keysA keysB powTarget (some c) = .ok (res, c')) :
    ∃ target, targetBytes powTarget = .ok target ∧
      prlMineCtxRunKeyedPreloadedBatch env.calls (joinKeys fun i => keysA.getD i 0)
        (joinKeys fun i => keysB.getD i 0) keysA.length target c = (.ok res, c') := by
  rw [runKeyedPreloadedBatch] at h
  by_cases hLists : keysA.length ≠ keysB.length ∨ keysA = []
  · rw [if_pos hLists] at h
    cases h
  rw [if_neg hLists] at h
  obtain ⟨c₁, hFor, h⟩ := bind_eq_ok.mp h
  cases hFor
  obtain ⟨target, hTarget, h⟩ := bind_eq_ok.mp h
  refine ⟨target, raising_eq_ok.mp hTarget, ?_⟩
  generalize prlMineCtxRunKeyedPreloadedBatch env.calls (joinKeys fun i => keysA.getD i 0)
    (joinKeys fun i => keysB.getD i 0) keysA.length target c = call at h
  obtain ⟨rc | res', c₂⟩ := call
  · cases h
  · dsimp only at h
    by_cases hRc : env.runRc = 0
    · rw [if_neg (not_not.mpr hRc)] at h
      cases h
      rfl
    · rw [if_pos hRc] at h
      cases h

/-- Every search that returns leaves the matrices of its job, and its report is true and
within the batch. What holds of the backend before holds of it afterwards. -/
theorem search_spec (hHolds : b.Holds pk) (hSize : 0 < b.batchSize) (hDefined : (b.batch job - 1) * 8 < 2 ^ 31)
    (h : CudaMineBackend.search pk env job attempt b = .ok (result, b')) :
    b'.Holds pk ∧ b'.batchSize = b.batchSize ∧ Evaluated pk job attempt result ∧
      result.detail.attempts ≤ b.batch job := by
  rw [CudaMineBackend.search] at h
  obtain ⟨b₁, hPreload, h⟩ := bind_eq_ok.mp h
  obtain ⟨hKeep, hHeader, c, hCtx, history⟩ := preload_spec hHolds hPreload
  have hBatch : b₁.batch job = b.batch job := by rw [CudaMineBackend.batch, CudaMineBackend.batch, hKeep]
  have hPos : 0 < b.batch job := by
    rw [CudaMineBackend.batch]
    split_ifs
    · exact hSize
    · exact Int.one_pos
  rw [hBatch, hCtx] at h
  obtain ⟨keys, hKeys, h⟩ := bind_eq_ok.mp h
  obtain ⟨hLength, hNonces⟩ := keys_spec hKeys
  have hCast : (((b.batch job).toNat : Nat) : Int) = b.batch job := Int.toNat_of_nonneg hPos.le
  by_cases hOne : b.batch job = 1
  · rw [if_pos hOne] at h
    obtain ⟨⟨keyA, keyB⟩, rfl⟩ := List.length_eq_one_iff.mp (hLength.trans (by omega))
    obtain ⟨⟨res, c'⟩, hRun, h⟩ := bind_eq_ok.mp h
    cases h
    obtain ⟨target, hTarget, hCall⟩ := runKeyedPreloaded_spec hRun
    have hOp : (Op.runKeyedPreloaded (byteAt keyA) (byteAt keyB) target).perform env.calls c =
        .ok (.single res, c') := by
      rw [Op.perform, hCall]
    refine ⟨?_, hKeep, ?_⟩
    · rw [CudaMineBackend.Holds, hHeader]
      exact ⟨c', rfl, .call history env.calls _ hOp⟩
    · have hEvaluated := evaluated_single history env.calls (hNonces 0 (by omega)) hTarget
      rwa [hCall, ← hOne] at hEvaluated
  · rw [if_neg hOne] at h
    obtain ⟨⟨⟨foundAttempt, res⟩, c'⟩, hRun, h⟩ := bind_eq_ok.mp h
    cases h
    obtain ⟨target, hTarget, hCall⟩ := runKeyedPreloadedBatch_spec hRun
    rw [List.length_map, hLength] at hCall
    have hOp : (Op.runKeyedPreloadedBatch (joinKeys fun i => (keys.map Prod.fst).getD i 0)
        (joinKeys fun i => (keys.map Prod.snd).getD i 0) (b.batch job).toNat target).perform env.calls c =
        .ok (.batch foundAttempt res, c') := by
      rw [Op.perform, hCall]
    refine ⟨?_, hKeep, ?_⟩
    · rw [CudaMineBackend.Holds, hHeader]
      exact ⟨c', rfl, .call history env.calls _ hOp⟩
    · have hKeyA (i : Nat) : (keys.map Prod.fst).getD i 0 = (keys.getD i (0, 0)).1 :=
        List.getD_map keys (0, 0) Prod.fst
      have hKeyB (i : Nat) : (keys.map Prod.snd).getD i 0 = (keys.getD i (0, 0)).2 :=
        List.getD_map keys (0, 0) Prod.snd
      rw [funext hKeyA, funext hKeyB] at hCall
      rw [← hCast]
      exact evaluated_report (by omega) (fun i hi => nonceResult_eq (hNonces i hi) hTarget)
        (batch_agrees history env.calls (by rw [sentinel]; omega) hCall)

section Returns

/-- None of the calls of a search fails. -/
structure SearchEnv.Succeeds (env : SearchEnv) : Prop where
  create : env.createFails = false
  setInputs : env.setInputsRc = 0
  run : env.runRc = 0
  allocator : env.calls.allocator = default
  graphCalls : env.calls.graphCalls.succeed

/-- The context, if there is one, has the key buffers that it says. -/
def CudaMineBackend.Ready (b : CudaMineBackend) : Prop := ∀ c, b.ctx = some c → c.Sound

/-- An integer that fits has its bytes, without an exception. -/
theorem toBytesLittle_returns (size : Nat) (x : Int) (h : 0 ≤ x ∧ x < 256 ^ size) :
    ∃ bytes, Python.toBytesLittle size x = .ok bytes := by
  obtain ⟨n, rfl⟩ := Int.eq_ofNat_of_zero_le h.1
  have hLt : n < 256 ^ size := by exact_mod_cast h.2
  rw [Python.toBytesLittle, if_neg (by omega), Int.toNat_natCast, if_pos hLt]
  exact ⟨_, rfl⟩

/-- A keyed attempt leaves the key buffers of the batch calls alone, so that the capacity
it finds stays that of the buffers. -/
theorem keyedPreloaded_sound (calls : CallEnv) (keyA keyB target : Buffer Byte) (h : c.Sound) :
    (prlMineCtxRunKeyedPreloaded calls keyA keyB target c).2.Sound :=
  ⟨⟨⟨h.inv.graph.captured, h.inv.graph.apart⟩, h.inv.keysA, h.inv.keysB⟩, h.tidy, h.capacity⟩

/-- The context of a search is a sound one, created or kept, where no call fails. -/
theorem ctxFor_returns (hEnv : env.Succeeds) (hReady : b.Ready) :
    ∃ c, ctxFor env b.ctx = .ok c ∧ c.Sound := by
  cases hCtx : b.ctx with
  | some c => exact ⟨c, rfl, hReady c hCtx⟩
  | none =>
      obtain ⟨c, hCreate⟩ : ∃ c, prlMineCtxCreate env.device M K N = some c := ⟨_, if_neg (by decide)⟩
      rw [ctxFor, hEnv.create, if_neg Bool.false_ne_true, hCreate]
      exact ⟨c, rfl, sound_create hCreate⟩

/-- The preload of a header, where it is due, leaves the key buffers alone and returns
where no call fails. -/
theorem preload_returns (pk : Packages) (job : MiningJob) (hEnv : env.Succeeds) (hReady : b.Ready) :
    ∃ b', preload pk env job b = .ok b' ∧ b'.Ready ∧ b'.batchSize = b.batchSize := by
  rw [preload]
  split_ifs with hHeader
  · obtain ⟨c, hCtx, hSound⟩ := ctxFor_returns hEnv hReady
    have hLoaded (A B : Buffer I8) : (prlMineCtxSetInputs A B c).Sound :=
      ⟨⟨⟨hSound.inv.graph.captured, hSound.inv.graph.apart⟩, hSound.inv.keysA, hSound.inv.keysB⟩,
        hSound.tidy, hSound.capacity⟩
    have hInputs (A B : Buffer I8) : preloadInputs env A B b.ctx = .ok (prlMineCtxSetInputs A B c) := by
      rw [preloadInputs, hCtx]
      exact if_neg (not_not.mpr hEnv.setInputs)
    dsimp only
    rw [hInputs]
    refine ⟨_, rfl, ?_, rfl⟩
    rintro _ ⟨⟩
    exact hLoaded _ _
  · exact ⟨b, rfl, hReady, rfl⟩

/-- Where no call fails, a search of nonces below `2 ^ 64` at a target of 256 bits
returns, and the backend is ready for the next one. -/
theorem search_returns (pk : Packages) (hEnv : env.Succeeds) (hReady : b.Ready) (hSize : 0 < b.batchSize)
    (hTarget : 0 ≤ job.target ∧ job.target < 2 ^ 256) (hLow : 0 ≤ attempt)
    (hHigh : attempt + b.batch job ≤ 2 ^ 64) :
    ∃ result b', CudaMineBackend.search pk env job attempt b = .ok (result, b') ∧ b'.Ready := by
  obtain ⟨b₁, hPreload, hReady₁, hSame⟩ := preload_returns pk job hEnv hReady
  have hBatch : b₁.batch job = b.batch job := by rw [CudaMineBackend.batch, CudaMineBackend.batch, hSame]
  have hPos : 0 < b.batch job := by
    rw [CudaMineBackend.batch]
    split_ifs
    · exact hSize
    · exact Int.one_pos
  obtain ⟨keys, hKeys⟩ : ∃ keys, (List.range (b₁.batch job).toNat).mapM (fun (i : Nat) =>
      raising (nonceKeys pk job.incompleteHeaderBytes (attempt + i))) = .ok keys := by
    refine mapM_returns fun i hi => ?_
    rw [List.mem_range, hBatch] at hi
    obtain ⟨bytes, hNonce⟩ := toBytesLittle_returns 8 (attempt + i) (by omega)
    rw [nonceKeys, hNonce]
    exact ⟨_, rfl⟩
  have hLength := (keys_spec hKeys).1
  obtain ⟨c, hCtx, hSound⟩ := ctxFor_returns hEnv hReady₁
  obtain ⟨bytes, hBytes⟩ := toBytesLittle_returns 32 job.target (by norm_num; omega)
  have hTargetBytes : targetBytes job.target = .ok fun i => bytes.getD i 0 := by rw [targetBytes, hBytes]; rfl
  rw [CudaMineBackend.search, hPreload]
  dsimp only [bind, Except.bind]
  rw [hKeys]
  dsimp only
  by_cases hOne : b₁.batch job = 1
  · rw [if_pos hOne, runKeyedPreloaded, hCtx]
    dsimp only [bind, Except.bind]
    rw [hTargetBytes]
    dsimp only [raising, Except.mapError]
    rw [if_neg (not_not.mpr hEnv.run)]
    refine ⟨_, _, rfl, ?_⟩
    rintro _ ⟨⟩
    exact keyedPreloaded_sound _ _ _ _ hSound
  · have hCount : (keys.map Prod.fst).length ≠ 0 := by
      rw [List.length_map, hLength]
      omega
    have hLists : ¬((keys.map Prod.fst).length ≠ (keys.map Prod.snd).length ∨ keys.map Prod.fst = []) := by
      rw [List.length_map, List.length_map, not_or]
      exact ⟨not_not.mpr rfl, fun hNil => hCount (by rw [hNil]; rfl)⟩
    obtain ⟨res, after, hCall, hAfter⟩ := batch_returns hSound hCount hEnv.allocator hEnv.graphCalls
      (joinKeys fun i => (keys.map Prod.fst).getD i 0) (joinKeys fun i => (keys.map Prod.snd).getD i 0)
      fun i => bytes.getD i 0
    rw [if_neg hOne, runKeyedPreloadedBatch, if_neg hLists, hCtx]
    dsimp only [bind, Except.bind]
    rw [hTargetBytes]
    dsimp only [raising, Except.mapError]
    rw [hCall]
    dsimp only
    rw [if_neg (not_not.mpr hEnv.run)]
    refine ⟨_, _, rfl, ?_⟩
    rintro _ ⟨⟩
    exact hAfter

end Returns

end Miner
