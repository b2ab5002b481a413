import PrlMiner.Library.KeyedSlot
import PrlMiner.Miner.CudaSearch

/-! Searches whose preloads can fail, and what a backend mines on after one that did.
The backend that a search leaves when it raises is kept here. -/
namespace Miner.Preloads

open LittleEndian FixedWidth Cuda EarlyExit KeyedSlot Runs
open CudaMineBackend hiding init preload search

/-- The calls of `prl_mine_ctx_set_inputs`. A copy that fails leaves something in its
buffer; an error of an earlier call can be pending. -/
structure CopyCalls where
  copyA : Option (Buffer I8)
  copyB : Option (Buffer I8)
  pending : Bool

/-- `cudaGetLastError` after both copies, as a return code. -/
def CopyCalls.rc (calls : CopyCalls) : Nat :=
  if calls.copyA.isSome ∨ calls.copyB.isSome ∨ calls.pending then 4 else 0

def prlMineCtxSetInputs (calls : CopyCalls) (A B : Buffer I8) (c : PrlMineCtx) : Nat × PrlMineCtx :=
  (calls.rc, { c with
    dA := calls.copyA.getD (memcpy c.dA A (c.m * c.k))
    dB := calls.copyB.getD (memcpy c.dB B (c.k * c.n)) })

/-- One call of `search`, with what happens in it. -/
structure SearchCall where
  env : SearchEnv
  copies : CopyCalls
  job : MiningJob
  attempt : Int

variable (pk : Packages)

/-- The start of `search`, and the backend it leaves. -/
def preload (call : SearchCall) (b : CudaMineBackend) : Except Raised Unit × CudaMineBackend :=
  if b.preloadedHeaderId ≠ some call.job.headerId then
    match ctxFor call.env b.ctx with
    | .error e => (.error e, b)
    | .ok c =>
        let (A, B) := matrices pk call.job.incompleteHeaderBytes
        let (rc, c) := prlMineCtxSetInputs call.copies A B c
        if rc ≠ 0 then
          (.error (.exception s!"prl_mine_ctx_set_inputs rc={rc}: {call.env.lastError}"), { b with ctx := some c })
        else (.ok (), { b with ctx := some c, preloadedHeaderId := some call.job.headerId })
  else (.ok (), b)

/-- The rest of `search`. -/
def mine (env : SearchEnv) (job : MiningJob) (attempt : Int) (b : CudaMineBackend) :
    Except Raised (CudaResult × CudaMineBackend) := do
  let batch := b.batch job
  let keys ← (List.range batch.toNat).mapM fun (i : Nat) =>
    raising (nonceKeys pk job.incompleteHeaderBytes (attempt + i))
  if batch = 1 then
    let (keyA, keyB) := keys.headD (0, 0)
    let (res, c) ← runKeyedPreloaded env keyA keyB job.target b.ctx
    .ok (report pk attempt batch 0 res, { b with ctx := some c })
  else
    let ((foundAttempt, res), c) ←
      runKeyedPreloadedBatch env (keys.map Prod.fst) (keys.map Prod.snd) job.target b.ctx
    .ok (report pk attempt batch foundAttempt res, { b with ctx := some c })

/-- The same with the backend it leaves. A run that raises copies nothing to `dA` and
`dB`, and what else it leaves in the context is not kept. -/
def mineKeeping (call : SearchCall) (b : CudaMineBackend) : Except Raised CudaResult × CudaMineBackend :=
  match mine pk call.env call.job call.attempt b with
  | .error e => (.error e, b)
  | .ok (result, b) => (.ok result, b)

def search (call : SearchCall) (b : CudaMineBackend) : Except Raised CudaResult × CudaMineBackend :=
  match preload pk call b with
  | (.error e, b) => (.error e, b)
  | (.ok _, b) => mineKeeping pk call b

/-- `dA` and `dB`, as long as they are. -/
abbrev Resident : Type := (Fin (M * K) → I8) × (Fin (K * N) → I8)

def resident (A B : Buffer I8) : Resident := (fun i => A i, fun i => B i)

/-- The matrices of a header. -/
def derived (hdr : List Byte) : Option Resident :=
  let (A, B) := matrices pk hdr
  some (resident A B)

def content (b : CudaMineBackend) : Option Resident := b.ctx.map fun c => resident c.dA c.dB

/-- If the search goes on to mine, `A` and `B` are those of its header. -/
def Coherent (b : CudaMineBackend) (call : SearchCall) : Prop :=
  (preload pk call b).1 = .ok () → content (preload pk call b).2 = derived pk call.job.headerId

/-- A backend over a run, with what its last preload that succeeded left. -/
structure Searching where
  backend : CudaMineBackend
  filled : Option Resident

def Searching.init (prlCudaBatch : Int) : Searching := ⟨.init prlCudaBatch, none⟩

def step (t : Searching) (call : SearchCall) : Option Searching :=
  let filled :=
    if t.backend.preloadedHeaderId = some call.job.headerId then t.filled
    else
      match preload pk call t.backend with
      | (.error _, _) => t.filled
      | (.ok _, b) => content b
  some ⟨(search pk call t.backend).2, filled⟩

/-- If the search finds its header cached, no preload that failed since has changed
`dA` or `dB`. -/
def Undisturbed (t : Searching) (call : SearchCall) : Prop :=
  t.backend.preloadedHeaderId = some call.job.headerId → content t.backend = t.filled

section Agreement

variable {pk} {call : SearchCall} {b : CudaMineBackend}

/-- Copies that succeed do to the context what the model without failures has them do. -/
theorem setInputs_eq (hRc : call.copies.rc = 0) (A B : Buffer I8) (c : PrlMineCtx) :
    (prlMineCtxSetInputs call.copies A B c).2 = Cuda.prlMineCtxSetInputs A B c := by
  simp only [CopyCalls.rc, ite_eq_right_iff, OfNat.ofNat_ne_zero, imp_false, not_or,
    Option.not_isSome_iff_eq_none] at hRc
  simp [prlMineCtxSetInputs, Cuda.prlMineCtxSetInputs, hRc.1, hRc.2.1]

/-- The model that drops the backends of searches that raise has the same preload, -/
theorem preload_eq (hRc : call.copies.rc = call.env.setInputsRc) :
    CudaMineBackend.preload pk call.env call.job b =
      (preload pk call b).1.map fun _ => (preload pk call b).2 := by
  by_cases hHeader : b.preloadedHeaderId = some call.job.headerId
  · simp only [CudaMineBackend.preload, preload, hHeader, ne_eq, not_true_eq_false, if_false]
    rfl
  · simp only [CudaMineBackend.preload, preload, preloadInputs, ne_eq, hHeader, not_false_eq_true, if_true]
    cases ctxFor call.env b.ctx with
    | error e => rfl
    | ok c =>
        have hReturned : (prlMineCtxSetInputs call.copies (matrices pk call.job.incompleteHeaderBytes).1
            (matrices pk call.job.incompleteHeaderBytes).2 c).1 = call.env.setInputsRc := hRc
        simp only [hReturned]
        by_cases hZero : call.env.setInputsRc = 0
        · simp only [hZero, not_true_eq_false, if_false, setInputs_eq (hRc.trans hZero)]
          rfl
        · simp only [hZero, not_false_eq_true, if_true]
          rfl

/-- and the same search, after it. -/
theorem search_eq : CudaMineBackend.search pk call.env call.job call.attempt b =
    CudaMineBackend.preload pk call.env call.job b >>= mine pk call.env call.job call.attempt := rfl

end Agreement

section Preload

variable {pk} {call : SearchCall} {b b' : CudaMineBackend} {c c' : PrlMineCtx} {env : SearchEnv}

/-- A context of the backend's shape, with its graph in order. -/
structure Ready (c : PrlMineCtx) : Prop where
  shape : c.m = M ∧ c.k = K ∧ c.n = N
  graph : c.GraphInv

/-- What every search keeps. -/
structure Valid (b : CudaMineBackend) : Prop where
  ready : ∀ c, b.ctx = some c → Ready c
  cached : b.preloadedHeaderId.isSome → b.ctx.isSome

/-- A context for a search is ready for its inputs, if the backend was valid. -/
theorem ctxFor_ready (hValid : Valid b) (h : ctxFor env b.ctx = .ok c) : Ready c := by
  rcases ctxFor_cases h with hCtx | hCreate
  · exact hValid.ready c hCtx
  · obtain ⟨hHolds, hGraph⟩ := create_holds hCreate
    exact ⟨hHolds.sizes, hGraph⟩

/-- Copies, also those that fail, leave a context ready. -/
theorem setInputs_ready (calls : CopyCalls) (A B : Buffer I8) (h : Ready c) :
    Ready (prlMineCtxSetInputs calls A B c).2 := ⟨h.shape, h.graph.captured, h.graph.apart⟩

/-- Copies that succeed leave what they were given, in the shape of the context. -/
theorem setInputs_resident {calls : CopyCalls} (hRc : calls.rc = 0) (A B : Buffer I8) (h : Ready c) :
    resident (prlMineCtxSetInputs calls A B c).2.dA (prlMineCtxSetInputs calls A B c).2.dB = resident A B := by
  obtain ⟨hm, hk, hn⟩ := h.shape
  simp only [CopyCalls.rc, ite_eq_right_iff, OfNat.ofNat_ne_zero, imp_false, not_or,
    Option.not_isSome_iff_eq_none] at hRc
  obtain ⟨hA, hB, -⟩ := hRc
  simp only [prlMineCtxSetInputs, hA, hB, Option.getD_none, hm, hk, hn, resident, Prod.mk.injEq]
  constructor
  · funext i
    exact memcpy_of_lt i.isLt
  · funext i
    exact memcpy_of_lt i.isLt

/-- What a preload can do. -/
inductive Preloaded (pk : Packages) (call : SearchCall) (b : CudaMineBackend) :
    Except Raised Unit × CudaMineBackend → Prop where
  | hit (hHeader : b.preloadedHeaderId = some call.job.headerId) : Preloaded pk call b (.ok (), b)
  | noContext (hHeader : b.preloadedHeaderId ≠ some call.job.headerId) (e : Raised) :
      Preloaded pk call b (.error e, b)
  | failed (hHeader : b.preloadedHeaderId ≠ some call.job.headerId) (e : Raised) {c : PrlMineCtx}
      (hReady : Ready c) (hRc : call.copies.rc ≠ 0) : Preloaded pk call b (.error e, { b with ctx := some c })
  | loaded (hHeader : b.preloadedHeaderId ≠ some call.job.headerId) {c : PrlMineCtx} (hReady : Ready c)
      (hResident : some (resident c.dA c.dB) = derived pk call.job.headerId) :
      Preloaded pk call b (.ok (), { b with ctx := some c, preloadedHeaderId := some call.job.headerId })

/-- A preload does one of these: it leaves the backend as it was, or with a context whose
inputs may be disturbed and whose header is the old one, or with the inputs of its own
header. -/
theorem preload_preloaded (pk : Packages) (call : SearchCall) (hValid : Valid b) :
    Preloaded pk call b (preload pk call b) := by
  rw [preload]
  split_ifs with hHeader
  · cases hCtx : ctxFor call.env b.ctx with
    | error e => exact .noContext hHeader e
    | ok c =>
        have hReady := ctxFor_ready hValid hCtx
        simp only
        split_ifs with hRc
        · exact .failed hHeader _ (setInputs_ready _ _ _ hReady) hRc
        · exact .loaded hHeader (setInputs_ready _ _ _ hReady)
            (congrArg some (setInputs_resident (not_not.mp hRc) _ _ hReady))
  · exact .hit (not_not.mp hHeader)

end Preload

section Mining

variable {pk} {env : SearchEnv} {job : MiningJob} {attempt : Int} {b b' : CudaMineBackend}
  {result : CudaResult} {c c' : PrlMineCtx}

/-- What a run leaves alone. -/
def SameInputs (c c' : PrlMineCtx) : Prop := c'.inputs = c.inputs ∧ (c.GraphInv → c'.GraphInv)

/-- Readiness is about what mining does not touch. -/
theorem SameInputs.ready (h : SameInputs c c') (hReady : Ready c) : Ready c' := by
  obtain ⟨hInputs, hGraph⟩ := h
  refine ⟨?_, hGraph hReady.graph⟩
  have hm : c'.m = c.m := congrArg Inputs.m hInputs
  have hk : c'.k = c.k := congrArg Inputs.k hInputs
  have hn : c'.n = c.n := congrArg Inputs.n hInputs
  rw [hm, hk, hn]
  exact hReady.shape

/-- A single attempt reads the inputs only, -/
theorem runKeyedPreloaded_same {calls : CallEnv} {keyA32 keyB32 target32 : Buffer Byte} {res : MineResult}
    (h : prlMineCtxRunKeyedPreloaded calls keyA32 keyB32 target32 c = (res, c')) : SameInputs c c' := by
  obtain ⟨-, rfl⟩ := Prod.mk.inj h
  exact ⟨rfl, fun hGraph => ⟨hGraph.captured, hGraph.apart⟩⟩

/-- and so does a batch, whether it launches the graph of an earlier one or captures its
own. -/
theorem runKeyedPreloadedBatch_same {calls : CallEnv} {keysA32 keysB32 target32 : Buffer Byte} {count : Nat}
    {res : Int × MineResult} (hGraph : c.GraphInv)
    (h : prlMineCtxRunKeyedPreloadedBatch calls keysA32 keysB32 count target32 c = (.ok res, c')) :
    SameInputs c c' := by
  obtain ⟨keysA, keysB, ready, -, -, hInputs, -, hReady, rfl, -, -⟩ := batch_spec calls hGraph h
  have hKept := foldl_graphAttempt_kept calls.device keysA keysB (List.range count) (resetOutputs ready)
  have hReset : (resetOutputs ready).inputs = ready.inputs := rfl
  exact ⟨hKept.inputs.trans (hReset.trans hInputs), fun _ => hKept.graph ⟨hReady.captured, hReady.apart⟩⟩

/-- Mining reads the inputs only, so that they are as the preload left them. -/
theorem mine_same (hCtx : b.ctx = some c) (hGraph : c.GraphInv)
    (h : mine pk env job attempt b = .ok (result, b')) :
    b'.preloadedHeaderId = b.preloadedHeaderId ∧ ∃ c', b'.ctx = some c' ∧ SameInputs c c' := by
  rw [mine] at h
  obtain ⟨keys, -, h⟩ := bind_eq_ok.mp h
  rw [hCtx] at h
  by_cases hOne : b.batch job = 1
  · rw [if_pos hOne] at h
    obtain ⟨⟨res, c'⟩, hRun, h⟩ := bind_eq_ok.mp h
    cases h
    obtain ⟨target, -, hCall⟩ := runKeyedPreloaded_spec hRun
    exact ⟨rfl, c', rfl, runKeyedPreloaded_same hCall⟩
  · rw [if_neg hOne] at h
    obtain ⟨⟨⟨foundAttempt, res⟩, c'⟩, hRun, h⟩ := bind_eq_ok.mp h
    cases h
    obtain ⟨target, -, hCall⟩ := runKeyedPreloadedBatch_spec hRun
    exact ⟨rfl, c', rfl, runKeyedPreloadedBatch_same hGraph hCall⟩

end Mining

section Runs

variable {pk} {call : SearchCall} {calls : List SearchCall} {b : CudaMineBackend} {t t' : Searching}

/-- This holds also where mining raises, and the backend is kept. -/
theorem mineKeeping_same {c : PrlMineCtx} (hValid : Valid b) (hCtx : b.ctx = some c) :
    Valid (mineKeeping pk call b).2 ∧ (mineKeeping pk call b).2.preloadedHeaderId = b.preloadedHeaderId ∧
      content (mineKeeping pk call b).2 = content b := by
  have hReady := hValid.ready c hCtx
  rw [mineKeeping]
  cases hMine : mine pk call.env call.job call.attempt b with
  | error e => exact ⟨hValid, rfl, rfl⟩
  | ok out =>
      obtain ⟨result, b'⟩ := out
      obtain ⟨hHeader, c', hCtx', hSame⟩ := mine_same hCtx hReady.graph hMine
      refine ⟨⟨fun c'' h => ?_, fun _ => by simp [hCtx']⟩, hHeader, ?_⟩
      · obtain rfl := Option.some.inj (hCtx'.symm.trans h)
        exact hSame.ready hReady
      · have hA : c'.dA = c.dA := congrArg Inputs.dA hSame.1
        have hB : c'.dB = c.dB := congrArg Inputs.dB hSame.1
        simp only [content, hCtx', hCtx, Option.map_some, hA, hB]

/-- After its preload a search changes neither the header nor the inputs. -/
theorem search_preload (pk : Packages) (call : SearchCall) (hValid : Valid b) :
    Valid (search pk call b).2 ∧
      (search pk call b).2.preloadedHeaderId = (preload pk call b).2.preloadedHeaderId ∧
      content (search pk call b).2 = content (preload pk call b).2 := by
  have hPreload := preload_preloaded pk call hValid
  rw [search]
  generalize preload pk call b = out at hPreload
  cases hPreload with
  | hit hHeader =>
      obtain ⟨c, hCtx⟩ := Option.isSome_iff_exists.mp (hValid.cached (by simp [hHeader]))
      exact mineKeeping_same hValid hCtx
  | noContext hHeader e => exact ⟨hValid, rfl, rfl⟩
  | failed hHeader e hReady hRc =>
      exact ⟨⟨fun c' h => Option.some.inj h ▸ hReady, fun _ => rfl⟩, rfl, rfl⟩
  | loaded hHeader hReady hResident =>
      exact mineKeeping_same ⟨fun c' h => Option.some.inj h ▸ hReady, fun _ => rfl⟩ rfl

/-- The slot for the inputs of one header. -/
def Searching.slot (t : Searching) : Slot (List Byte) (Option Resident) :=
  ⟨t.backend.preloadedHeaderId, content t.backend, t.filled⟩

/-- How the preload of a call ends, if it comes to one. -/
def fillOf (pk : Packages) (call : SearchCall) (b : CudaMineBackend) : Fill (Option Resident) :=
  match preload pk call b with
  | (.ok _, _) => .done
  | (.error _, b) => .failed (content b)

/-- A search does to the inputs what an access does to the slot: its header is the key,
and its copies are the fill. -/
theorem step_slot (hValid : Valid t.backend) (hStep : step pk t call = some t') :
    access (derived pk) t.slot call.job.headerId (fillOf pk call t.backend) =
      ((preload pk call t.backend).1.isOk, t'.slot) := by
  obtain rfl := Option.some.inj hStep
  obtain ⟨-, hHeader, hContent⟩ := search_preload pk call hValid
  have hPreload := preload_preloaded pk call hValid
  simp only [Searching.slot, hHeader, hContent, fillOf]
  generalize preload pk call t.backend = out at hPreload
  cases hPreload with
  | hit hKey =>
      rw [access_hit hKey, if_pos hKey]
      rfl
  | noContext hKey e =>
      rw [access_failed hKey, if_neg hKey]
      rfl
  | failed hKey e hReady hRc =>
      rw [access_failed hKey, if_neg hKey]
      rfl
  | loaded hKey hReady hResident =>
      rw [access_done hKey, if_neg hKey, ← hResident]
      rfl

/-- What every run keeps. -/
structure SearchInv (pk : Packages) (t : Searching) : Prop where
  valid : Valid t.backend
  sound : Sound (derived pk) t.slot

/-- Every search keeps the backend valid and the slot sound, also one that raises. -/
theorem step_inv (h : SearchInv pk t) (hStep : step pk t call = some t') : SearchInv pk t' := by
  have hSlot := access_sound h.sound call.job.headerId (fillOf pk call t.backend)
  rw [step_slot h.valid hStep] at hSlot
  obtain rfl := Option.some.inj hStep
  exact ⟨(search_preload pk call h.valid).1, hSlot⟩

theorem run_inv {prlCudaBatch : Int} (run : Run (step pk) (.init prlCudaBatch) calls t) : SearchInv pk t := by
  apply run.invariant (SearchInv pk)
  · refine ⟨⟨fun c h => ?_, fun h => ?_⟩, fun hdr h => ?_⟩
    all_goals cases h
  · exact fun s call s' => step_inv

/-- A search that goes on to mine does so on the matrices of its header exactly if failed
copies have not changed what the last full ones left. -/
theorem coherent_iff (h : SearchInv pk t) : Coherent pk t.backend call ↔ Undisturbed t call := by
  have hServes := serves_iff h.sound call.job.headerId (fillOf pk call t.backend)
  obtain ⟨t', hStep⟩ : ∃ t', step pk t call = some t' := ⟨_, rfl⟩
  rw [step_slot h.valid hStep] at hServes
  obtain rfl := Option.some.inj hStep
  have hSearch : ((preload pk call t.backend).1.isOk = true →
    content (search pk call t.backend).2 = derived pk call.job.headerId) ↔ Undisturbed t call := hServes
  have hOk : (preload pk call t.backend).1.isOk = true ↔ (preload pk call t.backend).1 = .ok () := by
    cases (preload pk call t.backend).1 with
    | error e => exact iff_of_false (fun h => by cases h) (fun h => by cases h)
    | ok u => exact iff_of_true rfl rfl
  rw [← hSearch, (search_preload pk call h.valid).2.2, hOk, Coherent]

/-- In every run each search that goes on to mine does so on the matrices of its
header if and only if no search finds its header cached over inputs that preloads
which failed since have changed. -/
theorem preload_cache_coherent_iff (pk : Packages) (prlCudaBatch : Int) (calls : List SearchCall) :
    EveryStep (step pk) (.init prlCudaBatch) (fun t call => Coherent pk t.backend call) calls ↔
      EveryStep (step pk) (.init prlCudaBatch) Undisturbed calls :=
  everyStep_congr fun _ _ _ run => coherent_iff (run_inv run)

/-- As long as no preload fails after its context was there, nothing disturbs the
inputs. -/
theorem undisturbed_of_copies {prlCudaBatch : Int} (hCopies : ∀ call ∈ calls, call.copies.rc = 0)
    (run : Run (step pk) (.init prlCudaBatch) calls t) : content t.backend = t.filled := by
  induction run with
  | nil => rfl
  | @snoc calls s s' prior call last ih =>
      have hSame := ih fun call h => hCopies call (List.mem_append_left _ h)
      have hRc := hCopies call (by simp)
      have hValid := (run_inv prior).valid
      obtain rfl := Option.some.inj last
      have hContent := (search_preload pk call hValid).2.2
      have hPreload := preload_preloaded pk call hValid
      simp only [hContent]
      generalize preload pk call s.backend = out at hPreload
      cases hPreload with
      | hit hKey =>
          rw [if_pos hKey]
          exact hSame
      | noContext hKey e =>
          rw [if_neg hKey]
          exact hSame
      | failed hKey e hReady hFails => exact absurd hRc hFails
      | loaded hKey hReady hResident =>
          rw [if_neg hKey]

/-- A preload whose second copy fails leaves the new `A`, under the old header. The old
`B` is still there. -/
theorem preload_copyB_fails (pk : Packages) {c : PrlMineCtx} (hKey : b.preloadedHeaderId ≠ some call.job.headerId)
    (hCtx : b.ctx = some c) (hReady : Ready c) (hA : call.copies.copyA = none) (hB : call.copies.copyB.isSome) :
    ∃ e c', preload pk call b = (.error e, { b with ctx := some c' }) ∧
      ∀ i < M * K, c'.dA i = (matrices pk call.job.incompleteHeaderBytes).1 i := by
  obtain ⟨hm, hk, -⟩ := hReady.shape
  have hRc : call.copies.rc = 4 := by simp [CopyCalls.rc, hB]
  have hCopied (A B : Buffer I8) : (prlMineCtxSetInputs call.copies A B c).1 = 4 := hRc
  let c' := (prlMineCtxSetInputs call.copies (matrices pk call.job.incompleteHeaderBytes).1
    (matrices pk call.job.incompleteHeaderBytes).2 c).2
  obtain ⟨e, hPreload⟩ : ∃ e, preload pk call b = (.error e, { b with ctx := some c' }) := by
    simp only [preload, hKey, hCtx, ctxFor, hCopied, ne_eq, not_false_eq_true, if_true, OfNat.ofNat_ne_zero]
    exact ⟨_, rfl⟩
  refine ⟨e, c', hPreload, fun i hi => ?_⟩
  simp only [c', prlMineCtxSetInputs, hA, Option.getD_none, hm, hk]
  exact memcpy_of_lt hi

/-- Matrices that tell headers apart. -/
def twoHeaders : Packages where
  blake3 bytes i := bytes.getD i 0
  integers seed := (fun _ => BitVec.ofNat 8 seed, fun _ => BitVec.ofNat 8 seed)
  tables := ⟨fun _ => [], fun _ => false, fun _ => none⟩

/-- A search of one header, -/
def firstHeader : SearchCall := ⟨⟨default, default, false, 0, 0, ""⟩, ⟨none, none, false⟩, ⟨[1], 0⟩, 0⟩

/-- and one of another, whose second copy fails. -/
def otherHeader : SearchCall := ⟨⟨default, default, false, 0, 0, ""⟩, ⟨none, some fun _ => 0, false⟩, ⟨[2], 0⟩, 0⟩

/-- The first header is still the cached one, over the `A` of the other: a search of it
mines on a mixture. -/
theorem mixed_matrices : ∃ t A B, Run (step twoHeaders) (.init 1) [firstHeader, otherHeader] t ∧
    t.backend.preloadedHeaderId = some firstHeader.job.headerId ∧ content t.backend = some (resident A B) ∧
    (∀ i < M * K, A i = (matrices twoHeaders [2]).1 i) ∧ ¬Coherent twoHeaders t.backend firstHeader := by
  obtain ⟨t₁, hStep₁⟩ : ∃ t₁, step twoHeaders (.init 1) firstHeader = some t₁ := ⟨_, rfl⟩
  obtain ⟨t₂, hStep₂⟩ : ∃ t₂, step twoHeaders t₁ otherHeader = some t₂ := ⟨_, rfl⟩
  have run₁ : Run (step twoHeaders) (.init 1) ([] ++ [firstHeader]) t₁ := .snoc .nil _ hStep₁
  have run₂ : Run (step twoHeaders) (.init 1) ([firstHeader] ++ [otherHeader]) t₂ := .snoc run₁ _ hStep₂
  have hInv₁ := run_inv run₁
  -- the first search preloads its own matrices
  have hSlot₁ : t₁.slot = ⟨some [1], derived twoHeaders [1], derived twoHeaders [1]⟩ := by
    have hFill : fillOf twoHeaders firstHeader (Searching.init 1).backend = .done := rfl
    have hStart : SearchInv twoHeaders (.init 1) := run_inv .nil
    have hSlot := step_slot hStart.valid hStep₁
    rw [hFill, access_done (fun h => by cases h)] at hSlot
    exact (congrArg Prod.snd hSlot).symm
  have hHeader₁ : t₁.backend.preloadedHeaderId = some [1] := congrArg Slot.key hSlot₁
  obtain ⟨c, hCtx⟩ := Option.isSome_iff_exists.mp (hInv₁.valid.cached (by simp [hHeader₁]))
  have hKey : t₁.backend.preloadedHeaderId ≠ some otherHeader.job.headerId := by
    rw [hHeader₁]
    decide
  -- the second overwrites `A` and raises
  obtain ⟨e, c', hPreload, hA⟩ := preload_copyB_fails twoHeaders hKey hCtx (hInv₁.valid.ready c hCtx) rfl rfl
  have hSlot₂ : t₂.slot = ⟨some [1], some (resident c'.dA c'.dB), derived twoHeaders [1]⟩ := by
    have hFill : fillOf twoHeaders otherHeader t₁.backend = .failed (some (resident c'.dA c'.dB)) := by
      rw [fillOf, hPreload]
      rfl
    have hSlot := step_slot hInv₁.valid hStep₂
    rw [hFill, access_failed hKey, hSlot₁] at hSlot
    exact (congrArg Prod.snd hSlot).symm
  refine ⟨t₂, c'.dA, c'.dB, run₂, congrArg Slot.key hSlot₂, congrArg Slot.content hSlot₂, hA, fun hCoherent => ?_⟩
  -- the third finds its header
  have hSame := (coherent_iff (run_inv run₂)).mp hCoherent (congrArg Slot.key hSlot₂)
  have hMixed : some (resident c'.dA c'.dB) = derived twoHeaders [1] :=
    (congrArg Slot.content hSlot₂).symm.trans (hSame.trans (congrArg Slot.filled hSlot₂))
  have hFirst : c'.dA 0 = (matrices twoHeaders [1]).1 0 :=
    congrFun (congrArg Prod.fst (Option.some.inj hMixed)) ⟨0, by decide⟩
  rw [hA 0 (by decide)] at hFirst
  revert hFirst
  decide

end Runs

end Miner.Preloads
