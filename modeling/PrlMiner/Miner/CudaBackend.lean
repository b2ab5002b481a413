import PrlMiner.Cuda.ContextBatch
import PrlMiner.Cuda.GpuSearch
import PrlMiner.Library.Python
import PrlMiner.Miner.MineLoopRuns

/-! The backend of the fused kernel. It uses one context, that of its fixed shape. -/
namespace Miner

open LittleEndian FixedWidth Cuda

/-- The packages `blake3` and `numpy`: a digest, and the entries of `A` and `B` that a
seeded generator draws one after the other. -/
structure Packages where
  blake3 : List Byte → Bytes 32
  integers : Nat → Buffer I8 × Buffer I8
  tables : Python.Tables

/-- What is left open over one search: the device, and the calls that fail. -/
structure SearchEnv where
  device : Device
  calls : CallEnv
  createFails : Bool
  setInputsRc : Nat
  runRc : Nat
  lastError : String

/-- `tile` are the entries `a_row` and `b_col`. -/
structure SearchDetail where
  attempt : Int
  attempts : Int
  tile : Option (Int × Int)

structure CudaResult where
  found : Bool
  plainProof : Option (List Byte)
  workUnits : Int
  detail : SearchDetail

def CudaResult.toBackendResult (result : CudaResult) : BackendResult :=
  ⟨result.found, result.plainProof, result.workUnits, some result.detail.attempts⟩

/-- `ctx` is the entry of `_ctx` for the shape, if there is one. -/
structure CudaMineBackend where
  ctx : Option PrlMineCtx
  preloadedHeaderId : Option (List Byte)
  batchSize : Int

/-- A Python exception with the text of a built-in error. -/
def raising {α : Type} (x : Except String α) : Except Raised α := x.mapError .exception

namespace CudaMineBackend

abbrev M : Nat := 128
abbrev K : Nat := 256
abbrev N : Nat := 256

/-- With the value of `PRL_CUDA_BATCH`. -/
def init (prlCudaBatch : Int) : CudaMineBackend := ⟨none, none, max 1 prlCudaBatch⟩

/-! The methods of `MineCuda`, on the entry of its one shape. -/

def ctxFor (env : SearchEnv) : Option PrlMineCtx → Except Raised PrlMineCtx
  | some c => .ok c
  | none =>
      match if env.createFails then none else prlMineCtxCreate env.device M K N with
      | none => .error (.exception s!"ctx_create failed: {env.lastError}")
      | some c => .ok c

def preloadInputs (env : SearchEnv) (A B : Buffer I8) (ctx : Option PrlMineCtx) :
    Except Raised PrlMineCtx := do
  let c ← ctxFor env ctx
  if env.setInputsRc ≠ 0 then
    .error (.exception s!"prl_mine_ctx_set_inputs rc={env.setInputsRc}: {env.lastError}")
  else .ok (prlMineCtxSetInputs A B c)

/-- `int(pow_target).to_bytes(32, "little")`. -/
def targetBytes (powTarget : Int) : Except String (Buffer Byte) :=
  (Python.toBytesLittle 32 powTarget).map fun bytes i => bytes.getD i 0

def runKeyedPreloaded (env : SearchEnv) (keyA keyB : Bytes 32) (powTarget : Int)
    (ctx : Option PrlMineCtx) : Except Raised (MineResult × PrlMineCtx) := do
  let c ← ctxFor env ctx
  let target ← raising (targetBytes powTarget)
  if env.runRc ≠ 0 then
    .error (.exception s!"prl_mine_ctx_run_keyed_preloaded rc={env.runRc}: {env.lastError}")
  else .ok (prlMineCtxRunKeyedPreloaded env.calls (byteAt keyA) (byteAt keyB) target c)

def runKeyedPreloadedBatch (env : SearchEnv) (keysA keysB : List (Bytes 32)) (powTarget : Int)
    (ctx : Option PrlMineCtx) : Except Raised ((Int × MineResult) × PrlMineCtx) := do
  if keysA.length ≠ keysB.length ∨ keysA = [] then
    .error (.exception "keys_A and keys_B must be non-empty lists of equal length")
  else
    let c ← ctxFor env ctx
    let target ← raising (targetBytes powTarget)
    match prlMineCtxRunKeyedPreloadedBatch env.calls (joinKeys fun i => keysA.getD i 0)
        (joinKeys fun i => keysB.getD i 0) keysA.length target c with
    | (.error rc, _) =>
        .error (.exception s!"prl_mine_ctx_run_keyed_preloaded_batch rc={rc}: {env.lastError}")
    | (.ok res, c) =>
        if env.runRc ≠ 0 then
          .error (.exception s!"prl_mine_ctx_run_keyed_preloaded_batch rc={env.runRc}: {env.lastError}")
        else .ok (res, c)

variable (pk : Packages)

/-- `A` and `B` of a header. -/
def matrices (hdr : List Byte) : Buffer I8 × Buffer I8 :=
  -- `b"AB"`
  pk.integers (ofDigits 8 (byteAt (pk.blake3 (hdr ++ [0x41, 0x42]))))

/-- Preload the matrices of a new header. -/
def preload (env : SearchEnv) (job : MiningJob) (b : CudaMineBackend) : Except Raised CudaMineBackend :=
  if b.preloadedHeaderId ≠ some job.headerId then do
    let (A, B) := matrices pk job.incompleteHeaderBytes
    let c ← preloadInputs env A B b.ctx
    .ok { b with ctx := some c, preloadedHeaderId := some job.headerId }
  else .ok b

def batch (job : MiningJob) (b : CudaMineBackend) : Int := if job.target = 0 then b.batchSize else 1

/-- The keys of one nonce. -/
def nonceKeys (hdr : List Byte) (nonce : Int) : Except String (Bytes 32 × Bytes 32) := do
  let nonce ← Python.toBytesLittle 8 nonce
  -- `b"A"` and `b"B"`
  .ok (pk.blake3 (hdr ++ nonce ++ [0x41]), pk.blake3 (hdr ++ nonce ++ [0x42]))

/-- `hex(int(w))`. -/
def hexWord (w : U32) : Python.Text :=
  Python.text "0x" ++ (Nat.toDigits 16 w.toNat).map fun c => Fin.ofNat _ c.toNat

def plainProof (res : MineResult) : List Byte :=
  let words := res.trOut.map fun w => .str (hexWord w)
  let json : Python.Json := .obj [(Python.text "_harness", .bool true),
    (Python.text "a_row", .int res.aRow), (Python.text "b_col", .int res.bCol),
    (Python.text "transcript_words", .arr words)]
  (Python.dumps pk.tables json).map fun c => BitVec.ofNat 8 c.val

/-- What a search reports. -/
def report (attempt batch foundAttempt : Int) (res : MineResult) : CudaResult :=
  let work : Int := M * K * N
  if res.found = 0 then ⟨false, none, work * batch, ⟨attempt, batch, none⟩⟩
  else ⟨true, some (plainProof pk res), work * (foundAttempt + 1),
    ⟨attempt + foundAttempt, foundAttempt + 1, some (res.aRow, res.bCol)⟩⟩

/-- The backend that a search leaves when it raises is left out: the loop ends there. -/
def search (env : SearchEnv) (job : MiningJob) (attempt : Int) (b : CudaMineBackend) :
    Except Raised (CudaResult × CudaMineBackend) := do
  let b ← preload pk env job b
  let batch := b.batch job
  let keys ← (List.range batch.toNat).mapM fun (i : Nat) =>
    raising (nonceKeys pk job.incompleteHeaderBytes (attempt + i))
  if batch = 1 then
    let (keyA, keyB) := keys.headD (0, 0)
    let (res, c) ← runKeyedPreloaded env keyA keyB job.target b.ctx
    .ok (report pk attempt batch 0 res, { b with ctx := some c })
  else
    let ((foundAttempt, res), c) ←
      runKeyedPreloadedBatch env (keys.map Prod.fst) (keys.map Prod.snd) job.target b.ctx
    .ok (report pk attempt batch foundAttempt res, { b with ctx := some c })

end CudaMineBackend

/-- A search that returned: the header changes polled before it, its job, its first
nonce and its report. -/
structure CudaSearch where
  switches : Nat
  job : MiningJob
  attempt : Int
  result : CudaResult

/-- `mine_loop` with its backend and its searches. -/
structure CudaLoop where
  loop : LoopState
  backend : CudaMineBackend
  searches : List CudaSearch

def CudaLoop.init (safety : SafetyMonitor) (prlCudaBatch : Int) : CudaLoop :=
  ⟨LoopState.init safety, .init prlCudaBatch, []⟩

/-- The job and the state that an iteration searches with. -/
def searchCall (it : Iteration) (s : LoopState) : Option (MiningJob × LoopState) :=
  (do
    let (job, s) ← pollJob it s
    let s ← checkThermal it s
    .ok (job, s) : Body (MiningJob × LoopState)).toOption

/-- An iteration whose search is that of the backend. A batch of which the last `i * 8`
is no `int` is undefined, and no step. -/
def cudaStep (pk : Packages) (cfg : LoopConfig) (t : CudaLoop) (e : Iteration × SearchEnv) : Option CudaLoop :=
  match searchCall e.1 t.loop with
  | none => (mineLoopStep cfg t.loop e.1).map fun s => { t with loop := s }
  | some (job, s₁) =>
      if (t.backend.batch job - 1) * 8 ≥ 2 ^ 31 then none
      else
        let outcome := t.backend.search pk e.2 job s₁.attempt
        let it := { e.1 with search := outcome.map fun r => r.1.toBackendResult }
        (mineLoopStep cfg t.loop it).map fun s =>
          match outcome with
          | .error _ => { t with loop := s }
          | .ok (result, backend) =>
              ⟨s, backend, t.searches ++ [⟨s₁.metrics.jobSwitches, job, s₁.attempt, result⟩]⟩

end Miner
