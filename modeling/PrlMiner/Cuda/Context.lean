import PrlMiner.Cuda.MineEntry

/-! The persistent context: device buffers allocated once and a captured graph of
keyed attempts. CUDA calls succeed, but for those that grow the key buffers and
build the graph, whose outcomes are parameters. -/
namespace Cuda

open FixedWidth LittleEndian ParallelWrites Search Reference

/-- A live allocation. -/
structure Allocation where
  bytes : Nat
  words : Buffer U32

/-- The allocations of the key buffers, by address. -/
abbrev Heap := Nat → Option Allocation

/-- `cudaMalloc`: the address it hands out is not in use. -/
structure Allocator where
  malloc : Heap → Nat → Option Nat
  content : Heap → Buffer U32
  fresh : ∀ heap bytes p, malloc heap bytes = some p → heap p = none

/-- The first free address out of three. -/
def Allocator.firstFree : Allocator where
  malloc heap _ := (List.range 3).find? fun p => (heap p).isNone
  content _ := default
  fresh heap bytes p h := by
    have hNone := List.find?_some h
    exact Option.isNone_iff_eq_none.mp hNone

instance : Inhabited Allocator := ⟨Allocator.firstFree⟩

def cudaMalloc (a : Allocator) (heap : Heap) (bytes : Nat) : Option (Nat × Heap) :=
  (a.malloc heap bytes).map fun p => (p, Function.update heap p (some ⟨bytes, a.content heap⟩))

def cudaFree (heap : Heap) (ptr : Option Nat) : Heap :=
  match ptr with
  | none => heap
  | some p => Function.update heap p none

/-- `cudaMemcpyAsync` of `n` words to a key buffer. It fails unless so much of it is live. -/
def copyToHeap (heap : Heap) (ptr : Option Nat) (src : Buffer U32) (n : Nat) : Option Heap :=
  ptr.bind fun p => (heap p).bind fun a =>
    if n * 4 ≤ a.bytes then some (Function.update heap p (some { a with words := memcpy a.words src n }))
    else none

/-- The words behind a pointer, if `n` of them are live. -/
def wordsAt (heap : Heap) (ptr : Option Nat) (n : Nat) : Option (Buffer U32) :=
  ptr.bind fun p => (heap p).bind fun a => if n * 4 ≤ a.bytes then some a.words else none

/-- What two captures can differ in. The other pointers never change. -/
structure BatchGraph where
  keysA : Option Nat
  keysB : Option Nat
  attempts : Nat

structure PrlMineCtx where
  m : Nat
  k : Nat
  n : Nat
  dA : Buffer I8
  dB : Buffer I8
  /-- `dEAL`, `dEAR`, `dEBL` and `dEBR`. -/
  noise : NoiseBuffers
  dU : Buffer I8
  /-- `dAn`, `dBn`, `dTr` and `dBest`. -/
  work : Work
  dKey : Buffer U32
  dKeyB : Buffer U32
  dTgt : Buffer U32
  dSA : Buffer U32
  dSB : Buffer U32
  /-- `dF`, `dAR`, `dBC` and `dTrOut`. -/
  out : ScanOut
  dFoundAttempt : Int
  heap : Heap
  dKeyBatch : Option Nat
  dKeyBBatch : Option Nat
  keyBatchCap : Nat
  batchGraph : Option BatchGraph
  batchGraphExec : Option BatchGraph
  batchGraphCount : Nat

/-- Outcomes of the graph calls. -/
structure GraphCalls where
  beginCapture : Bool
  endCapture : Bool
  instantiate : Bool

instance : Inhabited GraphCalls := ⟨⟨true, true, true⟩⟩

/-- What is left open over one call on a context. -/
structure CallEnv where
  device : Device
  allocator : Allocator
  graphCalls : GraphCalls
  deriving Inhabited

/-- `unsigned char s[32]={'A','_','t','e','n','s','o','r'}` -/
def hsa : Buffer Byte := fun i => [0x41, 0x5F, 0x74, 0x65, 0x6E, 0x73, 0x6F, 0x72].getD i 0
/-- `unsigned char s[32]={'B','_','t','e','n','s','o','r'}` -/
def hsb : Buffer Byte := fun i => [0x42, 0x5F, 0x74, 0x65, 0x6E, 0x73, 0x6F, 0x72].getD i 0

def prlMineCtxCreate (d : Device) (m k n : Nat) : Option PrlMineCtx :=
  if m % 128 ≠ 0 ∨ n % 128 ≠ 0 ∨ k % 128 ≠ 0 then none
  else some {
    m := m, k := k, n := n
    dA := d.mallocI8 0
    dB := d.mallocI8 1
    noise := ⟨d.mallocI8 2, d.mallocI8 3, d.mallocI8 4, d.mallocI8 5⟩
    work := ⟨d.mallocI8 6, d.mallocI8 7, d.mallocU32 0, d.mallocInt 3⟩
    dKey := d.mallocU32 1
    dTgt := d.mallocU32 2
    out := ⟨d.mallocInt 0 0, d.mallocInt 1 0, d.mallocInt 2 0, d.mallocU32 3⟩
    dFoundAttempt := d.mallocInt 4 0
    dKeyB := d.mallocU32 4
    dSA := memcpy (d.mallocU32 5) (asWords hsa) 8
    dSB := memcpy (d.mallocU32 6) (asWords hsb) 8
    dU := d.mallocI8 8
    -- zeros of `calloc`
    heap := fun _ => none
    dKeyBatch := none, dKeyBBatch := none
    keyBatchCap := 0
    batchGraph := none, batchGraphExec := none
    batchGraphCount := 0 }

def prlMineCtxDestroyBatchGraph (c : PrlMineCtx) : PrlMineCtx :=
  { c with batchGraph := none, batchGraphExec := none, batchGraphCount := 0 }

/-- Drop the graph and both key buffers. The capacity stays as it is. -/
def releaseKeyBatch (c : PrlMineCtx) : PrlMineCtx :=
  { prlMineCtxDestroyBatchGraph c with
    heap := cudaFree (cudaFree c.heap c.dKeyBatch) c.dKeyBBatch
    dKeyBatch := none
    dKeyBBatch := none }

/-- The return code and the context. -/
def prlMineCtxEnsureKeyBatch (a : Allocator) (c : PrlMineCtx) (count : Nat) : Nat × PrlMineCtx :=
  if count ≤ c.keyBatchCap then (0, c)
  else
    let c := releaseKeyBatch c
    match cudaMalloc a c.heap (count * 32) with
    | none => (4, c)
    | some (p, heap) =>
        match cudaMalloc a heap (count * 32) with
        | none => (4, { c with heap := heap, dKeyBatch := some p })
        | some (q, heap) =>
            (0, { c with heap := heap, dKeyBatch := some p, dKeyBBatch := some q, keyBatchCap := count })

def prlMineCtxBuildBatchGraph (calls : GraphCalls) (c : PrlMineCtx) (count : Nat) : Nat × PrlMineCtx :=
  if c.batchGraphExec.isSome ∧ c.batchGraphCount = count then (0, c)
  else
    let c := prlMineCtxDestroyBatchGraph c
    if !calls.beginCapture then (4, c)
    else
      let captured : BatchGraph := ⟨c.dKeyBatch, c.dKeyBBatch, count⟩
      if !calls.endCapture then (4, c)
      else
        let c := { c with batchGraph := some captured }
        if !calls.instantiate then (4, c)
        else (0, { c with batchGraphExec := some captured, batchGraphCount := count })

/-- The fills, noise launches and search of a keyed attempt. -/
def keyedAttempt (sched : Nat → Scheduler) (block : Nat → Nat → BlockEnv) (keyA keyB : Buffer U32)
    (c : PrlMineCtx) : PrlMineCtx :=
  let (noise, dU) := generateNoise sched keyA keyB c.dSA c.dSB c.m c.k c.n 128 c.noise c.dU
  let work := mineLaunches (fun i => sched (5 + i)) block c.dA c.dB noise keyA c.dTgt c.m c.k c.n c.work
  { c with noise := noise, dU := dU, work := work }

/-- `k_pow_scan_emit` and the copies back. -/
def emit (c : PrlMineCtx) : MineResult × PrlMineCtx :=
  let c := { c with out := kPowScanEmit c.work.dTr c.m c.n 128 16 16 (c.work.dBest 0) c.out }
  (readBack c.out, c)

/-- `atomicCAS(addr, compare, val)`: what it leaves at the address. -/
def atomicCAS (old compare val : Int) : Int := if old = compare then val else old

/-- The old value of `found_attempt` tells the first winner from later ones. -/
def kPowScanEmitBatch (transcripts : Buffer U32) (m n r th tw : Nat) (bestIdx : Int) (attemptIdx : Nat)
    (foundAttempt : Int) (out : ScanOut) : Int × ScanOut :=
  if bestIdx ≥ totalTiles m n r th tw then (foundAttempt, out)
  else if foundAttempt ≠ sentinel then (atomicCAS foundAttempt sentinel attemptIdx, out)
  else
    let (sr, sc) := powScanIndexToTile bestIdx.toNat (n / r) (r / th) (r / tw)
    (atomicCAS foundAttempt sentinel attemptIdx,
      { found := 1
        aRow := sr * th
        bCol := sc * tw
        trOut := memcpy out.trOut (tileWords transcripts n tw sr sc) 16 })

/-- Attempt `i` of a captured graph. -/
def graphAttempt (d : Device) (keysA keysB : Buffer U32) (c : PrlMineCtx) (i : Nat) : PrlMineCtx :=
  let c := keyedAttempt (fun j => d.schedule (9 * i + j)) (fun bx by' => d.block bx by' i)
    (offset keysA (i * 8)) (offset keysB (i * 8)) c
  let (foundAttempt, out) := kPowScanEmitBatch c.work.dTr c.m c.n 128 16 16 (c.work.dBest 0) i
    c.dFoundAttempt c.out
  { c with dFoundAttempt := foundAttempt, out := out }

/-- The fills a captured graph begins with. -/
def resetOutputs (c : PrlMineCtx) : PrlMineCtx :=
  { c with dFoundAttempt := sentinel, out := { c.out with found := 0, aRow := -1, bCol := -1 } }

/-- `cudaGraphLaunch`. It fails on key buffers that are not live. -/
def cudaGraphLaunch (d : Device) (g : BatchGraph) (c : PrlMineCtx) : Option PrlMineCtx :=
  (wordsAt c.heap g.keysA (g.attempts * 8)).bind fun keysA =>
    (wordsAt c.heap g.keysB (g.attempts * 8)).map fun keysB =>
      (List.range g.attempts).foldl (graphAttempt d keysA keysB) (resetOutputs c)

def prlMineCtxSetInputs (A B : Buffer I8) (c : PrlMineCtx) : PrlMineCtx :=
  { c with dA := memcpy c.dA A (c.m * c.k), dB := memcpy c.dB B (c.k * c.n) }

def prlMineCtxRun (env : CallEnv) (A B EAL EAR EBL EBR : Buffer I8) (key32 target32 : Buffer Byte)
    (c : PrlMineCtx) : MineResult × PrlMineCtx :=
  let r := 128
  let dA := memcpy c.dA A (c.m * c.k)
  let dB := memcpy c.dB B (c.k * c.n)
  let noise : NoiseBuffers := ⟨memcpy c.noise.dEAL EAL (c.m * r), memcpy c.noise.dEAR EAR (r * c.k),
    memcpy c.noise.dEBL EBL (c.k * r), memcpy c.noise.dEBR EBR (r * c.n)⟩
  let dKey := memcpy c.dKey (asWords key32) 8
  let dTgt := memcpy c.dTgt (asWords target32) 8
  let work := mineLaunches env.device.schedule (fun bx by' => env.device.block bx by' 0) dA dB noise dKey
    dTgt c.m c.k c.n c.work
  emit { c with dA := dA, dB := dB, noise := noise, dKey := dKey, dTgt := dTgt, work := work }

def prlMineCtxRunKeyedPreloaded (env : CallEnv) (keyA32 keyB32 target32 : Buffer Byte) (c : PrlMineCtx) :
    MineResult × PrlMineCtx :=
  let c := { c with
    dKey := memcpy c.dKey (asWords keyA32) 8
    dKeyB := memcpy c.dKeyB (asWords keyB32) 8
    dTgt := memcpy c.dTgt (asWords target32) 8 }
  emit (keyedAttempt env.device.schedule (fun bx by' => env.device.block bx by' 0) c.dKey c.dKeyB c)

/-- `prl_mine_ctx_run_keyed` issues the copies of `prl_mine_ctx_set_inputs`, then
what `prl_mine_ctx_run_keyed_preloaded` issues. -/
def prlMineCtxRunKeyed (env : CallEnv) (A B : Buffer I8) (keyA32 keyB32 target32 : Buffer Byte)
    (c : PrlMineCtx) : MineResult × PrlMineCtx :=
  prlMineCtxRunKeyedPreloaded env keyA32 keyB32 target32 (prlMineCtxSetInputs A B c)

/-- The start of a batch call, which leaves key buffers and a graph for `count` attempts. -/
def prepareBatch (env : CallEnv) (count : Nat) (c : PrlMineCtx) : Nat × PrlMineCtx :=
  let (rc, c) := prlMineCtxEnsureKeyBatch env.allocator c count
  if rc ≠ 0 then (rc, c) else prlMineCtxBuildBatchGraph env.graphCalls c count

/-- The copies of the keys and the target and the launch of the graph. -/
def launchBatch (env : CallEnv) (keysA32 keysB32 : Buffer Byte) (count : Nat) (target32 : Buffer Byte)
    (c : PrlMineCtx) : Option PrlMineCtx := do
  let heap ← copyToHeap c.heap c.dKeyBatch (asWords keysA32) (count * 8)
  let heap ← copyToHeap heap c.dKeyBBatch (asWords keysB32) (count * 8)
  let graph ← c.batchGraphExec
  cudaGraphLaunch env.device graph { c with heap := heap, dTgt := memcpy c.dTgt (asWords target32) 8 }

/-- The reported attempt and the outputs, or the return code of the failure. -/
def prlMineCtxRunKeyedPreloadedBatch (env : CallEnv) (keysA32 keysB32 : Buffer Byte) (count : Nat)
    (target32 : Buffer Byte) (c : PrlMineCtx) : Except Nat (Int × MineResult) × PrlMineCtx :=
  if count = 0 then (.error 2, c)
  else
    let (rc, c) := prepareBatch env count c
    if rc ≠ 0 then (.error rc, c)
    else
      match launchBatch env keysA32 keysB32 count target32 c with
      | none => (.error 4, c)
      | some c => (.ok (c.dFoundAttempt, readBack c.out), c)

end Cuda
