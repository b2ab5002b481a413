import PrlMiner.Cuda.NaiveRun
import PrlMiner.Miner.CudaBackend

/-! The backend that searches with the reference, and the backend of the naive
kernels, which draws the same matrices and keys. -/
namespace Miner

open LittleEndian FixedWidth Cuda Reference

/-- The text of an exception of the reference. -/
def errorText : PyError → String
  | .valueError text => text
  | .zeroDivisionError => "integer division or modulo by zero"
  | .assertionError => ""

def ofReference {α : Type} (x : Except PyError α) : Except Raised α := x.mapError fun e => .exception (errorText e)

/-- `tile` are the entries `rows` and `cols`. -/
structure CpuDetail where
  attempt : Int
  tile : Option (List Nat × List Nat)

structure CpuResult where
  found : Bool
  plainProof : Option (List Byte)
  workUnits : Int
  detail : CpuDetail

def CpuResult.toBackendResult (result : CpuResult) : BackendResult :=
  ⟨result.found, result.plainProof, result.workUnits, none⟩

/-- `tile` are the entries `a_row` and `b_col`. -/
structure NaiveDetail where
  attempt : Int
  tile : Option (Int × Int)

structure NaiveSearchResult where
  found : Bool
  plainProof : Option (List Byte)
  workUnits : Int
  detail : NaiveDetail

def NaiveSearchResult.toBackendResult (result : NaiveSearchResult) : BackendResult :=
  ⟨result.found, result.plainProof, result.workUnits, none⟩

/-- `proof.encode()`: the text that `json.dumps` prints is ASCII. -/
def encodeAscii (text : Python.Text) : List Byte := text.map fun c => BitVec.ofNat 8 c.val

theorem rangeFits_harness : (128 : Int) ≤ 128 := le_rfl
theorem tileFits_harness : (16 : Int) ≤ 128 := by decide

variable (pk : Packages)

namespace CpuBackend

abbrev M : Nat := 128
abbrev K : Nat := 256
abbrev N : Nat := 256
abbrev R : Nat := 128

/-- `_gemm`. -/
def gemm : NoisyGemm := ⟨128, 128, 16, 16, 128, 128, rangeFits_harness, tileFits_harness, tileFits_harness⟩

/-- Generated noise and the reference run, keyed with `key_A`. -/
def evaluate (A B : Buffer I8) (keyA keyB : Bytes 32) (powTarget : Int) : Except PyError RunResult := do
  let E ← productionNoise.generate Blake3.keyedHash keyA keyB M K N
  gemm.run Blake3.keyedHash M K N R (matrixOf K A) (matrixOf N B) E keyA powTarget

/-- `A`, `B`, `key_A` and `key_B` of an attempt. -/
def draw (job : MiningJob) (attempt : Int) :
    Except String ((Buffer I8 × Buffer I8) × Bytes 32 × Bytes 32) := do
  let hdr := job.incompleteHeaderBytes
  let nonce ← Python.toBytesLittle 8 attempt
  -- `b"A"` and `b"B"`
  .ok (pk.integers (ofDigits 8 (byteAt (pk.blake3 (hdr ++ nonce)))),
    pk.blake3 (hdr ++ [0x41]), pk.blake3 (hdr ++ [0x42]))

def plainProof (ob : OpenedBlock) : List Byte :=
  let words := ob.transcript_words.map fun w => .str (CudaMineBackend.hexWord w)
  encodeAscii (Python.dumps pk.tables (.obj [(Python.text "_harness", .bool true),
    (Python.text "A_row_indices", .arr (ob.A_row_indices.map fun i => .int i)),
    (Python.text "B_column_indices", .arr (ob.B_column_indices.map fun j => .int j)),
    (Python.text "transcript_words", .arr words)]))

/-- What a search reports. -/
def report (attempt : Int) (res : RunResult) : Except Raised CpuResult :=
  let work : Int := M * K * N
  if res.found = false then .ok ⟨false, none, work, attempt, none⟩
  else
    match res.openedBlock with
    | none => .error (.exception "'NoneType' object has no attribute 'A_row_indices'")
    | some ob => .ok ⟨true, some (plainProof pk ob), work, attempt,
        some (ob.A_row_indices.take 1, ob.B_column_indices.take 1)⟩

def search (job : MiningJob) (attempt : Int) : Except Raised CpuResult := do
  let ((A, B), keyA, keyB) ← raising (draw pk job attempt)
  let res ← ofReference (evaluate A B keyA keyB job.target)
  report pk attempt res

end CpuBackend

/-- What is left open over one search of the naive kernels: the device, the views of
their blocks, and the return code of the CUDA calls. -/
structure NaiveEnv where
  device : Device
  views : Nat → Nat → Nat → Naive.ScratchView
  cudaRc : Nat
  lastError : String

/-- `NaiveCuda.run`. -/
def naiveCudaRun (env : NaiveEnv) (m k n r : Nat) (A B E_AL E_AR E_BL E_BR : Buffer I8) (powKey : Bytes 32)
    (powTarget : Int) (hashTile : Nat) : Except Raised Naive.NaiveResult := do
  let target ← raising (CudaMineBackend.targetBytes powTarget)
  match Naive.prlNaiveRun env.device env.views A B E_AL E_AR E_BL E_BR m k n r hashTile hashTile
      (byteAt powKey) target with
  | .error rc => .error (.exception s!"prl_naive_run rc={rc}: {env.lastError}")
  | .ok res =>
      if env.cudaRc ≠ 0 then .error (.exception s!"prl_naive_run rc={env.cudaRc}: {env.lastError}")
      else .ok res

namespace CudaNaiveBackend

abbrev M : Nat := 128
abbrev K : Nat := 256
abbrev N : Nat := 256
abbrev R : Nat := 128

def plainProof (res : MineResult) : List Byte :=
  let words := res.trOut.map fun w => .str (CudaMineBackend.hexWord w)
  encodeAscii (Python.dumps pk.tables (.obj [(Python.text "_harness", .bool true),
    (Python.text "a_row", .int res.aRow), (Python.text "b_col", .int res.bCol),
    (Python.text "transcript_words", .arr words)]))

/-- What a search reports. -/
def report (attempt : Int) (res : MineResult) : NaiveSearchResult :=
  let work : Int := M * K * N
  if res.found = 0 then ⟨false, none, work, attempt, none⟩
  else ⟨true, some (plainProof pk res), work, attempt, some (res.aRow, res.bCol)⟩

def search (env : NaiveEnv) (job : MiningJob) (attempt : Int) : Except Raised NaiveSearchResult := do
  let ((A, B), keyA, keyB) ← raising (CpuBackend.draw pk job attempt)
  let E ← ofReference (productionNoise.generate Blake3.keyedHash keyA keyB M K N)
  let res ← naiveCudaRun env M K N R A B (flat R E.E_AL) (flat K E.E_AR) (flat R E.E_BL) (flat N E.E_BR)
    keyA job.target 16
  .ok (report pk attempt res.toMineResult)

end CudaNaiveBackend

/-- Entries that `rng.integers(-64, 64)` draws. -/
def DrawnInRange (A B : Buffer I8) : Prop :=
  (∀ x < CpuBackend.M * CpuBackend.K, -64 ≤ (A x).toInt ∧ (A x).toInt < 64) ∧
    ∀ x < CpuBackend.K * CpuBackend.N, -64 ≤ (B x).toInt ∧ (B x).toInt < 64

def Packages.InRange : Prop := ∀ seed, DrawnInRange (pk.integers seed).1 (pk.integers seed).2

end Miner
