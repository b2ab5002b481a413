import PrlMiner.Cuda.GpuSearch
import PrlMiner.Library.JsonRoundTrip
import PrlMiner.Miner.CpuBackend

/-! The miners on top of `miner_base`: `fast_mine.py` and the offline path of
`luckypool_miner.py`, which search batches on the device and confirm the winner, and
`simnet_solo.py`, which tries one attempt after the other. Printing is left out. -/
namespace Miner.FastMine

open LittleEndian FixedWidth Cuda Reference

/-- `CommitmentHash`. The seeds are digests. -/
structure Commitment where
  noiseSeedA : Bytes 32
  noiseSeedB : Bytes 32

/-- `GPUMatmulConfigFactory.create(256, 128)`. A hash tile fits into a matmul tile. -/
structure MatmulConfig where
  matmulTileH : Nat
  matmulTileW : Nat
  hashTileH : Nat
  hashTileW : Nat
  tileHFits : (hashTileH : Int) ≤ matmulTileH
  tileWFits : (hashTileW : Int) ≤ matmulTileW

/-- What the miners use of `miner_base`. `noisyGemm` is the method `noisy_gemm` of an
instance, with the opened block where it has found one; its matrices have the given
`m`, `k` and `n`. `createProof` is `create_proof(ob, header).to_base64()`. -/
structure MinerBase where
  config : MatmulConfig
  commitmentHash : Mat I8 → Mat I8 → List Byte → Commitment
  generateNoiseMetrices : Bytes 32 → Bytes 32 → Nat → Nat → Nat → NoiseGenerator.Noise
  noisyGemm : NoisyGemm → Nat → Nat → Nat → Mat I8 → Mat I8 → NoiseGenerator.Noise → Commitment → Int →
    Except PyError (Option OpenedBlock)
  createProof : OpenedBlock → List Byte → Python.Text

/-- How a miner fails: `gpu_search` exits, or an exception. -/
inductive Failure where
  | exits (rc : Nat)
  | raised (e : PyError)
  | other (text : String)

/-- An attempt of a batch. -/
structure Attempt where
  A : Mat I8
  B : Mat I8
  E : NoiseGenerator.Noise
  commitment : Commitment

/-- Random matrices, as they are drawn for one attempt after the other. -/
abbrev Draws := Nat → Mat I8 × Mat I8

/-- `gpu_search` of `natt` attempts. -/
def batchSearch (d : Device) (m k n natt : Nat) (attempts : Nat → Attempt) (targetLe : Bytes 32) :
    Except Failure (Int × Int × Int × List U32) :=
  if natt = 0 then .error (.raised (.valueError "need at least one array to stack"))
  else
    (gpuSearch d (stack m k fun j => noiseInt8 128 (attempts j).A (attempts j).E.E_AL (attempts j).E.E_AR)
      (stack k n fun j => noiseInt8 128 (attempts j).B (attempts j).E.E_BL (attempts j).E.E_BR)
      (joinKeys fun j => (attempts j).commitment.noiseSeedA) (byteAt targetLe) m k n natt).mapError .exits

/-- `int(target).to_bytes(32, "little")`. -/
def targetLe (target : Int) : Except Failure (Bytes 32) :=
  if target < 0 then .error (.other "can't convert negative int to unsigned")
  else if target < 2 ^ 256 then .ok (toBytes 32 target.toNat)
  else .error (.other "int too big to convert")

namespace MinerBase

variable (base : MinerBase)

abbrev K : Nat := 256
abbrev M : Nat := base.config.matmulTileH
abbrev N : Nat := base.config.matmulTileW

/-- The instance of `NoisyGemm`. -/
def gemm : NoisyGemm :=
  ⟨128, 128, base.config.hashTileH, base.config.hashTileW, base.config.matmulTileH, base.config.matmulTileW,
    rangeFits_harness, base.config.tileHFits, base.config.tileWFits⟩

def attempt (header : List Byte) (draw : Mat I8 × Mat I8) : Attempt :=
  let commitment := base.commitmentHash draw.1 draw.2 header
  ⟨draw.1, draw.2,
    base.generateNoiseMetrices commitment.noiseSeedA commitment.noiseSeedB base.M K base.N, commitment⟩

/-- `noisy_gemm` on an attempt. -/
def confirm (target : Int) (a : Attempt) : Except Failure (Option OpenedBlock) :=
  (base.noisyGemm base.gemm base.M K base.N a.A a.B a.E a.commitment target).mapError .raised

/-- The batches of `fast_mine.live`: the proof that is submitted. `devices` is the
device over the batches. -/
def liveLoop (devices : Nat → Device) (natt : Nat) (header : List Byte) (adjTarget : Int) (tgtLe : Bytes 32)
    (draws : Draws) (batch : Nat) : Nat → Except Failure (Option Python.Text)
  | 0 => .ok none
  | left + 1 => do
      let attempts := fun j => base.attempt header (draws (batch * natt + j))
      let res ← batchSearch (devices batch) base.M K base.N natt attempts tgtLe
      if res.1 < 0 then liveLoop devices natt header adjTarget tgtLe draws (batch + 1) left
      else
        match ← base.confirm adjTarget (attempts res.1.toNat) with
        | none => liveLoop devices natt header adjTarget tgtLe draws (batch + 1) left
        | some ob => return some (base.createProof ob header)

/-- `fast_mine.live` on a job. -/
def live (devices : Nat → Device) (natt maxBatches : Nat) (header : List Byte) (adjTarget : Int) (draws : Draws) :
    Except Failure (Option Python.Text) := do
  let tgtLe ← targetLe adjTarget
  base.liveLoop devices natt header adjTarget tgtLe draws 0 maxBatches

end MinerBase

end Miner.FastMine
