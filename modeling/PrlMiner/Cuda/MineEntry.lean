import PrlMiner.Cuda.MineKernel
import PrlMiner.Cuda.Mine2Entry
import PrlMiner.Cuda.NoiseGen

/-! `prl_mine_run`, one attempt with 16x16 tiles in fresh memory, and the launches it
shares with the calls on a persistent context. -/
namespace Cuda

open FixedWidth LittleEndian ParallelWrites Reference

/-- Buffers that an attempt computes in. -/
structure Work where
  dAn : Buffer I8
  dBn : Buffer I8
  dTr : Buffer U32
  dBest : Buffer Int

/-- From the fill of `dTr` to `k_pow_scan_find`. -/
def mineLaunches (sched : Nat → Scheduler) (block : Nat → Nat → BlockEnv) (dA dB : Buffer I8)
    (noise : NoiseBuffers) (dKey dTgt : Buffer U32) (m k n : Nat) (work : Work) : Work :=
  let r := 128
  let T := 256
  let ST := m / 16 * (n / 16)
  let dTr := memset work.dTr 0 (ST * 16)
  let dAn := launch1 (sched 0) (gridFor (m * k) T) T (kNoiseA dA noise.dEAL noise.dEAR m k r T) work.dAn
  let dBn := launch1 (sched 1) (gridFor (k * n) T) T (kNoiseB dB noise.dEBL noise.dEBR k n r T) work.dBn
  let dTr := launchGrid (sched 2) (m / 128) (n / 128) 1 256
    (fun bx by' _ => kMine (block bx by') dAn dBn k n bx by') dTr
  ⟨dAn, dBn, dTr, scanFind (sched 3) dTr dKey dTgt m n 128 16 16 work.dBest⟩

/-- The factors of an attempt, noised: `X + L @ R` as the reference adds it. -/
def noisedA (k : Nat) (A : Buffer I8) (noise : NoiseBuffers) : Mat I8 :=
  NoisyGemm.addNoise 128 (matrixOf k A) (matrixOf 128 noise.dEAL) (matrixOf k noise.dEAR)

def noisedB (n : Nat) (B : Buffer I8) (noise : NoiseBuffers) : Mat I8 :=
  NoisyGemm.addNoise 128 (matrixOf n B) (matrixOf 128 noise.dEBL) (matrixOf n noise.dEBR)

section Launches

variable {m k n : Nat} (dims : Mod128 m k n)
include dims

theorem Mod128.mineShape : TileShape m n 128 16 16 where
  rankPos := by decide
  rankRows := dims.rows
  rankCols := dims.cols
  tileHPos := by decide
  tileWPos := by decide
  tileH := by decide
  tileW := by decide

/-- The launches leave the transcripts of the noised product, whatever the
working buffers held. -/
theorem mineLaunches_holds (sched : Nat → Scheduler) (block : Nat → Nat → BlockEnv) (dA dB : Buffer I8)
    (noise : NoiseBuffers) (dKey dTgt : Buffer U32) (work : Work) {NA NB : Mat I8}
    (hA : ∀ i < m, ∀ c < k, noisedA k dA noise i c = NA i c)
    (hB : ∀ c < k, ∀ j < n, noisedB n dB noise c j = NB c j) :
    HoldsTranscripts (mineLaunches sched block dA dB noise dKey dTgt m k n work).dTr NA NB m k n 128 16 16 :=
  HoldsTranscripts.congr
    (launch_kMine (sched 2) block _ _ _ dims.rows dims.cols dims.depth (fun _ ha => memset_of_lt ha))
    (fun i hi c hc => (launch_noiseThread _ _ _ _ _ (by decide) hi hc).trans (hA i hi c hc))
    (fun c hc j hj => (launch_noiseThread _ _ _ _ _ (by decide) hc hj).trans (hB c hc j hj))

/-- What one attempt hands out. -/
theorem readBack_mineLaunches (sched : Nat → Scheduler) (block : Nat → Nat → BlockEnv)
    (dA dB : Buffer I8) (noise : NoiseBuffers) {dKey dTgt key target : Buffer U32} (work : Work)
    {NA NB : Mat I8} (out : ScanOut) (hA : ∀ i < m, ∀ c < k, noisedA k dA noise i c = NA i c)
    (hB : ∀ c < k, ∀ j < n, noisedB n dB noise c j = NB c j) (hKey : ∀ i < 8, dKey i = key i)
    (hTarget : ∀ i < 8, dTgt i = target i) :
    let after := mineLaunches sched block dA dB noise dKey dTgt m k n work
    readBack (kPowScanEmit after.dTr m n 128 16 16 (after.dBest 0) out) =
      attemptResult NA NB key target m k n 128 16 16 out.trOut :=
  readBack_scan (sched 3) work.dBest out dims.mineShape
    (mineLaunches_holds dims sched block dA dB noise dKey dTgt work hA hB) hKey hTarget

end Launches

end Cuda
