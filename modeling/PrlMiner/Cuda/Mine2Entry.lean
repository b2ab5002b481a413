import PrlMiner.Cuda.Mine2Kernel
import PrlMiner.Cuda.Noising
import PrlMiner.Cuda.Outcome

/-! The protocol-valid entry points: one attempt, a batch noised on the device, and
a batch noised on the host. Failing CUDA calls are left out, so the only error
code is the one for dimensions that are not multiples of 128. -/
namespace Cuda

open FixedWidth LittleEndian ParallelWrites Search Reference

def prlMine2Run (d : Device) (A B EAL EAR EBL EBR : Buffer I8) (m k n : Nat)
    (key32 target32 : Buffer Byte) : Except Nat MineResult :=
  let r := 128
  let TH := 2
  let TW := 64
  if m % 128 ≠ 0 ∨ n % 128 ≠ 0 ∨ k % 128 ≠ 0 then .error 2
  else
    let ST := m / TH * (n / TW)
    let dTr := memset (d.mallocU32 0) 0 (ST * 16)
    let dA := memcpy (d.mallocI8 0) A (m * k)
    let dB := memcpy (d.mallocI8 1) B (k * n)
    let dEAL := memcpy (d.mallocI8 2) EAL (m * r)
    let dEAR := memcpy (d.mallocI8 3) EAR (r * k)
    let dEBL := memcpy (d.mallocI8 4) EBL (k * r)
    let dEBR := memcpy (d.mallocI8 5) EBR (r * n)
    let dKey := memcpy (d.mallocU32 1) (asWords key32) 8
    let dTgt := memcpy (d.mallocU32 2) (asWords target32) 8
    let T := 256
    let dAn := launch1 (d.schedule 0) (gridFor (m * k) T) T (kNoiseA dA dEAL dEAR m k r T) (d.mallocI8 6)
    let dBn := launch1 (d.schedule 1) (gridFor (k * n) T) T (kNoiseB dB dEBL dEBR k n r T) (d.mallocI8 7)
    let dTr := launchGrid (d.schedule 2) (m / 128) (n / 128) 1 256
      (fun bx by' bz => kMine2 (d.block bx by' bz) dAn dBn m k n bx by' bz) dTr
    .ok (readBack (scan (d.schedule 3) dTr dKey dTgt m n r TH TW (d.mallocInt 3)
      ⟨d.mallocInt 0 0, d.mallocInt 1 0, d.mallocInt 2 0, d.mallocU32 3⟩))

/-- `k_mine2` over all attempts and the batched scan, which end both batched entry points. -/
def mine2Batch (d : Device) (sGemm sScan : Scheduler) (dAn dBn : Buffer I8) (dTr dKeys dTgt : Buffer U32)
    (m k n natt : Nat) : MineResult :=
  let dTr := launchGrid sGemm (m / 128) (n / 128) natt 256
    (fun bx by' bz => kMine2 (d.block bx by' bz) dAn dBn m k n bx by' bz) dTr
  readBack (scanBatched sScan dTr dKeys dTgt m n 128 2 64 natt (d.mallocInt 2)
    ⟨d.mallocInt 3 0, d.mallocInt 0 0, d.mallocInt 1 0, d.mallocU32 3⟩)

def prlMine2BatchRun (d : Device) (A B EAL EAR EBL EBR : Buffer I8) (m k n natt : Nat)
    (keys target32 : Buffer Byte) : Except Nat MineResult :=
  let r := 128
  let TH := 2
  let TW := 64
  if m % 128 ≠ 0 ∨ n % 128 ≠ 0 ∨ k % 128 ≠ 0 then .error 2
  else
    let natt := if natt < 1 then 1 else natt
    let ST := m / TH * (n / TW)
    let dTr := memset (d.mallocU32 0) 0 (natt * ST * 16)
    let dA := memcpy (d.mallocI8 0) A (m * k)
    let dB := memcpy (d.mallocI8 1) B (k * n)
    let dEAL := memcpy (d.mallocI8 2) EAL (natt * m * r)
    let dEAR := memcpy (d.mallocI8 3) EAR (natt * r * k)
    let dEBL := memcpy (d.mallocI8 4) EBL (natt * k * r)
    let dEBR := memcpy (d.mallocI8 5) EBR (natt * r * n)
    let dKeys := memcpy (d.mallocU32 1) (asWords keys) (natt * 8)
    let dTgt := memcpy (d.mallocU32 2) (asWords target32) 8
    let (dAn, dBn) := noiseAttempts (fun j => d.schedule (2 * j)) (fun j => d.schedule (2 * j + 1)) dA dB
      dEAL dEAR dEBL dEBR m k n r natt (d.mallocI8 6) (d.mallocI8 7)
    .ok (mine2Batch d (d.schedule (2 * natt)) (d.schedule (2 * natt + 1)) dAn dBn dTr dKeys dTgt m k n
      natt)

def prlMine2Search (d : Device) (An Bn : Buffer I8) (m k n natt : Nat) (keys target32 : Buffer Byte) :
    Except Nat MineResult :=
  let TH := 2
  let TW := 64
  if m % 128 ≠ 0 ∨ n % 128 ≠ 0 ∨ k % 128 ≠ 0 then .error 2
  else
    let natt := if natt < 1 then 1 else natt
    let ST := m / TH * (n / TW)
    let dTr := memset (d.mallocU32 0) 0 (natt * ST * 16)
    let dAn := memcpy (d.mallocI8 0) An (natt * m * k)
    let dBn := memcpy (d.mallocI8 1) Bn (natt * k * n)
    let dKeys := memcpy (d.mallocU32 1) (asWords keys) (natt * 8)
    let dTgt := memcpy (d.mallocU32 2) (asWords target32) 8
    .ok (mine2Batch d (d.schedule 0) (d.schedule 1) dAn dBn dTr dKeys dTgt m k n natt)

/-- Dimensions that the entry points take. -/
structure Mod128 (m k n : Nat) : Prop where
  rows : 128 ∣ m
  depth : 128 ∣ k
  cols : 128 ∣ n

section Entry

variable {m k n natt : Nat} (dims : Mod128 m k n)
include dims

theorem Mod128.checks : ¬ (m % 128 ≠ 0 ∨ n % 128 ≠ 0 ∨ k % 128 ≠ 0) := by
  have hm := Nat.mod_eq_zero_of_dvd dims.rows
  have hk := Nat.mod_eq_zero_of_dvd dims.depth
  have hn := Nat.mod_eq_zero_of_dvd dims.cols
  omega

theorem Mod128.shape : TileShape m n 128 2 64 where
  rankPos := by decide
  rankRows := dims.rows
  rankCols := dims.cols
  tileHPos := by decide
  tileWPos := by decide
  tileH := by decide
  tileW := by decide

theorem Mod128.totalTiles_eq : totalTiles m n 128 2 64 = m / 2 * (n / 64) := by
  obtain ⟨p, rfl⟩ := dims.rows
  obtain ⟨q, rfl⟩ := dims.cols
  have hRows : 128 * p / 2 = 64 * p := by omega
  have hCols : 128 * q / 64 = 2 * q := by omega
  rw [totalTiles, hRows, hCols, Nat.mul_div_cancel_left p (by decide),
    Nat.mul_div_cancel_left q (by decide)]
  ring

/-- The launch leaves the transcripts of every attempt. -/
theorem kMine2_holds (s : Scheduler) (env : Nat → Nat → Nat → BlockEnv) (dAn dBn : Buffer I8)
    (dTr : Buffer U32) {j : Nat} (hj : j < natt) {A B : Mat I8}
    (hA : ∀ i < m, ∀ c < k, matrixOf k (offset dAn (j * m * k)) i c = A i c)
    (hB : ∀ c < k, ∀ i < n, matrixOf n (offset dBn (j * k * n)) c i = B c i) :
    HoldsTranscripts (offset (launchGrid s (m / 128) (n / 128) natt 256
        (fun bx by' bz => kMine2 (env bx by' bz) dAn dBn m k n bx by' bz)
        (memset dTr 0 (natt * (m / 2 * (n / 64)) * 16))) (j * (totalTiles m n 128 2 64 * 16)))
      A B m k n 128 2 64 := by
  refine HoldsTranscripts.congr ?_ hA hB
  intro sr hsr sc hsc w hw
  have hAddr : j * (totalTiles m n 128 2 64 * 16) + ((sr * (n / 64) + sc) * 16 + w) =
      wordAddr (m / 2) (n / 64) j sr sc w := by
    rw [dims.totalTiles_eq, wordAddr, idx, idx, idx]
    ring
  have hLt : wordAddr (m / 2) (n / 64) j sr sc w < natt * (m / 2 * (n / 64)) * 16 := by
    rw [← Nat.mul_assoc natt]
    exact idx_lt (idx_lt (idx_lt hj hsr) hsc) hw
  rw [offset, hAddr]
  exact launch_kMine2 s env dAn dBn _ dims.rows dims.cols dims.depth hj hsr hsc hw
    (memset_of_lt hLt)

/-- One attempt reports on its noised product. -/
theorem prlMine2Run_eq (d : Device) (A B EAL EAR EBL EBR : Buffer I8) (key32 target32 : Buffer Byte) :
    prlMine2Run d A B EAL EAR EBL EBR m k n key32 target32 =
      .ok (attemptResult (NoisyGemm.addNoise 128 (matrixOf k A) (matrixOf 128 EAL) (matrixOf k EAR))
        (NoisyGemm.addNoise 128 (matrixOf n B) (matrixOf 128 EBL) (matrixOf n EBR)) (asWords key32)
        (asWords target32) m k n 128 2 64 (d.mallocU32 3)) := by
  rw [prlMine2Run, if_neg dims.checks]
  refine congrArg Except.ok (readBack_scan _ _ _ dims.shape ?_ (fun i hi => memcpy_of_lt hi)
    (fun i hi => memcpy_of_lt hi))
  have hHolds := fun An Bn A B hA hB => @kMine2_holds m k n 1 dims (d.schedule 2) d.block An Bn
    (d.mallocU32 0) 0 (by decide) A B hA hB
  simp only [Nat.zero_mul, Nat.one_mul, offset_zero] at hHolds
  apply hHolds
  · exact fun i hi c hc => launch_noise_copied _ _ _ _ _ _ _ _ hi hc
  · exact fun c hc i hi => launch_noise_copied _ _ _ _ _ _ _ _ hc hi

/-- A batch over noised matrices in device memory. -/
theorem mine2Batch_eq (d : Device) (sGemm sScan : Scheduler) (dAn dBn : Buffer I8)
    (dTr dKeys dTgt : Buffer U32) {A B : Nat → Mat I8} {keys : Nat → Buffer U32} {target : Buffer U32}
    (hBound : natt * (m / 2) * (n / 64) ≤ sentinel)
    (hA : ∀ j < natt, ∀ i < m, ∀ c < k, matrixOf k (offset dAn (j * m * k)) i c = A j i c)
    (hB : ∀ j < natt, ∀ c < k, ∀ i < n, matrixOf n (offset dBn (j * k * n)) c i = B j c i)
    (hKeys : ∀ j < natt, ∀ i < 8, offset dKeys (j * 8) i = keys j i)
    (hTarget : ∀ i < 8, dTgt i = target i) :
    mine2Batch d sGemm sScan dAn dBn (memset dTr 0 (natt * (m / 2 * (n / 64)) * 16)) dKeys dTgt m k n
        natt = batchResult A B keys target m k n 128 2 64 natt (d.mallocU32 3) := by
  rw [mine2Batch]
  refine readBack_scanBatched _ _ _ dims.shape ?_ (fun j hj => ?_) hKeys hTarget
  · rw [dims.totalTiles_eq, ← Nat.mul_assoc]
    exact hBound
  · exact kMine2_holds dims sGemm d.block dAn dBn dTr hj (hA j hj) (hB j hj)

/-- A batch noised on the host reports on the matrices it is given. -/
theorem prlMine2Search_eq (d : Device) {An Bn : Buffer I8} (keys target32 : Buffer Byte)
    {A B : Nat → Mat I8} (hNatt : 1 ≤ natt) (hBound : natt * (m / 2) * (n / 64) ≤ sentinel)
    (hA : ∀ j < natt, ∀ i < m, ∀ c < k, matrixOf k (offset An (j * m * k)) i c = A j i c)
    (hB : ∀ j < natt, ∀ c < k, ∀ i < n, matrixOf n (offset Bn (j * k * n)) c i = B j c i) :
    prlMine2Search d An Bn m k n natt keys target32 =
      .ok (batchResult A B (fun j => asWords (offset keys (j * 32))) (asWords target32) m k n 128 2 64
        natt (d.mallocU32 3)) := by
  have hCount : (if natt < 1 then 1 else natt) = natt := if_neg (by omega)
  rw [prlMine2Search, if_neg dims.checks]
  simp only [hCount]
  refine congrArg Except.ok (mine2Batch_eq dims d _ _ _ _ _ _ _ hBound (fun j hj i hi c hc => ?_)
    (fun j hj c hc i hi => ?_) (fun j hj i hi => keys_memcpy _ _ hj hi) (fun i hi => memcpy_of_lt hi))
  · rw [matrixOf_offset_memcpy _ _ hj hi hc, hA j hj i hi c hc]
  · rw [matrixOf_offset_memcpy _ _ hj hc hi, hB j hj c hc i hi]

/-- A batch noised on the device reports on its noised products. -/
theorem prlMine2BatchRun_eq (d : Device) (A B EAL EAR EBL EBR : Buffer I8) (keys target32 : Buffer Byte)
    (hNatt : 1 ≤ natt) (hBound : natt * (m / 2) * (n / 64) ≤ sentinel) :
    prlMine2BatchRun d A B EAL EAR EBL EBR m k n natt keys target32 =
      .ok (batchResult
        (fun j => NoisyGemm.addNoise 128 (matrixOf k A) (matrixOf 128 (offset EAL (j * m * 128)))
          (matrixOf k (offset EAR (j * 128 * k))))
        (fun j => NoisyGemm.addNoise 128 (matrixOf n B) (matrixOf 128 (offset EBL (j * k * 128)))
          (matrixOf n (offset EBR (j * 128 * n))))
        (fun j => asWords (offset keys (j * 32))) (asWords target32) m k n 128 2 64 natt
        (d.mallocU32 3)) := by
  have hCount : (if natt < 1 then 1 else natt) = natt := if_neg (by omega)
  rw [prlMine2BatchRun, if_neg dims.checks]
  simp only [hCount]
  rw [noiseAttempts_eq]
  refine congrArg Except.ok (mine2Batch_eq dims d _ _ _ _ _ _ _ hBound (fun j hj i hi c hc => ?_)
    (fun j hj c hc i hi => ?_) (fun j hj i hi => keys_memcpy _ _ hj hi) (fun i hi => memcpy_of_lt hi))
  · refine (noiseLoop_apply (fun j => d.schedule (2 * j)) _ _ _ _ m k 128 hj hi hc).trans ?_
    exact addNoise_congr (matrixOf_memcpy _ _ hi hc)
      (fun x hx => matrixOf_offset_memcpy _ _ hj hi hx)
      (fun x hx => matrixOf_offset_memcpy _ _ hj hx hc)
  · refine (noiseLoop_apply (fun j => d.schedule (2 * j + 1)) _ _ _ _ k n 128 hj hc hi).trans ?_
    exact addNoise_congr (matrixOf_memcpy _ _ hc hi)
      (fun x hx => matrixOf_offset_memcpy _ _ hj hc hx)
      (fun x hx => matrixOf_offset_memcpy _ _ hj hx hi)

end Entry

end Cuda
