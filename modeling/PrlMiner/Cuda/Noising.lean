import PrlMiner.Cuda.Device
import PrlMiner.Reference.NoisyGemm

/-! Noising, on the device over int32 and on the host over int64 with an inner
cast to int8. Both are the sum over int8. -/
namespace Cuda

open FixedWidth LittleEndian ParallelWrites Reduction Reference

/-- One thread of a noising kernel: `X : rows x cols` plus `L @ R` of inner
dimension `r`, accumulated in an `int` and cast down once. -/
def noiseThread (X L R : Buffer I8) (rows cols r blockDim blockIdx threadIdx : Nat) :
    List (Write I8) :=
  let x := blockIdx * blockDim + threadIdx
  if x ≥ rows * cols then []
  else
    let i := x / cols
    let j := x % cols
    let e : I32 := accumulate r fun c =>
      (L (idx i c r)).signExtend 32 * (R (idx c j cols)).signExtend 32
    [store x (((X x).signExtend 32 + e).setWidth 8)]

def kNoiseA (A EAL EAR : Buffer I8) (m k r blockDim blockIdx threadIdx : Nat) : List (Write I8) :=
  noiseThread A EAL EAR m k r blockDim blockIdx threadIdx

def kNoiseB (B EBL EBR : Buffer I8) (k n r blockDim blockIdx threadIdx : Nat) : List (Write I8) :=
  noiseThread B EBL EBR k n r blockDim blockIdx threadIdx

/-- `noise_int8(M, L, Rr)` of `fast_mine.py`. -/
def noiseInt8 (r : Nat) (M L Rr : Mat I8) : Mat I8 :=
  let E := narrow 8 (matmul r (i64 L) (i64 Rr))
  narrow 8 fun i j => (M i j).signExtend 16 + (E i j).signExtend 16

theorem noiseInt8_eq_addNoise (r : Nat) (M L Rr : Mat I8) :
    noiseInt8 r M L Rr = NoisyGemm.addNoise r M L Rr := rfl

/-- The casts of the reference leave the sum over int8. -/
theorem addNoise_eq (r : Nat) (x e_l e_r : Mat I8) (i j : Nat) :
    NoisyGemm.addNoise r x e_l e_r i j = x i j + accumulate r (fun c => e_l i c * e_r c j) := by
  rw [NoisyGemm.addNoise, narrow, BitVec.setWidth_add _ _ (by decide),
    setWidth_signExtend (by decide), setWidth_signExtend (by decide), BitVec.signExtend_eq,
    BitVec.signExtend_eq, narrow_matmul (by decide)]
  simp only [BitVec.signExtend_eq]

/-- An entry depends on one row and one column of the noise factors. -/
theorem addNoise_congr {X X' L L' R R' : Mat I8} {r i j : Nat} (hX : X i j = X' i j)
    (hL : ∀ c < r, L i c = L' i c) (hR : ∀ c < r, R c j = R' c j) :
    NoisyGemm.addNoise r X L R i j = NoisyGemm.addNoise r X' L' R' i j := by
  rw [addNoise_eq, addNoise_eq, hX]
  exact congrArg (X' i j + ·) (accumulate_congr fun c hc => by rw [hL c hc, hR c hc])

/-- The kernel's casts leave it too. -/
theorem setWidth_noise (r : Nat) (x : I8) (l u : Nat → I8) :
    (x.signExtend 32 + accumulate r fun c => (l c).signExtend 32 * (u c).signExtend 32).setWidth 8 =
      x + accumulate r (fun c => l c * u c) := by
  rw [BitVec.setWidth_add _ _ (by decide), setWidth_signExtend (by decide), BitVec.signExtend_eq,
    setWidth_accumulate (by decide)]
  simp only [BitVec.setWidth_mul _ _ (show 8 ≤ 32 by decide), setWidth_signExtend (show 8 ≤ 32 by decide),
    BitVec.signExtend_eq]

/-- A noising launch writes the noised matrix of the reference, whatever was in
its output buffer and in whatever order the threads run. -/
theorem launch_noiseThread (s : Scheduler) (X L R out : Buffer I8) {rows cols r blockDim i j : Nat}
    (hBlock : 0 < blockDim) (hi : i < rows) (hj : j < cols) :
    matrixOf cols (launch1 s (gridFor (rows * cols) blockDim) blockDim
        (noiseThread X L R rows cols r blockDim) out) i j =
      NoisyGemm.addNoise r (matrixOf cols X) (matrixOf r L) (matrixOf cols R) i j := by
  rw [matrixOf, launch1_store s hBlock
    (fun x => ((X x).signExtend 32 + accumulate r fun c =>
      (L (idx (x / cols) c r)).signExtend 32 * (R (idx c (x % cols) cols)).signExtend 32).setWidth 8)
    (fun b t => ?_) (idx_lt hi hj)]
  · rw [setWidth_noise, addNoise_eq, idx_div hj, idx_mod hj]
    rfl
  · rw [noiseThread]
    by_cases h : b * blockDim + t < rows * cols
    · rw [if_pos h, if_neg (by omega)]
    · rw [if_neg h, if_pos (by omega)]

theorem noiseThread_addr (X L R : Buffer I8) (rows cols r blockDim b t : Nat) :
    ∀ w ∈ noiseThread X L R rows cols r blockDim b t, w.addr < rows * cols := by
  intro w hw
  rw [noiseThread] at hw
  obtain ⟨hIn, hw⟩ := List.mem_ite_nil_left.mp hw
  rw [List.mem_singleton.mp hw, store_addr]
  omega

/-- The same from copies of the factors in device memory. -/
theorem launch_noise_copied (s : Scheduler) (dX dL dR X L R out : Buffer I8) {rows cols r i j : Nat}
    (hi : i < rows) (hj : j < cols) :
    matrixOf cols (launch1 s (gridFor (rows * cols) 256) 256 (noiseThread (memcpy dX X (rows * cols))
        (memcpy dL L (rows * r)) (memcpy dR R (r * cols)) rows cols r 256) out) i j =
      NoisyGemm.addNoise r (matrixOf cols X) (matrixOf r L) (matrixOf cols R) i j := by
  rw [launch_noiseThread s _ _ _ out (by decide) hi hj]
  exact addNoise_congr (matrixOf_memcpy _ _ hi hj) (fun c hc => matrixOf_memcpy _ _ hi hc)
    (fun c hc => matrixOf_memcpy _ _ hc hj)

/-- One noising launch for each attempt, from its slices of the noise into its
slice of the output. -/
def noiseLoop (sched : Nat → Scheduler) (X L R : Buffer I8) (rows cols r natt : Nat) (out : Buffer I8) :
    Buffer I8 :=
  (List.range natt).foldl (fun out j =>
    launchAt (sched j) (j * rows * cols) (gridFor (rows * cols) 256) 256
      (noiseThread X (offset L (j * rows * r)) (offset R (j * r * cols)) rows cols r 256) out) out

/-- The noising loop of a batch, which launches for both factors of an attempt in turn. -/
def noiseAttempts (sA sB : Nat → Scheduler) (dA dB dEAL dEAR dEBL dEBR : Buffer I8) (m k n r natt : Nat)
    (dAn dBn : Buffer I8) : Buffer I8 × Buffer I8 :=
  (List.range natt).foldl (fun (dAn, dBn) j =>
    (launchAt (sA j) (j * m * k) (gridFor (m * k) 256) 256
      (kNoiseA dA (offset dEAL (j * m * r)) (offset dEAR (j * r * k)) m k r 256) dAn,
    launchAt (sB j) (j * k * n) (gridFor (k * n) 256) 256
      (kNoiseB dB (offset dEBL (j * k * r)) (offset dEBR (j * r * n)) k n r 256) dBn)) (dAn, dBn)

/-- The two factors do not meet. -/
theorem noiseAttempts_eq (sA sB : Nat → Scheduler) (dA dB dEAL dEAR dEBL dEBR : Buffer I8)
    (m k n r natt : Nat) (dAn dBn : Buffer I8) :
    noiseAttempts sA sB dA dB dEAL dEAR dEBL dEBR m k n r natt dAn dBn =
      (noiseLoop sA dA dEAL dEAR m k r natt dAn, noiseLoop sB dB dEBL dEBR k n r natt dBn) := by
  induction natt with
  | zero => rfl
  | succ q ih =>
      rw [noiseAttempts, List.range_succ, List.foldl_append, ← noiseAttempts, ih, noiseLoop, noiseLoop,
        noiseLoop, noiseLoop, List.range_succ, List.foldl_append, List.foldl_append]
      rfl

/-- Every attempt ends up with its own noised matrix. -/
theorem noiseLoop_apply (sched : Nat → Scheduler) (X L R out : Buffer I8) (rows cols r : Nat)
    {natt j i c : Nat} (hj : j < natt) (hi : i < rows) (hc : c < cols) :
    matrixOf cols (offset (noiseLoop sched X L R rows cols r natt out) (j * rows * cols)) i c =
      NoisyGemm.addNoise r (matrixOf cols X) (matrixOf r (offset L (j * rows * r)))
        (matrixOf cols (offset R (j * r * cols))) i c := by
  induction natt with
  | zero => omega
  | succ q ih =>
      have hIdx : idx i c cols < rows * cols := idx_lt hi hc
      rw [noiseLoop, List.range_succ, List.foldl_append, ← noiseLoop, List.foldl_cons, List.foldl_nil]
      by_cases hLast : j = q
      · subst hLast
        rw [← launch_noiseThread (sched j) X (offset L (j * rows * r)) (offset R (j * r * cols))
          (offset (noiseLoop sched X L R rows cols r j out) (j * rows * cols)) (show 0 < 256 by decide)
          hi hc]
        exact launchAt_apply _ _ _ _ _ _ _
      · refine Eq.trans ?_ (ih (by omega))
        refine launchAt_of_untouched _ (noiseThread_addr _ _ _ _ _ _ _) (Or.inl ?_)
        have hSlices : (j + 1) * (rows * cols) ≤ q * (rows * cols) := Nat.mul_le_mul_right _ (by omega)
        calc j * rows * cols + idx i c cols
            < j * rows * cols + rows * cols := by omega
          _ = (j + 1) * (rows * cols) := by ring
          _ ≤ q * rows * cols := by rw [Nat.mul_assoc]; exact hSlices

end Cuda
