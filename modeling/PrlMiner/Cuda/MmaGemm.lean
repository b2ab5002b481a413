import PrlMiner.Cuda.NaiveIndices
import PrlMiner.Cuda.TilePipeline
import PrlMiner.Cuda.WarpTiles

/-! The three tensor-core products `k_mma_gemm`, `k_mma_gemm_smem` and
`k_mma_gemm_cpasync`. They differ in how a block is split among warps and in where
a warp reads its operands: from global memory, from a tile staged for each step, or
from the double-buffered tiles of the asynchronous pipeline. -/
namespace Cuda

open FixedWidth LittleEndian ParallelWrites Reduction Reference WarpTiling

/-- One warp to a block, one multiply to a warp. -/
def mmaTiling : WarpTiling := ⟨1, 1, 1, 1⟩

/-- Warps of 32 x 32 in a 2 x 2 grid. -/
def smemTiling : WarpTiling := ⟨2, 4, 2, 2⟩

/-- Warps of 32 x 64 in a 4 x 2 grid. -/
def cpasyncTiling : WarpTiling := ⟨2, 8, 4, 2⟩

/-- Accumulators before the loop. -/
def zeroAcc : Nat → Nat → Nat → Nat → I32 := fun _ _ _ _ => 0

/-- One K-step of `k_mma_gemm`, operands packed from global memory. -/
def mmaGemmStep (A B : Buffer I8) (k n rm rn : Nat) (acc : Nat → Nat → Nat → Nat → I32) (step : Nat) :
    Nat → Nat → Nat → Nat → I32 :=
  let k0 := step * 32
  mmaStep (fun _ _ => packA fun g x => A (idx (rm + g) (k0 + x) k))
    (fun _ _ => packB fun g x => B (idx (k0 + x) (rn + g) n)) acc

def kMmaGemm (A B : Buffer I8) (k n bx by' tid : Nat) : List (Write I32) :=
  let rm := bx * 16
  let rn := by' * 8
  let acc := (List.range ((k + 31) / 32)).foldl (mmaGemmStep A B k n rm rn) zeroAcc
  storeFragment n rm rn (tid % 32) (acc tid 0 0)

/-- Shared memory and accumulators of a block of `k_mma_gemm_smem`. -/
structure SmemState where
  As : Buffer I8
  Bs : Buffer I8
  acc : Nat → Nat → Nat → Nat → I32

/-- The loop `for (idx = tid; idx < 2048; idx += 128)` of a thread. -/
def stageSlab (value : Nat → I8) (tid : Nat) : List (Write I8) :=
  (List.range 16).map fun j => store (tid + j * 128) (value (tid + j * 128))

/-- One K-step of `k_mma_gemm_smem`, between barriers: stage both slabs, multiply. -/
def smemStep (env : BlockEnv) (A B : Buffer I8) (k n br bc : Nat) (st : SmemState) (step : Nat) :
    SmemState :=
  let k0 := step * 32
  let As := launch (env.landing step) 128 (stageSlab fun x => A (idx (br + x / 32) (k0 + x % 32) k)) st.As
  let Bs := launch (env.transposing step) 128 (stageSlab fun x => B (idx (k0 + x / 64) (bc + x % 64) n)) st.Bs
  { As := As
    Bs := Bs
    acc := mmaStep
      (fun wid mrow => packA fun g x => As ((wid / 2 * 32 + mrow * 16 + g) * 32 + x))
      (fun wid ncol => packB fun g x => Bs (x * 64 + (wid % 2 * 32 + ncol * 8 + g))) st.acc }

def kMmaGemmSmem (env : BlockEnv) (A B : Buffer I8) (k n bx by' tid : Nat) : List (Write I32) :=
  let br := bx * 64
  let bc := by' * 64
  let last := (List.range ((k + 31) / 32)).foldl (smemStep env A B k n br bc) ⟨env.As, env.Bs, zeroAcc⟩
  smemTiling.storeAcc n br bc tid (last.acc tid)

/-- Pipeline and accumulators of a block of `k_mma_gemm_cpasync`. -/
structure CpasyncState where
  staging : Staging
  acc : Nat → Nat → Nat → Nat → I32

/-- One K-step of `k_mma_gemm_cpasync`: start the next loads, multiply what has landed. -/
def cpasyncStep (env : BlockEnv) (A B : Buffer I8) (k n br bc : Nat) (st : CpasyncState) (ks : Nat) :
    CpasyncState :=
  let cur := ks % 2
  let staging := stageStep env A B k n br bc (k / 32) ks st.staging
  { staging := staging
    acc := mmaStep
      (fun wid mrow => packA fun g x => staging.As (half cur + ((wid / 2 * 32 + mrow * 16 + g) * 32 + x)))
      (fun wid ncol => packB fun g x => staging.Bs (half cur + (x * 128 + (wid % 2 * 64 + ncol * 8 + g))))
      st.acc }

def kMmaGemmCpasync (env : BlockEnv) (A B : Buffer I8) (k n bx by' tid : Nat) : List (Write I32) :=
  let br := bx * 128
  let bc := by' * 128
  let last := (List.range (k / 32)).foldl (cpasyncStep env A B k n br bc)
    ⟨startStaging env A B k n br bc, zeroAcc⟩
  cpasyncTiling.storeAcc n br bc tid (last.acc tid)

section Loops

variable {A B : Buffer I8} {k n : Nat}

theorem steps_eq (hk : 32 ∣ k) : (k + 31) / 32 = k / 32 := by omega

theorem mmaGemmStep_accumulates {rm rn step : Nat} {acc : Nat → Nat → Nat → Nat → I32}
    (h : mmaTiling.Accumulates (matrixOf k A) (matrixOf n B) rm rn (step * 32) acc) :
    mmaTiling.Accumulates (matrixOf k A) (matrixOf n B) rm rn (step * 32 + 32)
      (mmaGemmStep A B k n rm rn acc step) := by
  rw [mmaGemmStep]
  refine h.step (fun wid hWid mrow hMrow row hRow kk _ => ?_) (fun wid hWid ncol hNcol kk _ col _ => ?_)
  · rw [elemA_packA _ hRow, Nat.lt_one_iff.mp hWid, Nat.lt_one_iff.mp hMrow]
    rfl
  · rw [elemB_packB, Nat.lt_one_iff.mp hWid, Nat.lt_one_iff.mp hNcol]
    rfl

/-- The loop of `k_mma_gemm`. -/
theorem foldl_mmaGemmStep (rm rn steps : Nat) :
    mmaTiling.Accumulates (matrixOf k A) (matrixOf n B) rm rn (steps * 32)
      ((List.range steps).foldl (mmaGemmStep A B k n rm rn) zeroAcc) := by
  induction steps with
  | zero =>
      rw [Nat.zero_mul]
      exact accumulates_zero _ _ rm rn
  | succ steps ih =>
      rw [List.range_succ, List.foldl_append, List.foldl_cons, List.foldl_nil, Nat.succ_mul]
      exact mmaGemmStep_accumulates ih

/-- A staged slab holds all of its 2048 elements. -/
theorem launch_stageSlab (s : Scheduler) (value : Nat → I8) (mem : Buffer I8) {x : Nat} (hx : x < 2048) :
    launch s 128 (stageSlab value) mem x = value x := by
  have hRun := launch_stores s (n := 128) (c := 16) (t := x % 128) (i := x / 128)
    (fun tid j => tid + j * 128) (fun tid j => value (tid + j * 128)) mem (Nat.mod_lt _ (by decide))
    (by omega) (fun u hu j hj h => by omega)
  have hAddr : x % 128 + x / 128 * 128 = x := by omega
  rw [hAddr] at hRun
  exact hRun

theorem smemStep_accumulates (env : BlockEnv) {br bc step : Nat} {st : SmemState}
    (h : smemTiling.Accumulates (matrixOf k A) (matrixOf n B) br bc (step * 32) st.acc) :
    smemTiling.Accumulates (matrixOf k A) (matrixOf n B) br bc (step * 32 + 32)
      (smemStep env A B k n br bc st step).acc := by
  simp only [smemStep]
  apply h.step
  · intro wid hWid mrow hMrow row hRow kk hkk
    have hWid4 : wid < 4 := hWid
    have hMrow2 : mrow < 2 := hMrow
    rw [elemA_packA _ hRow, launch_stageSlab _ _ _ (by omega), matrixOf]
    refine congrArg A (congrArg₂ (idx · · k) ?_ (by omega))
    change _ = br + (wid / 2 * 32 + mrow * 16) + row
    omega
  · intro wid hWid ncol hNcol kk hkk col hCol
    have hNcol4 : ncol < 4 := hNcol
    rw [elemB_packB, launch_stageSlab _ _ _ (by omega), matrixOf]
    refine congrArg B (congrArg₂ (idx · · n) (by omega) ?_)
    change _ = bc + (wid % 2 * 32 + ncol * 8) + col
    omega

/-- The loop of `k_mma_gemm_smem`. Nothing is kept of the slabs from step to step. -/
theorem foldl_smemStep (env : BlockEnv) (br bc steps : Nat) :
    smemTiling.Accumulates (matrixOf k A) (matrixOf n B) br bc (steps * 32)
      ((List.range steps).foldl (smemStep env A B k n br bc) ⟨env.As, env.Bs, zeroAcc⟩).acc := by
  induction steps with
  | zero =>
      rw [Nat.zero_mul]
      exact accumulates_zero _ _ br bc
  | succ steps ih =>
      rw [List.range_succ, List.foldl_append, List.foldl_cons, List.foldl_nil, Nat.succ_mul]
      exact smemStep_accumulates env ih

/-- What holds of a block of `k_mma_gemm_cpasync` after some steps. -/
structure CpasyncInv (A B : Buffer I8) (k n br bc steps : Nat) (st : CpasyncState) : Prop where
  staged : Staged A B k n br bc (k / 32) steps st.staging
  acc : cpasyncTiling.Accumulates (matrixOf k A) (matrixOf n B) br bc (steps * 32) st.acc

theorem cpasyncStep_inv (env : BlockEnv) {br bc step : Nat} {st : CpasyncState} (hStep : step < k / 32)
    (h : CpasyncInv A B k n br bc step st) :
    CpasyncInv A B k n br bc (step + 1) (cpasyncStep env A B k n br bc st step) := by
  obtain ⟨hNext, hAs, hBs⟩ := stageStep_spec env hStep h.staged
  refine ⟨hNext, ?_⟩
  simp only [cpasyncStep, Nat.succ_mul]
  apply h.acc.step
  · intro wid hWid mrow hMrow row hRow kk hkk
    have hWid8 : wid < 8 := hWid
    have hMrow2 : mrow < 2 := hMrow
    rw [elemA_packA _ hRow, hAs _ (by omega), matrixOf]
    refine congrArg A (congrArg₂ (idx · · k) ?_ (by omega))
    change _ = br + (wid / 2 * 32 + mrow * 16) + row
    omega
  · intro wid hWid ncol hNcol kk hkk col hCol
    have hNcol8 : ncol < 8 := hNcol
    rw [elemB_packB, hBs _ (by omega), matrixOf]
    refine congrArg B (congrArg₂ (idx · · n) (by omega) ?_)
    change _ = bc + (wid % 2 * 64 + ncol * 8) + col
    omega

/-- The loop of `k_mma_gemm_cpasync`. -/
theorem foldl_cpasyncStep (env : BlockEnv) (br bc : Nat) (hk : 0 < k / 32) {steps : Nat}
    (hSteps : steps ≤ k / 32) :
    CpasyncInv A B k n br bc steps ((List.range steps).foldl (cpasyncStep env A B k n br bc)
      ⟨startStaging env A B k n br bc, zeroAcc⟩) := by
  induction steps with
  | zero =>
      refine ⟨staged_start env A B k n br bc hk, ?_⟩
      rw [Nat.zero_mul]
      exact accumulates_zero _ _ br bc
  | succ steps ih =>
      rw [List.range_succ, List.foldl_append, List.foldl_cons, List.foldl_nil]
      exact cpasyncStep_inv env hSteps (ih (by omega))

end Loops

section Launches

variable {A B : Buffer I8} {m k n : Nat}

/-- Every entry of `C` is stored exactly once, and in any order of the threads and over
any old content the launch leaves `A @ B` modulo `2 ^ 32`. -/
def ComputesProduct (A B : Buffer I8) (m k n gx gy threads : Nat)
    (kernel : Nat → Nat → Nat → List (Write I32)) : Prop :=
  ∀ i < m, ∀ j < n,
    UpdatedOnce (idx i j n) (fun t : GridThread => t.In gx gy 1 threads) (fun t => kernel t.x t.y t.tid) ∧
    ∀ s C, matrixOf n (launchGrid s gx gy 1 threads (fun x y _ tid => kernel x y tid) C) i j =
      BitVec.ofInt 32 (exactProduct (matrixOf k A) (matrixOf n B) k i j)

/-- A kernel that stores what its blocks have accumulated over all of `k`. -/
theorem computesProduct_of_accumulates (T : WarpTiling) (hm : T.blockRows ∣ m) (hn : T.blockCols ∣ n)
    {kernel : Nat → Nat → Nat → List (Write I32)} (acc : Nat → Nat → Nat → Nat → Nat → Nat → I32)
    (hKernel : ∀ x y, ∀ tid < T.threads,
      kernel x y tid = T.storeAcc n (x * T.blockRows) (y * T.blockCols) tid (acc x y tid))
    (hAcc : ∀ x y, T.Accumulates (matrixOf k A) (matrixOf n B) (x * T.blockRows) (y * T.blockCols) k
      (acc x y)) :
    ComputesProduct A B m k n (m / T.blockRows) (n / T.blockCols) T.threads kernel := by
  intro i hi j hj
  obtain ⟨hOnce, hValue⟩ := storeAcc_grid hm hn (fun t ht => hKernel t.x t.y t.tid ht.2.2.2)
    (fun p hp => hAcc p.thread.x p.thread.y p.thread.tid hp.thread.2.2.2 p.mrow hp.mrow p.ncol hp.ncol p.e
      hp.e) hi hj
  refine ⟨hOnce, fun s C => ?_⟩
  rw [hValue s C, prefixProduct, accumulate_signExtend_mul]

theorem kMmaGemm_computes (hm : 16 ∣ m) (hn : 8 ∣ n) (hk : 32 ∣ k) :
    ComputesProduct A B m k n (m / 16) (n / 8) 32 (kMmaGemm A B k n) := by
  apply computesProduct_of_accumulates mmaTiling hm hn (fun x y =>
    (List.range (k / 32)).foldl (mmaGemmStep A B k n (x * 16) (y * 8)) zeroAcc)
  · intro x y tid htid
    have hTid : tid < 32 := htid
    simp [kMmaGemm, steps_eq hk, storeAcc, tileRow, tileCol, mmaTiling, blockRows, blockCols,
      Nat.div_eq_of_lt hTid]
  · intro x y
    have hLoop := foldl_mmaGemmStep (A := A) (B := B) (k := k) (n := n) (x * 16) (y * 8) (k / 32)
    rwa [Nat.div_mul_cancel hk] at hLoop

theorem kMmaGemmSmem_computes (env : Nat → Nat → BlockEnv) (hm : 64 ∣ m) (hn : 64 ∣ n) (hk : 32 ∣ k) :
    ComputesProduct A B m k n (m / 64) (n / 64) 128 (fun x y => kMmaGemmSmem (env x y) A B k n x y) := by
  apply computesProduct_of_accumulates smemTiling hm hn (fun x y =>
    ((List.range (k / 32)).foldl (smemStep (env x y) A B k n (x * 64) (y * 64))
      ⟨(env x y).As, (env x y).Bs, zeroAcc⟩).acc)
  · intro x y tid _
    rw [kMmaGemmSmem, steps_eq hk]
    rfl
  · intro x y
    have hLoop := foldl_smemStep (A := A) (B := B) (k := k) (n := n) (env x y) (x * 64) (y * 64) (k / 32)
    rwa [Nat.div_mul_cancel hk] at hLoop

theorem kMmaGemmCpasync_computes (env : Nat → Nat → BlockEnv) (hPos : 0 < k) (hm : 128 ∣ m)
    (hn : 128 ∣ n) (hk : 32 ∣ k) :
    ComputesProduct A B m k n (m / 128) (n / 128) 256
      (fun x y => kMmaGemmCpasync (env x y) A B k n x y) := by
  apply computesProduct_of_accumulates cpasyncTiling hm hn (fun x y =>
    ((List.range (k / 32)).foldl (cpasyncStep (env x y) A B k n (x * 128) (y * 128))
      ⟨startStaging (env x y) A B k n (x * 128) (y * 128), zeroAcc⟩).acc)
  · intro x y tid _
    rfl
  · intro x y
    have hLoop := (foldl_cpasyncStep (A := A) (B := B) (k := k) (n := n) (env x y) (x * 128) (y * 128)
      (by omega) (Nat.le_refl (k / 32))).acc
    rwa [Nat.div_mul_cancel hk] at hLoop

/-- Under its own divisibility check each of the three kernels writes every entry once
and computes `A @ B`, and the plain kernel computes it wherever its `int`s do not wrap. -/
theorem mma_gemm_kernels_compute (A B : Buffer I8) (env : Nat → Nat → BlockEnv) (m k n : Nat) (hk : 0 < k) :
    (m % 16 = 0 → n % 8 = 0 → k % 32 = 0 →
      ComputesProduct A B m k n (m / 16) (n / 8) 32 (kMmaGemm A B k n)) ∧
    (m % 64 = 0 → n % 64 = 0 → k % 32 = 0 →
      ComputesProduct A B m k n (m / 64) (n / 64) 128 (fun x y => kMmaGemmSmem (env x y) A B k n x y)) ∧
    (m % 128 = 0 → n % 128 = 0 → k % 32 = 0 →
      ComputesProduct A B m k n (m / 128) (n / 128) 256
        (fun x y => kMmaGemmCpasync (env x y) A B k n x y)) ∧
    ((∀ e, Naive.ElementwiseExpr m n k e → e.Exact 32) → ∀ i < m, ∀ j < n, ∀ s C,
      matrixOf n (launch1 s (gridFor (m * n) 256) 256 (Naive.kGemmPlain A B m k n 256) C) i j =
        BitVec.ofInt 32 (exactProduct (matrixOf k A) (matrixOf n B) k i j)) := by
  refine ⟨fun hm hn hk' => ?_, fun hm hn hk' => ?_, fun hm hn hk' => ?_, fun _ i hi j hj s C => ?_⟩
  · exact kMmaGemm_computes (Nat.dvd_of_mod_eq_zero hm) (Nat.dvd_of_mod_eq_zero hn)
      (Nat.dvd_of_mod_eq_zero hk')
  · exact kMmaGemmSmem_computes env (Nat.dvd_of_mod_eq_zero hm) (Nat.dvd_of_mod_eq_zero hn)
      (Nat.dvd_of_mod_eq_zero hk')
  · exact kMmaGemmCpasync_computes env hk (Nat.dvd_of_mod_eq_zero hm) (Nat.dvd_of_mod_eq_zero hn)
      (Nat.dvd_of_mod_eq_zero hk')
  · rw [Naive.launch_kGemmPlain s A B C hi hj, prefixProduct, accumulate_signExtend_mul]

/-- One block of the largest tile, where all four kernels apply. -/
theorem mma_gemm_kernels_compute_block :
    ComputesProduct (fun _ => 3) (fun _ => 4) 128 32 128 (128 / 16) (128 / 8) 32
        (kMmaGemm (fun _ => 3) (fun _ => 4) 32 128) ∧
      ComputesProduct (fun _ => 3) (fun _ => 4) 128 32 128 (128 / 128) (128 / 128) 256
        (fun x y => kMmaGemmCpasync default (fun _ => 3) (fun _ => 4) 32 128 x y) := by
  have hAll := mma_gemm_kernels_compute (fun _ => 3) (fun _ => 4) (fun _ _ => default) 128 32 128 (by decide)
  exact ⟨hAll.1 (by decide) (by decide) (by decide), hAll.2.2.1 (by decide) (by decide) (by decide)⟩

end Launches

section Entries

/-- The entry points of the three kernels: check the shape, copy the factors in, launch,
copy the product out. -/
def gemmEntry (bm bn threads : Nat) (d : Device)
    (kernel : Buffer I8 → Buffer I8 → Nat → Nat → Nat → Nat → Nat → List (Write I32))
    (A B : Buffer I8) (m k n : Nat) : Except Nat (Mat I32) :=
  if m % bm ≠ 0 ∨ n % bn ≠ 0 ∨ k % 32 ≠ 0 then .error 2
  else
    let dA := memcpy (d.mallocI8 0) A (m * k)
    let dB := memcpy (d.mallocI8 1) B (k * n)
    let dC := launchGrid (d.schedule 0) (m / bm) (n / bn) 1 threads
      (fun x y _ tid => kernel dA dB k n x y tid) (d.mallocI32 0)
    .ok (matrixOf n dC)

def prlMmaGemm (d : Device) (A B : Buffer I8) (m k n : Nat) : Except Nat (Mat I32) :=
  gemmEntry 16 8 32 d kMmaGemm A B m k n

def prlMmaGemmSmem (d : Device) (A B : Buffer I8) (m k n : Nat) : Except Nat (Mat I32) :=
  gemmEntry 64 64 128 d (fun A B k n x y => kMmaGemmSmem (d.block x y 0) A B k n x y) A B m k n

def prlMmaGemmCpasync (d : Device) (A B : Buffer I8) (m k n : Nat) : Except Nat (Mat I32) :=
  gemmEntry 128 128 256 d (fun A B k n x y => kMmaGemmCpasync (d.block x y 0) A B k n x y) A B m k n

/-- What an entry point returns is the product of its arguments. -/
def ReturnsProduct (A B : Buffer I8) (m k n : Nat) (out : Except Nat (Mat I32)) : Prop :=
  ∀ C, out = .ok C → ∀ i < m, ∀ j < n,
    C i j = BitVec.ofInt 32 (exactProduct (matrixOf k A) (matrixOf n B) k i j)

variable {A B : Buffer I8} {m k n : Nat}

theorem gemmEntry_returnsProduct {bm bn threads : Nat} {d : Device}
    {kernel : Buffer I8 → Buffer I8 → Nat → Nat → Nat → Nat → Nat → List (Write I32)}
    (hKernel : ∀ dA dB, bm ∣ m → bn ∣ n → 32 ∣ k →
      ComputesProduct dA dB m k n (m / bm) (n / bn) threads (kernel dA dB k n)) :
    ReturnsProduct A B m k n (gemmEntry bm bn threads d kernel A B m k n) := by
  intro C hOk i hi j hj
  rw [gemmEntry] at hOk
  split_ifs at hOk with hRefused
  obtain ⟨hm, hn, hk⟩ : m % bm = 0 ∧ n % bn = 0 ∧ k % 32 = 0 := by omega
  obtain rfl := Except.ok.inj hOk
  rw [(hKernel _ _ (Nat.dvd_of_mod_eq_zero hm) (Nat.dvd_of_mod_eq_zero hn) (Nat.dvd_of_mod_eq_zero hk) i hi
    j hj).2, exactProduct, exactProduct]
  apply congrArg
  apply accumulate_congr
  intro c hc
  rw [matrixOf_memcpy _ _ hi hc, matrixOf_memcpy _ _ hc hj]

/-- Whichever of the three entry points accepts a shape, it returns `A @ B`. -/
theorem entries_returnProduct (d : Device) (hk : 0 < k) :
    ReturnsProduct A B m k n (prlMmaGemm d A B m k n) ∧
      ReturnsProduct A B m k n (prlMmaGemmSmem d A B m k n) ∧
      ReturnsProduct A B m k n (prlMmaGemmCpasync d A B m k n) :=
  ⟨gemmEntry_returnsProduct fun _ _ => kMmaGemm_computes,
    gemmEntry_returnsProduct fun _ _ => kMmaGemmSmem_computes fun x y => d.block x y 0,
    gemmEntry_returnsProduct fun _ _ => kMmaGemmCpasync_computes (fun x y => d.block x y 0) hk⟩

end Entries

end Cuda
