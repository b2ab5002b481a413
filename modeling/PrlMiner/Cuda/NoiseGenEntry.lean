import PrlMiner.Cuda.ContextRuns

/-! `prl_noisegen`, the noise of two keys in fresh memory, against the reference
generator. Which thread stores which entry, and that no `int` overflows. -/
namespace Cuda

open FixedWidth LittleEndian ParallelWrites Reference

/-- `prl_noisegen` on host buffers for the four factors. -/
def prlNoisegen (d : Device) (keyA keyB : Buffer Byte) (m k n : Nat) (EAL EAR EBL EBR : Buffer I8) :
    NoiseBuffers :=
  let r := 128
  let dKA := memcpy (d.mallocU32 0) (asWords keyA) 8
  let dKB := memcpy (d.mallocU32 1) (asWords keyB) 8
  let dSA := memcpy (d.mallocU32 2) (asWords hsa) 8
  let dSB := memcpy (d.mallocU32 3) (asWords hsb) 8
  let (noise, _dU) := generateNoise d.schedule dKA dKB dSA dSB m k n r
    ⟨d.mallocI8 0, d.mallocI8 1, d.mallocI8 2, d.mallocI8 3⟩ (d.mallocI8 4)
  ⟨memcpy EAL noise.dEAL (m * r), memcpy EAR noise.dEAR (r * k), memcpy EBL noise.dEBL (k * r),
    memcpy EBR noise.dEBR (r * n)⟩

/-- `NoiseGenerator(noise_rank=128, noise_range=128)` -/
theorem init_productionNoise : NoiseGenerator.init 128 128 = .ok productionNoise := rfl

variable {m k n : Nat}

/-- The host buffers hold the noise of the reference, whatever was in them. -/
theorem prlNoisegen_holds (d : Device) (keyA keyB : Buffer Byte) (m k n : Nat) (EAL EAR EBL EBR : Buffer I8) :
    (prlNoisegen d keyA keyB m k n EAL EAR EBL EBR).Holds
      (referenceNoise (keyBytes keyA) (keyBytes keyB) m k n) m k n := by
  have hNoise := generateNoise_holds d.schedule (keyBytes keyA) (keyBytes keyB) m k n
    ⟨d.mallocI8 0, d.mallocI8 1, d.mallocI8 2, d.mallocI8 3⟩ (d.mallocI8 4)
    (memcpy_keyBytes (d.mallocU32 0) keyA) (memcpy_keyBytes (d.mallocU32 1) keyB)
    (memcpy_keyBytes (d.mallocU32 2) hsa) (memcpy_keyBytes (d.mallocU32 3) hsb)
  constructor
  · intro i hi c hc
    exact (matrixOf_memcpy _ _ hi hc).trans (hNoise.eal i hi c hc)
  · intro c hc i hi
    exact (matrixOf_memcpy _ _ hc hi).trans (hNoise.ear c hc i hi)
  · intro i hi c hc
    exact (matrixOf_memcpy _ _ hi hc).trans (hNoise.ebl i hi c hc)
  · intro c hc i hi
    exact (matrixOf_memcpy _ _ hc hi).trans (hNoise.ebr c hc i hi)

/-- The threads of a launch with 256 to a block, by their number in the grid. -/
def flatThreads (kernel : Nat → Nat → List (Write I8)) (u : Nat) : List (Write I8) := kernel (u / 256) (u % 256)

/-- A dense launch of `rows` rows stores every entry once. -/
theorem kNgDense_updatedOnce (key seed : Buffer U32) {rows i j : Nat} (hi : i < rows) (hj : j < 128) :
    UpdatedOnce (idx i j 128) (· < gridFor ((rows * 128 + 31) / 32) 256 * 256)
      (flatThreads (kNgDense key seed (rows * 128) 256)) := by
  have hLt : idx i j 128 < rows * 128 := idx_lt hi hj
  refine ⟨idx i j 128 / 32, dense_thread hLt, ?_, ?_⟩
  · rw [flatThreads, updatesAt_kNgDense hLt]
    rfl
  · intro u _ w hw hAddr
    rw [← (kNgDense_addr hw).1, hAddr]

/-- The transposing launch stores every entry once. -/
theorem kTranspose_updatedOnce (U : Buffer I8) {rows cols i j : Nat} (hi : i < rows) (hj : j < cols) :
    UpdatedOnce (idx j i rows) (· < gridFor (rows * cols) 256 * 256)
      (flatThreads (kTranspose U rows cols 256)) := by
  refine ⟨idx i j cols, transpose_thread hi hj, ?_, ?_⟩
  · rw [flatThreads, updatesAt_kTranspose hi hj]
    rfl
  · intro u _ w hw hAddr
    exact kTranspose_owner hi hw hAddr

/-- The stores of thread `u` are to lines of draw `u`, eight to a draw. -/
def OwnLines (assignCols : Bool) (required other : Nat) (kernel : Nat → List (Write I8)) : Prop :=
  ∀ u, ∀ w ∈ kernel u, (∃ line < required, ∃ t < 128, w.addr = lineAddr assignCols other line t) ∧
    ∀ line < required, ∀ t < 128, w.addr = lineAddr assignCols other line t → line / 8 = u

theorem kNgPerm_ownLines (key seed : Buffer U32) (assignCols : Bool) (k : Nat) :
    OwnLines assignCols k k (flatThreads (kNgPerm key seed k assignCols 128 k 256)) := by
  intro u w hw
  constructor
  · obtain ⟨line, hLine, -, hAddr⟩ := kNgPerm_line hw
    exact ⟨line, hLine, hAddr⟩
  · intro line hLine t ht hAddr
    exact (kNgPerm_owner hw (fun _ => le_refl k) hLine ht hAddr).symm

/-- The largest `int` a thread computes: the end of its draw, or its number. -/
structure NoiseIntsFit (m k n : Nat) : Prop where
  denseA : ∀ u < gridFor ((m * 128 + 31) / 32) 256 * 256, u * 32 + 31 < 2 ^ 31
  denseB : ∀ u < gridFor ((n * 128 + 31) / 32) 256 * 256, u * 32 + 31 < 2 ^ 31
  lines : ∀ u < gridFor ((k + 7) / 8) 256 * 256, u * 8 + 7 < 2 ^ 31
  addresses : ∀ assignCols, ∀ line < k, ∀ t < 128, lineAddr assignCols k line t < 2 ^ 31
  transposed : ∀ u < gridFor (n * 128) 256 * 256, u < 2 ^ 31

theorem noiseIntsFit (hm : m * 128 < 2 ^ 31) (hk : k * 128 < 2 ^ 31) (hn : n * 128 < 2 ^ 31) :
    NoiseIntsFit m k n := by
  -- 2 ^ 31 is a multiple of what a block covers, so rounding up to blocks stays below
  constructor
  · intro u hu
    rw [gridFor] at hu
    omega
  · intro u hu
    rw [gridFor] at hu
    omega
  · intro u hu
    rw [gridFor] at hu
    omega
  · intro assignCols line hLine t ht
    cases assignCols with
    | true =>
        have hLt : idx t line k < 128 * k := idx_lt ht hLine
        rw [lineAddr, if_pos rfl]
        omega
    | false =>
        have hLt : idx line t 128 < k * 128 := idx_lt hLine ht
        rw [lineAddr, if_neg Bool.false_ne_true]
        omega
  · intro u hu
    rw [gridFor] at hu
    omega

/-- `prl_noisegen` leaves the matrices of `NoiseGenerator(noise_rank=128,
noise_range=128)` in every order of the threads. Each dense entry, transposed or not,
is stored once, and a thread stores no line of another draw. -/
theorem prl_noisegen_generates (d : Device) (keyA keyB : Buffer Byte) (EAL EAR EBL EBR : Buffer I8) {m k n : Nat}
    (hm : 128 ≤ m) (hk : 128 ≤ k) (hn : 128 ≤ n) (hmInt : m * 128 < 2 ^ 31) (hkInt : k * 128 < 2 ^ 31)
    (hnInt : n * 128 < 2 ^ 31) :
    (∃ generator E, NoiseGenerator.init 128 128 = .ok generator ∧
      generator.generate Blake3.keyedHash (keyBytes keyA) (keyBytes keyB) m k n = .ok E ∧
      (prlNoisegen d keyA keyB m k n EAL EAR EBL EBR).Holds E m k n) ∧
    (∀ key seed : Buffer U32,
      (∀ rows ∈ [m, n], ∀ i < rows, ∀ j < 128,
        UpdatedOnce (idx i j 128) (· < gridFor ((rows * 128 + 31) / 32) 256 * 256)
          (flatThreads (kNgDense key seed (rows * 128) 256))) ∧
      ∀ assignCols, OwnLines assignCols k k (flatThreads (kNgPerm key seed k assignCols 128 k 256))) ∧
    (∀ U : Buffer I8, ∀ i < n, ∀ j < 128,
      UpdatedOnce (idx j i n) (· < gridFor (n * 128) 256 * 256) (flatThreads (kTranspose U n 128 256))) ∧
    NoiseIntsFit m k n := by
  refine ⟨⟨productionNoise, referenceNoise (keyBytes keyA) (keyBytes keyB) m k n, init_productionNoise, ?_, ?_⟩,
    fun key seed => ⟨fun rows _ i hi j hj => ?_, fun assignCols => ?_⟩, fun U i hi j hj => ?_, ?_⟩
  · exact generate_eq _ _ hm hk hn
  · exact prlNoisegen_holds d keyA keyB m k n EAL EAR EBL EBR
  · exact kNgDense_updatedOnce key seed hi hj
  · exact kNgPerm_ownLines key seed assignCols k
  · exact kTranspose_updatedOnce U hi hj
  · exact noiseIntsFit hmInt hkInt hnInt

/-- No dimension a multiple of 8 or 32 but the first. -/
theorem prl_noisegen_generates_odd :
    ∃ generator E, NoiseGenerator.init 128 128 = .ok generator ∧
      generator.generate Blake3.keyedHash (keyBytes fun _ => 1) (keyBytes fun _ => 2) 128 131 150 = .ok E ∧
      (prlNoisegen default (fun _ => 1) (fun _ => 2) 128 131 150 (fun _ => 0) (fun _ => 0) (fun _ => 0)
        fun _ => 0).Holds E 128 131 150 := by
  obtain ⟨hMatrices, -⟩ := prl_noisegen_generates default (fun _ => 1) (fun _ => 2) (fun _ => 0) (fun _ => 0)
    (fun _ => 0) (fun _ => 0) (show 128 ≤ 128 by decide) (show 128 ≤ 131 by decide) (show 128 ≤ 150 by decide)
    (by decide) (by decide) (by decide)
  exact hMatrices

end Cuda
