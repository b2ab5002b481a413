import PrlMiner.Library.LittleEndian
import PrlMiner.Library.ParallelWrites
import PrlMiner.Reference.NumPy

/-! The parts of the CUDA runtime the host code uses: buffers, copies, fills and
one-dimensional launches. What the runtime leaves open, the contents of fresh
allocations and the order in which threads reach memory, is a parameter. Sizes
and indices are naturals, the values of the `int` and `size_t` expressions. -/
namespace Cuda

open FixedWidth LittleEndian ParallelWrites

/-- Elements of an allocation. -/
abbrev Buffer (α : Type) := Nat → α

/-- `cudaMemcpy` of `n` elements to the front of a buffer. -/
def memcpy {α : Type} (dst src : Buffer α) (n : Nat) : Buffer α :=
  fun i => if i < n then src i else dst i

/-- `cudaMemset` of the first `n` elements, given the element its bytes make up. -/
def memset {α : Type} (dst : Buffer α) (value : α) (n : Nat) : Buffer α :=
  fun i => if i < n then value else dst i

theorem memcpy_of_lt {α : Type} {dst src : Buffer α} {n i : Nat} (h : i < n) :
    memcpy dst src n i = src i := if_pos h

theorem memset_of_lt {α : Type} {dst : Buffer α} {value : α} {n i : Nat} (h : i < n) :
    memset dst value n i = value := if_pos h

/-- Bytes read through a `uint32_t` pointer. -/
def asWords (bytes : Buffer Byte) : Buffer U32 := fun i => leWord (fun x => bytes (4 * i + x))

/-- Pointer arithmetic. -/
def offset {α : Type} (b : Buffer α) (start : Nat) : Buffer α := fun i => b (start + i)

/-- `IDX(r, c, ld)`. -/
def idx (r c ld : Nat) : Nat := r * ld + c

/-- A row-major buffer by row and column. -/
def matrixOf {α : Type} (ld : Nat) (b : Buffer α) : Reference.Mat α := fun i j => b (idx i j ld)

/-- Row-major layout of an array of shape `rows x cols`. -/
def flat {α : Type} (cols : Nat) (a : Reference.Mat α) : Buffer α := fun x => a (x / cols) (x % cols)

/-- `np.stack` of arrays of shape `rows x cols`. -/
def stack {α : Type} (rows cols : Nat) (a : Nat → Reference.Mat α) : Buffer α :=
  fun x => flat cols (a (x / (rows * cols))) (x % (rows * cols))

theorem idx_div {r c ld : Nat} (h : c < ld) : idx r c ld / ld = r := by
  rw [idx, Nat.mul_comm, Nat.mul_add_div (by omega), Nat.div_eq_of_lt h, Nat.add_zero]

theorem idx_mod {r c ld : Nat} (h : c < ld) : idx r c ld % ld = c := by
  rw [idx, Nat.mul_comm, Nat.mul_add_mod, Nat.mod_eq_of_lt h]

/-- A flat address is the address of its own row and column, so `idx` is inverted by the
quotient and the remainder. -/
theorem idx_div_mod (x ld : Nat) : idx (x / ld) (x % ld) ld = x := by
  rw [idx, Nat.mul_comm]
  exact Nat.div_add_mod x ld

theorem idx_lt {r c rows ld : Nat} (hr : r < rows) (hc : c < ld) : idx r c ld < rows * ld := by
  have : (r + 1) * ld ≤ rows * ld := Nat.mul_le_mul_right ld hr
  rw [Nat.succ_mul] at this
  rw [idx]
  omega

theorem matrixOf_flat {α : Type} {ld : Nat} (a : Reference.Mat α) {i j : Nat} (hj : j < ld) :
    matrixOf ld (flat ld a) i j = a i j := by
  rw [matrixOf, flat, idx_div hj, idx_mod hj]

theorem offset_zero {α : Type} (b : Buffer α) : offset b 0 = b := by
  funext x
  rw [offset, Nat.zero_add]

/-- Member `j` of a stack. -/
theorem offset_stack {α : Type} (rows cols : Nat) (a : Nat → Reference.Mat α) (j : Nat) {x : Nat}
    (hx : x < rows * cols) : offset (stack rows cols a) (j * (rows * cols)) x = flat cols (a j) x := by
  have hDiv : (j * (rows * cols) + x) / (rows * cols) = j := idx_div hx
  have hMod : (j * (rows * cols) + x) % (rows * cols) = x := idx_mod hx
  rw [offset, stack, hDiv, hMod]

section Copies

variable {α : Type} {rows cols natt j i c : Nat}

theorem matrixOf_memcpy (dst src : Buffer α) (hi : i < rows) (hc : c < cols) :
    matrixOf cols (memcpy dst src (rows * cols)) i c = matrixOf cols src i c :=
  memcpy_of_lt (idx_lt hi hc)

/-- The part of attempt `j` in a copied stack. -/
theorem matrixOf_offset_memcpy (dst src : Buffer α) (hj : j < natt) (hi : i < rows) (hc : c < cols) :
    matrixOf cols (offset (memcpy dst src (natt * rows * cols)) (j * rows * cols)) i c =
      matrixOf cols (offset src (j * rows * cols)) i c := by
  have hLt : idx j (idx i c cols) (rows * cols) < natt * (rows * cols) := idx_lt hj (idx_lt hi hc)
  apply memcpy_of_lt
  rw [idx, ← Nat.mul_assoc, ← Nat.mul_assoc] at hLt
  exact hLt

/-- A member of a stack, read back as a matrix. -/
theorem matrixOf_offset_stack (a : Nat → Reference.Mat α) (j : Nat) (hi : i < rows) (hc : c < cols) :
    matrixOf cols (offset (stack rows cols a) (j * rows * cols)) i c = a j i c := by
  rw [matrixOf, Nat.mul_assoc, offset_stack rows cols a j (idx_lt hi hc)]
  exact matrixOf_flat (a j) hc

/-- The words of the `j`-th 32-byte key are the words from `8 j` on of the whole key
buffer. -/
theorem asWords_offset (b : Buffer Byte) (j : Nat) :
    asWords (offset b (j * 32)) = offset (asWords b) (j * 8) := by
  funext i
  rw [asWords, offset, asWords]
  refine leWord_congr fun x _ => congrArg b ?_
  ring

/-- The words of key `j` in a copied stack of keys. -/
theorem keys_memcpy (dst : Buffer U32) (keys : Buffer Byte) (hj : j < natt) (hi : i < 8) :
    offset (memcpy dst (asWords keys) (natt * 8)) (j * 8) i = asWords (offset keys (j * 32)) i := by
  rw [asWords_offset]
  exact memcpy_of_lt (idx_lt hj hi)

end Copies

/-- `<<<blocks, threads>>>`, for a kernel given its block and thread number. -/
def launch1 {α : Type} (s : Scheduler) (blocks threads : Nat)
    (kernel : Nat → Nat → List (Write α)) (mem : Buffer α) : Buffer α :=
  launch s (blocks * threads) (fun t => kernel (t / threads) (t % threads)) mem

/-- The same launch on the part of a buffer that begins at `start`. -/
def launchAt {α : Type} (s : Scheduler) (start blocks threads : Nat)
    (kernel : Nat → Nat → List (Write α)) (mem : Buffer α) : Buffer α :=
  launch1 s blocks threads (fun b t => (kernel b t).map (Write.shift start)) mem

/-- Blocks of `threads` that cover `size` threads. -/
def gridFor (size threads : Nat) : Nat := (size + threads - 1) / threads

/-- The rounded-up grid has at least as many threads as there are elements, so each
element has a thread. -/
theorem le_gridFor_mul (size : Nat) {threads : Nat} (h : 0 < threads) :
    size ≤ gridFor size threads * threads := by
  have := Nat.lt_div_mul_add h (a := size + threads - 1)
  rw [gridFor]
  omega

/-- An address accessed by one thread only. -/
theorem launch1_of_owner {α : Type} (s : Scheduler) {blocks threads a : Nat} (t : Nat)
    {kernel : Nat → Nat → List (Write α)} {mem : Buffer α} (ht : t < blocks * threads)
    (hOwner : ∀ u, ∀ w ∈ kernel (u / threads) (u % threads), w.addr = a → u = t) :
    launch1 s blocks threads kernel mem a = applyAll mem (kernel (t / threads) (t % threads)) a :=
  launch_of_owner s ht (fun u _ hNe w hw hAddr => hNe (hOwner u w hw hAddr))

/-- A kernel in which thread `idx` stores at address `idx` below a bound. -/
theorem launch1_store {α : Type} (s : Scheduler) {size threads : Nat} (hThreads : 0 < threads)
    {kernel : Nat → Nat → List (Write α)} (value : Nat → α) {mem : Buffer α}
    (hKernel : ∀ b t, kernel b t =
      if b * threads + t < size then [store (b * threads + t) (value (b * threads + t))] else [])
    {i : Nat} (hi : i < size) :
    launch1 s (gridFor size threads) threads kernel mem i = value i := by
  have hFlat : (fun t => kernel (t / threads) (t % threads)) =
      fun t => if t < size then [store (id t) (value t)] else [] := by
    funext t
    have hIndex : t / threads * threads + t % threads = t := idx_div_mod t threads
    rw [hKernel, hIndex]
    rfl
  rw [launch1, hFlat]
  exact launch_store s id (Nat.lt_of_lt_of_le hi (le_gridFor_mul size hThreads)) hi
    (fun u _ _ h => h)

/-- A launch whose kernel writes from `start` on is the launch on the memory seen from
there, in every thread order. -/
theorem launchAt_apply {α : Type} (s : Scheduler) (start blocks threads : Nat)
    (kernel : Nat → Nat → List (Write α)) (mem : Buffer α) (a : Nat) :
    launchAt s start blocks threads kernel mem (start + a) =
      launch1 s blocks threads kernel (offset mem start) a :=
  launch_shift s (blocks * threads) (fun t => kernel (t / threads) (t % threads)) mem start a

/-- Outside the part nothing changes. -/
theorem launchAt_of_untouched {α : Type} (s : Scheduler) {start blocks threads size x : Nat}
    {kernel : Nat → Nat → List (Write α)} {mem : Buffer α}
    (hKernel : ∀ b t, ∀ w ∈ kernel b t, w.addr < size) (hx : x < start ∨ start + size ≤ x) :
    launchAt s start blocks threads kernel mem x = mem x := by
  apply launch_of_untouched
  intro t _ w hw hAddr
  obtain ⟨v, hv, rfl⟩ := List.mem_map.mp hw
  have hLt := hKernel _ _ v hv
  simp only [Write.shift] at hAddr
  omega

end Cuda
