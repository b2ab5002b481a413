import PrlMiner.Cuda.Device

/-! The double-buffered loads that `k_mine` and `k_mine2` share. Each step a block
of 256 threads copies a 128x32 tile of `An` and a 32x128 tile of `Bn` into one
half of its shared memory while it works on the other. A copy in flight may land
at any time before it is waited for, so until then its bytes read as anything. -/
namespace Cuda

open FixedWidth LittleEndian ParallelWrites

/-- What is left open about one block: its shared memory at the start, what bytes
in flight read as, and the order of its threads in each phase between barriers. -/
structure BlockEnv where
  As : Buffer I8
  Bs : Buffer I8
  Bst : Buffer I8
  flightA : Nat → Buffer I8
  flightB : Nat → Buffer I8
  landing : Nat → Scheduler
  transposing : Nat → Scheduler
  deriving Inhabited

/-- What is left open over one call of the host code: what each fresh allocation
holds, the order of the threads of each launch, and the blocks. -/
structure Device where
  mallocI8 : Nat → Buffer I8
  mallocI32 : Nat → Buffer I32
  mallocU32 : Nat → Buffer U32
  mallocInt : Nat → Buffer Int
  schedule : Nat → Scheduler
  block : Nat → Nat → Nat → BlockEnv
  deriving Inhabited

/-- `cp.async.cg.shared.global [dst], [src], 16`. -/
def cpAsync16 (dst : Nat) (global : Buffer I8) (src : Nat) : List (Write I8) :=
  (List.range 16).map fun b => store (dst + b) (global (src + b))

/-- One `cp.async` group of the block: the copies of each thread. -/
structure CopyGroup where
  toA : Nat → List (Write I8)
  toB : Nat → List (Write I8)

/-- Shared memory of the pipeline and the groups not waited for, oldest first. -/
structure Staging where
  As : Buffer I8
  Bs : Buffer I8
  pending : List CopyGroup

/-- Start of half `s` in `int8_t As[2][128*32]` and `int8_t Bs[2][32*128]`. -/
def half (s : Nat) : Nat := s * 4096

/-- `LOAD(s, koff)` for the block with top left corner `(br, bc)`. -/
def loadTiles (An Bn : Buffer I8) (k n br bc s koff : Nat) : CopyGroup where
  toA tid :=
    let ar := tid / 2
    let ah := tid % 2
    cpAsync16 (half s + ar * 32 + ah * 16) An (idx (br + ar) (koff + ah * 16) k)
  toB tid :=
    let row := tid / 8
    let bp := tid % 8
    cpAsync16 (half s + row * 128 + bp * 16) Bn (idx (koff + row) (bc + bp * 16) n)

/-- The bytes a group has in flight. -/
def inFlight (copies : Nat → List (Write I8)) (x : Nat) : Bool :=
  (List.range 256).any fun tid => (copies tid).any (·.addr = x)

/-- `cp.async.commit_group` after the copies of group `number`. -/
def commitGroup (env : BlockEnv) (number : Nat) (group : CopyGroup) (st : Staging) : Staging where
  As := fun x => if inFlight group.toA x then env.flightA number x else st.As x
  Bs := fun x => if inFlight group.toB x then env.flightB number x else st.Bs x
  pending := st.pending ++ [group]

/-- All copies of a group have landed. -/
def landGroup (s : Scheduler) (st : Staging) (group : CopyGroup) : Staging :=
  { st with As := launch s 256 group.toA st.As, Bs := launch s 256 group.toB st.Bs }

/-- `cp.async.wait_group keep` in every thread, then a barrier. -/
def waitGroup (s : Scheduler) (keep : Nat) (st : Staging) : Staging :=
  let landed := st.pending.take (st.pending.length - keep)
  { landed.foldl (landGroup s) st with pending := st.pending.drop (st.pending.length - keep) }

/-- Before the loop: `LOAD(0, 0)` and its commit. -/
def startStaging (env : BlockEnv) (An Bn : Buffer I8) (k n br bc : Nat) : Staging :=
  commitGroup env 0 (loadTiles An Bn k n br bc 0 0) ⟨env.As, env.Bs, []⟩

/-- Top of step `ks`: start the next load, wait for this one. -/
def stageStep (env : BlockEnv) (An Bn : Buffer I8) (k n br bc nk ks : Nat) (st : Staging) : Staging :=
  if ks + 1 < nk then
    waitGroup (env.landing ks) 1 (commitGroup env (ks + 1)
      (loadTiles An Bn k n br bc ((ks + 1) % 2) ((ks + 1) * 32)) st)
  else waitGroup (env.landing ks) 0 st

section Land

variable (s : Scheduler) (An Bn : Buffer I8) (k n br bc stage koff : Nat) (st : Staging)

/-- A landed half of `As` is the row-major 128x32 tile. -/
theorem landGroup_As {x : Nat} (hx : x < 4096) :
    (landGroup s st (loadTiles An Bn k n br bc stage koff)).As (half stage + x) =
      An (idx (br + x / 32) (koff + x % 32) k) := by
  have hRun := launch_stores s (n := 256) (c := 16) (t := x / 16) (i := x % 16)
    (fun tid b => half stage + tid / 2 * 32 + tid % 2 * 16 + b)
    (fun tid b => An (idx (br + tid / 2) (koff + tid % 2 * 16) k + b)) st.As (by omega) (by omega)
    (fun u hu j hj h => by omega)
  have hAddr : half stage + x / 16 / 2 * 32 + x / 16 % 2 * 16 + x % 16 = half stage + x := by omega
  have hCol : idx (br + x / 16 / 2) (koff + x / 16 % 2 * 16) k + x % 16 =
      idx (br + x / 32) (koff + x % 32) k := by
    rw [idx, idx, show x / 16 / 2 = x / 32 by omega]
    omega
  rw [hAddr, hCol] at hRun
  exact hRun

/-- A landed half of `Bs` is the row-major 32x128 tile. -/
theorem landGroup_Bs {x : Nat} (hx : x < 4096) :
    (landGroup s st (loadTiles An Bn k n br bc stage koff)).Bs (half stage + x) =
      Bn (idx (koff + x / 128) (bc + x % 128) n) := by
  have hRun := launch_stores s (n := 256) (c := 16) (t := x / 16) (i := x % 16)
    (fun tid b => half stage + tid / 8 * 128 + tid % 8 * 16 + b)
    (fun tid b => Bn (idx (koff + tid / 8) (bc + tid % 8 * 16) n + b)) st.Bs (by omega) (by omega)
    (fun u hu j hj h => by omega)
  have hAddr : half stage + x / 16 / 8 * 128 + x / 16 % 8 * 16 + x % 16 = half stage + x := by omega
  have hCol : idx (koff + x / 16 / 8) (bc + x / 16 % 8 * 16) n + x % 16 =
      idx (koff + x / 128) (bc + x % 128) n := by
    rw [idx, idx, show x / 16 / 8 = x / 128 by omega]
    omega
  rw [hAddr, hCol] at hRun
  exact hRun

end Land

/-- The loop invariant: one group is pending, that of the step to come. -/
def Staged (An Bn : Buffer I8) (k n br bc nk ks : Nat) (st : Staging) : Prop :=
  st.pending = if ks < nk then [loadTiles An Bn k n br bc (ks % 2) (ks * 32)] else []

theorem staged_start (env : BlockEnv) (An Bn : Buffer I8) (k n br bc : Nat) {nk : Nat} (h : 0 < nk) :
    Staged An Bn k n br bc nk 0 (startStaging env An Bn k n br bc) := by
  rw [Staged, if_pos h]
  rfl

/-- One step lands its own tiles and leaves the next group pending. -/
theorem stageStep_spec (env : BlockEnv) {An Bn : Buffer I8} {k n br bc nk ks : Nat} {st : Staging}
    (hks : ks < nk) (hStaged : Staged An Bn k n br bc nk ks st) :
    let next := stageStep env An Bn k n br bc nk ks st
    Staged An Bn k n br bc nk (ks + 1) next ∧
      (∀ x < 4096, next.As (half (ks % 2) + x) = An (idx (br + x / 32) (ks * 32 + x % 32) k)) ∧
      (∀ x < 4096, next.Bs (half (ks % 2) + x) = Bn (idx (ks * 32 + x / 128) (bc + x % 128) n)) := by
  rw [Staged, if_pos hks] at hStaged
  by_cases hNext : ks + 1 < nk
  · simp only [stageStep, if_pos hNext, waitGroup, commitGroup, hStaged, Staged]
    exact ⟨rfl, fun x hx => landGroup_As _ _ _ _ _ _ _ _ _ _ hx,
      fun x hx => landGroup_Bs _ _ _ _ _ _ _ _ _ _ hx⟩
  · simp only [stageStep, if_neg hNext, waitGroup, hStaged, Staged]
    exact ⟨rfl, fun x hx => landGroup_As _ _ _ _ _ _ _ _ _ _ hx,
      fun x hx => landGroup_Bs _ _ _ _ _ _ _ _ _ _ hx⟩

end Cuda
