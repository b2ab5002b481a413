import PrlMiner.Cuda.Device
import PrlMiner.Reference.Transcript

/-! Grid launches that fold tile hashes into transcript words. A word that one
thread alone updates, once for each chunk of its slot, ends as the reference
transcript word of its tile. -/
namespace Cuda

open FixedWidth LittleEndian ParallelWrites Reference

/-- `<<<dim3(gx, gy, gz), threads>>>`, for a kernel given its block and thread number. -/
def launchGrid {α : Type} (s : Scheduler) (gx gy gz threads : Nat)
    (kernel : Nat → Nat → Nat → Nat → List (Write α)) (mem : Buffer α) : Buffer α :=
  launch s (gz * gy * gx * threads) (fun t =>
    let block := t / threads
    kernel (block % gx) (block / gx % gy) (block / gx / gy) (t % threads)) mem

/-- A thread of a grid, by its block and its number there. -/
structure GridThread where
  x : Nat
  y : Nat
  z : Nat
  tid : Nat

def GridThread.In (t : GridThread) (gx gy gz threads : Nat) : Prop :=
  t.x < gx ∧ t.y < gy ∧ t.z < gz ∧ t.tid < threads

/-- `x = ((x << 13) | (x >> 19)) ^ h`. -/
def foldWord (h : U32) (x : U32) : U32 := ((x <<< 13) ||| (x >>> 19)) ^^^ h

/-- Word `s` of sub-tile `(sr, sc)` of attempt `att`. -/
def wordAddr (rows cols att sr sc s : Nat) : Nat := idx (idx (idx att sr rows) sc cols) s 16

theorem idx_inj {r r' c c' ld : Nat} (hc : c < ld) (hc' : c' < ld) (h : idx r c ld = idx r' c' ld) :
    r = r' ∧ c = c' := by
  have hDiv := congrArg (· / ld) h
  have hMod := congrArg (· % ld) h
  simp only [idx_div hc, idx_div hc', idx_mod hc, idx_mod hc'] at hDiv hMod
  exact ⟨hDiv, hMod⟩

/-- Two transcript words share an address only when they are the same word of the same
tile in the same attempt. -/
theorem wordAddr_inj {rows cols att att' sr sr' sc sc' s s' : Nat} (hsr : sr < rows) (hsr' : sr' < rows)
    (hsc : sc < cols) (hsc' : sc' < cols) (hs : s < 16) (hs' : s' < 16)
    (h : wordAddr rows cols att sr sc s = wordAddr rows cols att' sr' sc' s') :
    att = att' ∧ sr = sr' ∧ sc = sc' ∧ s = s' := by
  obtain ⟨hTile, rfl⟩ := idx_inj hs hs' h
  obtain ⟨hRow, rfl⟩ := idx_inj hsc hsc' hTile
  obtain ⟨rfl, rfl⟩ := idx_inj hsr hsr' hRow
  exact ⟨rfl, rfl, rfl, rfl⟩

/-- An address accessed by one thread of the grid only. -/
theorem launchGrid_of_owner {α : Type} (s : Scheduler) {gx gy gz threads a : Nat} (x y z tid : Nat)
    {kernel : Nat → Nat → Nat → Nat → List (Write α)} {mem : Buffer α}
    (hx : x < gx) (hy : y < gy) (hz : z < gz) (ht : tid < threads)
    (hOwner : ∀ x' < gx, ∀ y' < gy, ∀ z' < gz, ∀ tid' < threads, ∀ w ∈ kernel x' y' z' tid', w.addr = a →
      x' = x ∧ y' = y ∧ z' = z ∧ tid' = tid) :
    launchGrid s gx gy gz threads kernel mem a = applyAll mem (kernel x y z tid) a := by
  have hLt : idx (idx (idx z y gy) x gx) tid threads < gz * gy * gx * threads :=
    idx_lt (idx_lt (idx_lt hz hy) hx) ht
  have hRun := @launch_of_owner α s (gz * gy * gx * threads) (fun t =>
      kernel (t / threads % gx) (t / threads / gx % gy) (t / threads / gx / gy) (t % threads)) mem a
    (idx (idx (idx z y gy) x gx) tid threads) hLt
    (fun u hu hNe w hw hAddr => by
      have hPos : 0 < gx ∧ 0 < gy ∧ 0 < threads := ⟨by omega, by omega, by omega⟩
      have hz' : u / threads / gx / gy < gz := by
        rw [Nat.div_div_eq_div_mul, Nat.div_div_eq_div_mul]
        apply Nat.div_lt_of_lt_mul
        calc u < gz * gy * gx * threads := hu
          _ = threads * (gx * gy) * gz := by ring
      obtain ⟨h1, h2, h3, h4⟩ := hOwner _ (Nat.mod_lt _ hPos.1) _ (Nat.mod_lt _ hPos.2.1) _ hz' _
        (Nat.mod_lt _ hPos.2.2) w hw hAddr
      apply hNe
      rw [← h1, ← h2, ← h3, ← h4, idx_div_mod, idx_div_mod, idx_div_mod])
  simp only [idx_div ht, idx_mod ht, idx_div hx, idx_mod hx, idx_div hy, idx_mod hy] at hRun
  exact hRun

/-- The device's fold of a chunk's word is the rotation and the exclusive or of the
reference. -/
theorem foldWord_eq (h x : U32) : foldWord h x = rotl32 x hashAccumulateRotation ^^^ h := rfl

/-- One access for each chunk of the slot leaves the folded chunk hashes. -/
theorem applyAll_chunks {mem : Buffer U32} {a s : Nat} (hZero : mem a = 0)
    {writes : Nat → List (Write U32)} {h : Nat → U32} {chunks : Nat}
    (hWrites : ∀ c < chunks, updatesAt a (writes c) = if c % 16 = s then [foldWord (h c)] else []) :
    applyAll mem ((List.range chunks).flatMap writes) a = foldChunks h chunks s := by
  induction chunks with
  | zero => exact hZero
  | succ c ih =>
      rw [List.range_succ, List.flatMap_append, List.flatMap_singleton, applyAll_append, applyAll_apply,
        ih (fun c hc => hWrites c (by omega)), hWrites c (by omega), foldChunks_succ]
      have hSlot : c % 16 = s ↔ s = c % transcriptSizeU32 := eq_comm
      by_cases hHit : c % 16 = s
      · rw [if_pos hHit, if_pos (hSlot.mp hHit)]
        exact foldWord_eq _ _
      · rw [if_neg hHit, if_neg (fun h => hHit (hSlot.mpr h))]
        rfl

end Cuda
