import PrlMiner.Cuda.Mine2Kernel

/-! The transcripts of `k_mine2`: who updates a word in which chunk, and what the
words are in the end. -/
namespace Cuda

open FixedWidth ParallelWrites Reference

variable {An Bn : Buffer I8} {m k n bx by' att c tid : Nat}

/-- The accesses of a thread in K-chunk `c`: those of its four steps. -/
def mine2Chunk (env : BlockEnv) (An Bn : Buffer I8) (m k n bx by' att c tid : Nat) : List (Write U32) :=
  ((mine2Run env An Bn m k n bx by' att (4 * (c + 1))).accesses tid).drop
    ((mine2Run env An Bn m k n bx by' att (4 * c)).accesses tid).length

theorem mine2Chunk_eq (env : BlockEnv) (hc : c < k / 128) (htid : tid < 256) :
    mine2Chunk env An Bn m k n bx by' att c tid = chunkAccesses m n bx by' att
      (matrixOf k (offset An (att * m * k))) (matrixOf n (offset Bn (att * k * n))) tid c := by
  have hBefore : Mine2Inv (offset An (att * m * k)) (offset Bn (att * k * n)) m k n bx by' att (4 * c)
      (mine2Run env An Bn m k n bx by' att (4 * c)) := mine2Run_inv env (by omega) (by omega)
  have hAfter : Mine2Inv (offset An (att * m * k)) (offset Bn (att * k * n)) m k n bx by' att (4 * (c + 1))
      (mine2Run env An Bn m k n bx by' att (4 * (c + 1))) := mine2Run_inv env (by omega) (by omega)
  rw [mine2Chunk, hBefore.accesses tid htid, hAfter.accesses tid htid,
    Nat.mul_div_cancel_left _ (by decide), Nat.mul_div_cancel_left _ (by decide), List.range_succ,
    List.flatMap_append, List.drop_left, List.flatMap_singleton]

/-- The chunks are all that a thread does. -/
theorem kMine2_eq_chunks (env : BlockEnv) (hk : 128 ∣ k) (htid : tid < 256) :
    kMine2 env An Bn m k n bx by' att tid =
      (List.range (k / 128)).flatMap fun c => mine2Chunk env An Bn m k n bx by' att c tid := by
  rw [kMine2_eq env hk htid]
  exact List.flatMap_congr fun c hc => (mine2Chunk_eq env (List.mem_range.mp hc) htid).symm

/-- The chunk `c` of every thread of the grid. -/
def gridChunk (env : Nat → Nat → Nat → BlockEnv) (An Bn : Buffer I8) (m k n c : Nat) (t : GridThread) :
    List (Write U32) :=
  mine2Chunk (env t.x t.y t.z) An Bn m k n t.x t.y t.z c t.tid

theorem gridChunk_updatedOnce (env : Nat → Nat → Nat → BlockEnv) (hm : 128 ∣ m) (hn : 128 ∣ n)
    (hc : c < k / 128) {natt j sr sc : Nat} (hj : j < natt) (hsr : sr < m / 2) (hsc : sc < n / 64) :
    UpdatedOnce (wordAddr (m / 2) (n / 64) j sr sc (c % 16))
      (fun t : GridThread => t.In (m / 128) (n / 128) natt 256) (gridChunk env An Bn m k n c) := by
  have hSlot : c % 16 < 16 := Nat.mod_lt _ (by decide)
  have hOwner : (sr % 64 / 16 * 2 + sc % 2) * 32 + sr % 4 * 8 < 256 := by omega
  have hBlock : sr / 64 < m / 128 ∧ sc / 2 < n / 128 := by omega
  refine ⟨⟨sr / 64, sc / 2, j, (sr % 64 / 16 * 2 + sc % 2) * 32 + sr % 4 * 8⟩,
    ⟨hBlock.1, hBlock.2, hj, hOwner⟩, ?_, ?_⟩
  · rw [gridChunk, mine2Chunk_eq _ hc hOwner, updatesAt_chunkAccesses hm hn hsr hsc hSlot, if_pos rfl]
    rfl
  · intro ⟨x, y, z, tid⟩ ⟨hx, hy, _, htid⟩ w hw hAddr
    rw [gridChunk, mine2Chunk_eq _ hc htid] at hw
    obtain ⟨rfl, rfl, rfl, rfl, -⟩ := chunkAccesses_addr hm hn hx hy htid hsr hsc hSlot hw hAddr
    rfl

/-- In chunk `c` the accesses go to slot `c mod 16` of some sub-tile. -/
theorem gridChunk_slot (env : Nat → Nat → Nat → BlockEnv) (hm : 128 ∣ m) (hn : 128 ∣ n) (hc : c < k / 128)
    {natt : Nat} {t : GridThread} (ht : t.In (m / 128) (n / 128) natt 256) {w : Write U32}
    (hw : w ∈ gridChunk env An Bn m k n c t) :
    ∃ j < natt, ∃ sr < m / 2, ∃ sc < n / 64, w.addr = wordAddr (m / 2) (n / 64) j sr sc (c % 16) := by
  obtain ⟨x, y, z, tid⟩ := t
  obtain ⟨hx, hy, hz, htid⟩ := ht
  dsimp only at hx hy hz htid
  rw [gridChunk, mine2Chunk_eq _ hc htid, chunkAccesses_eq] at hw
  dsimp only at hw
  obtain ⟨-, hw⟩ := List.mem_ite_nil_right.mp hw
  obtain ⟨i, hi, rfl⟩ := List.mem_map.mp hw
  rw [List.mem_range] at hi
  exact ⟨z, hz, x * 64 + tid / 64 * 16 + i * 4 + tid % 32 / 8, by omega, y * 2 + tid / 32 % 2, by omega, rfl⟩

/-- Launched on zeroed transcripts, `k_mine2` updates in chunk `c` slot `c mod 16` of
every sub-tile by one lane of one block, and leaves the reference transcripts. -/
theorem k_mine2_transcripts (s : Scheduler) (env : Nat → Nat → Nat → BlockEnv) (An Bn : Buffer I8)
    (mem : Buffer U32) {natt m k n : Nat} (hm : 128 ∣ m) (hk : 128 ∣ k) (hn : 128 ∣ n)
    (hZero : ∀ x < natt * (m / 2) * (n / 64) * 16, mem x = 0) :
    (∀ c < k / 128, (∀ j < natt, ∀ sr < m / 2, ∀ sc < n / 64,
        UpdatedOnce (((j * (m / 2) + sr) * (n / 64) + sc) * 16 + c % 16)
          (fun t : GridThread => t.In (m / 128) (n / 128) natt 256) (gridChunk env An Bn m k n c)) ∧
      ∀ t : GridThread, t.In (m / 128) (n / 128) natt 256 → ∀ w ∈ gridChunk env An Bn m k n c t,
        ∃ j < natt, ∃ sr < m / 2, ∃ sc < n / 64, w.addr = ((j * (m / 2) + sr) * (n / 64) + sc) * 16 + c % 16) ∧
    (∀ t : GridThread, t.In (m / 128) (n / 128) natt 256 →
      kMine2 (env t.x t.y t.z) An Bn m k n t.x t.y t.z t.tid =
        (List.range (k / 128)).flatMap fun c => gridChunk env An Bn m k n c t) ∧
    ∀ j < natt, ∀ sr < m / 2, ∀ sc < n / 64, ∀ w < 16,
      launchGrid s (m / 128) (n / 128) natt 256
          (fun bx by' att => kMine2 (env bx by' att) An Bn m k n bx by' att) mem
          (((j * (m / 2) + sr) * (n / 64) + sc) * 16 + w) =
        transcript (matrixOf k (offset An (j * m * k))) (matrixOf n (offset Bn (j * k * n))) 128 2 64
          (k / 128) (2 * sr) (64 * sc) w := by
  refine ⟨fun c hc => ⟨fun j hj sr hsr sc hsc => ?_, fun t ht w hw => ?_⟩, fun t ht => ?_, ?_⟩
  · exact gridChunk_updatedOnce env hm hn hc hj hsr hsc
  · exact gridChunk_slot env hm hn hc ht hw
  · exact kMine2_eq_chunks (env t.x t.y t.z) hk ht.2.2.2
  · intro j hj sr hsr sc hsc w hw
    rw [Nat.mul_comm 2 sr, Nat.mul_comm 64 sc]
    exact launch_kMine2 s env An Bn mem hm hn hk hj hsr hsc hw
      (hZero _ (idx_lt (idx_lt (idx_lt hj hsr) hsc) hw))

/-- Two attempts on one block, over factors of threes and fours: slot 0 of a sub-tile of the
second attempt. -/
theorem k_mine2_transcripts_two :
    UpdatedOnce (((1 * (128 / 2) + 5) * (128 / 64) + 1) * 16 + 0 % 16)
      (fun t : GridThread => t.In (128 / 128) (128 / 128) 2 256)
      (gridChunk (fun _ _ _ => default) (fun _ => 3) (fun _ => 4) 128 128 128 0) ∧
    launchGrid default (128 / 128) (128 / 128) 2 256
        (fun bx by' att => kMine2 default (fun _ => 3) (fun _ => 4) 128 128 128 bx by' att) (fun _ => 0)
        (((1 * (128 / 2) + 5) * (128 / 64) + 1) * 16 + 0) =
      transcript (matrixOf 128 (offset (fun _ => 3) (1 * 128 * 128)))
        (matrixOf 128 (offset (fun _ => 4) (1 * 128 * 128))) 128 2 64 (128 / 128) (2 * 5) (64 * 1) 0 := by
  have hRun := @k_mine2_transcripts default (fun _ _ _ => default) (fun _ => 3) (fun _ => 4) (fun _ => 0) 2 128 128 128
    (dvd_refl _) (dvd_refl _) (dvd_refl _) (fun _ _ => rfl)
  refine ⟨(hRun.1 0 (by decide)).1 1 (by decide) 5 (by decide) 1 (by decide), ?_⟩
  exact hRun.2.2 1 (by decide) 5 (by decide) 1 (by decide) 0 (by decide)

end Cuda
