import PrlMiner.Cuda.ReferenceScan
import PrlMiner.Cuda.TilePipeline
import PrlMiner.Cuda.TranscriptGrid
import PrlMiner.Cuda.Warp

/-! `k_mine`: the noised product on tensor cores with 16x16 hash tiles. The loads
are those of `k_mine2`, the operands are read without a transpose, and one lane of
each warp folds what a butterfly over all 32 lanes has collected. -/
namespace Cuda

open FixedWidth LittleEndian ParallelWrites Reduction Reference

/-- The variables of a block after some steps. -/
structure MineState where
  staging : Staging
  acc : Nat → Nat → Nat → Nat → I32
  accesses : Nat → List (Write U32)

/-- Registers `a0, ..., a3` of a warp for one `mrow`. -/
def mineA (As : Buffer I8) (cur wr mrow : Nat) : Nat → Nat → U32 := fun lane reg =>
  let arow := wr * 32 + mrow * 16
  load32 As (half cur + (arow + lane / 4 + 8 * (reg % 2)) * 32 + lane % 4 * 4 + 16 * (reg / 2))

/-- Registers `bf0[ncol]` and `bf1[ncol]` of a warp. -/
def mineB (Bs : Buffer I8) (cur wc ncol : Nat) : Nat → Nat → U32 := fun lane reg =>
  let t := lane % 4
  let bcol := wc * 64 + ncol * 8 + lane / 4
  pk (Bs (half cur + (t * 4 + 16 * reg) * 128 + bcol)) (Bs (half cur + (t * 4 + 1 + 16 * reg) * 128 + bcol))
    (Bs (half cur + (t * 4 + 2 + 16 * reg) * 128 + bcol))
    (Bs (half cur + (t * 4 + 3 + 16 * reg) * 128 + bcol))

/-- `loc` of each lane before the shuffles. -/
def subtileXor (acc : Nat → Nat → Nat → I32) (hcol : Nat) : Nat → U32 := fun lane =>
  let ca := acc lane (2 * hcol)
  let cb := acc lane (2 * hcol + 1)
  ca 0 ^^^ ca 1 ^^^ ca 2 ^^^ ca 3 ^^^ cb 0 ^^^ cb 1 ^^^ cb 2 ^^^ cb 3

/-- The accesses of a thread at the end of a chunk, given its shuffled words. -/
def mineAccesses (n bx by' slot tid : Nat) (loc : Nat → Nat → U32) : List (Write U32) :=
  let wid := tid / 32
  let wr := wid / 2
  let wc := wid % 2
  if tid % 32 = 0 then
    (List.range 2).flatMap fun mrow => (List.range 4).map fun hcol =>
      let sr := bx * 128 / 16 + wr * 2 + mrow
      let sc := by' * 128 / 16 + wc * 4 + hcol
      ⟨(sr * (n / 16) + sc) * 16 + slot, foldWord (loc mrow hcol)⟩
  else []

/-- One step of the K loop. -/
def mineStep (env : BlockEnv) (An Bn : Buffer I8) (k n bx by' : Nat) (st : MineState) (ks : Nat) :
    MineState :=
  let cur := ks % 2
  let staging := stageStep env An Bn k n (bx * 128) (by' * 128) (k / 32) ks st.staging
  let acc := fun tid mrow ncol =>
    let wid := tid / 32
    mma (mineA staging.As cur (wid / 2) mrow) (mineB staging.Bs cur (wid % 2) ncol)
      (fun lane => st.acc (wid * 32 + lane) mrow ncol) (tid % 32)
  let accesses := fun tid =>
    let warp := fun mrow lane => acc (tid / 32 * 32 + lane) mrow
    if (ks + 1) % 4 = 0 then
      st.accesses tid ++ mineAccesses n bx by' (((ks + 1) / 4 - 1) % 16) tid
        (fun mrow hcol => xorButterfly (subtileXor (warp mrow) hcol) (tid % 32))
    else st.accesses tid
  ⟨staging, acc, accesses⟩

/-- The accesses of every thread of block `(bx, by')` to the transcripts. -/
def kMine (env : BlockEnv) (An Bn : Buffer I8) (k n bx by' : Nat) : Nat → List (Write U32) :=
  let start : MineState :=
    ⟨startStaging env An Bn k n (bx * 128) (by' * 128), fun _ _ _ _ => 0, fun _ => []⟩
  ((List.range (k / 32)).foldl (mineStep env An Bn k n bx by') start).accesses

theorem elemA_mineA (As : Buffer I8) (cur wr mrow : Nat) {row kk : Nat} (hRow : row < 16) :
    elemA (mineA As cur wr mrow) row kk =
      As (half cur + ((wr * 32 + mrow * 16 + row) * 32 + kk)) := by
  have hForm := @elemA_load32 As (half cur + (wr * 32 + mrow * 16) * 32) row kk hRow
  have hAddr : half cur + (wr * 32 + mrow * 16) * 32 + row * 32 + kk =
      half cur + ((wr * 32 + mrow * 16 + row) * 32 + kk) := by ring
  have hRegs : mineA As cur wr mrow = fun lane reg => load32 As (half cur + (wr * 32 + mrow * 16) * 32 +
      (lane / 4 + 8 * (reg % 2)) * 32 + lane % 4 * 4 + 16 * (reg / 2)) :=
    funext fun lane => funext fun reg => congrArg (load32 As) (by ring)
  rw [hRegs, hForm, hAddr]

theorem elemB_mineB (Bs : Buffer I8) (cur wc ncol kk col : Nat) :
    elemB (mineB Bs cur wc ncol) kk col = Bs (half cur + (kk * 128 + (wc * 64 + ncol * 8 + col))) := by
  have hForm := elemB_pk Bs (half cur + (wc * 64 + ncol * 8)) kk col
  have hAddr : half cur + (wc * 64 + ncol * 8) + kk * 128 + col =
      half cur + (kk * 128 + (wc * 64 + ncol * 8 + col)) := by ring
  have hRegs : mineB Bs cur wc ncol = fun lane reg =>
      pk (Bs (half cur + (wc * 64 + ncol * 8) + (lane % 4 * 4 + 16 * reg) * 128 + lane / 4))
        (Bs (half cur + (wc * 64 + ncol * 8) + (lane % 4 * 4 + 1 + 16 * reg) * 128 + lane / 4))
        (Bs (half cur + (wc * 64 + ncol * 8) + (lane % 4 * 4 + 2 + 16 * reg) * 128 + lane / 4))
        (Bs (half cur + (wc * 64 + ncol * 8) + (lane % 4 * 4 + 3 + 16 * reg) * 128 + lane / 4)) := by
    funext lane reg
    have hByte (x : Nat) : half cur + x * 128 + (wc * 64 + ncol * 8 + lane / 4) =
        half cur + (wc * 64 + ncol * 8) + x * 128 + lane / 4 := by ring
    simp only [mineB, hByte]
  rw [hRegs, hForm, hAddr]

/-- Four lanes hold sixteen columns of a row in two accumulators. -/
theorem reduce_row (f : Nat → U32) :
    reduce (· ^^^ ·) 0 4 (fun t => (f (t * 2) ^^^ f (t * 2 + 1)) ^^^
      (f (8 + t * 2) ^^^ f (8 + (t * 2 + 1)))) = reduce (· ^^^ ·) 0 16 f := by
  have hPairs (f : Nat → U32) : reduce (· ^^^ ·) 0 4 (fun t => f (t * 2) ^^^ f (t * 2 + 1)) =
      reduce (· ^^^ ·) 0 8 f := by
    rw [reduce_mul 4 2]
    exact reduce_congr (fun t _ => (reduce_pair fun j => f (t * 2 + j)).symm)
  rw [reduce_op, hPairs f, hPairs (fun b => f (8 + b))]
  exact (reduce_add 8 8 f).symm

/-- The butterfly over an accumulated block is the hash of its 16x16 tile. -/
theorem xorButterfly_subtileXor {A B : Mat I8} {acc : Nat → Nat → Nat → I32} {p hcol : Nat}
    (row col : Nat) (hHcol : hcol < 4)
    (hAcc : ∀ lane < 32, ∀ ncol < 8, ∀ e < 4, acc lane ncol e =
      prefixProduct A B p (row + accRow lane e) (col + ncol * 8 + accCol lane e)) :
    xorButterfly (subtileXor acc hcol) 0 = tileHash A B 16 16 row (col + hcol * 16) p := by
  let F := fun a b => prefixProduct A B p (row + a) (col + hcol * 16 + b)
  have hRow (half : Nat) (hHalf : half < 2) (g : Nat) (hg : g < 8) :
      reduce (· ^^^ ·) 0 4 (fun t =>
        (acc (g * 4 + t) (2 * hcol) (half * 2) ^^^ acc (g * 4 + t) (2 * hcol) (half * 2 + 1)) ^^^
          (acc (g * 4 + t) (2 * hcol + 1) (half * 2) ^^^ acc (g * 4 + t) (2 * hcol + 1) (half * 2 + 1))) =
        reduce (· ^^^ ·) 0 16 (F (half * 8 + g)) := by
    rw [← reduce_row]
    apply reduce_congr
    intro t ht
    have hEntry (c e : Nat) (hc : c < 2) (he : e < 2) :
        acc (g * 4 + t) (2 * hcol + c) (half * 2 + e) = F (half * 8 + g) (c * 8 + (t * 2 + e)) := by
      rw [hAcc _ (by omega) _ (by omega) _ (by omega), accRow, accCol]
      simp only [F]
      congr 1 <;> omega
    have h00 := hEntry 0 0 (by decide) (by decide)
    have h01 := hEntry 0 1 (by decide) (by decide)
    have h10 := hEntry 1 0 (by decide) (by decide)
    have h11 := hEntry 1 1 (by decide) (by decide)
    simp only [Nat.zero_mul, Nat.zero_add, Nat.add_zero, Nat.one_mul] at h00 h01 h10 h11
    rw [h00, h01, h10, h11]
  have hLane (lane : Nat) : subtileXor acc hcol lane =
      ((acc lane (2 * hcol) 0 ^^^ acc lane (2 * hcol) 1) ^^^
        (acc lane (2 * hcol + 1) 0 ^^^ acc lane (2 * hcol + 1) 1)) ^^^
      ((acc lane (2 * hcol) 2 ^^^ acc lane (2 * hcol) 3) ^^^
        (acc lane (2 * hcol + 1) 2 ^^^ acc lane (2 * hcol + 1) 3)) := by
    simp only [subtileXor]
    ac_rfl
  have hTop := fun g hg => hRow 0 (by decide) g hg
  have hBottom := fun g hg => hRow 1 (by decide) g hg
  rw [xorButterfly_zero, reduce_congr (fun lane _ => hLane lane), reduce_op, tileHash,
    innerHashTile_eq_nested, reduce_mul 8 4, reduce_mul 8 4, reduce_add 8 8]
  refine congrArg₂ (· ^^^ ·) (reduce_congr fun g hg => ?_) (reduce_congr fun g hg => ?_)
  · refine (hTop g hg).trans ?_
    simp only [F, Nat.zero_mul, Nat.zero_add]
  · refine (hBottom g hg).trans ?_
    simp only [F, Nat.one_mul]

section Block

variable (env : BlockEnv) (An Bn : Buffer I8) (k n bx by' : Nat)

/-- The accesses of a thread for chunk `c`, with the hashes of the reference. -/
def mineChunk (A B : Mat I8) (n bx by' tid c : Nat) : List (Write U32) :=
  mineAccesses n bx by' (c % 16) tid fun mrow hcol =>
    tileHash A B 16 16 (bx * 128 + tid / 32 / 2 * 32 + mrow * 16)
      (by' * 128 + tid / 32 % 2 * 64 + hcol * 16) (128 * (c + 1))

/-- The loop invariant after `q` steps. -/
structure MineInv (q : Nat) (st : MineState) : Prop where
  staged : Staged An Bn k n (bx * 128) (by' * 128) (k / 32) q st.staging
  acc : ∀ tid < 256, ∀ mrow < 2, ∀ ncol < 8, ∀ e < 4, st.acc tid mrow ncol e =
    prefixProduct (matrixOf k An) (matrixOf n Bn) (q * 32)
      (bx * 128 + tid / 32 / 2 * 32 + mrow * 16 + accRow (tid % 32) e)
      (by' * 128 + tid / 32 % 2 * 64 + ncol * 8 + accCol (tid % 32) e)
  accesses : ∀ tid < 256, st.accesses tid = (List.range (q / 4)).flatMap
    (mineChunk (matrixOf k An) (matrixOf n Bn) n bx by' tid)

variable {An Bn k n bx by'}

/-- The multiplies of one step add 32 columns to every accumulator. -/
theorem mineStep_acc {q : Nat} {st : MineState} (hq : q < k / 32)
    (hInv : MineInv An Bn k n bx by' q st) :
    ∀ tid < 256, ∀ mrow < 2, ∀ ncol < 8, ∀ e < 4,
      (mineStep env An Bn k n bx by' st q).acc tid mrow ncol e =
        prefixProduct (matrixOf k An) (matrixOf n Bn) ((q + 1) * 32)
          (bx * 128 + tid / 32 / 2 * 32 + mrow * 16 + accRow (tid % 32) e)
          (by' * 128 + tid / 32 % 2 * 64 + ncol * 8 + accCol (tid % 32) e) := by
  obtain ⟨-, hAs, hBs⟩ := stageStep_spec env hq hInv.staged
  intro tid htid mrow hmrow ncol hncol e he
  have hA : ∀ row < 16, ∀ kk < 32, elemA (mineA (stageStep env An Bn k n (bx * 128) (by' * 128)
      (k / 32) q st.staging).As (q % 2) (tid / 32 / 2) mrow) row kk =
        matrixOf k An (bx * 128 + tid / 32 / 2 * 32 + mrow * 16 + row) (q * 32 + kk) := by
    intro row hRow kk hkk
    rw [elemA_mineA _ _ _ _ hRow, hAs _ (by omega), matrixOf]
    congr 2 <;> omega
  have hB : ∀ kk < 32, ∀ col < 8, elemB (mineB (stageStep env An Bn k n (bx * 128) (by' * 128)
      (k / 32) q st.staging).Bs (q % 2) (tid / 32 % 2) ncol) kk col =
        matrixOf n Bn (q * 32 + kk) (by' * 128 + tid / 32 % 2 * 64 + ncol * 8 + col) := by
    intro kk hkk col hcol
    rw [elemB_mineB, hBs _ (by omega), matrixOf]
    congr 2 <;> omega
  rw [Nat.succ_mul]
  exact mma_accumulates (fun tid => st.acc tid mrow ncol) he hA hB
    (hInv.acc tid htid mrow hmrow ncol hncol e he)

/-- The shuffled words of lane 0 are the hashes of the tiles of its warp. -/
theorem mine_hash {q : Nat} {acc : Nat → Nat → Nat → Nat → I32} {A B : Mat I8}
    (hAcc : ∀ tid < 256, ∀ mrow < 2, ∀ ncol < 8, ∀ e < 4, acc tid mrow ncol e =
      prefixProduct A B (q * 32) (bx * 128 + tid / 32 / 2 * 32 + mrow * 16 + accRow (tid % 32) e)
        (by' * 128 + tid / 32 % 2 * 64 + ncol * 8 + accCol (tid % 32) e))
    {tid mrow hcol : Nat} (htid : tid < 256) (hmrow : mrow < 2) (hhcol : hcol < 4)
    (hLane : tid % 32 = 0) :
    xorButterfly (subtileXor (fun lane => acc (tid / 32 * 32 + lane) mrow) hcol) (tid % 32) =
      tileHash A B 16 16 (bx * 128 + tid / 32 / 2 * 32 + mrow * 16)
        (by' * 128 + tid / 32 % 2 * 64 + hcol * 16) (q * 32) := by
  rw [hLane]
  apply xorButterfly_subtileXor _ _ hhcol
  intro lane hLt ncol hncol e he
  have hDiv : (tid / 32 * 32 + lane) / 32 = tid / 32 := by omega
  have hMod : (tid / 32 * 32 + lane) % 32 = lane := by omega
  rw [hAcc _ (by omega) mrow hmrow ncol hncol e he, hDiv, hMod]

/-- One step keeps the invariant. -/
theorem mineStep_inv {q : Nat} {st : MineState} (hq : q < k / 32)
    (hInv : MineInv An Bn k n bx by' q st) :
    MineInv An Bn k n bx by' (q + 1) (mineStep env An Bn k n bx by' st q) := by
  have hAcc := mineStep_acc env hq hInv
  refine ⟨(stageStep_spec env hq hInv.staged).1, hAcc, fun tid htid => ?_⟩
  refine Search.flatMap_range_every _ (hInv.accesses tid htid) (fun hEnd => ?_) fun hElse => if_neg hElse
  have hSlot : ((q + 1) / 4 - 1) % 16 = q / 4 % 16 := by omega
  have hWidth : (q + 1) * 32 = 128 * (q / 4 + 1) := by omega
  refine (if_pos hEnd).trans (congrArg (st.accesses tid ++ ·) ?_)
  change mineAccesses n bx by' _ tid (fun mrow hcol => xorButterfly (subtileXor (fun lane =>
    (mineStep env An Bn k n bx by' st q).acc (tid / 32 * 32 + lane) mrow) hcol) (tid % 32)) = _
  rw [hSlot, mineChunk, mineAccesses, mineAccesses]
  by_cases hLane : tid % 32 = 0
  · rw [if_pos hLane, if_pos hLane]
    apply List.flatMap_congr
    intro mrow hmrow
    apply List.map_congr_left
    intro hcol hhcol
    have hHash := mine_hash hAcc htid (List.mem_range.mp hmrow) (List.mem_range.mp hhcol) hLane
    rw [hWidth] at hHash
    rw [hHash]
  · rw [if_neg hLane, if_neg hLane]

/-- Every thread makes its accesses for every chunk, in order. -/
theorem kMine_eq (hk : 128 ∣ k) {tid : Nat} (htid : tid < 256) :
    kMine env An Bn k n bx by' tid = (List.range (k / 128)).flatMap
      (mineChunk (matrixOf k An) (matrixOf n Bn) n bx by' tid) := by
  obtain rfl | hPos := Nat.eq_zero_or_pos k
  · rfl
  have hSteps : 0 < k / 32 := by omega
  have hRun (q : Nat) (hq : q ≤ k / 32) : MineInv An Bn k n bx by' q
      ((List.range q).foldl (mineStep env An Bn k n bx by')
        ⟨startStaging env An Bn k n (bx * 128) (by' * 128), fun _ _ _ _ => 0, fun _ => []⟩) := by
    induction q with
    | zero =>
        refine ⟨staged_start env An Bn k n _ _ hSteps, ?_, ?_⟩
        · intro tid _ mrow _ ncol _ e _
          rw [Nat.zero_mul]
          rfl
        · intro tid _
          rfl
    | succ q ih =>
        rw [List.range_succ, List.foldl_append]
        exact mineStep_inv env (by omega) (ih (by omega))
  have hChunks : k / 32 / 4 = k / 128 := by omega
  have hLast := (hRun (k / 32) (Nat.le_refl _)).accesses tid htid
  rw [hChunks] at hLast
  exact hLast

end Block

section Launch

variable {m n : Nat} {A B : Mat I8}

/-- The accesses of a chunk by absolute sub-tile: eight for lane 0 of each warp. -/
theorem mineChunk_eq (bx by' tid c : Nat) :
    mineChunk A B n bx by' tid c =
      if tid % 32 = 0 then
        (List.range (2 * 4)).map fun x =>
          let sr := bx * 8 + tid / 64 * 2 + x / 4
          let sc := by' * 8 + tid / 32 % 2 * 4 + x % 4
          ⟨idx (idx sr sc (n / 16)) (c % 16) 16,
            foldWord (tileHash A B 16 16 (sr * 16) (sc * 16) (128 * (c + 1)))⟩
      else [] := by
  have hWarp : tid / 32 / 2 = tid / 64 := by omega
  have hRows : bx * 128 / 16 = bx * 8 := by omega
  have hCols : by' * 128 / 16 = by' * 8 := by omega
  simp only [mineChunk, mineAccesses, hWarp, hRows, hCols]
  by_cases hFirst : tid % 32 = 0
  · rw [if_pos hFirst, if_pos hFirst, ← Search.flatMap_range_map 2 4 fun mrow hcol =>
      (⟨idx (idx (bx * 8 + tid / 64 * 2 + mrow) (by' * 8 + tid / 32 % 2 * 4 + hcol) (n / 16)) (c % 16) 16,
        foldWord (tileHash A B 16 16 ((bx * 8 + tid / 64 * 2 + mrow) * 16)
          ((by' * 8 + tid / 32 % 2 * 4 + hcol) * 16) (128 * (c + 1)))⟩ : Write U32)]
    apply List.flatMap_congr
    intro mrow _
    apply List.map_congr_left
    intro hcol _
    have hRow : bx * 128 + tid / 64 * 32 + mrow * 16 = (bx * 8 + tid / 64 * 2 + mrow) * 16 := by ring
    have hCol : by' * 128 + tid / 32 % 2 * 64 + hcol * 16 =
      (by' * 8 + tid / 32 % 2 * 4 + hcol) * 16 := by ring
    rw [hRow, hCol]
    rfl
  · rw [if_neg hFirst, if_neg hFirst]

/-- The thread that owns the words of sub-tile `(sr, sc)`. -/
def mineOwner (sr sc : Nat) : Nat := (sr % 8 / 2 * 2 + sc % 8 / 4) * 32

/-- Where the accesses of a thread go. -/
theorem mineChunk_addr (hn : 128 ∣ n) {bx by' tid c sr sc s : Nat} (hby : by' < n / 128)
    (htid : tid < 256) (hsc : sc < n / 16) (hs : s < 16) {w : Write U32}
    (hw : w ∈ mineChunk A B n bx by' tid c) (hAddr : w.addr = idx (idx sr sc (n / 16)) s 16) :
    bx = sr / 8 ∧ by' = sc / 8 ∧ tid = mineOwner sr sc ∧ c % 16 = s := by
  rw [mineChunk_eq] at hw
  obtain ⟨hFirst, hw⟩ := List.mem_ite_nil_right.mp hw
  obtain ⟨x, hx, rfl⟩ := List.mem_map.mp hw
  have hLt : x < 8 := List.mem_range.mp hx
  obtain ⟨hTile, hSlot⟩ := idx_inj (Nat.mod_lt _ (by decide)) hs hAddr
  obtain ⟨hRow, hCol⟩ := idx_inj (by omega) hsc hTile
  rw [mineOwner]
  refine ⟨by omega, by omega, by omega, hSlot⟩

/-- What the owner of a word does to it in one chunk. -/
theorem updatesAt_mineChunk (hn : 128 ∣ n) {sr sc s : Nat} (hsc : sc < n / 16) (hs : s < 16) (c : Nat) :
    updatesAt (idx (idx sr sc (n / 16)) s 16)
        (mineChunk A B n (sr / 8) (sc / 8) (mineOwner sr sc) c) =
      if c % 16 = s then [foldWord (tileHash A B 16 16 (sr * 16) (sc * 16) (128 * (c + 1)))] else [] := by
  have hOwner : mineOwner sr sc < 256 := by
    rw [mineOwner]
    omega
  by_cases hSlot : c % 16 = s
  · have hFirst : mineOwner sr sc % 32 = 0 := Nat.mul_mod_left _ _
    have hRow : sr / 8 * 8 + mineOwner sr sc / 64 * 2 + (sr % 2 * 4 + sc % 4) / 4 = sr := by
      rw [mineOwner]
      omega
    have hCol : sc / 8 * 8 + mineOwner sr sc / 32 % 2 * 4 + (sr % 2 * 4 + sc % 4) % 4 = sc := by
      rw [mineOwner]
      omega
    rw [if_pos hSlot, mineChunk_eq, if_pos hFirst, updatesAt_map_range (i := sr % 2 * 4 + sc % 4) (by omega)]
    · simp only [hRow, hCol]
    · simp only [hRow, hCol, hSlot]
    · intro j hj hAddr
      obtain ⟨hTile, -⟩ := idx_inj (Nat.mod_lt _ (by decide)) hs hAddr
      obtain ⟨hRow', hCol'⟩ := idx_inj (by omega) hsc hTile
      omega
  · rw [if_neg hSlot]
    apply updatesAt_eq_nil
    intro w hw hAddr
    exact hSlot (mineChunk_addr hn (by omega) hOwner hsc hs hw hAddr).2.2.2

/-- From zeroed words the launch leaves the reference transcripts of 16x16 tiles. -/
theorem launch_kMine {k : Nat} (s : Scheduler) (env : Nat → Nat → BlockEnv) (An Bn : Buffer I8)
    (mem : Buffer U32) (hm : 128 ∣ m) (hn : 128 ∣ n) (hk : 128 ∣ k)
    (hZero : ∀ a < m / 16 * (n / 16) * 16, mem a = 0) :
    HoldsTranscripts (launchGrid s (m / 128) (n / 128) 1 256
        (fun bx by' _ => kMine (env bx by') An Bn k n bx by') mem)
      (matrixOf k An) (matrixOf n Bn) m k n 128 16 16 := by
  intro sr hsr sc hsc w hw
  have hAddr : (sr * (n / 16) + sc) * 16 + w = idx (idx sr sc (n / 16)) w 16 := rfl
  have hOwner : mineOwner sr sc < 256 := by
    rw [mineOwner]
    omega
  rw [hAddr, launchGrid_of_owner s (sr / 8) (sc / 8) 0 (mineOwner sr sc) (by omega) (by omega)
    (by decide) hOwner]
  · rw [kMine_eq _ hk hOwner, applyAll_chunks (hZero _ (idx_lt (idx_lt hsr hsc) hw))
      (fun c _ => updatesAt_mineChunk hn hsc hw c)]
    rfl
  · intro bx hbx by' hby z hz tid htid a ha hEq
    rw [kMine_eq _ hk htid] at ha
    obtain ⟨c, -, hMem⟩ := List.mem_flatMap.mp ha
    obtain ⟨h1, h2, h3, -⟩ := mineChunk_addr hn hby htid hsc hw hMem hEq
    exact ⟨h1, h2, by omega, h3⟩

end Launch

end Cuda
