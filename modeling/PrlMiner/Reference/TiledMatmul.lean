import PrlMiner.Reference.Transcript

/-! The nested loops of the tiled product compute the prefix products, the
transcripts and the first winning tile. The chunk loop comes first, then one
output block, then the blocks in order. -/
namespace Reference

open FixedWidth LittleEndian Reduction NoisyGemm

/-- Hashes of distinct tiles land in distinct transcripts. -/
theorem foldl_foldHash (idx : Nat) (transcripts : Nat → Nat → Nat → U32) (block : Mat I32)
    (nh nw th tw : Nat) (hi wi s : Nat) :
    (innerHashTensor block nh nw th tw).foldl (foldHash idx) transcripts hi wi s =
      if hi < nh ∧ wi < nw ∧ s = idx then
        rotl32 (transcripts hi wi s) hashAccumulateRotation ^^^
          innerHashTile th tw (fun a b => block (hi * th + a) (wi * tw + b))
      else transcripts hi wi s := by
  have hFlat (n : Nat) (hn : n ≤ nh * nw) :
      ((List.range n).map fun x => (x / nw, x % nw, innerHashTile th tw fun a b =>
          block (x / nw * th + a) (x % nw * tw + b))).foldl (foldHash idx) transcripts hi wi s =
        if wi < nw ∧ hi * nw + wi < n ∧ s = idx then
          rotl32 (transcripts hi wi s) hashAccumulateRotation ^^^
            innerHashTile th tw (fun a b => block (hi * th + a) (wi * tw + b))
        else transcripts hi wi s := by
    induction n with
    | zero => simp
    | succ n ih =>
        have hPos : 0 < nw := Nat.pos_of_ne_zero (fun h0 => by simp [h0] at hn)
        rw [List.range_succ, List.map_append, List.foldl_append, List.map_singleton,
          List.foldl_cons, List.foldl_nil, foldHash, ih (by omega)]
        have hHere : hi = n / nw ∧ wi = n % nw ↔ wi < nw ∧ hi * nw + wi = n := by
          constructor
          · rintro ⟨rfl, rfl⟩
            exact ⟨Nat.mod_lt _ hPos, by rw [Nat.mul_comm]; exact Nat.div_add_mod n nw⟩
          · rintro ⟨hw, rfl⟩
            rw [Nat.mul_comm hi nw, Nat.mul_add_div hPos, Nat.mul_add_mod, Nat.div_eq_of_lt hw,
              Nat.mod_eq_of_lt hw]
            exact ⟨rfl, rfl⟩
        by_cases hs : s = idx
        · by_cases hEq : wi < nw ∧ hi * nw + wi = n
          · obtain ⟨hRow, hCol⟩ := hHere.mpr hEq
            rw [if_pos ⟨hRow, hCol, hs⟩, if_neg (by omega), if_pos ⟨hEq.1, by omega, hs⟩]
            simp only [← hRow, ← hCol]
          · rw [if_neg (fun h => hEq (hHere.mp ⟨h.1, h.2.1⟩))]
            have hStep : (wi < nw ∧ hi * nw + wi < n ∧ s = idx) ↔
                (wi < nw ∧ hi * nw + wi < n + 1 ∧ s = idx) := by omega
            simp only [hStep]
        · simp [hs]
  rw [innerHashTensor, Search.flatMap_range_map, hFlat _ (Nat.le_refl _)]
  have hInside : wi < nw ∧ hi * nw + wi < nh * nw ∧ s = idx ↔ hi < nh ∧ wi < nw ∧ s = idx := by
    constructor
    · rintro ⟨hw, hLt, hs⟩
      exact ⟨by by_contra hGe; nlinarith [Nat.mul_le_mul_right nw (Nat.not_lt.mp hGe)], hw, hs⟩
    · rintro ⟨hh, hw, hs⟩
      exact ⟨hw, by nlinarith [Nat.mul_le_mul_right nw hh], hs⟩
  simp only [hInside]

section ChunkLoop

variable (g : NoisyGemm) (A B : Mat I8) (k i j bh bw nth ntw : Nat)

/-- The loop variables before the first chunk. -/
def chunkInit : ChunkState :=
  { cBlock := fun _ _ => 0, transcripts := fun _ _ _ => 0, reduction := 0, hasFull := false }

/-- The block is large enough to hold a hash tile. -/
def Fits : Prop := g.hashTileH ≤ bh ∧ g.hashTileW ≤ bw

instance : Decidable (Fits g bh bw) := inferInstanceAs (Decidable (_ ∧ _))

/-- The loop variables after `q` chunks, `full` of them hashed. -/
def chunkSpec (q full : Nat) : ChunkState :=
  { cBlock := fun a b => prefixProduct A B (min (q * g.noiseRank.toNat) k) (i + a) (j + b)
    transcripts := fun hi wi s =>
      if hi < nth ∧ wi < ntw then
        transcript A B g.noiseRank.toNat g.hashTileH.toNat g.hashTileW.toNat full
          (i + hi * g.hashTileH.toNat) (j + wi * g.hashTileW.toNat) s
      else 0
    reduction := full
    hasFull := decide (0 < full) }

/-- Chunks hashed among the first `q`. -/
def fullChunks (q : Nat) : Nat := if Fits g bh bw then min q (k / g.noiseRank.toNat) else 0

variable {g A B k i j bh bw nth ntw}

/-- The accumulated block after one more chunk, at any width of that chunk. -/
theorem chunkStep_cBlock {q full : Nat} (hq : q * g.noiseRank.toNat < k) :
    (narrow 32 fun a b => i64 (chunkSpec g A B k i j nth ntw q full).cBlock a b +
      matmul (min (q * g.noiseRank.toNat + g.noiseRank.toNat) k - q * g.noiseRank.toNat)
        (i64 fun a c => A (i + a) (q * g.noiseRank.toNat + c))
        (i64 fun c b => B (q * g.noiseRank.toNat + c) (j + b)) a b) =
      fun a b => prefixProduct A B (min ((q + 1) * g.noiseRank.toNat) k) (i + a) (j + b) := by
  funext a b
  simp only [chunkSpec]
  generalize g.noiseRank.toNat = r at *
  have hLow : min (q * r) k = q * r := by omega
  have hWidth : min ((q + 1) * r) k = q * r + (min (q * r + r) k - q * r) := by
    rw [Nat.succ_mul]
    omega
  have hProduct := narrow_matmul (show 32 ≤ 64 by decide) (min (q * r + r) k - q * r)
    (fun a c => A (i + a) (q * r + c)) (fun c b => B (q * r + c) (j + b)) a b
  simp only [narrow] at hProduct
  rw [hLow, hWidth, prefixProduct_add, narrow, BitVec.setWidth_add _ _ (by decide), hProduct, i64,
    setWidth_signExtend (by decide), BitVec.signExtend_eq]

/-- One more chunk, hashed when it is full and the block holds a tile. -/
theorem chunkStep_chunkSpec {q : Nat} (hRank : 0 < g.noiseRank.toNat)
    (hq : q * g.noiseRank.toNat < k) :
    g.chunkStep A B k i j bh bw nth ntw
        (chunkSpec g A B k i j nth ntw q (fullChunks g k bh bw q)) (q * g.noiseRank.toNat) =
      chunkSpec g A B k i j nth ntw (q + 1) (fullChunks g k bh bw (q + 1)) := by
  have hFull : ((min (q * g.noiseRank.toNat + g.noiseRank.toNat) k - q * g.noiseRank.toNat : Nat) :
      Int) = g.noiseRank ↔ q < k / g.noiseRank.toNat := by
    rw [Nat.lt_iff_add_one_le, Nat.le_div_iff_mul_le hRank, Nat.succ_mul]
    omega
  simp only [chunkStep, chunkStep_cBlock hq]
  by_cases hHash : Fits g bh bw ∧ q < k / g.noiseRank.toNat
  · obtain ⟨hFits, hChunk⟩ := hHash
    have hBefore : fullChunks g k bh bw q = q := by
      rw [fullChunks, if_pos hFits, Nat.min_eq_left hChunk.le]
    have hAfter : fullChunks g k bh bw (q + 1) = q + 1 := by
      rw [fullChunks, if_pos hFits, Nat.min_eq_left hChunk]
    have hPrefix : min ((q + 1) * g.noiseRank.toNat) k = g.noiseRank.toNat * (q + 1) := by
      rw [Nat.mul_comm]
      exact Nat.min_eq_left (by rw [Nat.mul_comm]; exact (Nat.le_div_iff_mul_le hRank).mp hChunk)
    rw [if_pos ⟨hFits.1, hFits.2, hFull.mpr hChunk⟩, hBefore, hAfter]
    simp only [chunkSpec, ChunkState.mk.injEq, true_and, Nat.succ_pos, decide_true, and_true]
    funext hi wi s
    rw [foldl_foldHash]
    by_cases hIn : hi < nth ∧ wi < ntw
    · simp only [hIn, and_self, true_and, if_true, transcript, foldChunks_succ, hPrefix, tileHash,
        Nat.add_assoc]
    · rw [if_neg (fun h => hIn ⟨h.1, h.2.1⟩), if_neg hIn, if_neg hIn]
  · have hNot : ¬ (g.hashTileH ≤ bh ∧ g.hashTileW ≤ bw ∧
        ((min (q * g.noiseRank.toNat + g.noiseRank.toNat) k - q * g.noiseRank.toNat : Nat) : Int) =
          g.noiseRank) :=
      fun h => hHash ⟨⟨h.1, h.2.1⟩, hFull.mp h.2.2⟩
    have hSame : fullChunks g k bh bw (q + 1) = fullChunks g k bh bw q := by
      unfold fullChunks
      split_ifs with hFits
      · have hDone : ¬ q < k / g.noiseRank.toNat := fun h => hHash ⟨hFits, h⟩
        omega
      · rfl
    rw [if_neg hNot, hSame]
    rfl

/-- The whole chunk loop. -/
theorem foldl_chunkStep (hRank : 0 < g.noiseRank.toNat) :
    ((List.range (blockCount k g.noiseRank.toNat)).map (· * g.noiseRank.toNat)).foldl
        (g.chunkStep A B k i j bh bw nth ntw) chunkInit =
      chunkSpec g A B k i j nth ntw (blockCount k g.noiseRank.toNat)
        (fullChunks g k bh bw (blockCount k g.noiseRank.toNat)) := by
  have hRun (q : Nat) (hq : q ≤ blockCount k g.noiseRank.toNat) :
      ((List.range q).map (· * g.noiseRank.toNat)).foldl (g.chunkStep A B k i j bh bw nth ntw)
          chunkInit =
        chunkSpec g A B k i j nth ntw q (fullChunks g k bh bw q) := by
    induction q with
    | zero => simp [chunkInit, chunkSpec, fullChunks, prefixProduct, accumulate, transcript, foldChunks]
    | succ q ih =>
        have hInside : q * g.noiseRank.toNat < k := by
          have := (Nat.le_div_iff_mul_le hRank).mp hq
          rw [Nat.succ_mul] at this
          omega
        rw [List.range_succ, List.map_append, List.foldl_append, ih (by omega), List.map_singleton,
          List.foldl_cons, List.foldl_nil, chunkStep_chunkSpec hRank hInside]
  exact hRun _ (Nat.le_refl _)

end ChunkLoop

section Blocks

variable (g : NoisyGemm) (blake3 : Blake3Package) (A B : Mat I8) (m k n : Nat) (powKey : Bytes 32)
  (powTarget : Int)

/-- The first winner of one block. -/
def blockWinner (ti tj : Nat) : Option OpenedBlock :=
  if g.noiseRank.toNat ≤ k then
    (blockTiles m n g.noiseRank.toNat g.hashTileH g.hashTileW ti tj).findSome?
      (openTile g blake3 A B k powKey powTarget)
  else none

/-- The entry `(a, b)` lies in block `(ti, tj)`. -/
def InBlock (ti tj a b : Nat) : Prop :=
  ti * g.noiseRank.toNat ≤ a ∧ a < ti * g.noiseRank.toNat + blockExtent m g.noiseRank.toNat ti ∧
    tj * g.noiseRank.toNat ≤ b ∧ b < tj * g.noiseRank.toNat + blockExtent n g.noiseRank.toNat tj

instance (ti tj a b : Nat) : Decidable (InBlock g m n ti tj a b) :=
  inferInstanceAs (Decidable (_ ∧ _))

/-- What one block adds to the result. -/
def afterBlock (st : RunResult) (block : Nat × Nat) : RunResult :=
  let winner := if st.found then none else blockWinner g blake3 A B m k n powKey powTarget block.1 block.2
  { C := fun a b => if InBlock g m n block.1 block.2 a b then prefixProduct A B k a b else st.C a b
    found := st.found || winner.isSome
    openedBlock := winner.or st.openedBlock }

variable {g}

theorem fullTiles_eq_zero {extent : Nat} {tile : Int} (h : (extent : Int) < tile) :
    fullTiles extent tile = 0 := by
  rw [fullTiles, Int.fdiv_eq_ediv_of_nonneg _ (by omega), Int.ediv_eq_zero_of_lt (by omega) h]
  rfl

/-- A block that holds no hash tile has nothing to check. -/
theorem blockTiles_eq_nil {ti tj : Nat} (h : ¬ Fits g (blockExtent m g.noiseRank.toNat ti)
    (blockExtent n g.noiseRank.toNat tj)) :
    blockTiles m n g.noiseRank.toNat g.hashTileH g.hashTileW ti tj = [] := by
  rw [Fits, not_and_or, not_le, not_le] at h
  rcases h with hRow | hCol
  · simp [blockTiles, fullTiles_eq_zero hRow]
  · simp [blockTiles, fullTiles_eq_zero hCol]

/-- The scan over the transcripts of one block. -/
theorem firstWinner_chunkSpec (ti tj q : Nat) :
    g.firstWinner blake3 (chunkSpec g A B k (ti * g.noiseRank.toNat) (tj * g.noiseRank.toNat)
        (fullTiles (blockExtent m g.noiseRank.toNat ti) g.hashTileH)
        (fullTiles (blockExtent n g.noiseRank.toNat tj) g.hashTileW) q
        (k / g.noiseRank.toNat)).transcripts powKey powTarget (ti * g.noiseRank.toNat)
        (tj * g.noiseRank.toNat) (fullTiles (blockExtent m g.noiseRank.toNat ti) g.hashTileH)
        (fullTiles (blockExtent n g.noiseRank.toNat tj) g.hashTileW) =
      (blockTiles m n g.noiseRank.toNat g.hashTileH g.hashTileW ti tj).findSome?
        (openTile g blake3 A B k powKey powTarget) := by
  rw [firstWinner, blockTiles, Search.findSome?_flatMap]
  apply Search.findSome?_congr
  intro hi hHi
  rw [List.findSome?_map]
  apply Search.findSome?_congr
  intro wi hWi
  have hIn : hi < fullTiles (blockExtent m g.noiseRank.toNat ti) g.hashTileH ∧
      wi < fullTiles (blockExtent n g.noiseRank.toNat tj) g.hashTileW :=
    ⟨List.mem_range.mp hHi, List.mem_range.mp hWi⟩
  simp only [chunkSpec, hIn, and_self, if_true, openTile, Function.comp_apply]

theorem fullChunks_blockCount (hRank : 0 < g.noiseRank.toNat) (bh bw : Nat) :
    fullChunks g k bh bw (blockCount k g.noiseRank.toNat) =
      if Fits g bh bw then k / g.noiseRank.toNat else 0 := by
  have hLe : k / g.noiseRank.toNat ≤ blockCount k g.noiseRank.toNat :=
    Nat.div_le_div_right (by omega)
  rw [fullChunks, Nat.min_eq_right hLe]

theorem le_blockCount_mul {r : Nat} (hRank : 0 < r) (extent : Nat) :
    extent ≤ blockCount extent r * r := by
  have := Nat.lt_div_mul_add hRank (a := extent + r - 1)
  rw [blockCount]
  omega

/-- One round of the two block loops, said once: the block's part of C and the first
winner among its tiles, if no winner was found before. -/
theorem blockStep_eq (hRank : 0 < g.noiseRank.toNat) (hH : g.hashTileH ≠ 0) (hW : g.hashTileW ≠ 0)
    (ti tj : Nat) (st : RunResult) :
    g.blockStep blake3 A B m k n powKey powTarget (ti * g.noiseRank.toNat) st
        (tj * g.noiseRank.toNat) =
      .ok (afterBlock g blake3 A B m k n powKey powTarget st (ti, tj)) := by
  have hHasFull (bh bw : Nat) : (0 < if Fits g bh bw then k / g.noiseRank.toNat else 0) ↔
      Fits g bh bw ∧ g.noiseRank.toNat ≤ k := by
    split_ifs with hFits
    · simp [hFits, Nat.div_pos_iff, hRank]
    · simp [hFits]
  have hWinner : (if (!st.found && decide (0 < fullChunks g k (blockExtent m g.noiseRank.toNat ti)
        (blockExtent n g.noiseRank.toNat tj) (blockCount k g.noiseRank.toNat))) = true then
      g.firstWinner blake3 (chunkSpec g A B k (ti * g.noiseRank.toNat) (tj * g.noiseRank.toNat)
        (fullTiles (blockExtent m g.noiseRank.toNat ti) g.hashTileH)
        (fullTiles (blockExtent n g.noiseRank.toNat tj) g.hashTileW)
        (blockCount k g.noiseRank.toNat) (fullChunks g k (blockExtent m g.noiseRank.toNat ti)
          (blockExtent n g.noiseRank.toNat tj) (blockCount k g.noiseRank.toNat))).transcripts powKey
        powTarget (ti * g.noiseRank.toNat) (tj * g.noiseRank.toNat)
        (fullTiles (blockExtent m g.noiseRank.toNat ti) g.hashTileH)
        (fullTiles (blockExtent n g.noiseRank.toNat tj) g.hashTileW)
      else none) =
      if st.found then none else blockWinner g blake3 A B m k n powKey powTarget ti tj := by
    rw [fullChunks_blockCount k hRank]
    cases hFound : st.found with
    | true => simp
    | false =>
        simp only [Bool.not_false, Bool.true_and, decide_eq_true_eq, hHasFull, blockWinner,
          Bool.false_eq_true, if_false]
        by_cases hFits : Fits g (blockExtent m g.noiseRank.toNat ti)
            (blockExtent n g.noiseRank.toNat tj)
        · simp only [hFits, true_and, if_true, firstWinner_chunkSpec]
        · simp [hFits, blockTiles_eq_nil m n hFits]
  have hLow : min (blockCount k g.noiseRank.toNat * g.noiseRank.toNat) k = k :=
    Nat.min_eq_right (le_blockCount_mul hRank k)
  -- the loop of the source, before its extents and tile counts get their names
  have hLoop : ((List.range ((k + g.noiseRank.toNat - 1) / g.noiseRank.toNat)).map
      (· * g.noiseRank.toNat)).foldl
        (g.chunkStep A B k (ti * g.noiseRank.toNat) (tj * g.noiseRank.toNat)
          (min (ti * g.noiseRank.toNat + g.noiseRank.toNat) m - ti * g.noiseRank.toNat)
          (min (tj * g.noiseRank.toNat + g.noiseRank.toNat) n - tj * g.noiseRank.toNat)
          (((min (ti * g.noiseRank.toNat + g.noiseRank.toNat) m - ti * g.noiseRank.toNat : Nat) : Int).fdiv
            g.hashTileH).toNat
          (((min (tj * g.noiseRank.toNat + g.noiseRank.toNat) n - tj * g.noiseRank.toNat : Nat) : Int).fdiv
            g.hashTileW).toNat)
        { cBlock := fun _ _ => 0, transcripts := fun _ _ _ => 0, reduction := 0, hasFull := false } =
      _ := foldl_chunkStep hRank
  rw [blockStep, floorDiv_of_ne_zero hH, floorDiv_of_ne_zero hW, range_of_pos hRank]
  change Except.ok _ = Except.ok _
  rw [hLoop, afterBlock, ← hWinner]
  refine congrArg Except.ok (RunResult.mk.injEq .. ▸ ⟨?_, rfl, rfl⟩)
  funext a b
  by_cases hIn : InBlock g m n ti tj a b
  · refine (if_pos hIn).trans (Eq.trans ?_ (if_pos hIn).symm)
    simp only [chunkSpec, hLow, Nat.add_sub_of_le hIn.1, Nat.add_sub_of_le hIn.2.2.1]
  · exact (if_neg hIn).trans (if_neg hIn).symm

/-- Block numbers in the order of the two outer loops. -/
def blocks (g : NoisyGemm) (m n : Nat) : List (Nat × Nat) :=
  (List.range (blockCount m g.noiseRank.toNat)).flatMap fun ti =>
    (List.range (blockCount n g.noiseRank.toNat)).map fun tj => (ti, tj)

/-- The two outer loops, once the sizes have passed the guard. -/
theorem tiledMatmul_eq_foldl (hRank : 0 < g.noiseRank.toNat) (hH : g.hashTileH ≠ 0)
    (hW : g.hashTileW ≠ 0) (hM : g.hashTileH ≤ m) (hN : g.hashTileW ≤ n)
    (hTile : min g.hashTileH g.hashTileW ≤ g.noiseRank) (opened : Option OpenedBlock) :
    g.tiledMatmul blake3 A B m k n powKey powTarget opened =
      .ok ((blocks g m n).foldl (afterBlock g blake3 A B m k n powKey powTarget)
        { C := fun _ _ => 0, found := false, openedBlock := opened }) := by
  have hInner (st : RunResult) (ti : Nat) :
      (do let cols ← range n g.noiseRank
          cols.foldlM (g.blockStep blake3 A B m k n powKey powTarget (ti * g.noiseRank.toNat)) st) =
        .ok (((List.range (blockCount n g.noiseRank.toNat)).map fun tj => (ti, tj)).foldl
          (afterBlock g blake3 A B m k n powKey powTarget) st) := by
    rw [range_of_pos hRank]
    change List.foldlM _ st (List.map _ (List.range (blockCount n g.noiseRank.toNat))) = _
    rw [List.foldlM_map, List.foldl_map]
    exact foldlM_ok (fun s tj _ => blockStep_eq blake3 A B m k n powKey powTarget hRank hH hW ti tj s) st
  rw [tiledMatmul, if_neg (by omega), range_of_pos hRank]
  change List.foldlM _ _ (List.map _ (List.range (blockCount m g.noiseRank.toNat))) = _
  rw [List.foldlM_map, blocks, List.foldl_flatMap]
  exact foldlM_ok (fun s ti _ => hInner s ti) _

/-- Whichever block covers an entry stores the same product there. -/
theorem foldl_afterBlock_C (l : List (Nat × Nat)) (st : RunResult) (a b : Nat) :
    (l.foldl (afterBlock g blake3 A B m k n powKey powTarget) st).C a b =
      if ∃ block ∈ l, InBlock g m n block.1 block.2 a b then prefixProduct A B k a b
      else st.C a b := by
  induction l generalizing st with
  | nil => simp
  | cons block l ih =>
      rw [List.foldl_cons, ih]
      by_cases hLater : ∃ block ∈ l, InBlock g m n block.1 block.2 a b
      · obtain ⟨later, hMem, hIn⟩ := hLater
        rw [if_pos ⟨later, hMem, hIn⟩, if_pos ⟨later, by simp [hMem], hIn⟩]
      · rw [if_neg hLater]
        simp only [afterBlock, List.mem_cons, exists_eq_or_imp, hLater, or_false]

/-- The result keeps the first winner among the blocks seen. -/
theorem foldl_afterBlock_winner (l : List (Nat × Nat)) (st : RunResult)
    (hit opened : Option OpenedBlock) (hFound : st.found = hit.isSome)
    (hOpened : st.openedBlock = hit.or opened) :
    let last := l.foldl (afterBlock g blake3 A B m k n powKey powTarget) st
    let winner := hit.or
      (l.findSome? fun block => blockWinner g blake3 A B m k n powKey powTarget block.1 block.2)
    last.found = winner.isSome ∧ last.openedBlock = winner.or opened := by
  induction l generalizing st hit with
  | nil => simp [hFound, hOpened]
  | cons block l ih =>
      have hStep := ih (afterBlock g blake3 A B m k n powKey powTarget st block)
        (hit.or (blockWinner g blake3 A B m k n powKey powTarget block.1 block.2))
        (by cases hit <;> simp [afterBlock, hFound])
        (by cases hit <;> simp [afterBlock, hFound, hOpened])
      simp only [List.foldl_cons, List.findSome?_cons]
      cases hBlock : blockWinner g blake3 A B m k n powKey powTarget block.1 block.2 with
      | none => simpa [hBlock] using hStep
      | some record =>
          cases hit <;> simpa [hBlock] using hStep

/-- Every row and every column lies in the block that its quotient names. -/
theorem exists_block {r : Nat} (hRank : 0 < r) {extent a : Nat} (ha : a < extent) :
    a / r < blockCount extent r ∧ a / r * r ≤ a ∧ a < a / r * r + blockExtent extent r (a / r) := by
  have hLow := Nat.div_mul_le_self a r
  have hHigh := Nat.lt_div_mul_add hRank (a := a)
  refine ⟨?_, hLow, ?_⟩
  · rw [blockCount, Nat.lt_iff_add_one_le, Nat.le_div_iff_mul_le hRank, Nat.succ_mul]
    omega
  · rw [blockExtent]
    omega

/-- The first winner among the blocks is the first winner among all tiles. -/
theorem findSome?_blocks :
    (blocks g m n).findSome? (fun block => blockWinner g blake3 A B m k n powKey powTarget block.1 block.2) =
      searchTiles g blake3 A B m k n powKey powTarget := by
  rw [blocks, Search.findSome?_flatMap, searchTiles]
  by_cases hFull : g.noiseRank.toNat ≤ k
  · rw [if_pos hFull, hashTiles, Search.findSome?_flatMap]
    apply Search.findSome?_congr
    intro ti _
    rw [List.findSome?_map, Search.findSome?_flatMap]
    apply Search.findSome?_congr
    intro tj _
    simp only [Function.comp_apply, blockWinner, if_pos hFull]
  · rw [if_neg hFull]
    simp [blockWinner, hFull]

/-- The tiled product is the product, and it finds the first winning tile. -/
theorem tiledMatmul_eq (hRank : 0 < g.noiseRank.toNat) (hH : g.hashTileH ≠ 0)
    (hW : g.hashTileW ≠ 0) (hM : g.hashTileH ≤ m) (hN : g.hashTileW ≤ n)
    (hTile : min g.hashTileH g.hashTileW ≤ g.noiseRank) (opened : Option OpenedBlock) :
    ∃ C, g.tiledMatmul blake3 A B m k n powKey powTarget opened =
        .ok { C := C
              found := (searchTiles g blake3 A B m k n powKey powTarget).isSome
              openedBlock := (searchTiles g blake3 A B m k n powKey powTarget).or opened } ∧
      ∀ a < m, ∀ b < n, C a b = prefixProduct A B k a b := by
  have hWinner := foldl_afterBlock_winner (g := g) blake3 A B m k n powKey powTarget (blocks g m n)
    { C := fun _ _ => 0, found := false, openedBlock := opened } none opened rfl rfl
  rw [Option.none_or, findSome?_blocks] at hWinner
  refine ⟨((blocks g m n).foldl (afterBlock g blake3 A B m k n powKey powTarget)
    { C := fun _ _ => 0, found := false, openedBlock := opened }).C, ?_, ?_⟩
  · rw [tiledMatmul_eq_foldl blake3 A B m k n powKey powTarget hRank hH hW hM hN hTile,
      ← hWinner.2, ← hWinner.1]
  · intro a ha b hb
    rw [foldl_afterBlock_C, if_pos]
    obtain ⟨hRow, hRowLow, hRowHigh⟩ := exists_block hRank ha
    obtain ⟨hCol, hColLow, hColHigh⟩ := exists_block hRank hb
    refine ⟨(a / g.noiseRank.toNat, b / g.noiseRank.toNat), ?_, hRowLow, hRowHigh, hColLow, hColHigh⟩
    simp only [blocks, List.mem_flatMap, List.mem_map, List.mem_range]
    exact ⟨_, hRow, _, hCol, rfl⟩

end Blocks

end Reference
