import PrlMiner.Reference.Denoise

/-! The search of the tiled product, as a statement about hash tiles: which
tiles there are, which of them win, and which winner is recorded. -/
namespace Reference

open FixedWidth LittleEndian Reduction

/-- A hash tile by the numbers of its block and its place in that block. -/
structure HashTile where
  ti : Nat
  tj : Nat
  hi : Nat
  wi : Nat

namespace HashTile

variable (g : NoisyGemm) (t : HashTile)

def row : Nat := t.ti * g.noiseRank.toNat + t.hi * g.hashTileH.toNat
def col : Nat := t.tj * g.noiseRank.toNat + t.wi * g.hashTileW.toNat

/-- The tile lies inside its block, whose sides are `min(r, remaining)`. -/
structure Full (m n : Nat) : Prop where
  tileH : 0 < g.hashTileH
  tileW : 0 < g.hashTileW
  rows : (t.hi + 1) * g.hashTileH ≤ blockExtent m g.noiseRank.toNat t.ti
  cols : (t.wi + 1) * g.hashTileW ≤ blockExtent n g.noiseRank.toNat t.tj

/-- Lexicographic in `(ti, tj, hi, wi)`. -/
def Before (s t : HashTile) : Prop :=
  s.ti < t.ti ∨ s.ti = t.ti ∧ (s.tj < t.tj ∨ s.tj = t.tj ∧ (s.hi < t.hi ∨ s.hi = t.hi ∧ s.wi < t.wi))

/-- The transcript over the full chunks of `A` and `B`. -/
def words (A B : Mat I8) (k : Nat) : Nat → U32 :=
  transcript A B g.noiseRank.toNat g.hashTileH.toNat g.hashTileW.toNat (k / g.noiseRank.toNat)
    (t.row g) (t.col g)

/-- The record of the tile in `opened_block`. -/
def record (A B : Mat I8) (k : Nat) : OpenedBlock where
  A_row_indices := (List.range g.hashTileH.toNat).map (t.row g + ·)
  B_column_indices := (List.range g.hashTileW.toNat).map (t.col g + ·)
  transcript_words := (List.range transcriptSizeU32).map (t.words g A B k)

/-- A full tile over at least one full chunk whose digest meets the target. -/
structure Wins (blake3 : Blake3Package) (A B : Mat I8) (m k n : Nat) (powKey : Bytes 32)
    (powTarget : Int) : Prop where
  full : t.Full g m n
  fullChunk : g.noiseRank.toNat ≤ k
  digest : (fromBytes (blake3 (packWords 64 (t.words g A B k)) powKey) : Int) ≤ powTarget

end HashTile

section Enumeration

variable {g : NoisyGemm} {m n : Nat}

/-- A negative or zero tile size leaves no full tile. -/
theorem lt_fullTiles_iff (extent x : Nat) (tile : Int) :
    x < fullTiles extent tile ↔ 0 < tile ∧ (x + 1) * tile ≤ extent := by
  rw [fullTiles, Int.lt_toNat]
  rcases Int.lt_or_le 0 tile with hPos | hNonpos
  · rw [Int.fdiv_eq_ediv_of_nonneg _ hPos.le, ← Int.add_one_le_iff, Int.le_ediv_iff_mul_le hPos]
    simp [hPos]
  · have hNone := Int.fdiv_nonpos_of_nonneg_of_nonpos (Int.natCast_nonneg extent) hNonpos
    omega

/-- All full tiles in search order. -/
def fullHashTiles (g : NoisyGemm) (m n : Nat) : List HashTile :=
  (List.range (blockCount m g.noiseRank.toNat)).flatMap fun ti =>
    (List.range (blockCount n g.noiseRank.toNat)).flatMap fun tj =>
      (List.range (fullTiles (blockExtent m g.noiseRank.toNat ti) g.hashTileH)).flatMap fun hi =>
        (List.range (fullTiles (blockExtent n g.noiseRank.toNat tj) g.hashTileW)).map fun wi =>
          ⟨ti, tj, hi, wi⟩

/-- A block that is not cut down to nothing is visited. -/
theorem lt_blockCount {r extent t : Nat} (hRank : 0 < r) (h : 0 < blockExtent extent r t) :
    t < blockCount extent r := by
  rw [blockExtent] at h
  rw [blockCount, Nat.lt_iff_add_one_le, Nat.le_div_iff_mul_le hRank, Nat.succ_mul]
  omega

/-- The list that the search runs over holds the full hash tiles and no others. -/
theorem mem_fullHashTiles (hRank : 0 < g.noiseRank.toNat) (t : HashTile) :
    t ∈ fullHashTiles g m n ↔ t.Full g m n := by
  simp only [fullHashTiles, List.mem_flatMap, List.mem_map, List.mem_range, lt_fullTiles_iff]
  constructor
  · rintro ⟨ti, -, tj, -, hi, ⟨hTileH, hRows⟩, wi, ⟨hTileW, hCols⟩, rfl⟩
    exact ⟨hTileH, hTileW, hRows, hCols⟩
  · rintro ⟨hTileH, hTileW, hRows, hCols⟩
    have hRowExtent : 0 < blockExtent m g.noiseRank.toNat t.ti := by
      have : 0 < (t.hi + 1) * g.hashTileH := by positivity
      omega
    have hColExtent : 0 < blockExtent n g.noiseRank.toNat t.tj := by
      have : 0 < (t.wi + 1) * g.hashTileW := by positivity
      omega
    exact ⟨t.ti, lt_blockCount hRank hRowExtent, t.tj, lt_blockCount hRank hColExtent, t.hi,
      ⟨hTileH, hRows⟩, t.wi, ⟨hTileW, hCols⟩, rfl⟩

/-- The enumeration visits the tiles in lexicographic order. -/
theorem pairwise_fullHashTiles : (fullHashTiles g m n).Pairwise HashTile.Before := by
  apply Search.pairwise_flatMap_range
  · intro ti _
    apply Search.pairwise_flatMap_range
    · intro tj _
      apply Search.pairwise_flatMap_range
      · intro hi _
        rw [List.pairwise_map]
        apply List.pairwise_lt_range.imp
        intro wi wi' hLt
        simp [HashTile.Before, hLt]
      · intro hi _ hi' _ hLt x hx y hy
        obtain ⟨wi, -, rfl⟩ := List.mem_map.mp hx
        obtain ⟨wi', -, rfl⟩ := List.mem_map.mp hy
        simp [HashTile.Before, hLt]
    · intro tj _ tj' _ hLt x hx y hy
      simp only [List.mem_flatMap, List.mem_map] at hx hy
      obtain ⟨_, -, _, -, rfl⟩ := hx
      obtain ⟨_, -, _, -, rfl⟩ := hy
      simp [HashTile.Before, hLt]
  · intro ti _ ti' _ hLt x hx y hy
    simp only [List.mem_flatMap, List.mem_map] at hx hy
    obtain ⟨_, -, _, -, _, -, rfl⟩ := hx
    obtain ⟨_, -, _, -, _, -, rfl⟩ := hy
    simp [HashTile.Before, hLt]

/-- The corners of the search are those of the tiles. -/
theorem hashTiles_eq_map :
    hashTiles m n g.noiseRank.toNat g.hashTileH g.hashTileW =
      (fullHashTiles g m n).map fun t => (t.row g, t.col g) := by
  simp only [hashTiles, blockTiles, fullHashTiles, List.map_flatMap, List.map_map]
  rfl

end Enumeration

section Winners

open NoisyGemm

variable {g : NoisyGemm} {blake3 : Blake3Package} {A B : Mat I8} {m k n : Nat} {powKey : Bytes 32}
  {powTarget : Int}

/-- The search through the corners is one through the tiles. -/
theorem searchTiles_eq : searchTiles g blake3 A B m k n powKey powTarget =
    if g.noiseRank.toNat ≤ k then
      (fullHashTiles g m n).findSome? fun t =>
        if checkPowTarget blake3 (t.words g A B k) powKey powTarget then some (t.record g A B k) else none
    else none := by
  rw [searchTiles, hashTiles_eq_map, List.findSome?_map]
  rfl

/-- A winner is what the search takes for one. -/
theorem wins_iff (hRank : 0 < g.noiseRank.toNat) (t : HashTile) :
    t.Wins g blake3 A B m k n powKey powTarget ↔ g.noiseRank.toNat ≤ k ∧ t ∈ fullHashTiles g m n ∧
      checkPowTarget blake3 (t.words g A B k) powKey powTarget = true := by
  rw [mem_fullHashTiles hRank, checkPowTarget, decide_eq_true_eq]
  exact ⟨fun h => ⟨h.fullChunk, h.full, h.digest⟩, fun h => ⟨h.2.1, h.1, h.2.2⟩⟩

/-- The search finds a winner exactly where some hash tile wins. -/
theorem searchTiles_isSome_iff (hRank : 0 < g.noiseRank.toNat) :
    (searchTiles g blake3 A B m k n powKey powTarget).isSome = true ↔
      ∃ t : HashTile, t.Wins g blake3 A B m k n powKey powTarget := by
  rw [searchTiles_eq]
  by_cases hFull : g.noiseRank.toNat ≤ k
  · simp [wins_iff hRank, hFull]
  · simp [wins_iff hRank, hFull]

/-- The search records the winner that comes before all others. -/
theorem searchTiles_first (hRank : 0 < g.noiseRank.toNat) {block : OpenedBlock}
    (h : searchTiles g blake3 A B m k n powKey powTarget = some block) :
    ∃ t : HashTile, t.Wins g blake3 A B m k n powKey powTarget ∧
      (∀ t' : HashTile, t'.Wins g blake3 A B m k n powKey powTarget → t' = t ∨ t.Before t') ∧
      block = t.record g A B k := by
  rw [searchTiles_eq] at h
  split_ifs at h with hFull
  obtain ⟨t, hMem, hHit, hFirst⟩ := Search.findSome?_sorted pairwise_fullHashTiles h
  have hWins : checkPowTarget blake3 (t.words g A B k) powKey powTarget = true := by
    by_contra hMiss
    simp [hMiss] at hHit
  refine ⟨t, (wins_iff hRank t).mpr ⟨hFull, hMem, hWins⟩, fun t' hWins' => ?_, ?_⟩
  · obtain ⟨-, hMem', hDigest'⟩ := (wins_iff hRank t').mp hWins'
    exact hFirst t' hMem' (by simp [hDigest'])
  · simpa [hWins] using hHit.symm

/-- Without rows or without columns no block is visited, whatever the tile sizes are. -/
theorem tiledMatmul_empty (hRank : 0 < g.noiseRank.toNat) (hEmpty : m = 0 ∨ n = 0)
    {opened : Option OpenedBlock} {res : RunResult}
    (hOk : g.tiledMatmul blake3 A B m k n powKey powTarget opened = .ok res) :
    res.found = false ∧ res.openedBlock = opened := by
  have hCols : (n = 0) → (n + g.noiseRank.toNat - 1) / g.noiseRank.toNat = 0 :=
    fun h => Nat.div_eq_of_lt (by omega)
  have hRows : (m = 0) → (m + g.noiseRank.toNat - 1) / g.noiseRank.toNat = 0 :=
    fun h => Nat.div_eq_of_lt (by omega)
  obtain ⟨hM, hN, hTile⟩ := guard_of_tiledMatmul hOk
  rw [tiledMatmul, if_neg (by omega), range_of_pos hRank, range_of_pos hRank] at hOk
  rcases hEmpty with h | h
  · rw [hRows h] at hOk
    cases hOk
    exact ⟨rfl, rfl⟩
  · rw [hCols h] at hOk
    have hSkip (l : List Nat) (st : RunResult) :
        l.foldlM (m := Except PyError) (fun st _ => pure st) st = .ok st := by
      induction l with
      | nil => rfl
      | cons _ l ih => exact ih
    obtain rfl := Except.ok.inj ((hSkip _ _).symm.trans hOk)
    exact ⟨rfl, rfl⟩

/-- No tile fits into an empty output. -/
theorem HashTile.Full.pos {t : HashTile} (h : t.Full g m n) : 0 < m ∧ 0 < n := by
  have hRows : 0 < (t.hi + 1) * g.hashTileH := mul_pos (by omega) h.tileH
  have hCols : 0 < (t.wi + 1) * g.hashTileW := mul_pos (by omega) h.tileW
  have hFitsRows := h.rows
  have hFitsCols := h.cols
  simp only [blockExtent] at hFitsRows hFitsCols
  omega

/-- The tiled search finds the first winning tile, and its product is the product. -/
theorem tiledMatmul_first_winner (g : NoisyGemm) (hRank : 0 < g.noiseRank) (blake3 : Blake3Package)
    (A B : Mat I8) (m k n : Nat) (powKey : Bytes 32) (powTarget : Int) (opened : Option OpenedBlock)
    (res : RunResult) (hOk : g.tiledMatmul blake3 A B m k n powKey powTarget opened = .ok res) :
    (∀ a < m, ∀ b < n, res.C a b = BitVec.ofInt 32 (exactProduct A B k a b)) ∧
    (res.found = true ↔ ∃ t : HashTile, t.Wins g blake3 A B m k n powKey powTarget) ∧
    (res.found = true → ∃ t : HashTile, t.Wins g blake3 A B m k n powKey powTarget ∧
      (∀ t' : HashTile, t'.Wins g blake3 A B m k n powKey powTarget → t' = t ∨ t.Before t') ∧
      res.openedBlock = some (t.record g A B k)) ∧
    (res.found = false → res.openedBlock = opened) := by
  have hRank' : 0 < g.noiseRank.toNat := by omega
  by_cases hEmpty : m = 0 ∨ n = 0
  · obtain ⟨hFound, hOpened⟩ := tiledMatmul_empty hRank' hEmpty hOk
    have hNone : ¬ ∃ t : HashTile, t.Wins g blake3 A B m k n powKey powTarget := by
      rintro ⟨t, hWins⟩
      have := hWins.full.pos
      omega
    refine ⟨fun a ha b hb => ?_, ?_, ?_, fun _ => hOpened⟩
    · omega
    · simp [hFound, hNone]
    · simp [hFound]
  · obtain ⟨hM, hN, hTile⟩ := guard_of_tiledMatmul hOk
    have hH : g.hashTileH ≠ 0 := fun h =>
      tiledMatmul_zero_tile hRank' (by omega) (by omega) (Or.inl h) _ _ hOk
    have hW : g.hashTileW ≠ 0 := fun h =>
      tiledMatmul_zero_tile hRank' (by omega) (by omega) (Or.inr h) _ _ hOk
    obtain ⟨C, hEq, hC⟩ := tiledMatmul_eq (g := g) blake3 A B m k n powKey powTarget hRank' hH hW hM hN
      hTile opened
    obtain rfl : _ = res := Except.ok.inj (hEq.symm.trans hOk)
    refine ⟨fun a ha b hb => ?_, searchTiles_isSome_iff hRank', fun hFound => ?_, fun hFound => ?_⟩
    · exact (hC a ha b hb).trans (accumulate_signExtend_mul A B k a b)
    · obtain ⟨block, hBlock⟩ := Option.isSome_iff_exists.mp hFound
      obtain ⟨t, hWins, hFirst, rfl⟩ := searchTiles_first hRank' hBlock
      exact ⟨t, hWins, hFirst, by simp [hBlock]⟩
    · have hNone := Option.isNone_iff_eq_none.mp (Option.isSome_eq_false_iff.mp hFound)
      simp [hNone]

/-- One block of four hash tiles over constant factors. At the easiest target all four win,
and the one at the origin is recorded. -/
theorem tiledMatmul_first_winner_four : ∃ (g : NoisyGemm) (res : RunResult),
    g.tiledMatmul Blake3.keyedHash (fun _ _ => 3) (fun _ _ => -4) 32 32 32 5 powTargetEasiest none = .ok res ∧
      res.C 31 31 = -384 ∧ res.found = true ∧
      res.openedBlock = some (HashTile.record g ⟨0, 0, 0, 0⟩ (fun _ _ => 3) (fun _ _ => -4) 32) := by
  let g : NoisyGemm := ⟨128, 32, 16, 16, 32, 32, by decide, by decide, by decide⟩
  obtain ⟨C, hOk, -⟩ := tiledMatmul_eq (g := g) Blake3.keyedHash (fun _ _ => 3) (fun _ _ => -4) 32 32 32
    5 powTargetEasiest (by decide) (by decide) (by decide) (by decide) (by decide) (by decide) none
  obtain ⟨hC, hFound, hFirst, -⟩ := tiledMatmul_first_winner g (by decide) _ _ _ _ _ _ _ _ _ _ hOk
  have hOrigin : HashTile.Wins g ⟨0, 0, 0, 0⟩ Blake3.keyedHash (fun _ _ => 3) (fun _ _ => -4) 32 32 32 5
      powTargetEasiest :=
    ⟨⟨by decide, by decide, by decide, by decide⟩, by decide, fromBytes_le_easiest _⟩
  have hWins := hFound.mpr ⟨_, hOrigin⟩
  obtain ⟨t, -, hLeast, hRecord⟩ := hFirst hWins
  refine ⟨g, _, hOk, hC 31 (by decide) 31 (by decide), hWins, ?_⟩
  -- nothing comes before the tile at the origin
  rcases hLeast _ hOrigin with rfl | hBefore
  · exact hRecord
  · simp [HashTile.Before] at hBefore

/-- With a negative rank and negative tiles nothing raises, and no loop runs. -/
theorem tiledMatmul_negative_rank : ¬ ∀ (g : NoisyGemm) (blake3 : Blake3Package) (A B : Mat I8)
    (m k n : Nat) (powKey : Bytes 32) (powTarget : Int) (opened : Option OpenedBlock) (res : RunResult),
    g.tiledMatmul blake3 A B m k n powKey powTarget opened = .ok res →
      ∀ a < m, ∀ b < n, res.C a b = BitVec.ofInt 32 (exactProduct A B k a b) := by
  intro h
  have hEntry := h ⟨128, -1, -1, -1, 1, 1, by decide, by decide, by decide⟩ Blake3.keyedHash
    (fun _ _ => 1) (fun _ _ => 1) 1 1 1 0 0 none _ rfl 0 (by decide) 0 (by decide)
  exact absurd hEntry (by decide)

end Winners

end Reference
