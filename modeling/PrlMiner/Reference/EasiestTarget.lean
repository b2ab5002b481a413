import PrlMiner.Reference.TiledSearch

/-! Which accepted configurations can win. At the easiest target every digest
meets the target, so a run finds a tile exactly when it hashes one. -/
namespace Reference

open FixedWidth LittleEndian Reduction EarlyExit

/-- The record names a full hash tile inside the `m x n` output. -/
structure OpenedBlock.NamesTile (block : OpenedBlock) (g : NoisyGemm) (m n row col : Nat) : Prop where
  tileH : 0 < g.hashTileH
  tileW : 0 < g.hashTileW
  rows : block.A_row_indices = (List.range g.hashTileH.toNat).map (row + ·)
  cols : block.B_column_indices = (List.range g.hashTileW.toNat).map (col + ·)
  rowsInside : row + g.hashTileH.toNat ≤ m
  colsInside : col + g.hashTileW.toNat ≤ n

/-- The run found a tile and recorded where. -/
def RunResult.OpensTile (res : RunResult) (g : NoisyGemm) (m n : Nat) : Prop :=
  res.found = true ∧ ∃ block row col, res.openedBlock = some block ∧ block.NamesTile g m n row col

section Tiles

variable {g : NoisyGemm} {m n : Nat} {t : HashTile}

/-- A tile that ends inside its block ends inside the extent. -/
theorem tile_inside {extent r b x : Nat} {tile : Int} (hTile : 0 < tile)
    (h : (x + 1) * tile ≤ blockExtent extent r b) : b * r + x * tile.toNat + tile.toNat ≤ extent := by
  obtain ⟨size, rfl⟩ := Int.eq_ofNat_of_zero_le hTile.le
  have hEnd : (x + 1) * size ≤ blockExtent extent r b := by exact_mod_cast h
  have hSize : 0 < (x + 1) * size := Nat.mul_pos (Nat.succ_pos x) (by exact_mod_cast hTile)
  rw [Int.toNat_natCast, Nat.add_assoc, ← Nat.succ_mul]
  rw [blockExtent] at hEnd
  rw [Nat.succ_eq_add_one]
  omega

/-- No tile is larger than a block, and no block is larger than the rank. -/
theorem tile_le_rank {extent r b x : Nat} {tile : Int} (hTile : 0 < tile)
    (h : (x + 1) * tile ≤ blockExtent extent r b) : tile ≤ r := by
  have hExtent : blockExtent extent r b ≤ r := by
    rw [blockExtent]
    omega
  have hOne : tile ≤ (x + 1) * tile := le_mul_of_one_le_left hTile.le (by omega)
  omega

theorem HashTile.Full.names (h : t.Full g m n) (A B : Mat I8) (k : Nat) :
    (t.record g A B k).NamesTile g m n (t.row g) (t.col g) where
  tileH := h.tileH
  tileW := h.tileW
  rows := rfl
  cols := rfl
  rowsInside := tile_inside h.tileH h.rows
  colsInside := tile_inside h.tileW h.cols

/-- There is a full tile if and only if one fits into the first block. -/
theorem exists_full_iff (hM : g.hashTileH ≤ m) (hN : g.hashTileW ≤ n) :
    (∃ t : HashTile, t.Full g m n) ↔
      (1 ≤ g.hashTileH ∧ g.hashTileH ≤ g.noiseRank) ∧ 1 ≤ g.hashTileW ∧ g.hashTileW ≤ g.noiseRank := by
  constructor
  · rintro ⟨t, hFull⟩
    have hRows := tile_le_rank hFull.tileH hFull.rows
    have hCols := tile_le_rank hFull.tileW hFull.cols
    have hTileH := hFull.tileH
    have hTileW := hFull.tileW
    omega
  · rintro ⟨⟨hTileH, hRankH⟩, hTileW, hRankW⟩
    refine ⟨⟨0, 0, 0, 0⟩, hTileH, hTileW, ?_, ?_⟩
    · simp only [blockExtent, Nat.cast_zero, zero_add, one_mul, Nat.zero_mul, Nat.sub_zero]
      omega
    · simp only [blockExtent, Nat.cast_zero, zero_add, one_mul, Nat.zero_mul, Nat.sub_zero]
      omega

end Tiles

section Runs

open NoisyGemm

variable {g : NoisyGemm} {blake3 : Blake3Package} {m k n r : Nat} {A B : Mat I8}
  {E : NoiseGenerator.Noise} {powKey : Bytes 32} {powTarget : Int} {res : RunResult}

/-- No loop runs at a rank below one. -/
theorem run_of_rank_nonpos (hRank : g.noiseRank ≤ 0)
    (hRun : g.run blake3 m k n r A B E powKey powTarget = .ok res) : res.found = false := by
  obtain ⟨hA, hB, hTarget, hShape⟩ := checks_of_run hRun
  rw [run_of_checks hA hB hTarget hShape] at hRun
  cases hTiled : g.tiledMatmul blake3 (addNoise r A E.E_AL E.E_AR) (addNoise r B E.E_BL E.E_BR) m k n
      powKey powTarget none with
  | error e => simp [hTiled, Except.map] at hRun
  | ok noised =>
      obtain ⟨hM, hN, hTile⟩ := guard_of_tiledMatmul hTiled
      obtain rfl : _ = res := Except.ok.inj ((congrArg (Except.map _) hTiled).symm.trans hRun)
      rw [tiledMatmul, if_neg (by omega)] at hTiled
      by_cases hZero : g.noiseRank = 0
      · rw [range, if_pos hZero] at hTiled
        cases hTiled
      · rw [range, if_neg hZero, if_pos (by omega)] at hTiled
        cases hTiled
        rfl

/-- At the easiest target the winners are the tiles that are hashed at all. -/
theorem wins_easiest_iff (t : HashTile) : t.Wins g blake3 A B m k n powKey powTargetEasiest ↔
    t.Full g m n ∧ g.noiseRank.toNat ≤ k :=
  ⟨fun h => ⟨h.full, h.fullChunk⟩, fun h => ⟨h.1, h.2, fromBytes_le_easiest _⟩⟩

/-- An accepted run at the easiest target opens a tile if and only if both tile
sides lie between one and the rank. The shape checks ask that of the smaller
side only. -/
theorem run_opens_tile_iff (g : NoisyGemm) (blake3 : Blake3Package) (m k n r : Nat) (A B : Mat I8)
    (E : NoiseGenerator.Noise) (powKey : Bytes 32) (res : RunResult)
    (hRun : g.run blake3 m k n r A B E powKey powTargetEasiest = .ok res) :
    res.OpensTile g m n ↔
      (1 ≤ g.hashTileH ∧ g.hashTileH ≤ g.noiseRank) ∧ 1 ≤ g.hashTileW ∧ g.hashTileW ≤ g.noiseRank := by
  rcases Int.lt_or_le 0 g.noiseRank with hRank | hRank
  · have hAccepts := accepts_of_run hRank hRun
    obtain ⟨hM, hK, hN⟩ := hAccepts.shape
    have hFitsH := g.tileHFits
    have hFitsW := g.tileWFits
    have hRank' : 0 < g.noiseRank.toNat := by omega
    obtain ⟨C, noised, hEq, -, -⟩ := run_eq blake3 r E powKey hRank hAccepts
    obtain rfl : _ = res := Except.ok.inj (hEq.symm.trans hRun)
    rw [← exists_full_iff (g := g) (m := m) (n := n) (by omega) (by omega)]
    constructor
    · rintro ⟨hFound, -⟩
      obtain ⟨t, hWins⟩ := (searchTiles_isSome_iff hRank').mp hFound
      exact ⟨t, hWins.full⟩
    · rintro ⟨t, hFull⟩
      have hChunk : g.noiseRank.toNat ≤ k := by omega
      have hWins : t.Wins g blake3 (addNoise r A E.E_AL E.E_AR) (addNoise r B E.E_BL E.E_BR) m k n powKey
          powTargetEasiest := (wins_easiest_iff t).mpr ⟨hFull, hChunk⟩
      have hFound := (searchTiles_isSome_iff hRank').mpr ⟨t, hWins⟩
      obtain ⟨block, hBlock⟩ := Option.isSome_iff_exists.mp hFound
      obtain ⟨first, hFirst, -, rfl⟩ := searchTiles_first hRank' hBlock
      exact ⟨hFound, _, _, _, hBlock, hFirst.full.names _ _ _⟩
  · have hMiss := run_of_rank_nonpos hRank hRun
    refine ⟨fun h => ?_, fun h => by omega⟩
    rw [h.1] at hMiss
    cases hMiss

/-- Zero factors pass every check of a run at the easiest target. -/
theorem accepts_zero (g : NoisyGemm) (hSize : m * k ≠ 0 ∧ k * n ≠ 0) (hLow : g.rangeLow ≤ 0)
    (hHigh : 0 ≤ g.rangeHigh) (hShape : g.matmulTileH ≤ m ∧ g.noiseRank ≤ k ∧ g.matmulTileW ≤ n)
    (hTiles : g.hashTileH ≠ 0 ∧ g.hashTileW ≠ 0) (hFits : min g.hashTileH g.hashTileW ≤ g.noiseRank) :
    g.Accepts m k n (fun _ _ => 0) (fun _ _ => 0) powTargetEasiest :=
  ⟨hSize.1, hSize.2, fun _ _ _ _ => ⟨hLow, hHigh⟩, fun _ _ _ _ => ⟨hLow, hHigh⟩, by decide, hShape,
    hTiles.1, hTiles.2, hFits⟩

/-- Square tiles within the rank: the tile at the origin is opened. -/
theorem run_opens_tile_iff_square : ∃ (g : NoisyGemm) (res : RunResult),
    g.run Blake3.keyedHash 32 32 32 32 (fun _ _ => 0) (fun _ _ => 0)
      ⟨fun _ _ => 0, fun _ _ => 0, fun _ _ => 0, fun _ _ => 0⟩ 0 powTargetEasiest = .ok res ∧
      res.OpensTile g 32 32 := by
  let g : NoisyGemm := ⟨128, 32, 16, 16, 32, 32, by decide, by decide, by decide⟩
  have hAccepts := accepts_zero (m := 32) (k := 32) (n := 32) g (by decide) (by decide) (by decide)
    (by decide) (by decide) (by decide)
  obtain ⟨C, noised, hRun, -, -⟩ := run_eq (g := g) Blake3.keyedHash 32
    ⟨fun _ _ => 0, fun _ _ => 0, fun _ _ => 0, fun _ _ => 0⟩ 0 (by decide) hAccepts
  exact ⟨g, _, hRun, (run_opens_tile_iff g _ _ _ _ _ _ _ _ _ _ hRun).mpr (by decide)⟩

/-- Tiles of 16 x 64 at rank 32 pass the constructor and every shape check, also on
generated noise. No block is 64 columns wide, so nothing is ever hashed. -/
theorem wide_tile_opens_nothing : ∃ (gen : NoiseGenerator) (g : NoisyGemm) (E : NoiseGenerator.Noise)
    (res : RunResult), NoiseGenerator.init 32 128 = .ok gen ∧
      NoisyGemm.init 128 32 16 64 128 128 = .ok g ∧
      gen.generate Blake3.keyedHash 0 0 128 128 128 = .ok E ∧
      g.run Blake3.keyedHash 128 128 128 gen.noiseRank (fun _ _ => 0) (fun _ _ => 0) E 0
        powTargetEasiest = .ok res ∧ ¬ res.OpensTile g 128 128 := by
  let gen : NoiseGenerator :=
    ⟨32, 128, by decide, by decide, by decide, by decide, by decide, by decide⟩
  let g : NoisyGemm := ⟨128, 32, 16, 64, 128, 128, by decide, by decide, by decide⟩
  have hAccepts := accepts_zero (m := 128) (k := 128) (n := 128) g (by decide) (by decide) (by decide)
    (by decide) (by decide) (by decide)
  obtain ⟨E, hE⟩ : ∃ E, gen.generate Blake3.keyedHash 0 0 128 128 128 = .ok E := ⟨_, rfl⟩
  obtain ⟨C, noised, hRun, -, -⟩ := run_eq (g := g) Blake3.keyedHash gen.noiseRank E 0 (by decide) hAccepts
  refine ⟨gen, g, E, _, gen.init_eq, g.init_eq, hE, hRun, fun hOpens => ?_⟩
  have hNone : ¬ ∃ t : HashTile, t.Full g 128 128 := by
    rw [exists_full_iff (by decide) (by decide)]
    decide
  obtain ⟨t, hWins⟩ := (searchTiles_isSome_iff (by decide)).mp hOpens.1
  exact hNone ⟨t, hWins.full⟩

end Runs

end Reference
