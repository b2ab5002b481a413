import PrlMiner.Cuda.ScanWinner

/-! The scans against the reference search. Over transcripts laid out by absolute
sub-tile, the flat index visits the hash tiles in the order of the nested loops. -/
namespace Cuda

open FixedWidth LittleEndian ParallelWrites Search Reference

/-- Dimensions split into rank blocks, rank blocks into hash tiles. -/
structure TileShape (m n r th tw : Nat) : Prop where
  rankPos : 0 < r
  rankRows : r ∣ m
  rankCols : r ∣ n
  tileHPos : 0 < th
  tileWPos : 0 < tw
  tileH : th ∣ r
  tileW : tw ∣ r

/-- Words of every sub-tile, as the kernels lay them out. -/
def HoldsTranscripts (dTr : Buffer U32) (A B : Mat I8) (m k n r th tw : Nat) : Prop :=
  ∀ sr < m / th, ∀ sc < n / tw, ∀ s < 16,
    dTr ((sr * (n / tw) + sc) * 16 + s) = transcript A B r th tw (k / r) (sr * th) (sc * tw) s

variable {m k n r th tw : Nat}

theorem TileShape.rows (shape : TileShape m n r th tw) : m / r * (r / th) = m / th := by
  obtain ⟨q, rfl⟩ := shape.rankRows
  rw [Nat.mul_div_cancel_left q shape.rankPos, ← Nat.mul_div_assoc q shape.tileH, Nat.mul_comm q]

theorem TileShape.cols (shape : TileShape m n r th tw) : n / r * (r / tw) = n / tw := by
  obtain ⟨q, rfl⟩ := shape.rankCols
  rw [Nat.mul_div_cancel_left q shape.rankPos, ← Nat.mul_div_assoc q shape.tileW, Nat.mul_comm q]

theorem TileShape.tilesHPos (shape : TileShape m n r th tw) : 0 < r / th :=
  Nat.div_pos (Nat.le_of_dvd shape.rankPos shape.tileH) shape.tileHPos

theorem TileShape.tilesWPos (shape : TileShape m n r th tw) : 0 < r / tw :=
  Nat.div_pos (Nat.le_of_dvd shape.rankPos shape.tileW) shape.tileWPos

theorem blockCount_of_dvd (hr : 0 < r) (hm : r ∣ m) : blockCount m r = m / r := by
  obtain ⟨q, rfl⟩ := hm
  rw [blockCount, Nat.mul_div_cancel_left q hr, Nat.add_sub_assoc hr, Nat.mul_add_div hr,
    Nat.div_eq_of_lt (by omega), Nat.add_zero]

theorem blockExtent_of_dvd (hr : 0 < r) (hm : r ∣ m) {t : Nat} (ht : t < m / r) :
    blockExtent m r t = r := by
  have hFits : (t + 1) * r ≤ m / r * r := Nat.mul_le_mul_right r ht
  rw [Nat.succ_mul, Nat.div_mul_cancel hm] at hFits
  rw [blockExtent]
  omega

theorem fullTiles_natCast (extent tile : Nat) : fullTiles extent tile = extent / tile := by
  rw [fullTiles, Int.fdiv_eq_ediv_of_nonneg _ (by omega)]
  exact Int.toNat_natCast _

/-- The flat index visits every hash tile once, in the order of the reference. -/
theorem hashTiles_eq (shape : TileShape m n r th tw) :
    hashTiles m n r th tw = (List.range (totalTiles m n r th tw)).map fun x =>
      ((powScanIndexToTile x (n / r) (r / th) (r / tw)).1 * th,
        (powScanIndexToTile x (n / r) (r / th) (r / tw)).2 * tw) := by
  have hBlock (ti tj : Nat) (hti : ti < m / r) (htj : tj < n / r) :
      blockTiles m n r th tw ti tj = (List.range (r / th * (r / tw))).map fun z =>
        (ti * r + z / (r / tw) * th, tj * r + z % (r / tw) * tw) := by
    rw [blockTiles, blockExtent_of_dvd shape.rankPos shape.rankRows hti,
      blockExtent_of_dvd shape.rankPos shape.rankCols htj, fullTiles_natCast, fullTiles_natCast,
      Int.toNat_natCast, Int.toNat_natCast]
    exact flatMap_range_map _ _ fun hi wi => (ti * r + hi * th, tj * r + wi * tw)
  have hRow (ti : Nat) (hti : ti < m / r) :
      ((List.range (n / r)).flatMap fun tj => blockTiles m n r th tw ti tj) =
        (List.range (n / r * (r / th * (r / tw)))).map fun y =>
          (ti * r + y % (r / th * (r / tw)) / (r / tw) * th,
            y / (r / th * (r / tw)) * r + y % (r / th * (r / tw)) % (r / tw) * tw) := by
    rw [← flatMap_range_map (n / r) (r / th * (r / tw)) fun tj z =>
      (ti * r + z / (r / tw) * th, tj * r + z % (r / tw) * tw)]
    apply List.flatMap_congr
    intro tj htj
    exact hBlock ti tj hti (List.mem_range.mp htj)
  rw [hashTiles, blockCount_of_dvd shape.rankPos shape.rankRows,
    blockCount_of_dvd shape.rankPos shape.rankCols,
    List.flatMap_congr (fun ti hti => hRow ti (List.mem_range.mp hti)),
    flatMap_range_map (m / r) (n / r * (r / th * (r / tw))) fun ti y =>
      (ti * r + y % (r / th * (r / tw)) / (r / tw) * th,
        y / (r / th * (r / tw)) * r + y % (r / th * (r / tw)) % (r / tw) * tw)]
  have hTotal : m / r * (n / r * (r / th * (r / tw))) = totalTiles m n r th tw := by
    rw [totalTiles]
    ring
  rw [hTotal]
  apply List.map_congr_left
  intro x _
  have hRank (t : Nat) : t * r = t * (r / th) * th := by
    rw [Nat.mul_assoc, Nat.div_mul_cancel shape.tileH]
  have hRank' (t : Nat) : t * r = t * (r / tw) * tw := by
    rw [Nat.mul_assoc, Nat.div_mul_cancel shape.tileW]
  have hTi : x / (n / r * (r / th * (r / tw))) = x / (r / tw) / (r / th) / (n / r) := by
    rw [Nat.div_div_eq_div_mul, Nat.div_div_eq_div_mul]
    congr 1
    ring
  have hTj : x % (n / r * (r / th * (r / tw))) / (r / th * (r / tw)) =
      x / (r / tw) / (r / th) % (n / r) := by
    rw [Nat.mul_comm (n / r), Nat.mod_mul_right_div_self, Nat.div_div_eq_div_mul,
      Nat.mul_comm (r / tw)]
  have hZ : x % (n / r * (r / th * (r / tw))) % (r / th * (r / tw)) = x % (r / th * (r / tw)) :=
    Nat.mod_mod_of_dvd _ (Nat.dvd_mul_left _ _)
  have hHi : x % (r / th * (r / tw)) / (r / tw) = x / (r / tw) % (r / th) := by
    rw [Nat.mul_comm (r / th), Nat.mod_mul_right_div_self]
  have hWi : x % (r / th * (r / tw)) % (r / tw) = x % (r / tw) :=
    Nat.mod_mod_of_dvd _ (Nat.dvd_mul_left _ _)
  simp only [hTi, hTj, hZ, hHi, hWi, powScanIndexToTile, Nat.add_mul, ← hRank, ← hRank']

/-- A flat index decodes to a sub-tile inside the output. -/
theorem powScanIndexToTile_lt (shape : TileShape m n r th tw) {x : Nat}
    (hx : x < totalTiles m n r th tw) :
    (powScanIndexToTile x (n / r) (r / th) (r / tw)).1 < m / th ∧
      (powScanIndexToTile x (n / r) (r / th) (r / tw)).2 < n / tw := by
  have hPos : 0 < n / r ∧ 0 < r / th ∧ 0 < r / tw := by
    simp only [totalTiles] at hx
    refine ⟨Nat.pos_of_ne_zero ?_, Nat.pos_of_ne_zero ?_, Nat.pos_of_ne_zero ?_⟩ <;>
      intro h <;> simp [h] at hx
  obtain ⟨hTJ, hSH, hSW⟩ := hPos
  have hTi : x / (r / tw) / (r / th) / (n / r) < m / r := by
    rw [Nat.div_div_eq_div_mul, Nat.div_div_eq_div_mul]
    apply Nat.div_lt_of_lt_mul
    rw [totalTiles] at hx
    calc x < m / r * (n / r) * (r / th) * (r / tw) := hx
      _ = r / tw * (r / th * (n / r)) * (m / r) := by ring
  rw [← shape.rows, ← shape.cols]
  exact ⟨idx_lt hTi (Nat.mod_lt _ hSH), idx_lt (Nat.mod_lt _ hTJ) (Nat.mod_lt _ hSW)⟩

/-- The check reads the sixteen transcript words and nothing behind them. -/
theorem checkPowTarget_congr {words words' : Nat → U32} (h : ∀ s < 16, words s = words' s)
    (blake3 : Blake3Package) (key : Bytes 32) (target : Int) :
    NoisyGemm.checkPowTarget blake3 words key target =
      NoisyGemm.checkPowTarget blake3 words' key target := by
  have hPack : packWords 64 words = packWords 64 words' := packWords_congr (fun i hi => h i (by omega))
  rw [NoisyGemm.checkPowTarget, NoisyGemm.checkPowTarget, hPack]

/-- The record of the reference for the sub-tile at a flat index. -/
def openedAt (A B : Mat I8) (k n r th tw x : Nat) : OpenedBlock :=
  let tile := powScanIndexToTile x (n / r) (r / th) (r / tw)
  { A_row_indices := (List.range th).map (tile.1 * th + ·)
    B_column_indices := (List.range tw).map (tile.2 * tw + ·)
    transcript_words := (List.range transcriptSizeU32).map
      (transcript A B r th tw (k / r) (tile.1 * th) (tile.2 * tw)) }

/-- The search of the reference at the tile of a flat index. -/
theorem openTile_eq {g : NoisyGemm} (blake3 : Blake3Package) (A B : Mat I8) (key : Bytes 32)
    (target : Int) (hRank : g.noiseRank = r) (hH : g.hashTileH = th) (hW : g.hashTileW = tw) (x : Nat) :
    openTile g blake3 A B k key target
        ((powScanIndexToTile x (n / r) (r / th) (r / tw)).1 * th,
          (powScanIndexToTile x (n / r) (r / th) (r / tw)).2 * tw) =
      if NoisyGemm.checkPowTarget blake3 (transcript A B r th tw (k / r)
          ((powScanIndexToTile x (n / r) (r / th) (r / tw)).1 * th)
          ((powScanIndexToTile x (n / r) (r / th) (r / tw)).2 * tw)) key target then
        some (openedAt A B k n r th tw x)
      else none := by
  simp only [openTile, hRank, hH, hW, Int.toNat_natCast]
  rfl

section Search

variable {g : NoisyGemm} {A B : Mat I8} {dTr dKey dTgt : Buffer U32} {key : Bytes 32} {target : Nat}

/-- The reference search finds the first winner of the scan. -/
theorem searchTiles_eq_winner (shape : TileShape m n r th tw) (hChunk : r ≤ k)
    (hRank : g.noiseRank = r) (hH : g.hashTileH = th) (hW : g.hashTileW = tw)
    (hTr : HoldsTranscripts dTr A B m k n r th tw) (hTarget : target < 2 ^ 256)
    (hKey : ∀ i < 8, dKey i = wordAt key i) (hTgt : ∀ i < 8, dTgt i = wordAt (toBytes 32 target) i) :
    searchTiles g Blake3.keyedHash A B m k n key target =
      (winner dTr dKey dTgt m n r th tw).map (openedAt A B k n r th tw) := by
  rw [searchTiles, hRank, hH, hW, Int.toNat_natCast, if_pos hChunk, hashTiles_eq shape,
    List.findSome?_map, winner, ← findSome?_ite]
  apply findSome?_congr
  intro x hx
  obtain ⟨hRow, hCol⟩ := powScanIndexToTile_lt shape (List.mem_range.mp hx)
  have hWords (s : Nat) (hs : s < 16) := hTr _ hRow _ hCol s hs
  have hWins : tileWins dTr dKey dTgt n r th tw x = NoisyGemm.checkPowTarget Blake3.keyedHash
      (transcript A B r th tw (k / r) ((powScanIndexToTile x (n / r) (r / th) (r / tw)).1 * th)
        ((powScanIndexToTile x (n / r) (r / th) (r / tw)).2 * tw)) key target := by
    rw [tileWins_congr (fun _ _ => rfl) hKey hTgt]
    exact (digestLeTarget_eq_checkPowTarget _ key hTarget).trans
      (checkPowTarget_congr hWords _ key target)
  rw [Function.comp_apply, openTile_eq Blake3.keyedHash A B key target hRank hH hW, hWins]

end Search

end Cuda
