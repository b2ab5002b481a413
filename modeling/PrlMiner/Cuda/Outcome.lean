import PrlMiner.Cuda.ReferenceScan
import PrlMiner.Reference.AlikeRows

/-! What a scan hands back to the host, as a function of the noised matrices, the
key and the target alone. -/
namespace Cuda

open FixedWidth LittleEndian ParallelWrites Search Reference

/-- Output variables after the copies back to the host. -/
@[ext] structure MineResult where
  found : Int
  aRow : Int
  bCol : Int
  trOut : List U32
  deriving DecidableEq, Repr

/-- The copies back to the host. -/
def readBack (out : ScanOut) : MineResult :=
  ⟨out.found, out.aRow, out.bCol, (List.range 16).map out.trOut⟩

/-- The transcripts of a noised product in the layout of the kernels. -/
def transcriptsOf (A B : Mat I8) (k n r th tw : Nat) : Buffer U32 := fun x =>
  let tile := x / 16
  transcript A B r th tw (k / r) (tile / (n / tw) * th) (tile % (n / tw) * tw) (x % 16)

/-- The sub-tile a scan reports: the least winner, if it lies below the sentinel. -/
def reportedTile (A B : Mat I8) (key target : Buffer U32) (m k n r th tw : Nat) : Option Nat :=
  let best := leastHit (tileWins (transcriptsOf A B k n r th tw) key target n r th tw) sentinel
    (List.range (totalTiles m n r th tw))
  if best < totalTiles m n r th tw then some best else none

/-- The result for a sub-tile. -/
def tileResult (A B : Mat I8) (k n r th tw : Nat) (found : Int) (x : Nat) : MineResult :=
  let tile := powScanIndexToTile x (n / r) (r / th) (r / tw)
  { found := found
    aRow := (tile.1 * th : Nat)
    bCol := (tile.2 * tw : Nat)
    trOut := (List.range 16).map (transcript A B r th tw (k / r) (tile.1 * th) (tile.2 * tw)) }

/-- The result without a winner. The transcript words are left as they were. -/
def noTile (found : Int) (trOut : Buffer U32) : MineResult :=
  ⟨found, -1, -1, (List.range 16).map trOut⟩

/-- The result of one attempt. -/
def attemptResult (A B : Mat I8) (key target : Buffer U32) (m k n r th tw : Nat) (trOut : Buffer U32) :
    MineResult :=
  match reportedTile A B key target m k n r th tw with
  | none => noTile 0 trOut
  | some x => tileResult A B k n r th tw 1 x

/-- The result of a batch: that of its first attempt with a winner. -/
def batchResult (A B : Nat → Mat I8) (keys : Nat → Buffer U32) (target : Buffer U32)
    (m k n r th tw natt : Nat) (trOut : Buffer U32) : MineResult :=
  match (List.range natt).findSome? fun j =>
    (reportedTile (A j) (B j) (keys j) target m k n r th tw).map (j, ·) with
  | none => noTile (-1) trOut
  | some (j, x) => tileResult (A j) (B j) k n r th tw j x

variable {m k n r th tw : Nat} {A A' B B' : Mat I8} {dTr key key' target target' : Buffer U32}

theorem holdsTranscripts_transcriptsOf (A B : Mat I8) (m k n r th tw : Nat) :
    HoldsTranscripts (transcriptsOf A B k n r th tw) A B m k n r th tw := by
  intro sr _ sc hsc s hs
  have hTile : idx (idx sr sc (n / tw)) s 16 / 16 = idx sr sc (n / tw) := idx_div hs
  have hSlot : idx (idx sr sc (n / tw)) s 16 % 16 = s := idx_mod hs
  have hRow : idx sr sc (n / tw) / (n / tw) = sr := idx_div hsc
  have hCol : idx sr sc (n / tw) % (n / tw) = sc := idx_mod hsc
  rw [idx, idx] at hTile hSlot
  rw [idx] at hRow hCol
  simp only [transcriptsOf, hTile, hSlot, hRow, hCol]

/-- Words of the noised product of other matrices that agree in bounds. -/
theorem HoldsTranscripts.congr (hTr : HoldsTranscripts dTr A B m k n r th tw)
    (hA : ∀ i < m, ∀ c < k, A i c = A' i c) (hB : ∀ c < k, ∀ j < n, B c j = B' c j) :
    HoldsTranscripts dTr A' B' m k n r th tw := by
  intro sr hsr sc hsc s hs
  rw [hTr sr hsr sc hsc s hs]
  have hRow : (sr + 1) * th ≤ m := (Nat.mul_le_mul_right th hsr).trans (Nat.div_mul_le_self m th)
  have hCol : (sc + 1) * tw ≤ n := (Nat.mul_le_mul_right tw hsc).trans (Nat.div_mul_le_self n tw)
  exact transcript_congr hA hB (Nat.mul_div_le k r) (by rwa [Nat.succ_mul] at hRow)
    (by rwa [Nat.succ_mul] at hCol) s

/-- The scan sees the noised product through its transcripts only. -/
theorem tileWins_eq (shape : TileShape m n r th tw) (hTr : HoldsTranscripts dTr A B m k n r th tw)
    (hKey : ∀ i < 8, key i = key' i) (hTarget : ∀ i < 8, target i = target' i) {x : Nat}
    (hx : x < totalTiles m n r th tw) : tileWins dTr key target n r th tw x =
      tileWins (transcriptsOf A B k n r th tw) key' target' n r th tw x := by
  obtain ⟨hRow, hCol⟩ := powScanIndexToTile_lt shape hx
  exact tileWins_congr (fun s hs => (hTr _ hRow _ hCol s hs).trans
    (holdsTranscripts_transcriptsOf A B m k n r th tw _ hRow _ hCol s hs).symm) hKey hTarget

/-- What the host reads back after a winner was emitted is the reference's record of that
tile: the attempt, its row and column, and its transcript words. -/
theorem readBack_emitTile (shape : TileShape m n r th tw)
    (hTr : HoldsTranscripts dTr A B m k n r th tw) {x : Nat} (hx : x < totalTiles m n r th tw)
    (found : Int) (out : ScanOut) :
    readBack (emitTile dTr n r th tw found x out) = tileResult A B k n r th tw found x := by
  obtain ⟨hRow, hCol⟩ := powScanIndexToTile_lt shape hx
  rw [readBack, emitTile, tileResult, MineResult.mk.injEq]
  refine ⟨rfl, rfl, rfl, ?_⟩
  apply List.map_congr_left
  intro s hs
  rw [List.mem_range] at hs
  exact (memcpy_of_lt hs).trans (hTr _ hRow _ hCol s hs)

/-- The result for a sub-tile is its record in the reference. -/
theorem tileResult_opened (shape : TileShape m n r th tw) (A B : Mat I8) (k : Nat) (found : Int)
    (x : Nat) :
    let block := openedAt A B k n r th tw x
    let res := tileResult A B k n r th tw found x
    block.A_row_indices.head?.map Nat.cast = some res.aRow ∧
      block.B_column_indices.head?.map Nat.cast = some res.bCol ∧ res.trOut = block.transcript_words := by
  have hHead (size start : Nat) (h : 0 < size) :
      ((List.range size).map (start + ·)).head?.map Nat.cast = some (start : Int) := by
    obtain ⟨p, rfl⟩ := Nat.exists_eq_succ_of_ne_zero h.ne'
    simp [List.range_succ_eq_map]
  exact ⟨hHead _ _ shape.tileHPos, hHead _ _ shape.tileWPos, rfl⟩

/-- A reported tile is one of the tiles of the product. -/
theorem reportedTile_lt {x : Nat} (h : reportedTile A B key target m k n r th tw = some x) :
    x < totalTiles m n r th tw := by
  obtain ⟨hBest, hEq⟩ := Option.ite_none_right_eq_some.mp h
  rw [← Option.some.inj hEq]
  exact hBest

/-- With every sub-tile below the sentinel the least winner is reported. -/
theorem reportedTile_eq_winner (hBound : totalTiles m n r th tw ≤ sentinel) :
    reportedTile A B key target m k n r th tw =
      winner (transcriptsOf A B k n r th tw) key target m n r th tw := by
  rw [reportedTile, leastHit_eq_find? _ hBound (.refl _), ← winner]
  cases hWinner : winner (transcriptsOf A B k n r th tw) key target m n r th tw with
  | none =>
      rw [Option.getD_none]
      exact if_neg (by omega)
  | some x =>
      have hLt : x < totalTiles m n r th tw := by
        simpa using List.mem_of_find?_eq_some hWinner
      exact if_pos hLt

/-- The winner of a scan depends on the transcripts, the eight key words and the eight
target words only. -/
theorem winner_eq (shape : TileShape m n r th tw) (hTr : HoldsTranscripts dTr A B m k n r th tw)
    (hKey : ∀ i < 8, key i = key' i) (hTarget : ∀ i < 8, target i = target' i) :
    winner dTr key target m n r th tw =
      winner (transcriptsOf A B k n r th tw) key' target' m n r th tw :=
  List.find?_congr (fun _ hx => tileWins_eq shape hTr hKey hTarget (List.mem_range.mp hx))

/-- The checks of `run` on matrices it takes, for tiles that divide a block. -/
theorem TileShape.accepts (shape : TileShape m n r th tw) (hChunks : r ∣ k) {g : NoisyGemm} {A B : Mat I8}
    (hRank : g.noiseRank = r) (hTileH : g.hashTileH = th) (hTileW : g.hashTileW = tw)
    (hMatmulH : g.matmulTileH ≤ m) (hMatmulW : g.matmulTileW ≤ n) {powTarget : Nat}
    (hTarget : powTarget < 2 ^ 256) (hA : g.validateMatrixRange m k A = .ok ())
    (hB : g.validateMatrixRange k n B = .ok ()) : g.Accepts m k n A B powTarget := by
  obtain ⟨hSizeA, hDataA⟩ := (g.validateMatrixRange_ok_iff m k A).mp hA
  obtain ⟨hSizeB, hDataB⟩ := (g.validateMatrixRange_ok_iff k n B).mp hB
  have hkPos : 0 < k := Nat.pos_of_ne_zero (fun h => hSizeA (by simp [h]))
  have hDepth : r ≤ k := Nat.le_of_dvd hkPos hChunks
  have hth : th ≤ r := Nat.le_of_dvd shape.rankPos shape.tileH
  have hthPos := shape.tileHPos
  have htwPos := shape.tileWPos
  exact {
    sizeA := hSizeA
    sizeB := hSizeB
    dataA := hDataA
    dataB := hDataB
    target := ⟨Int.natCast_nonneg _, Int.le_sub_one_of_lt (by exact_mod_cast hTarget)⟩
    shape := ⟨hMatmulH, by omega, hMatmulW⟩
    tileH := by omega
    tileW := by omega
    tileFits := by omega }

/-- An accepted run of the reference opens the first winner. -/
theorem run_reports {g : NoisyGemm} {E : NoiseGenerator.Noise} {powKey : Bytes 32} {powTarget : Nat}
    (shape : TileShape m n r th tw) (hRank : g.noiseRank = r) (hH : g.hashTileH = th)
    (hW : g.hashTileW = tw) (hAccepts : g.Accepts m k n A B powTarget) (hTarget : powTarget < 2 ^ 256)
    (hKey : ∀ i < 8, key i = wordAt powKey i) (hTgt : ∀ i < 8, target i = wordAt (toBytes 32 powTarget) i) :
    let NA := NoisyGemm.addNoise r A E.E_AL E.E_AR
    let NB := NoisyGemm.addNoise r B E.E_BL E.E_BR
    ∃ ref, g.run Blake3.keyedHash m k n r A B E powKey powTarget = .ok ref ∧
      ref.found = (winner (transcriptsOf NA NB k n r th tw) key target m n r th tw).isSome ∧
      ref.openedBlock = (winner (transcriptsOf NA NB k n r th tw) key target m n r th tw).map
        (openedAt NA NB k n r th tw) := by
  intro NA NB
  have hShape := hAccepts.shape
  have hRankPos := shape.rankPos
  obtain ⟨C, -, hRun, -⟩ := NoisyGemm.run_eq Blake3.keyedHash r E powKey (by omega) hAccepts
  have hSearch := searchTiles_eq_winner (g := g) shape (by omega) hRank hH hW
    (holdsTranscripts_transcriptsOf NA NB m k n r th tw) hTarget hKey hTgt
  refine ⟨_, hRun, ?_, hSearch⟩
  rw [hSearch, Option.isSome_map]

/-- Over a first factor with equal rows the scan reports a tile exactly when the digest of
the zero transcript meets the target. -/
theorem reportedTile_alike (shape : TileShape m n r th tw) (hSize : 0 < m ∧ 0 < n) (hChunk : r ≤ k)
    (hBound : totalTiles m n r th tw ≤ sentinel) (hA : AlikeRows A) (hEven : Even th) {powKey : Bytes 32}
    {powTarget : Nat} (hTarget : powTarget < 2 ^ 256) (hKey : ∀ i < 8, key i = wordAt powKey i)
    (hTgt : ∀ i < 8, target i = wordAt (toBytes 32 powTarget) i) :
    (reportedTile A B key target m k n r th tw).isSome = true ↔
      zeroDigest Blake3.keyedHash powKey ≤ powTarget := by
  let g : NoisyGemm := ⟨128, r, th, tw, th, tw, by decide, le_refl _, le_refl _⟩
  have hTileH := Nat.le_of_dvd shape.rankPos shape.tileH
  have hTileW := Nat.le_of_dvd shape.rankPos shape.tileW
  have hRows := Nat.le_of_dvd hSize.1 shape.rankRows
  have hCols := Nat.le_of_dvd hSize.2 shape.rankCols
  have hPosH := shape.tileHPos
  have hPosW := shape.tileWPos
  have hSearch := searchTiles_eq_winner (g := g) shape hChunk rfl rfl rfl
    (holdsTranscripts_transcriptsOf A B m k n r th tw) hTarget hKey hTgt
  have hTiles : (1 ≤ (th : Int) ∧ (th : Int) ≤ r) ∧ 1 ≤ (tw : Int) ∧ (tw : Int) ≤ r := by omega
  have hSides : (th : Int) ≤ m ∧ (tw : Int) ≤ n := by omega
  have hFull : ∃ t : HashTile, t.Full g m n := (exists_full_iff hSides.1 hSides.2).mpr hTiles
  have hOpens : (searchTiles g Blake3.keyedHash A B m k n powKey powTarget).isSome = true ↔
      (∃ t : HashTile, t.Full g m n) ∧ r ≤ k ∧ (zeroDigest Blake3.keyedHash powKey : Int) ≤ powTarget :=
    searchTiles_alike_isSome_iff hA hEven shape.rankPos
  rw [hSearch, Option.isSome_map, ← reportedTile_eq_winner hBound] at hOpens
  rw [hOpens]
  exact ⟨fun h => by exact_mod_cast h.2.2, fun h => ⟨hFull, hChunk, by exact_mod_cast h⟩⟩

/-- The outcome of one attempt, whatever the scan found in its buffers. -/
theorem readBack_scan (s : Scheduler) (dBest : Buffer Int) (out : ScanOut)
    (shape : TileShape m n r th tw) (hTr : HoldsTranscripts dTr A B m k n r th tw)
    (hKey : ∀ i < 8, key i = key' i) (hTarget : ∀ i < 8, target i = target' i) :
    readBack (scan s dTr key target m n r th tw dBest out) =
      attemptResult A B key' target' m k n r th tw out.trOut := by
  rw [scan, scanFind_eq, leastHit_congr
    (fun x hx => tileWins_eq shape hTr hKey hTarget (List.mem_range.mp hx)), attemptResult,
    reportedTile, kPowScanEmit]
  generalize leastHit (tileWins (transcriptsOf A B k n r th tw) key' target' n r th tw) sentinel
    (List.range (totalTiles m n r th tw)) = best
  by_cases hBest : best < totalTiles m n r th tw
  · rw [if_neg (by omega)]
    simp only [if_pos hBest, ← readBack_emitTile shape hTr hBest 1 out]
    rfl
  · rw [if_pos (by omega)]
    simp only [if_neg hBest]
    rfl

/-- The outcome of a batch. -/
theorem readBack_scanBatched {A B : Nat → Mat I8} {keys : Nat → Buffer U32} {natt : Nat}
    {dKeys : Buffer U32} (s : Scheduler) (dBest : Buffer Int) (out : ScanOut)
    (shape : TileShape m n r th tw) (hBound : natt * totalTiles m n r th tw ≤ sentinel)
    (hTr : ∀ j < natt, HoldsTranscripts (offset dTr (j * (totalTiles m n r th tw * 16))) (A j) (B j) m k
      n r th tw)
    (hKeys : ∀ j < natt, ∀ i < 8, offset dKeys (j * 8) i = keys j i)
    (hTarget : ∀ i < 8, target i = target' i) :
    readBack (scanBatched s dTr dKeys target m n r th tw natt dBest out) =
      batchResult A B keys target' m k n r th tw natt out.trOut := by
  have hAttempts : ((List.range natt).findSome? fun j =>
      (winner (offset dTr (j * (totalTiles m n r th tw * 16))) (offset dKeys (j * 8)) target m n r th
        tw).map (j, ·)) = (List.range natt).findSome? fun j =>
      (reportedTile (A j) (B j) (keys j) target' m k n r th tw).map (j, ·) := by
    apply findSome?_congr
    intro j hj
    rw [List.mem_range] at hj
    have hOne : 1 * totalTiles m n r th tw ≤ natt * totalTiles m n r th tw :=
      Nat.mul_le_mul_right _ (by omega)
    rw [winner_eq shape (hTr j hj) (hKeys j hj) hTarget, reportedTile_eq_winner (by omega)]
  rw [scanBatched_eq_winner s dTr dKeys target dBest out hBound, hAttempts, batchResult]
  cases hFirst : (List.range natt).findSome? fun j =>
      (reportedTile (A j) (B j) (keys j) target' m k n r th tw).map (j, ·) with
  | none => rfl
  | some jx =>
      obtain ⟨j, x⟩ := jx
      obtain ⟨i, hi, hMap⟩ := List.exists_of_findSome?_eq_some hFirst
      obtain ⟨y, hy, hEq⟩ := Option.map_eq_some_iff.mp hMap
      obtain ⟨rfl, rfl⟩ := Prod.mk.inj hEq
      exact readBack_emitTile shape (hTr i (List.mem_range.mp hi)) (reportedTile_lt hy) i out

end Cuda
