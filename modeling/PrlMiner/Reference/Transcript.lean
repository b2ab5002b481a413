import PrlMiner.Library.Search
import PrlMiner.Reference.NoisyGemm

/-! What the tiled product computes, without its loops: prefix products, the
transcript of a hash tile, and the search through the tiles in order. -/
namespace Reference

open FixedWidth LittleEndian Reduction

/-- `A[:, :p] @ B[:p, :]` over int32. -/
def prefixProduct (A B : Mat I8) (p : Nat) : Mat I32 :=
  fun i j => accumulate p (fun c => (A i c).signExtend 32 * (B c j).signExtend 32)

/-- Hash of the `th x tw` tile with top left corner `(row, col)` after `p` columns. -/
def tileHash (A B : Mat I8) (th tw row col p : Nat) : U32 :=
  innerHashTile th tw (fun a b => prefixProduct A B p (row + a) (col + b))

/-- Slot `s` after `chunks` chunk hashes: the chunks `c` with `c mod 16 = s`, in order. -/
def foldChunks (h : Nat → U32) (chunks s : Nat) : U32 :=
  ((List.range chunks).filter (· % transcriptSizeU32 = s)).foldl
    (fun x c => rotl32 x hashAccumulateRotation ^^^ h c) 0

/-- Slot `s` of the transcript of a tile over full chunks of width `r`. -/
def transcript (A B : Mat I8) (r th tw chunks row col s : Nat) : U32 :=
  foldChunks (fun c => tileHash A B th tw row col (r * (c + 1))) chunks s

/-- One more chunk touches one of the sixteen words and leaves the others. -/
theorem foldChunks_succ (h : Nat → U32) (chunks s : Nat) :
    foldChunks h (chunks + 1) s =
      if s = chunks % transcriptSizeU32 then
        rotl32 (foldChunks h chunks s) hashAccumulateRotation ^^^ h chunks
      else foldChunks h chunks s := by
  rw [foldChunks, List.range_succ, List.filter_append, List.foldl_append]
  by_cases hs : s = chunks % transcriptSizeU32
  · have hHit : decide (chunks % transcriptSizeU32 = s) = true := by simpa using hs.symm
    rw [if_pos hs, List.filter_singleton, hHit]
    rfl
  · have hMiss : decide (chunks % transcriptSizeU32 = s) = false := by simpa using Ne.symm hs
    rw [if_neg hs, List.filter_singleton, hMiss]
    rfl

theorem foldChunks_congr {h h' : Nat → U32} {chunks : Nat} (hEq : ∀ c < chunks, h c = h' c) (s : Nat) :
    foldChunks h chunks s = foldChunks h' chunks s := by
  induction chunks with
  | zero => rfl
  | succ n ih =>
      rw [foldChunks_succ, foldChunks_succ, ih (fun c hc => hEq c (by omega)), hEq n (by omega)]

/-- The running product grows by the products of one chunk. -/
theorem prefixProduct_add (A B : Mat I8) (p width i j : Nat) :
    prefixProduct A B (p + width) i j = prefixProduct A B p i j +
      accumulate width (fun c => (A i (p + c)).signExtend 32 * (B (p + c) j).signExtend 32) :=
  accumulate_add p width _

theorem prefixProduct_congr {A A' B B' : Mat I8} {p i j : Nat} (hA : ∀ c < p, A i c = A' i c)
    (hB : ∀ c < p, B c j = B' c j) : prefixProduct A B p i j = prefixProduct A' B' p i j :=
  accumulate_congr (fun c hc => by rw [hA c hc, hB c hc])

theorem innerHashTile_congr {th tw : Nat} {tile tile' : Mat I32}
    (h : ∀ a < th, ∀ b < tw, tile a b = tile' a b) :
    innerHashTile th tw tile = innerHashTile th tw tile' := by
  apply reduce_congr
  intro x hx
  have hw : 0 < tw := Nat.pos_of_ne_zero (fun h0 => by simp [h0] at hx)
  exact h _ (Nat.div_lt_of_lt_mul (by rwa [Nat.mul_comm] at hx)) _ (Nat.mod_lt _ hw)

/-- A transcript depends on the rows and columns of its tile only. -/
theorem transcript_congr {A A' B B' : Mat I8} {m k n r th tw chunks row col : Nat}
    (hA : ∀ i < m, ∀ c < k, A i c = A' i c) (hB : ∀ c < k, ∀ j < n, B c j = B' c j)
    (hChunks : r * chunks ≤ k) (hRow : row + th ≤ m) (hCol : col + tw ≤ n) (s : Nat) :
    transcript A B r th tw chunks row col s = transcript A' B' r th tw chunks row col s := by
  apply foldChunks_congr
  intro chunk hChunk
  have hDepth : r * (chunk + 1) ≤ k := (Nat.mul_le_mul_left r hChunk).trans hChunks
  apply innerHashTile_congr
  intro a ha b hb
  exact prefixProduct_congr (fun c hc => hA _ (by omega) c (by omega))
    (fun c hc => hB c (by omega) _ (by omega))

/-- The XOR over a tile as two nested loops. -/
theorem innerHashTile_eq_nested (th tw : Nat) (tile : Mat I32) :
    innerHashTile th tw tile =
      reduce (· ^^^ ·) 0 th (fun a => reduce (· ^^^ ·) 0 tw (fun b => tile a b)) := by
  rw [innerHashTile, reduce_mul]
  apply reduce_congr
  intro a _
  apply reduce_congr
  intro b hb
  rw [Nat.mul_comm a tw, Nat.mul_add_div (Nat.zero_lt_of_lt hb), Nat.mul_add_mod,
    Nat.div_eq_of_lt hb, Nat.mod_eq_of_lt hb, Nat.add_zero]

/-- Full tiles of a given size along an extent, `extent // tile`. -/
def fullTiles (extent : Nat) (tile : Int) : Nat := ((extent : Int).fdiv tile).toNat

/-- Blocks of size `r` along an extent, the last one ragged. -/
def blockCount (extent r : Nat) : Nat := (extent + r - 1) / r

/-- Extent of block number `t`. -/
def blockExtent (extent r t : Nat) : Nat := min (t * r + r) extent - t * r

/-- Top left corners of the full hash tiles of one block. -/
def blockTiles (m n r : Nat) (hth htw : Int) (ti tj : Nat) : List (Nat × Nat) :=
  (List.range (fullTiles (blockExtent m r ti) hth)).flatMap fun hi =>
    (List.range (fullTiles (blockExtent n r tj) htw)).map fun wi =>
      (ti * r + hi * hth.toNat, tj * r + wi * htw.toNat)

/-- All full hash tiles in search order. -/
def hashTiles (m n r : Nat) (hth htw : Int) : List (Nat × Nat) :=
  (List.range (blockCount m r)).flatMap fun ti =>
    (List.range (blockCount n r)).flatMap fun tj => blockTiles m n r hth htw ti tj

/-- The record of a tile that wins. -/
def openTile (g : NoisyGemm) (blake3 : Blake3Package) (A B : Mat I8) (k : Nat) (powKey : Bytes 32)
    (powTarget : Int) (tile : Nat × Nat) : Option OpenedBlock :=
  let r := g.noiseRank.toNat
  let words := transcript A B r g.hashTileH.toNat g.hashTileW.toNat (k / r) tile.1 tile.2
  if NoisyGemm.checkPowTarget blake3 words powKey powTarget then
    some {
      A_row_indices := (List.range g.hashTileH.toNat).map (tile.1 + ·)
      B_column_indices := (List.range g.hashTileW.toNat).map (tile.2 + ·)
      transcript_words := (List.range transcriptSizeU32).map words }
  else none

/-- The first winner among all tiles, if one full chunk was hashed at all. -/
def searchTiles (g : NoisyGemm) (blake3 : Blake3Package) (A B : Mat I8) (m k n : Nat)
    (powKey : Bytes 32) (powTarget : Int) : Option OpenedBlock :=
  if g.noiseRank.toNat ≤ k then
    (hashTiles m n g.noiseRank.toNat g.hashTileH g.hashTileW).findSome?
      (openTile g blake3 A B k powKey powTarget)
  else none

/-- No digest is above the easiest target. -/
theorem fromBytes_le_easiest (digest : Bytes 32) : (fromBytes digest : Int) ≤ powTargetEasiest := by
  have hLt : fromBytes digest < 2 ^ (8 * 32) := ofDigits_lt 32 (byteAt digest)
  rw [powTargetEasiest]
  omega

/-- At the easiest target a search that hashes any tile opens one. -/
theorem searchTiles_easiest {g : NoisyGemm} {m k n : Nat} {tile : Nat × Nat} (hChunk : g.noiseRank.toNat ≤ k)
    (hTile : tile ∈ hashTiles m n g.noiseRank.toNat g.hashTileH g.hashTileW) (blake3 : Blake3Package)
    (A B : Mat I8) (powKey : Bytes 32) :
    (searchTiles g blake3 A B m k n powKey powTargetEasiest).isSome = true := by
  rw [searchTiles, if_pos hChunk, List.findSome?_isSome_iff]
  refine ⟨tile, hTile, ?_⟩
  rw [openTile, NoisyGemm.checkPowTarget, decide_eq_true (fromBytes_le_easiest _)]
  rfl

end Reference
