import PrlMiner.Reference.NoiseGenerator

/-! The noisy GEMM of the reference: noising, the tiled product with its
transcripts and target check, and denoising. -/
namespace Reference

open FixedWidth LittleEndian Reduction NoiseGenerator

def transcriptSizeU32 : Nat := 16
def powTargetHardest : Int := 0
def powTargetEasiest : Int := 2 ^ 256 - 1
def hashAccumulateRotation : Nat := 13

/-- Rotate-left a 32-bit value. -/
def rotl32 (x : U32) (n : Nat) : U32 := (x <<< n) ||| (x >>> (32 - n))

/-- XOR of all entries of a `th x tw` tile, flattened row by row. -/
def innerHashTile (th tw : Nat) (tile : Mat I32) : U32 :=
  reduce (· ^^^ ·) 0 (th * tw) (fun x => tile (x / tw) (x % tw))

/-- `(hi, wi, hash)` for each of the `nh x nw` full tiles of a block. -/
def innerHashTensor (block : Mat I32) (nh nw th tw : Nat) : List (Nat × Nat × U32) :=
  (List.range nh).flatMap fun hi => (List.range nw).map fun wi =>
    (hi, wi, innerHashTile th tw (fun a b => block (hi * th + a) (wi * tw + b)))

/-- The winning tile, as recorded for proof creation. -/
structure OpenedBlock where
  A_row_indices : List Nat
  B_column_indices : List Nat
  transcript_words : List U32

/-- The constructor's checks are fields, so every instance has passed them. -/
structure NoisyGemm where
  noiseRange : Int
  noiseRank : Int
  hashTileH : Int
  hashTileW : Int
  matmulTileH : Int
  matmulTileW : Int
  rangeFits : noiseRange ≤ 128
  tileHFits : hashTileH ≤ matmulTileH
  tileWFits : hashTileW ≤ matmulTileW

/-- What `run` returns, with the `opened_block` attribute it leaves behind. -/
structure RunResult where
  C : Mat I32
  found : Bool
  openedBlock : Option OpenedBlock

namespace NoisyGemm

def init (noiseRange noiseRank hashTileH hashTileW matmulTileH matmulTileW : Int) :
    Except PyError NoisyGemm :=
  if hRange : noiseRange > 128 then .error (.valueError "noise_range must fit in uint7")
  else if hTile : matmulTileH < hashTileH ∨ matmulTileW < hashTileW then
    .error (.valueError ("matmul_tile_h=" ++ toString matmulTileH ++ " and matmul_tile_w=" ++
      toString matmulTileW ++ " must be >= hash_tile_h=" ++ toString hashTileH ++
      " and hash_tile_w=" ++ toString hashTileW))
  else .ok ⟨noiseRange, noiseRank, hashTileH, hashTileW, matmulTileH, matmulTileW,
    by omega, by omega, by omega⟩

variable (g : NoisyGemm) (blake3 : Blake3Package)

/-- The admissible data range `[lo, hi]`. -/
def dataRange : Int := 256 - g.noiseRange
def rangeLow : Int := (-g.dataRange).fdiv 2
def rangeHigh : Int := g.rangeLow + g.dataRange - 1

/-- `min` and `max` of an array without entries raise in NumPy. -/
def validateMatrixRange (rows cols : Nat) (t : Mat I8) : Except PyError Unit :=
  if rows * cols = 0 then
    .error (.valueError "zero-size array to reduction operation minimum which has no identity")
  else if ∀ i < rows, ∀ j < cols, g.rangeLow ≤ (t i j).toInt ∧ (t i j).toInt ≤ g.rangeHigh then
    .ok ()
  else .error (.valueError ("tensor must be in the range [" ++ toString g.rangeLow ++ ", " ++
    toString g.rangeHigh ++ "]"))

/-- `(x.astype(np.int16) + (e_l @ e_r).astype(np.int8)).astype(np.int8)`. -/
def addNoise (r : Nat) (x e_l e_r : Mat I8) : Mat I8 :=
  let e := narrow 8 (matmul r (i64 e_l) (i64 e_r))
  narrow 8 (fun i j => (x i j).signExtend 16 + (e i j).signExtend 16)

/-- `A_noised` and `A_E_BL`, for `A : m x k` and noise of inner dimension `r`. -/
def noiseA (m k r : Nat) (A E_AL E_AR E_BL : Mat I8) : Except PyError (Mat I8 × Mat I32) := do
  g.validateMatrixRange m k A
  return (addNoise r A E_AL E_AR, narrow 32 (matmul k (i64 A) (i64 E_BL)))

/-- `B_noised` and `EAR_BpEB`. -/
def noiseB (k n r : Nat) (B E_AR E_BL E_BR : Mat I8) : Except PyError (Mat I8 × Mat I32) := do
  g.validateMatrixRange k n B
  let B_noised := addNoise r B E_BL E_BR
  return (B_noised, narrow 32 (matmul k (i64 E_AR) (i64 B_noised)))

/-- The transcript, packed little-endian, hashed and compared as a number. -/
def checkPowTarget (transcriptWords : Nat → U32) (powKey : Bytes 32) (powTarget : Int) : Bool :=
  decide ((fromBytes (blake3 (packWords 64 transcriptWords) powKey) : Int) ≤ powTarget)

/-- Variables of the loop over K-chunks of one output block. -/
structure ChunkState where
  cBlock : Mat I32
  transcripts : Nat → Nat → Nat → U32
  reduction : Nat
  hasFull : Bool

/-- Fold one tile hash into `transcripts[hi][wi][idx]`. -/
def foldHash (idx : Nat) (transcripts : Nat → Nat → Nat → U32) (tile : Nat × Nat × U32) :
    Nat → Nat → Nat → U32 :=
  fun hi wi s =>
    if hi = tile.1 ∧ wi = tile.2.1 ∧ s = idx then
      rotl32 (transcripts hi wi s) hashAccumulateRotation ^^^ tile.2.2
    else transcripts hi wi s

/-- One K-chunk of the block at `(i, j)` of size `bh x bw`. -/
def chunkStep (A B : Mat I8) (k i j bh bw nth ntw : Nat) (st : ChunkState) (p : Nat) : ChunkState :=
  let width := min (p + g.noiseRank.toNat) k - p
  let product := matmul width (i64 fun a c => A (i + a) (p + c)) (i64 fun c b => B (p + c) (j + b))
  let cBlock := narrow 32 (fun a b => i64 st.cBlock a b + product a b)
  if g.hashTileH ≤ bh ∧ g.hashTileW ≤ bw ∧ (width : Int) = g.noiseRank then
    { cBlock := cBlock
      transcripts :=
        (innerHashTensor cBlock nth ntw g.hashTileH.toNat g.hashTileW.toNat).foldl
          (foldHash (st.reduction % transcriptSizeU32)) st.transcripts
      reduction := st.reduction + 1
      hasFull := true }
  else { st with cBlock := cBlock }

/-- The two nested loops over hash tiles, left at the first winner. -/
def firstWinner (transcripts : Nat → Nat → Nat → U32) (powKey : Bytes 32) (powTarget : Int)
    (i j nth ntw : Nat) : Option OpenedBlock :=
  let hth := g.hashTileH.toNat
  let htw := g.hashTileW.toNat
  (List.range nth).findSome? fun hi => (List.range ntw).findSome? fun wi =>
    if checkPowTarget blake3 (transcripts hi wi) powKey powTarget then
      some {
        A_row_indices := (List.range hth).map (i + hi * hth + ·)
        B_column_indices := (List.range htw).map (j + wi * htw + ·)
        transcript_words := (List.range transcriptSizeU32).map (transcripts hi wi) }
    else none

/-- One output block: accumulate and hash over K, check its tiles unless an
earlier block has won, store it in `C`. -/
def blockStep (A B : Mat I8) (m k n : Nat) (powKey : Bytes 32) (powTarget : Int) (i : Nat)
    (st : RunResult) (j : Nat) : Except PyError RunResult := do
  let bh := min (i + g.noiseRank.toNat) m - i
  let bw := min (j + g.noiseRank.toNat) n - j
  let nth ← floorDiv bh g.hashTileH
  let ntw ← floorDiv bw g.hashTileW
  let chunks ← range k g.noiseRank
  let last := chunks.foldl (g.chunkStep A B k i j bh bw nth.toNat ntw.toNat)
    { cBlock := fun _ _ => 0, transcripts := fun _ _ _ => 0, reduction := 0, hasFull := false }
  let winner :=
    if !st.found && last.hasFull then
      g.firstWinner blake3 last.transcripts powKey powTarget i j nth.toNat ntw.toNat
    else none
  return {
    C := fun a b =>
      if i ≤ a ∧ a < i + bh ∧ j ≤ b ∧ b < j + bw then last.cBlock (a - i) (b - j) else st.C a b
    found := st.found || winner.isSome
    openedBlock := winner.or st.openedBlock }

/-- The tiled product with transcript accumulation, for `A : m x k`, `B : k x n`. -/
def tiledMatmul (A B : Mat I8) (m k n : Nat) (powKey : Bytes 32) (powTarget : Int)
    (openedBlock : Option OpenedBlock) : Except PyError RunResult := do
  if (m : Int) < g.hashTileH ∨ (n : Int) < g.hashTileW ∨
      g.noiseRank < min g.hashTileH g.hashTileW then
    .error (.valueError "matmul tile should be larger than hash tile and noise rank")
  let rows ← range m g.noiseRank
  rows.foldlM (fun st i => do
      let cols ← range n g.noiseRank
      cols.foldlM (g.blockStep blake3 A B m k n powKey powTarget i) st)
    { C := fun _ _ => 0, found := false, openedBlock := openedBlock }

/-- The noised product, with both noise terms taken off again. -/
def gemm (m k n r : Nat) (A_noised B_noised E_AL E_BR : Mat I8) (A_E_BL EAR_BpEB : Mat I32)
    (powKey : Bytes 32) (powTarget : Int) (openedBlock : Option OpenedBlock) :
    Except PyError RunResult := do
  let A_EB := narrow 32 (matmul r (i64 A_E_BL) (i64 E_BR))
  let EA_BpEB := narrow 32 (matmul r (i64 E_AL) (i64 EAR_BpEB))
  let noised ← g.tiledMatmul blake3 A_noised B_noised m k n powKey powTarget openedBlock
  return { noised with
    C := narrow 32 fun i j => i64 noised.C i j - i64 A_EB i j - i64 EA_BpEB i j }

/-- The top-level entry, for `A : m x k`, `B : k x n`, `E_AL : m x r`,
`E_AR : r x k`, `E_BL : k x r` and `E_BR : r x n`. -/
def run (m k n r : Nat) (A B : Mat I8) (E : Noise) (powKey : Bytes 32) (powTarget : Int) :
    Except PyError RunResult := do
  g.validateMatrixRange m k A
  g.validateMatrixRange k n B
  if ¬ (powTargetHardest ≤ powTarget ∧ powTarget ≤ powTargetEasiest) then
    .error (.valueError "pow_target out of range")
  if (m : Int) < g.matmulTileH ∨ (k : Int) < g.noiseRank ∨ (n : Int) < g.matmulTileW then
    .error (.valueError ("expected A.shape[0] and A.shape[1] and B.shape[1] to be greater than " ++
      "matmul_tile_h and noise_rank and matmul_tile_w"))
  let (A_noised, A_E_BL) ← g.noiseA m k r A E.E_AL E.E_AR E.E_BL
  let (B_noised, EAR_BpEB) ← g.noiseB k n r B E.E_AR E.E_BL E.E_BR
  g.gemm blake3 m k n r A_noised B_noised E.E_AL E.E_BR A_E_BL EAR_BpEB powKey powTarget none

end NoisyGemm

end Reference
