import PrlMiner.Reference.NumPy

/-! The keyed noise generator. The hash package is a parameter: nothing below
uses more of it than that a digest is 32 bytes long. -/
namespace Reference

open FixedWidth LittleEndian Reduction

/-- `blake3(msg, key=key).digest()` on the 64-byte messages the reference hashes. -/
abbrev Blake3Package := Bytes 64 → Bytes 32 → Bytes 32

def digestSize : Nat := 32

/-- High 32 bits of a 32x32->64 unsigned multiply. -/
def mulHiU32 (a b : Nat) : Nat := (a % 2 ^ 32) * (b % 2 ^ 32) / 2 ^ 32

/-- The constructor's checks are fields, so every generator has passed them. -/
structure NoiseGenerator where
  noiseRank : Nat
  noiseRange : Nat
  rangePow : noiseRange &&& (noiseRange - 1) = 0
  rangeNeZero : noiseRange ≠ 0
  rankPow : noiseRank &&& (noiseRank - 1) = 0
  rankNeZero : noiseRank ≠ 0
  rangeFits : noiseRange ≤ 128
  rankDivides : noiseRank % digestSize = 0

namespace NoiseGenerator

/-- `NoiseGenerator(noise_rank, noise_range)`, the checks in the source's
order. For a negative `x` the mask `x & (x - 1)` keeps every high sign bit, so
it is nonzero and `x` is refused as no power of two. -/
def init (noiseRank noiseRange : Int) : Except PyError NoiseGenerator :=
  match noiseRange with
  | .negSucc _ => .error (.valueError "noise_range must be a power of two")
  | .ofNat range =>
      if hRange : range &&& (range - 1) = 0 ∧ range ≠ 0 then
        match noiseRank with
        | .negSucc _ => .error (.valueError "noise_rank must be a power of two")
        | .ofNat rank =>
            if hRank : rank &&& (rank - 1) = 0 ∧ rank ≠ 0 then
              if hFits : range ≤ 128 then
                if hDivides : rank % digestSize = 0 then
                  .ok ⟨rank, range, hRange.1, hRange.2, hRank.1, hRank.2, hFits, hDivides⟩
                else .error (.valueError "noise_rank must be divisible by 32")
              else .error (.valueError "noise_range must fit in uint7")
            else .error (.valueError "noise_rank must be a power of two")
      else .error (.valueError "noise_range must be a power of two")

variable (g : NoiseGenerator)

/-- `noise_range // idxs_per_col`, with two indices on each line. -/
def halfRange : Nat := g.noiseRange / 2
def zeroPointTranslation : Int := g.halfRange / 2
def rangeMask : Int := g.halfRange - 1
def rankMask : Nat := g.noiseRank - 1

/-- Eight int32 with slot `prependIndex` set to `1 + index`, then the seed. -/
def randomHash (blake3 : Blake3Package) (index : Nat) (seed key : Bytes 32) (prependIndex : Nat) :
    Bytes 32 :=
  let prepend := packWords 32 (fun i => if i = prependIndex then BitVec.ofNat 32 (1 + index) else 0)
  blake3 (fun i => if i.val < 32 then byteAt prepend i else byteAt seed (i - 32)) key

/-- The concatenated digests of `draws` draws. -/
def rawBytes (blake3 : Blake3Package) (seed key : Bytes 32) (prependIndex draws : Nat) : List Byte :=
  (List.range draws).flatMap fun i => List.ofFn (randomHash blake3 i seed key prependIndex)

/-- One byte moved into `[-zpt, range_mask - zpt]`, over int16. -/
def uniformEntry (b : Byte) : I8 :=
  ((b.setWidth 16 &&& BitVec.ofInt 16 g.rangeMask) - BitVec.ofInt 16 g.zeroPointTranslation).setWidth 8

/-- Dense uniform matrix with `rows` rows and `noise_rank` columns. -/
def uniformMatrix (blake3 : Blake3Package) (seed key : Bytes 32) (rows : Nat) : Mat I8 :=
  let cols := g.noiseRank
  let draws := (rows * cols + digestSize - 1) / digestSize
  let flat := ((rawBytes blake3 seed key 0 draws).take (rows * cols)).map g.uniformEntry
  fun i j => flat.getD (i * cols + j) 0

/-- Where one line has its `+1` and its `-1`. -/
def firstIdx (u : Nat) : Nat := u &&& g.rankMask
def secondIdx (u : Nat) : Nat := (g.firstIdx u ^^^ (1 + mulHiU32 (g.noiseRank - 1) u)) &&& g.rankMask

/-- The line: `perm[first_idx] = 1`, then `perm[second_idx] = -1`. -/
def permLine (u : Nat) : Nat → I8 :=
  Function.update (Function.update (fun _ => 0) (g.firstIdx u) 1) (g.secondIdx u) (-1)

/-- `mat[:, line] = perm` or `mat[line, :] = perm`. -/
def assignLine (assignColumns : Bool) (mat : Mat I8) (line : Nat) (perm : Nat → I8) : Mat I8 :=
  fun row col =>
    if (if assignColumns then col else row) = line then
      perm (if assignColumns then row else col)
    else mat row col

/-- One digest assigns eight lines, fewer in the last draw. -/
def assignDraw (blake3 : Blake3Package) (seed key : Bytes 32) (requiredLines : Nat)
    (assignColumns : Bool) (mat : Mat I8) (i : Nat) : Mat I8 :=
  let words := wordAt (randomHash blake3 i seed key 1)
  ((List.range 8).takeWhile (fun k => i * 8 + k < requiredLines)).foldl
    (fun mat k => assignLine assignColumns mat (i * 8 + k) (g.permLine (words k).toNat)) mat

/-- Signed permutation matrix over `requiredLines` columns (or rows). -/
def permutationMatrix (blake3 : Blake3Package) (seed key : Bytes 32) (requiredLines : Nat)
    (assignColumns : Bool) : Mat I8 :=
  let draws := (requiredLines * 4 + digestSize - 1) / digestSize
  (List.range draws).foldl (g.assignDraw blake3 seed key requiredLines assignColumns) (fun _ _ => 0)

/-- `b"A_tensor" + b"\x00" * 24` and `b"B_tensor" + b"\x00" * 24`. -/
def seedA : Bytes 32 := fun i => [0x41, 0x5F, 0x74, 0x65, 0x6E, 0x73, 0x6F, 0x72].getD i 0
def seedB : Bytes 32 := fun i => [0x42, 0x5F, 0x74, 0x65, 0x6E, 0x73, 0x6F, 0x72].getD i 0

/-- The four noise factors. -/
structure Noise where
  E_AL : Mat I8
  E_AR : Mat I8
  E_BL : Mat I8
  E_BR : Mat I8

/-- Raise on the first dimension below `noise_rank`. -/
def checkDim (name : String) (d : Nat) : Except PyError Unit :=
  if d < g.noiseRank then
    .error (.valueError
      (name ++ " must be >= noise_rank (" ++ toString g.noiseRank ++ "), got " ++ toString d))
  else .ok ()

/-- `(E_AL m x r, E_AR r x k, E_BL k x r, E_BR r x n)`. -/
def generate (blake3 : Blake3Package) (keyA keyB : Bytes 32) (A_rows commonDim B_cols : Nat) :
    Except PyError Noise := do
  g.checkDim "A_rows" A_rows
  g.checkDim "common_dim" commonDim
  g.checkDim "B_cols" B_cols
  return {
    E_AL := g.uniformMatrix blake3 seedA keyA A_rows
    E_AR := g.permutationMatrix blake3 seedA keyA commonDim true
    E_BL := g.permutationMatrix blake3 seedB keyB commonDim false
    E_BR := fun i j => g.uniformMatrix blake3 seedB keyB B_cols j i }

end NoiseGenerator

end Reference
