import PrlMiner.Cuda.Device
import PrlMiner.Reference.Transcript

/-! Warp-wide instructions. A register of a warp is a function of the lane. The
tensor-core multiply reads its operands from a fixed placement of matrix elements
in lanes, registers and bytes, and `ldmatrix` delivers exactly that placement. -/
namespace Cuda

open FixedWidth LittleEndian Reduction Reference

/-- Four consecutive bytes as one register. -/
def load32 (mem : Buffer I8) (addr : Nat) : U32 := leWord (fun x => mem (addr + x))

/-- `pk(b0, b1, b2, b3)`. -/
def pk (b0 b1 b2 b3 : I8) : U32 :=
  b0.setWidth 32 ||| b1.setWidth 32 <<< 8 ||| b2.setWidth 32 <<< 16 ||| b3.setWidth 32 <<< 24

/-- Element `(row, kk)` of the 16x32 operand, in four registers of every lane. -/
def elemA (a : Nat → Nat → U32) (row kk : Nat) : I8 :=
  wordByte (a (row % 8 * 4 + kk % 16 / 4) (row / 8 + 2 * (kk / 16))) (kk % 4)

/-- Element `(kk, col)` of the 32x8 operand, in two registers of every lane. -/
def elemB (b : Nat → Nat → U32) (kk col : Nat) : I8 :=
  wordByte (b (col * 4 + kk % 16 / 4) (kk / 16)) (kk % 4)

/-- Row and column of accumulator `e` of a lane. -/
def accRow (lane e : Nat) : Nat := lane / 4 + 8 * (e / 2)
def accCol (lane e : Nat) : Nat := lane % 4 * 2 + e % 2

/-- `mma.sync.aligned.m16n8k32.row.col.s32.s8.s8.s32`, by lane and accumulator. -/
def mma (a b : Nat → Nat → U32) (c : Nat → Nat → I32) : Nat → Nat → I32 := fun lane e =>
  c lane e + accumulate 32 fun kk =>
    (elemA a (accRow lane e) kk).signExtend 32 * (elemB b kk (accCol lane e)).signExtend 32

/-- `ldmatrix.sync.aligned.m8n8.x4.shared.b16`: row `i` of matrix `j` lies where
lane `8 j + i` points, and goes to the lanes `4 i, ..., 4 i + 3` of register `j`. -/
def ldmatrix (mem : Buffer I8) (addr : Nat → Nat) : Nat → Nat → U32 := fun lane j =>
  load32 mem (addr (8 * j + lane / 4) + 4 * (lane % 4))

/-- `__shfl_down_sync` over the whole warp. -/
def shflDown (v : Nat → U32) (off : Nat) : Nat → U32 := fun lane =>
  if lane + off < 32 then v (lane + off) else v lane

/-- `__shfl_xor_sync` over the whole warp. -/
def shflXor (v : Nat → U32) (off : Nat) : Nat → U32 := fun lane => v (lane ^^^ off)

/-- `v ^= __shfl_down_sync(v, off)`. -/
def xorShflDown (v : Nat → U32) (off : Nat) : Nat → U32 := fun lane => v lane ^^^ shflDown v off lane

/-- `v ^= __shfl_xor_sync(v, off)`. -/
def xorShflXor (v : Nat → U32) (off : Nat) : Nat → U32 := fun lane => v lane ^^^ shflXor v off lane

/-- The loop over `off = 4, 2, 1`. -/
def xorDown (v : Nat → U32) : Nat → U32 := [4, 2, 1].foldl xorShflDown v

/-- The loop over `off = 16, 8, 4, 2, 1`. -/
def xorButterfly (v : Nat → U32) : Nat → U32 := [16, 8, 4, 2, 1].foldl xorShflXor v

theorem wordByte_load32 (mem : Buffer I8) (addr : Nat) {x : Nat} (hx : x < 4) :
    wordByte (load32 mem addr) x = mem (addr + x) := wordByte_leWord _ hx

/-- The eight lanes of a segment are folded into its first one. -/
theorem xorDown_segment (v : Nat → U32) {a : Nat} (ha : a < 4) :
    xorDown v (8 * a) = reduce (· ^^^ ·) 0 8 (fun i => v (8 * a + i)) := by
  have hHalf (v : Nat → U32) (off : Nat) (h : off + off ≤ 8) :
      reduce (· ^^^ ·) 0 off (fun i => xorShflDown v off (8 * a + i)) =
        reduce (· ^^^ ·) 0 (off + off) (fun i => v (8 * a + i)) := by
    rw [reduce_halves]
    apply reduce_congr
    intro i hi
    have hIn : 8 * a + i + off < 32 := by omega
    rw [xorShflDown, shflDown, if_pos hIn, Nat.add_comm off i, Nat.add_assoc]
  calc xorDown v (8 * a)
      = reduce (· ^^^ ·) 0 1 (fun i =>
          xorShflDown (xorShflDown (xorShflDown v 4) 2) 1 (8 * a + i)) := BitVec.zero_xor.symm
    _ = reduce (· ^^^ ·) 0 2 (fun i => xorShflDown (xorShflDown v 4) 2 (8 * a + i)) :=
        hHalf _ 1 (by decide)
    _ = reduce (· ^^^ ·) 0 4 (fun i => xorShflDown v 4 (8 * a + i)) := hHalf _ 2 (by decide)
    _ = reduce (· ^^^ ·) 0 8 (fun i => v (8 * a + i)) := hHalf v 4 (by decide)

/-- All 32 lanes are folded into lane 0. -/
theorem xorButterfly_zero (v : Nat → U32) : xorButterfly v 0 = reduce (· ^^^ ·) 0 32 v := by
  have hHalf (v : Nat → U32) (off : Nat) (hFlip : ∀ i < off, i ^^^ off = off + i) :
      reduce (· ^^^ ·) 0 off (xorShflXor v off) = reduce (· ^^^ ·) 0 (off + off) v := by
    rw [reduce_halves]
    exact reduce_congr (fun i hi => by rw [xorShflXor, shflXor, hFlip i hi])
  calc xorButterfly v 0
      = reduce (· ^^^ ·) 0 1 (xorShflXor (xorShflXor (xorShflXor (xorShflXor (xorShflXor v 16) 8) 4) 2) 1) :=
        BitVec.zero_xor.symm
    _ = reduce (· ^^^ ·) 0 2 (xorShflXor (xorShflXor (xorShflXor (xorShflXor v 16) 8) 4) 2) :=
        hHalf _ 1 (by decide)
    _ = reduce (· ^^^ ·) 0 4 (xorShflXor (xorShflXor (xorShflXor v 16) 8) 4) := hHalf _ 2 (by decide)
    _ = reduce (· ^^^ ·) 0 8 (xorShflXor (xorShflXor v 16) 8) := hHalf _ 4 (by decide)
    _ = reduce (· ^^^ ·) 0 16 (xorShflXor v 16) := hHalf _ 8 (by decide)
    _ = reduce (· ^^^ ·) 0 32 v := hHalf v 16 (by decide)

/-- `ldmatrix` from a 32-byte-wide row-major tile, the lanes pointing at its rows
and, from lane 16 on, at their second halves. -/
theorem elemA_ldmatrix (mem : Buffer I8) (base : Nat) {row kk : Nat} (hRow : row < 16) (hkk : kk < 32) :
    elemA (ldmatrix mem fun lane =>
      base + (if lane < 16 then lane else lane - 16) * 32 + (if lane < 16 then 0 else 16)) row kk =
      mem (base + row * 32 + kk) := by
  have hLane : (row % 8 * 4 + kk % 16 / 4) / 4 = row % 8 := by omega
  have hPair : (row % 8 * 4 + kk % 16 / 4) % 4 = kk % 16 / 4 := by omega
  rw [elemA, ldmatrix, wordByte_load32 _ _ (Nat.mod_lt _ (by decide)), hLane, hPair]
  congr 1
  rcases Nat.lt_or_ge kk 16 with h | h
  · have hAddr : 8 * (row / 8 + 2 * (kk / 16)) + row % 8 = row := by omega
    rw [hAddr, if_pos hRow, if_pos hRow]
    omega
  · have hAddr : 8 * (row / 8 + 2 * (kk / 16)) + row % 8 = row + 16 := by omega
    rw [hAddr, if_neg (by omega), if_neg (by omega)]
    omega

/-- The same operand loaded word by word. -/
theorem elemA_load32 (mem : Buffer I8) (base : Nat) {row kk : Nat} (hRow : row < 16) :
    elemA (fun lane reg => load32 mem (base + (lane / 4 + 8 * (reg % 2)) * 32 + lane % 4 * 4 +
      16 * (reg / 2))) row kk = mem (base + row * 32 + kk) := by
  have hLane : (row % 8 * 4 + kk % 16 / 4) / 4 = row % 8 := by omega
  have hPair : (row % 8 * 4 + kk % 16 / 4) % 4 = kk % 16 / 4 := by omega
  have hHigh : (row / 8 + 2 * (kk / 16)) % 2 = row / 8 := by omega
  have hHalf : (row / 8 + 2 * (kk / 16)) / 2 = kk / 16 := by omega
  rw [elemA, wordByte_load32 _ _ (Nat.mod_lt _ (by decide)), hLane, hPair, hHigh, hHalf]
  congr 1
  omega

/-- A column-major operand with columns `ld` bytes apart, loaded word by word. -/
theorem elemB_load32 (mem : Buffer I8) (base ld kk col : Nat) :
    elemB (fun lane reg => load32 mem (base + lane / 4 * ld + lane % 4 * 4 + 16 * reg)) kk col =
      mem (base + col * ld + kk) := by
  have hLane : (col * 4 + kk % 16 / 4) / 4 = col := by omega
  have hPair : (col * 4 + kk % 16 / 4) % 4 = kk % 16 / 4 := by omega
  rw [elemB, wordByte_load32 _ _ (Nat.mod_lt _ (by decide)), hLane, hPair]
  congr 1
  omega

/-- A row-major operand with rows 128 bytes apart, packed byte by byte. -/
theorem elemB_pk (mem : Buffer I8) (base kk col : Nat) :
    elemB (fun lane reg => pk (mem (base + (lane % 4 * 4 + 16 * reg) * 128 + lane / 4))
      (mem (base + (lane % 4 * 4 + 1 + 16 * reg) * 128 + lane / 4))
      (mem (base + (lane % 4 * 4 + 2 + 16 * reg) * 128 + lane / 4))
      (mem (base + (lane % 4 * 4 + 3 + 16 * reg) * 128 + lane / 4))) kk col =
      mem (base + kk * 128 + col) := by
  have hLane : (col * 4 + kk % 16 / 4) / 4 = col := by omega
  have hPair : (col * 4 + kk % 16 / 4) % 4 = kk % 16 / 4 := by omega
  rw [elemB, hLane, hPair]
  refine (wordByte_leWord (fun x => mem (base + (kk % 16 / 4 * 4 + x + 16 * (kk / 16)) * 128 + col))
    (Nat.mod_lt kk (by decide))).trans ?_
  have hkk' : kk % 16 / 4 * 4 + kk % 4 + 16 * (kk / 16) = kk := by omega
  rw [hkk']

/-- One multiply adds 32 columns to a product accumulated so far. -/
theorem mma_eq {a b : Nat → Nat → U32} {c : Nat → Nat → I32} {ta tb : Nat → Nat → I8} {lane e : Nat}
    (hLane : lane < 32) (he : e < 4)
    (hA : ∀ row < 16, ∀ kk < 32, elemA a row kk = ta row kk)
    (hB : ∀ kk < 32, ∀ col < 8, elemB b kk col = tb kk col) :
    mma a b c lane e = c lane e + accumulate 32 (fun kk =>
      (ta (accRow lane e) kk).signExtend 32 * (tb kk (accCol lane e)).signExtend 32) := by
  have hRow : accRow lane e < 16 := by
    rw [accRow]
    omega
  have hCol : accCol lane e < 8 := by
    rw [accCol]
    omega
  refine congrArg (c lane e + ·) (accumulate_congr fun kk hkk => ?_)
  rw [hA _ hRow kk hkk, hB kk hkk _ hCol]

/-- The same for the accumulators of a thread, whose warp has the fragments of its tile
of `A @ B` from column `p` on. -/
theorem mma_accumulates (acc : Nat → Nat → I32) {a b : Nat → Nat → U32} {A B : Mat I8}
    {row col p tid e : Nat} (he : e < 4)
    (hA : ∀ r < 16, ∀ kk < 32, elemA a r kk = A (row + r) (p + kk))
    (hB : ∀ kk < 32, ∀ c < 8, elemB b kk c = B (p + kk) (col + c))
    (hOld : acc tid e = prefixProduct A B p (row + accRow (tid % 32) e) (col + accCol (tid % 32) e)) :
    mma a b (fun lane => acc (tid / 32 * 32 + lane)) (tid % 32) e =
      prefixProduct A B (p + 32) (row + accRow (tid % 32) e) (col + accCol (tid % 32) e) := by
  rw [mma_eq (Nat.mod_lt tid (by decide)) he hA hB, Nat.div_add_mod', hOld, prefixProduct_add]

end Cuda
