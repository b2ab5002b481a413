import Mathlib.Data.BitVec
import Mathlib.Data.Int.ModEq
import Mathlib.Tactic
import PrlMiner.Library.Reduction

/-! Signed fixed-width arithmetic. Narrowing is a ring homomorphism, so a
product accumulated at any wider type and then cast down is the product
accumulated at the narrow type. Widening is not, and needs a range. -/
namespace FixedWidth

open Reduction

abbrev I8 := BitVec 8
abbrev I32 := BitVec 32
abbrev I64 := BitVec 64
abbrev U32 := BitVec 32

variable {v w : Nat}

/-- Casting down forgets which wider type held the value. -/
theorem setWidth_ofInt (h : v ≤ w) (z : Int) :
    (BitVec.ofInt w z).setWidth v = BitVec.ofInt v z := by
  apply BitVec.eq_of_toNat_eq
  have hDvd : (2 ^ v : Int) ∣ 2 ^ w := pow_dvd_pow 2 h
  have hPos : (0 : Int) < 2 ^ v := by positivity
  have hNonneg : 0 ≤ z % 2 ^ w := Int.emod_nonneg _ (by positivity)
  simp only [BitVec.toNat_setWidth, BitVec.toNat_ofInt, Nat.cast_pow, Nat.cast_ofNat]
  zify
  rw [Int.toNat_of_nonneg hNonneg, Int.toNat_of_nonneg (Int.emod_nonneg _ hPos.ne'),
    Int.emod_emod_of_dvd _ hDvd]

/-- Widening and then casting down is widening to the narrower of the two types, or
casting down where this is below the type of the value. -/
theorem setWidth_signExtend (h : v ≤ w) {u : Nat} (x : BitVec u) :
    (x.signExtend w).setWidth v = x.signExtend v := setWidth_ofInt h x.toInt

/-- A sum that is cast down is the sum at the narrow type of its summands cast down,
whatever has overflowed in between. -/
theorem setWidth_accumulate (h : v ≤ w) (n : Nat) (f : Nat → BitVec w) :
    (accumulate n f).setWidth v = accumulate n (fun i => (f i).setWidth v) :=
  map_accumulate (BitVec.setWidth v) (by simp) (fun x y => BitVec.setWidth_add x y h) n f

/-- The exact integer value of a fixed-width accumulator, modulo its width: the wraparound
can be put off to the end. -/
theorem ofInt_accumulate (n : Nat) (f : Nat → Int) :
    BitVec.ofInt w (accumulate n f) = accumulate n (fun i => BitVec.ofInt w (f i)) :=
  map_accumulate (BitVec.ofInt w) (by simp) (fun x y => BitVec.ofInt_add x y) n f

/-- A product of widened factors is the exact product of their values, modulo the wide
type. -/
theorem signExtend_mul_signExtend {u : Nat} (x y : BitVec u) :
    x.signExtend w * y.signExtend w = BitVec.ofInt w (x.toInt * y.toInt) :=
  (BitVec.ofInt_mul x.toInt y.toInt).symm

/-- A value in the range of a narrow type survives the round trip through it. One out of
range does not, which is why noise has to fit. -/
theorem signExtend_ofInt {z : Int} (hw : 0 < w) (hLow : -2 ^ (w - 1) ≤ z)
    (hHigh : z < 2 ^ (w - 1)) : (BitVec.ofInt w z).signExtend v = BitVec.ofInt v z := by
  change BitVec.ofInt v (BitVec.ofInt w z).toInt = _
  rw [BitVec.toInt_ofInt_eq_self hw hLow hHigh]

end FixedWidth
