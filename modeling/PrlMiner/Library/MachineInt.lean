import Mathlib.Data.Int.Basic
import Mathlib.Tactic

/-! Integer expressions evaluated on a machine. Every operation wraps to a signed
number of `w` bits; an expression is exact when nothing in it wraps. -/
namespace MachineInt

inductive Op where
  | add | sub | mul | div | mod
  deriving DecidableEq

/-- The operation on mathematical integers, division toward zero. -/
def Op.apply : Op → Int → Int → Int
  | .add, x, y => x + y
  | .sub, x, y => x - y
  | .mul, x, y => x * y
  | .div, x, y => x.tdiv y
  | .mod, x, y => x.tmod y

/-- An expression, with the values of its variables in place. -/
inductive IntExpr where
  | val (v : Int)
  | op (o : Op) (a b : IntExpr)

namespace IntExpr

instance addInst : Add IntExpr := ⟨.op .add⟩
instance subInst : Sub IntExpr := ⟨.op .sub⟩
instance mulInst : Mul IntExpr := ⟨.op .mul⟩
instance divInst : Div IntExpr := ⟨.op .div⟩
instance modInst : Mod IntExpr := ⟨.op .mod⟩
instance coeNat : Coe Nat IntExpr := ⟨fun x => .val x⟩
instance ofNatInst (x : Nat) : OfNat IntExpr x := ⟨.val x⟩

/-- The mathematical value. -/
def value : IntExpr → Int
  | .val v => v
  | .op o a b => o.apply a.value b.value

/-- The value on a machine with `w` bits. -/
def eval (w : Nat) : IntExpr → Int
  | .val v => v.bmod (2 ^ w)
  | .op o a b => (o.apply (a.eval w) (b.eval w)).bmod (2 ^ w)

/-- The expression and all expressions in it. -/
def subexprs : IntExpr → List IntExpr
  | .val v => [.val v]
  | .op o a b => .op o a b :: (a.subexprs ++ b.subexprs)

/-- Nothing in the expression wraps. -/
def Exact (w : Nat) (e : IntExpr) : Prop := ∀ s ∈ e.subexprs, s.eval w = s.value

/-- A signed number of `w` bits. -/
def InRange (w : Nat) (x : Int) : Prop := -2 ^ w ≤ x * 2 ∧ x * 2 < 2 ^ w

theorem mem_subexprs_self (e : IntExpr) : e ∈ e.subexprs := by
  cases e <;> simp [subexprs]

/-- Wrapping to a signed number of so many bits keeps a number exactly if it is in their
range. -/
theorem bmod_eq_self_iff (w : Nat) (x : Int) : x.bmod (2 ^ w) = x ↔ InRange w x := by
  have hPos : 0 < 2 ^ w := Nat.two_pow_pos w
  have hCast : ((2 ^ w : Nat) : Int) = 2 ^ w := by push_cast; rfl
  constructor
  · intro h
    have hLow := Int.le_bmod (x := x) hPos
    have hHigh := Int.bmod_lt (x := x) hPos
    rw [h, hCast] at hLow hHigh
    rw [InRange]
    omega
  · intro h
    apply Int.bmod_eq_of_le_mul_two
    · rw [hCast]
      exact h.1
    · rw [hCast]
      exact h.2

variable {w : Nat} {a b e : IntExpr} {o : Op}

/-- An expression in which nothing wraps has the same value on the machine as among the
integers. -/
theorem Exact.eval_eq (h : e.Exact w) : e.eval w = e.value := h e e.mem_subexprs_self

/-- An operation is exact when its operands are and its mathematical result is in
range. -/
theorem exact_op : (IntExpr.op o a b).Exact w ↔
    a.Exact w ∧ b.Exact w ∧ InRange w (IntExpr.op o a b).value := by
  simp only [Exact, subexprs, List.mem_cons, List.mem_append, or_imp, forall_and, forall_eq]
  constructor
  · rintro ⟨hSelf, hA, hB⟩
    refine ⟨hA, hB, ?_⟩
    rw [← bmod_eq_self_iff]
    rw [eval, hA a a.mem_subexprs_self, hB b b.mem_subexprs_self] at hSelf
    exact hSelf
  · rintro ⟨hA, hB, hRange⟩
    refine ⟨?_, hA, hB⟩
    rw [eval, hA a a.mem_subexprs_self, hB b b.mem_subexprs_self]
    exact (bmod_eq_self_iff w _).mpr hRange

theorem exact_val {v : Int} : (IntExpr.val v).Exact w ↔ InRange w v := by
  simp [Exact, subexprs, eval, value, bmod_eq_self_iff]

/-- Exact, with a natural number for a value. -/
def Yields (w : Nat) (e : IntExpr) (x : Nat) : Prop := e.Exact w ∧ e.value = x

/-- Natural numbers in the range. -/
def NatInRange (w x : Nat) : Prop := x * 2 < 2 ^ w

/-- A natural number is in the signed range when it is below half of the unsigned one. -/
theorem inRange_natCast {x : Nat} : InRange w (x : Int) ↔ NatInRange w x := by
  have hCast : ((2 ^ w : Nat) : Int) = 2 ^ w := by push_cast; rfl
  rw [InRange, NatInRange, ← hCast]
  omega

/-- What an expression yields is in range, because its own operation is exact. -/
theorem Yields.inRange {x : Nat} (h : Yields w e x) : NatInRange w x := by
  have hExact := h.1
  rw [← inRange_natCast, ← h.2]
  cases e with
  | val v => exact exact_val.mp hExact
  | op o a b => exact (exact_op.mp hExact).2.2

/-- Everything below a number in range is in range, since natural numbers are. -/
theorem NatInRange.mono {x y : Nat} (h : NatInRange w y) (hLe : x ≤ y) : NatInRange w x := by
  rw [NatInRange] at *
  omega

theorem yields_val {x : Nat} (h : NatInRange w x) : Yields w (x : IntExpr) x :=
  ⟨exact_val.mpr (inRange_natCast.mpr h), rfl⟩

section Operations

variable {x y : Nat}

/-- An operation whose mathematical result is a natural number in range. The rules for the
single operations are cases of this one. -/
theorem Yields.op (ha : Yields w a x) (hb : Yields w b y) {z : Nat} (hz : o.apply x y = z)
    (h : NatInRange w z) : Yields w (.op o a b) z := by
  have hValue : (IntExpr.op o a b).value = z := by rw [value, ha.2, hb.2, hz]
  exact ⟨exact_op.mpr ⟨ha.1, hb.1, hValue ▸ inRange_natCast.mpr h⟩, hValue⟩

theorem Yields.add (ha : Yields w a x) (hb : Yields w b y) (h : NatInRange w (x + y)) :
    Yields w (a + b) (x + y) := Yields.op (o := .add) ha hb (Nat.cast_add x y).symm h

theorem Yields.mul (ha : Yields w a x) (hb : Yields w b y) (h : NatInRange w (x * y)) :
    Yields w (a * b) (x * y) := Yields.op (o := .mul) ha hb (Nat.cast_mul x y).symm h

/-- A difference that is not negative is in range without a condition of its own. -/
theorem Yields.sub (ha : Yields w a x) (hb : Yields w b y) (h : y ≤ x) : Yields w (a - b) (x - y) :=
  Yields.op (o := .sub) ha hb (Nat.cast_sub h).symm (ha.inRange.mono (Nat.sub_le x y))

/-- A quotient is no larger than what is divided, so that it is in range with it. -/
theorem Yields.div (ha : Yields w a x) (hb : Yields w b y) : Yields w (a / b) (x / y) :=
  Yields.op (o := .div) ha hb (Int.ofNat_tdiv x y).symm (ha.inRange.mono (Nat.div_le_self x y))

/-- A remainder is no larger than what is divided, so that it is in range with it. -/
theorem Yields.mod (ha : Yields w a x) (hb : Yields w b y) : Yields w (a % b) (x % y) :=
  Yields.op (o := .mod) ha hb (Int.ofNat_tmod x y).symm (ha.inRange.mono (Nat.mod_le x y))

end Operations

end IntExpr

end MachineInt
