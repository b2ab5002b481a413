import Mathlib.Algebra.BigOperators.Group.Finset.Basic
import Mathlib.Algebra.BigOperators.Intervals

/-! Counted reduction loops. A loop `x = e; for i < n: x = op(x, f(i))` is one
structural recursion; the laws below regroup and reorder such loops when the
operation is associative and commutative. Nothing here is about a program. -/
namespace Reduction

variable {α : Type*}

/-- The value left in the accumulator after `n` rounds. -/
def reduce (op : α → α → α) (e : α) : Nat → (Nat → α) → α
  | 0, _ => e
  | n + 1, f => op (reduce op e n f) (f n)

@[simp] theorem reduce_zero (op : α → α → α) (e : α) (f : Nat → α) : reduce op e 0 f = e := rfl

theorem reduce_succ (op : α → α → α) (e : α) (n : Nat) (f : Nat → α) :
    reduce op e (n + 1) f = op (reduce op e n f) (f n) := rfl

/-- Only the first `n` summands are read, so that two loops over functions that agree
there agree. -/
theorem reduce_congr {op : α → α → α} {e : α} {n : Nat} {f g : Nat → α}
    (h : ∀ i < n, f i = g i) : reduce op e n f = reduce op e n g := by
  induction n with
  | zero => rfl
  | succ n ih =>
      rw [reduce_succ, reduce_succ, ih (fun i hi => h i (by omega)), h n (by omega)]

section Monoid

variable {op : α → α → α} {e : α} [hAssoc : Std.Associative op] [hId : Std.LawfulIdentity op e]

/-- Two consecutive loops over one accumulator are two loops with an accumulator each,
joined at the end. -/
theorem reduce_add (n m : Nat) (f : Nat → α) :
    reduce op e (n + m) f = op (reduce op e n f) (reduce op e m (fun i => f (n + i))) := by
  induction m with
  | zero => exact (hId.right_id _).symm
  | succ m ih => rw [← Nat.add_assoc, reduce_succ, ih, reduce_succ, hAssoc.assoc]

/-- A flat loop over `a * b` rounds is a nested one, the inner index moving first and with
an accumulator of its own. -/
theorem reduce_mul (a b : Nat) (f : Nat → α) :
    reduce op e (a * b) f = reduce op e a (fun i => reduce op e b (fun j => f (i * b + j))) := by
  induction a with
  | zero => simp
  | succ a ih => rw [Nat.succ_mul, reduce_add, ih, reduce_succ]

omit hAssoc in
/-- A loop over the unit does nothing. -/
theorem reduce_const (n : Nat) : reduce op e n (fun _ => e) = e := by
  induction n with
  | zero => rfl
  | succ n ih => rw [reduce_succ, ih, hId.right_id]

end Monoid

section CommMonoid

variable {op : α → α → α} {e : α} [hAssoc : Std.Associative op] [hComm : Std.Commutative op]
  [hId : Std.LawfulIdentity op e]

omit hId in
theorem op_op_op_comm (a b c d : α) : op (op a b) (op c d) = op (op a c) (op b d) := by
  rw [hAssoc.assoc, ← hAssoc.assoc b c d, hComm.comm b c, hAssoc.assoc c b d, ← hAssoc.assoc a c]

/-- Two accumulators fused into one loop. Each round takes one summand of either, in place
of one loop after the other. -/
theorem reduce_op (n : Nat) (f g : Nat → α) :
    reduce op e n (fun i => op (f i) (g i)) = op (reduce op e n f) (reduce op e n g) := by
  induction n with
  | zero => exact (hId.right_id e).symm
  | succ n ih =>
      rw [reduce_succ, ih, reduce_succ, reduce_succ]
      exact op_op_op_comm _ _ _ _

omit hAssoc hComm in
theorem reduce_pair (f : Nat → α) : reduce op e 2 f = op (f 0) (f 1) := by
  rw [reduce_succ, reduce_succ, reduce_zero, hId.left_id]

/-- Halving a loop: each round takes one element from either half, as a reduction tree
does in its first step. -/
theorem reduce_halves (h : Nat) (f : Nat → α) :
    reduce op e (h + h) f = reduce op e h (fun i => op (f i) (f (h + i))) := by
  rw [reduce_add, reduce_op]

/-- Interchange of two nested loops, for an operation that is associative and
commutative. -/
theorem reduce_comm (a b : Nat) (f : Nat → Nat → α) :
    reduce op e a (fun i => reduce op e b (fun j => f i j)) =
      reduce op e b (fun j => reduce op e a (fun i => f i j)) := by
  induction a with
  | zero => simp [reduce_const]
  | succ a ih => simp only [reduce_succ, ih, reduce_op]

end CommMonoid

/-- The additive loop, `x += f(i)`. -/
def accumulate [Zero α] [Add α] (n : Nat) (f : Nat → α) : α := reduce (· + ·) 0 n f

theorem accumulate_succ [Zero α] [Add α] (n : Nat) (f : Nat → α) :
    accumulate (n + 1) f = accumulate n f + f n := rfl

theorem accumulate_congr [Zero α] [Add α] {n : Nat} {f g : Nat → α}
    (h : ∀ i < n, f i = g i) : accumulate n f = accumulate n g := reduce_congr h

/-- The loop is the sum of the library, where addition is commutative. Below that it also
says in which order the machine adds. -/
theorem accumulate_eq_sum [AddCommMonoid α] (n : Nat) (f : Nat → α) :
    accumulate n f = ∑ i ∈ Finset.range n, f i := by
  induction n with
  | zero => rfl
  | succ n ih => rw [accumulate_succ, ih, Finset.sum_range_succ]

/-- A loop can be cut, and the second part started from zero. -/
theorem accumulate_add [AddCommMonoid α] (n m : Nat) (f : Nat → α) :
    accumulate (n + m) f = accumulate n f + accumulate m (fun i => f (n + i)) := by
  simp only [accumulate_eq_sum, Finset.sum_range_add]

/-- A map that respects zero and addition passes through the loop, such as a cast to a
narrower type. -/
theorem map_accumulate {β : Type*} [Zero α] [Add α] [Zero β] [Add β] (φ : α → β)
    (hZero : φ 0 = 0) (hAdd : ∀ x y, φ (x + y) = φ x + φ y) (n : Nat) (f : Nat → α) :
    φ (accumulate n f) = accumulate n (fun i => φ (f i)) := by
  induction n with
  | zero => exact hZero
  | succ n ih => rw [accumulate_succ, hAdd, ih, accumulate_succ]

end Reduction
