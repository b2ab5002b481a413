import PrlMiner.Library.LittleEndian

/-! The part of Python and NumPy the reference is written in: two-dimensional
arrays, dtype casts, integer matrix products, floor division and ranges. -/
namespace Reference

open FixedWidth LittleEndian Reduction

/-- Exceptions, by class, with the text where the source gives one. -/
inductive PyError where
  | valueError (text : String)
  | zeroDivisionError
  | assertionError
  deriving DecidableEq, Repr

/-- A two-dimensional array by row and column. The shape travels separately,
as `m`, `k`, `n` do in the source. -/
abbrev Mat (α : Type) := Nat → Nat → α

/-- `a.astype(np.int64)` of each entry. -/
def i64 {w : Nat} (a : Mat (BitVec w)) : Mat I64 := fun i j => (a i j).signExtend 64

/-- `a.astype(...)` to an integer type no wider than the one it has. -/
def narrow {w : Nat} (v : Nat) (a : Mat (BitVec w)) : Mat (BitVec v) := fun i j => (a i j).setWidth v

/-- `x @ y` over int64 with `k` columns on the left. -/
def matmul (k : Nat) (x y : Mat I64) : Mat I64 := fun i j => accumulate k (fun c => x i c * y c j)

/-- `x // y` on Python integers. -/
def floorDiv (x y : Int) : Except PyError Int :=
  if y = 0 then .error .zeroDivisionError else .ok (x.fdiv y)

/-- The values of `range(0, stop, step)`. -/
def range (stop : Nat) (step : Int) : Except PyError (List Nat) :=
  if step = 0 then .error (.valueError "range() arg 3 must not be zero")
  else if step < 0 then .ok []
  else .ok ((List.range ((stop + step.toNat - 1) / step.toNat)).map (· * step.toNat))

/-- A loop none of whose rounds raises. -/
theorem foldlM_ok {σ α : Type} {body : σ → α → Except PyError σ} {pure : σ → α → σ} {l : List α}
    (h : ∀ s, ∀ x ∈ l, body s x = .ok (pure s x)) (s : σ) :
    l.foldlM body s = .ok (l.foldl pure s) := by
  induction l generalizing s with
  | nil => rfl
  | cons x l ih =>
      rw [List.foldlM_cons, h s x (by simp), List.foldl_cons]
      exact ih (fun s y hy => h s y (by simp [hy])) (pure s x)

theorem range_of_pos {stop : Nat} {step : Int} (h : 0 < step.toNat) :
    range stop step =
      .ok ((List.range ((stop + step.toNat - 1) / step.toNat)).map (· * step.toNat)) := by
  rw [range, if_neg (by omega), if_neg (by omega)]

theorem floorDiv_of_ne_zero {x y : Int} (h : y ≠ 0) : floorDiv x y = .ok (x.fdiv y) := if_neg h

/-- Both entries of `x @ y` cast to a type no wider than int64 are the product
over that type. -/
theorem narrow_matmul {u w v : Nat} (h : v ≤ 64) (k : Nat) (x : Mat (BitVec u)) (y : Mat (BitVec w))
    (i j : Nat) : narrow v (matmul k (i64 x) (i64 y)) i j =
      accumulate k (fun c => (x i c).signExtend v * (y c j).signExtend v) := by
  simp only [narrow, matmul, i64, setWidth_accumulate h]
  apply accumulate_congr
  intro c _
  rw [BitVec.setWidth_mul _ _ h, setWidth_signExtend h, setWidth_signExtend h]

end Reference
