import PrlMiner.Library.Reduction
import Mathlib.Algebra.BigOperators.Ring.Finset
import Mathlib.Tactic

/-! Additive low-rank noise on both factors of a product, and how it comes off
again. The identity holds over every ring, so in particular over each
fixed-width integer type with its wraparound. -/
namespace LowRankNoise

open Reduction

variable {R : Type*}

/-- Associativity of a row, a matrix and a column: the matrix can be multiplied with the
column or with the row first. -/
theorem accumulate_mul_accumulate [Semiring R] (k r : Nat) (x : Nat → R) (y : Nat → Nat → R)
    (z : Nat → R) :
    accumulate k (fun c => x c * accumulate r (fun t => y c t * z t)) =
      accumulate r (fun t => accumulate k (fun c => x c * y c t) * z t) := by
  simp only [accumulate_eq_sum, Finset.mul_sum, Finset.sum_mul, mul_assoc]
  exact Finset.sum_comm

/-- Taking both noise terms off the product of the noised factors leaves the product of
the factors. Nothing is assumed about the noise, and no ring element is divided by. -/
theorem denoise [Ring R] (k r : Nat) (a eal : Nat → R) (ear : Nat → Nat → R) (b : Nat → R)
    (ebl : Nat → Nat → R) (ebr : Nat → R) :
    accumulate k (fun c => (a c + accumulate r (fun t => eal t * ear t c)) *
        (b c + accumulate r (fun t => ebl c t * ebr t))) -
      accumulate r (fun t => accumulate k (fun c => a c * ebl c t) * ebr t) -
      accumulate r (fun t => eal t * accumulate k (fun c => ear t c *
        (b c + accumulate r (fun s => ebl c s * ebr s)))) =
      accumulate k (fun c => a c * b c) := by
  have hSplit : accumulate k (fun c => (a c + accumulate r (fun t => eal t * ear t c)) *
        (b c + accumulate r (fun t => ebl c t * ebr t))) =
      accumulate k (fun c => a c * b c) +
        accumulate k (fun c => a c * accumulate r (fun t => ebl c t * ebr t)) +
        accumulate k (fun c => accumulate r (fun t => eal t * ear t c) *
          (b c + accumulate r (fun t => ebl c t * ebr t))) := by
    simp only [accumulate_eq_sum, ← Finset.sum_add_distrib]
    apply Finset.sum_congr rfl
    intro c _
    rw [add_mul, mul_add]
  rw [hSplit, accumulate_mul_accumulate, ← accumulate_mul_accumulate r k]
  abel

end LowRankNoise
