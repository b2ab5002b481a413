import Mathlib.Data.List.Find
import Mathlib.Data.List.Perm.Basic
import Mathlib.Order.Lattice
import Mathlib.Tactic

/-! First hits. A nest of loops left at the first hit and a minimum taken over the
hits in any order name one element of one enumeration. -/
namespace Search

variable {α β : Type*}

/-- Two nested loops visit the pairs of a flat one, the inner index moving first. -/
theorem flatMap_range_map (a b : Nat) (f : Nat → Nat → α) :
    ((List.range a).flatMap fun i => (List.range b).map fun j => f i j) =
      (List.range (a * b)).map (fun x => f (x / b) (x % b)) := by
  induction a with
  | zero => simp
  | succ a ih =>
      rw [List.range_succ, List.flatMap_append, ih, Nat.succ_mul, List.range_add, List.map_append,
        List.flatMap_singleton, List.map_map]
      congr 1
      apply List.map_congr_left
      intro j hj
      have hLt : j < b := List.mem_range.mp hj
      simp only [Function.comp_apply, Nat.mul_comm a b, Nat.mul_add_div (Nat.zero_lt_of_lt hLt),
        Nat.mul_add_mod, Nat.div_eq_of_lt hLt, Nat.mod_eq_of_lt hLt, Nat.add_zero]

/-- The same around a third loop, whose body sees both indices. -/
theorem flatMap_range_mul (a b : Nat) (f : Nat → Nat → List α) :
    ((List.range a).flatMap fun i => (List.range b).flatMap fun j => f i j) =
      (List.range (a * b)).flatMap fun x => f (x / b) (x % b) := by
  have hPairs := congrArg (List.flatMap fun ij : Nat × Nat => f ij.1 ij.2) (flatMap_range_map a b Prod.mk)
  rw [List.flatMap_assoc, List.flatMap_map] at hPairs
  simp only [List.flatMap_map] at hPairs
  exact hPairs

/-- A loop that adds a part at the end of every `p` steps has added as many parts as it
has ended rounds of so many steps. -/
theorem flatMap_range_every {p q : Nat} (f : Nat → List α) {old new : List α}
    (hOld : old = (List.range (q / p)).flatMap f) (hEnd : (q + 1) % p = 0 → new = old ++ f (q / p))
    (hElse : (q + 1) % p ≠ 0 → new = old) : new = (List.range ((q + 1) / p)).flatMap f := by
  rw [Nat.succ_div]
  by_cases h : p ∣ q + 1
  · rw [if_pos h, hEnd (Nat.mod_eq_zero_of_dvd h), hOld, List.range_succ, List.flatMap_append,
      List.flatMap_singleton]
  · rw [if_neg h, hElse fun hMod => h (Nat.dvd_of_mod_eq_zero hMod), Nat.add_zero, hOld]

/-- The first hit of nested enumerations is the first hit within the first of them that
has one. -/
theorem findSome?_flatMap {γ : Type*} (l : List α) (g : α → List γ) (f : γ → Option β) :
    (l.flatMap g).findSome? f = l.findSome? (fun x => (g x).findSome? f) := by
  induction l with
  | nil => rfl
  | cons x l ih =>
      rw [List.flatMap_cons, List.findSome?_append, ih, List.findSome?_cons]
      cases (g x).findSome? f <;> rfl

/-- Only the elements that are enumerated are searched. -/
theorem findSome?_congr {l : List α} {f g : α → Option β} (h : ∀ x ∈ l, f x = g x) :
    l.findSome? f = l.findSome? g := by
  induction l with
  | nil => rfl
  | cons x l ih =>
      rw [List.findSome?_cons, List.findSome?_cons, h x (by simp), ih (fun y hy => h y (by simp [hy]))]

/-- A hit of the search below `n` comes from the least index that has one: there is none
before it. -/
theorem findSome?_range_some {n : Nat} {f : Nat → Option β} {b : β}
    (h : (List.range n).findSome? f = some b) : ∃ i < n, f i = some b ∧ ∀ j < i, f j = none := by
  induction n with
  | zero => cases h
  | succ n ih =>
      rw [List.range_succ, List.findSome?_append] at h
      cases hBefore : (List.range n).findSome? f with
      | some c =>
          rw [hBefore, Option.some_or] at h
          obtain ⟨i, hi, hHit⟩ := ih (hBefore.trans h)
          exact ⟨i, by omega, hHit⟩
      | none =>
          rw [hBefore, Option.none_or, List.findSome?_singleton] at h
          exact ⟨n, by omega, h, fun j hj => List.findSome?_eq_none_iff.mp hBefore j (by simpa using hj)⟩

/-- Tagging the hits of a Boolean search, which finds the same element. -/
theorem findSome?_ite (l : List α) (p : α → Bool) (f : α → β) :
    l.findSome? (fun x => if p x then some (f x) else none) = (l.find? p).map f := by
  induction l with
  | nil => rfl
  | cons x l ih => cases h : p x <;> simp [h, ih]

/-- The hit found in a sorted enumeration comes before every other hit, so that it is the
least of them. -/
theorem findSome?_sorted {lt : α → α → Prop} {l : List α} (hSorted : l.Pairwise lt) {f : α → Option β}
    {b : β} (h : l.findSome? f = some b) :
    ∃ x ∈ l, f x = some b ∧ ∀ y ∈ l, (f y).isSome → y = x ∨ lt x y := by
  obtain ⟨before, x, after, rfl, hHit, hMiss⟩ := List.findSome?_eq_some_iff.mp h
  obtain ⟨-, hAfter, -⟩ := List.pairwise_append.mp hSorted
  refine ⟨x, by simp, hHit, fun y hy hSome => ?_⟩
  rcases List.mem_append.mp hy with hBefore | hFrom
  · simp [hMiss y hBefore] at hSome
  · rcases List.mem_cons.mp hFrom with hSame | hLater
    · exact Or.inl hSame
    · exact Or.inr (List.rel_of_pairwise_cons hAfter hLater)

/-- An outer loop over a sorted range is sorted if its rounds are, and if each comes
before the next ones. -/
theorem pairwise_flatMap_range {lt : α → α → Prop} {n : Nat} {f : Nat → List α}
    (hRound : ∀ i < n, (f i).Pairwise lt)
    (hRounds : ∀ i < n, ∀ i' < n, i < i' → ∀ x ∈ f i, ∀ y ∈ f i', lt x y) :
    ((List.range n).flatMap f).Pairwise lt := by
  rw [List.pairwise_flatMap]
  refine ⟨fun i hi => hRound i (List.mem_range.mp hi), ?_⟩
  apply List.pairwise_lt_range.imp_of_mem
  intro i i' hi hi' hLt
  exact hRounds i (List.mem_range.mp hi) i' (List.mem_range.mp hi') hLt

/-- Two nested searches are one over flat indices, the inner index moving first. -/
theorem findSome?_range_mul (a b : Nat) (f : Nat → Nat → Option β) :
    ((List.range a).findSome? fun i => (List.range b).findSome? (f i)) =
      (List.range (a * b)).findSome? fun x => f (x / b) (x % b) := by
  have hPairs := congrArg (List.findSome? fun ij : Nat × Nat => f ij.1 ij.2) (flatMap_range_map a b Prod.mk)
  rw [findSome?_flatMap, List.findSome?_map] at hPairs
  simp only [List.findSome?_map] at hPairs
  exact hPairs

/-- A search over flat indices, one row after the other: the first row with a hit, and the
first hit in it. -/
theorem find?_range_mul (a b : Nat) (p : Nat → Nat → Bool) :
    (List.range (a * b)).find? (fun x => p (x / b) (x % b)) =
      (List.range a).findSome? fun i => ((List.range b).find? (p i)).map (i * b + ·) := by
  have hRows : ((List.range a).flatMap fun i => (List.range b).map fun j => i * b + j) =
      List.range (a * b) := by
    rw [flatMap_range_map]
    simp only [Nat.div_add_mod', List.map_id']
  rw [← hRows, List.find?_flatMap]
  apply findSome?_congr
  intro i _
  rw [List.find?_map]
  congr 1
  apply List.find?_congr
  intro j hj
  have hLt : j < b := List.mem_range.mp hj
  simp only [Function.comp_apply, Nat.mul_comm i b, Nat.mul_add_div (Nat.zero_lt_of_lt hLt),
    Nat.mul_add_mod, Nat.div_eq_of_lt hLt, Nat.mod_eq_of_lt hLt, Nat.add_zero]

/-- What is left of `best` after every hit has been offered to it. -/
def leastHit (p : Nat → Bool) (best : Nat) (order : List Nat) : Nat :=
  order.foldl (fun best i => if p i then min best i else best) best

/-- Keeping the least hit does not depend on the order in which the candidates are
visited. -/
theorem leastHit_perm (p : Nat → Bool) (best : Nat) {l₁ l₂ : List Nat} (h : l₁.Perm l₂) :
    leastHit p best l₁ = leastHit p best l₂ := by
  apply h.foldl_eq'
  intro x _ y _ z
  cases p x <;> cases p y <;> simp [min_comm, min_left_comm]

/-- Only the candidates that are visited are tested. -/
theorem leastHit_congr {p q : Nat → Bool} {l : List Nat} (h : ∀ x ∈ l, p x = q x) (best : Nat) :
    leastHit p best l = leastHit q best l := by
  induction l generalizing best with
  | nil => rfl
  | cons x l ih =>
      rw [leastHit, List.foldl_cons, h x (by simp)]
      exact ih (fun y hy => h y (by simp [hy])) _

theorem leastHit_range_succ (p : Nat → Bool) (best n : Nat) :
    leastHit p best (List.range (n + 1)) =
      if p n then min (leastHit p best (List.range n)) n else leastHit p best (List.range n) := by
  rw [leastHit, List.range_succ, List.foldl_append]
  rfl

/-- The least hit below `n` in any visiting order, with a sentinel at or above `n` that
stands for no hit, is the first hit of an ordered search. -/
theorem leastHit_eq_find? (p : Nat → Bool) {n sentinel : Nat} (hSentinel : n ≤ sentinel)
    {order : List Nat} (hOrder : order.Perm (List.range n)) :
    leastHit p sentinel order = ((List.range n).find? p).getD sentinel := by
  rw [leastHit_perm p sentinel hOrder]
  clear hOrder
  induction n with
  | zero => rfl
  | succ n ih =>
      rw [leastHit_range_succ, ih (by omega), List.range_succ, List.find?_append]
      cases hFind : (List.range n).find? p with
      | none => cases hp : p n <;> simp [hp]; omega
      | some i =>
          have hi : i < n := by simpa using List.mem_of_find?_eq_some hFind
          cases hp : p n <;> simp; omega

end Search
