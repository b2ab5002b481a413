import Mathlib.Tactic.SplitIfs

/-! A slot for the value of one key. Its content is overwritten in place, and a fill
that fails can leave anything there, under the key of the fill before it. -/
namespace KeyedSlot

structure Slot (κ α : Type*) where
  key : Option κ
  content : α
  /-- What the last fill that succeeded left. -/
  filled : α

inductive Fill (α : Type*) where
  | done
  | failed (left : α)

variable {κ α : Type*} [DecidableEq κ] {derive : κ → α} {s : Slot κ α} {k : κ} {fill : Fill α}

/-- Whether the user of `k` goes on, and the slot it goes on with. -/
def access (derive : κ → α) (s : Slot κ α) (k : κ) (fill : Fill α) : Bool × Slot κ α :=
  if s.key = some k then (true, s)
  else
    match fill with
    | .done => (true, ⟨some k, derive k, derive k⟩)
    | .failed left => (false, { s with content := left })

/-- The key tells what the last fill has left. -/
def Sound (derive : κ → α) (s : Slot κ α) : Prop := ∀ k, s.key = some k → s.filled = derive k

/-- The key of the user before: nothing is filled, and the content is used as it is. -/
theorem access_hit (h : s.key = some k) : access derive s k fill = (true, s) := if_pos h

/-- Another key, and a fill that succeeds: the slot holds what it is to hold, and its key
is the new one. -/
theorem access_done (h : s.key ≠ some k) : access derive s k .done = (true, ⟨some k, derive k, derive k⟩) :=
  if_neg h

/-- Another key, and a fill that fails: the user does not go on, and the key stays as it
was, with whatever content the fill has left. -/
theorem access_failed (h : s.key ≠ some k) {left : α} :
    access derive s k (.failed left) = (false, { s with content := left }) := if_neg h

/-- Every access keeps the key true to what the last fill left, since a fill that fails
does not touch the key. It need not be true of the content any more. -/
theorem access_sound (h : Sound derive s) (k : κ) (fill : Fill α) : Sound derive (access derive s k fill).2 := by
  by_cases hKey : s.key = some k
  · rwa [access_hit hKey]
  · cases fill with
    | done =>
        rw [access_done hKey]
        intro k' hk'
        cases hk'
        rfl
    | failed left =>
        rw [access_failed hKey]
        exact h

/-- What the user of a key finds is right unless failed fills have changed it since. The
condition is on the slot before the access, and only for its own key. -/
theorem serves_iff (h : Sound derive s) (k : κ) (fill : Fill α) :
    ((access derive s k fill).1 = true → (access derive s k fill).2.content = derive k) ↔
      (s.key = some k → s.content = s.filled) := by
  by_cases hKey : s.key = some k
  · rw [access_hit hKey, h k hKey]
    simp [hKey]
  · cases fill with
    | done => simp [access_done hKey, hKey]
    | failed left => simp [access_failed hKey, hKey]

end KeyedSlot
