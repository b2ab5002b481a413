import Mathlib.Algebra.Order.BigOperators.Group.Multiset
import Mathlib.Algebra.Order.Group.Multiset
import Mathlib.Algebra.Order.Sub.Basic
import Mathlib.Data.Multiset.OrderedMonoid

/-! Accounts of resources. Every live resource is held by one owner, or lost: held by
none, and out of reach of any release. -/
namespace Ownership

variable {ρ ω : Type*} (held : ω → Multiset ρ)

/-- All that the owners hold. -/
def holdings (owners : List ω) : Multiset ρ := (owners.map held).sum

/-- The live resources are those held and those lost. -/
def Balanced (owners : List ω) (lost live : Multiset ρ) : Prop := live = holdings held owners + lost

variable {held} {owners before after : List ω} {o : ω} {got lost live : Multiset ρ}

/-- Before anything is acquired, nothing is held, lost or live. -/
theorem balanced_nil : Balanced held [] 0 0 := by
  simp [Balanced, holdings]

theorem holdings_cons : holdings held (o :: owners) = held o + holdings held owners := by
  simp [holdings]

/-- What one owner holds can be counted apart from what the others hold, wherever it
stands among them. -/
theorem holdings_middle : holdings held (before ++ o :: after) = held o + holdings held (before ++ after) := by
  simp only [holdings, List.map_append, List.map_cons, List.sum_append, List.sum_cons]
  rw [add_left_comm]

/-- A new owner comes with all it holds, which has just become live. -/
theorem Balanced.acquire (h : Balanced held owners lost live) :
    Balanced held (o :: owners) lost (held o + live) := by
  rw [Balanced] at *
  rw [h, holdings_cons, add_assoc]

/-- The new owner may stand anywhere among the others, since what is held does not depend
on their order. -/
theorem Balanced.insert (h : Balanced held (before ++ after) lost live) :
    Balanced held (before ++ o :: after) lost (held o + live) := by
  rw [Balanced] at *
  rw [h, holdings_middle, add_assoc]

/-- Resources that no owner takes become live and are lost at once. No release can reach
them later. -/
theorem Balanced.lose (h : Balanced held owners lost live) : Balanced held owners (got + lost) (got + live) := by
  rw [Balanced] at *
  rw [h, add_left_comm]

/-- An owner goes, with all it holds. What the others hold stays live, also where it is
the same resource. -/
theorem Balanced.release [DecidableEq ρ] (h : Balanced held (before ++ o :: after) lost live) :
    Balanced held (before ++ after) lost (live - held o) := by
  rw [Balanced] at *
  rw [h, holdings_middle, add_assoc, add_tsub_cancel_left]

/-- Owners hold what is theirs alone, so what each of them always holds tells them apart:
no two owners have the same key. -/
theorem Balanced.nodup_map {κ : Type*} (h : Balanced held owners lost live) (hLive : live.Nodup) (key : ω → κ)
    (mark : κ → ρ) (hMark : ∀ o, mark (key o) ∈ held o) : (owners.map key).Nodup := by
  have hOwned : (holdings held owners).Nodup := by
    rw [h] at hLive
    exact (Multiset.nodup_add.mp hLive).1
  clear h
  induction owners with
  | nil => exact List.nodup_nil
  | cons o owners ih =>
      rw [holdings_cons, Multiset.nodup_add] at hOwned
      obtain ⟨-, hRest, hDisjoint⟩ := hOwned
      rw [List.map_cons, List.nodup_cons]
      refine ⟨fun hMem => ?_, ih hRest⟩
      obtain ⟨o', hOwner, hSame⟩ := List.mem_map.mp hMem
      have hHeld : mark (key o) ∈ holdings held owners := by
        rw [← hSame]
        exact Multiset.mem_of_le (List.single_le_sum (fun _ _ => Multiset.zero_le _) _
          (List.mem_map_of_mem hOwner)) (hMark o')
      exact Multiset.disjoint_left.mp hDisjoint (hMark o) hHeld

/-- In place of an owner another one, and the rest of what is live stays. -/
def Exchange (held : ω → Multiset ρ) (o o' : ω) (live live' : Multiset ρ) : Prop :=
  ∃ rest, live = held o + rest ∧ live' = held o' + rest

variable {o' o'' : ω} {live' live'' : Multiset ρ}

/-- Nothing need be exchanged. -/
theorem Exchange.refl (h : held o ≤ live) : Exchange held o o live live := by
  obtain ⟨rest, hRest⟩ := Multiset.le_iff_exists_add.mp h
  exact ⟨rest, hRest, hRest⟩

/-- One exchange after the other is an exchange. What is released in the second may have
been acquired in the first. -/
theorem Exchange.trans (h : Exchange held o o' live live') (h' : Exchange held o' o'' live' live'') :
    Exchange held o o'' live live'' := by
  obtain ⟨rest, hLive, hMiddle⟩ := h
  obtain ⟨rest', hMiddle', hLive'⟩ := h'
  have hSame : rest = rest' := add_left_cancel (hMiddle.symm.trans hMiddle')
  exact ⟨rest, hLive, hSame ▸ hLive'⟩

/-- What an owner holds is live, so that releasing it releases nothing twice. -/
theorem Balanced.held_le (h : Balanced held (before ++ o :: after) lost live) : held o ≤ live := by
  rw [Balanced, holdings_middle, add_assoc] at h
  exact h ▸ Multiset.le_add_right _ _

/-- An owner that exchanges what it holds for something else keeps the account of all
owners balanced. -/
theorem Balanced.exchange (h : Balanced held (before ++ o :: after) lost live)
    (hExchange : Exchange held o o' live live') : Balanced held (before ++ o' :: after) lost live' := by
  obtain ⟨rest, hLive, hLive'⟩ := hExchange
  rw [Balanced, holdings_middle, add_assoc] at *
  rw [hLive', ← add_left_cancel (hLive.symm.trans h)]

/-- Exactly what is held is live when nothing was lost. The account alone does not say
that nothing was. -/
theorem Balanced.exact_iff (h : Balanced held owners lost live) : live = holdings held owners ↔ lost = 0 := by
  rw [h, add_eq_left]

end Ownership
