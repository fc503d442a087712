import Mathlib.Tactic

/-!
# Things counted in the lists that hold them

What is conserved when things move between lists is how often each stands in all of them.
-/

namespace Voxlib.Places

variable {α : Type*} [DecidableEq α]

theorem count_erase_add {l : List α} {a : α} (h : a ∈ l) (x : α) :
    l.count x = (l.erase a).count x + if a = x then 1 else 0 := by
  have hperm := (List.perm_cons_erase h).count_eq x
  rw [List.count_cons] at hperm
  simpa using hperm

theorem length_le_of_counts {l m : List α} (hone : ∀ c, l.count c ≤ 1) (hsub : l ⊆ m) :
    l.length ≤ m.length :=
  (List.subperm_of_subset (List.nodup_iff_count_le_one.mpr hone) hsub).length_le

end Voxlib.Places
