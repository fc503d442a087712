import Mathlib.Tactic

/-!
# Tallies over threads

A weight counts the threads at given points of their programs.
-/

namespace Voxlib.Tally
open Finset

variable {T α : Type*} [Fintype T]

def tally (g : α → ℕ) (pc : T → α) : ℕ := ∑ t, g (pc t)

variable (g : α → ℕ) (pc : T → α)

theorem tally_update [DecidableEq T] (t : T) (a : α) :
    tally g (Function.update pc t a) + g (pc t) = tally g pc + g a := by
  have hother : ∑ x ∈ univ.erase t, g (Function.update pc t a x) = ∑ x ∈ univ.erase t, g (pc x) := by
    apply sum_congr rfl
    intro x hx
    rw [Function.update_of_ne (ne_of_mem_erase hx)]
  have hnew := sum_erase_add univ (fun x => g (Function.update pc t a x)) (mem_univ t)
  have hold := sum_erase_add univ (fun x => g (pc x)) (mem_univ t)
  rw [Function.update_self] at hnew
  unfold tally
  omega

theorem le_tally (t : T) : g (pc t) ≤ tally g pc :=
  single_le_sum (f := fun x => g (pc x)) (fun _ _ => Nat.zero_le _) (mem_univ t)

theorem tally_mono {g h : α → ℕ} (hle : ∀ a, g a ≤ h a) : tally g pc ≤ tally h pc :=
  sum_le_sum fun t _ => hle (pc t)

theorem tally_eq_zero : tally g pc = 0 ↔ ∀ t, g (pc t) = 0 := by
  unfold tally
  rw [sum_eq_zero_iff]
  exact ⟨fun h t => h t (mem_univ t), fun h t _ => h t⟩

end Voxlib.Tally
