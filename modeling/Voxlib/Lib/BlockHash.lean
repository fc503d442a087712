import Mathlib.Tactic

/-!
# Hashes over blocks

A compression function folds complete blocks into a state; the rest is pending and goes in front
of the next piece.
-/

namespace Voxlib.BlockHash
open List

variable {σ α : Type*}

def absorb (compress : σ → List α → σ) (b : ℕ) (s : σ) (m : List α) : σ :=
  if 0 < b ∧ b ≤ m.length then absorb compress b (compress s (m.take b)) (m.drop b) else s
termination_by m.length
decreasing_by
  simp only [length_drop]
  omega

def pending (b : ℕ) (m : List α) : List α := m.drop (b * (m.length / b))

variable (compress : σ → List α → σ) {b : ℕ}

variable {m : List α}

theorem absorb_short (s : σ) (h : m.length < b) : absorb compress b s m = s := by
  rw [absorb, if_neg (by omega)]

theorem absorb_block (hb : 0 < b) (s : σ) (h : b ≤ m.length) :
    absorb compress b s m = absorb compress b (compress s (m.take b)) (m.drop b) := by
  rw [absorb, if_pos ⟨hb, h⟩]

theorem pending_short (h : m.length < b) : pending b m = m := by
  rw [pending, Nat.div_eq_of_lt h, Nat.mul_zero, drop_zero]

theorem pending_block (hb : 0 < b) (h : b ≤ m.length) : pending b m = pending b (m.drop b) := by
  have hdiv : m.length / b = (m.length - b) / b + 1 := by
    rw [← Nat.add_div_right (m.length - b) hb, Nat.sub_add_cancel h]
  rw [pending, pending, length_drop, drop_drop, hdiv, Nat.mul_add, Nat.mul_one,
    Nat.add_comm]

theorem pending_length (m : List α) : (pending b m).length = m.length % b := by
  rw [pending, length_drop]
  have hmod := Nat.mod_add_div m.length b
  omega

/-- A piece behind a message goes behind what the message left pending. -/
theorem absorb_append (hb : 0 < b) (s : σ) (m p : List α) : absorb compress b s (m ++ p) =
      absorb compress b (absorb compress b s m) (pending b m ++ p) := by
  induction hn : m.length using Nat.strong_induction_on generalizing s m with
  | _ n ih =>
    by_cases h : m.length < b
    · rw [absorb_short compress s h, pending_short h]
    · have hle : b ≤ m.length := Nat.not_lt.mp h
      have hlong : b ≤ (m ++ p).length := by
        rw [length_append]
        omega
      rw [absorb_block compress hb s hlong, absorb_block compress hb s hle, pending_block hb hle,
        take_append_of_le_length hle, drop_append_of_le_length hle]
      refine ih (m.drop b).length ?_ _ _ rfl
      rw [length_drop]
      omega

theorem pending_append (hb : 0 < b) (m p : List α) :
    pending b (m ++ p) = pending b (pending b m ++ p) := by
  induction hn : m.length using Nat.strong_induction_on generalizing m with
  | _ n ih =>
    by_cases h : m.length < b
    · rw [pending_short h]
    · have hle : b ≤ m.length := Nat.not_lt.mp h
      have hlong : b ≤ (m ++ p).length := by
        rw [length_append]
        omega
      rw [pending_block hb hlong, pending_block hb hle, drop_append_of_le_length hle]
      refine ih (m.drop b).length ?_ _ rfl
      rw [length_drop]
      omega

theorem absorb_eq_foldl (hb : 0 < b) (s : σ) (m : List α) : absorb compress b s m =
      (List.range (m.length / b)).foldl (fun s i => compress s ((m.drop (b * i)).take b)) s := by
  induction hn : m.length / b generalizing s m with
  | zero =>
    have hshort : m.length < b := (Nat.div_eq_zero_iff_lt hb).mp hn
    exact absorb_short compress s hshort
  | succ n ih =>
    have hle : b ≤ m.length := by
      refine Nat.not_lt.mp fun h => ?_
      rw [Nat.div_eq_of_lt h] at hn
      omega
    have hrest : (m.drop b).length / b = n := by
      have hsplit := Nat.add_div_right (m.length - b) hb
      rw [Nat.sub_add_cancel hle, hn] at hsplit
      rw [length_drop]
      omega
    have hdrop (i : ℕ) : (m.drop b).drop (b * i) = m.drop (b * (i + 1)) := by
      rw [drop_drop, Nat.mul_add, Nat.mul_one, Nat.add_comm]
    rw [absorb_block compress hb s hle, ih _ _ hrest, range_succ_eq_map, foldl_cons,
      foldl_map, Nat.mul_zero, drop_zero]
    simp only [hdrop, Nat.succ_eq_add_one]

end Voxlib.BlockHash
