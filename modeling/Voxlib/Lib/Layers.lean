import Mathlib.Data.Nat.Notation
import Mathlib.Logic.Relation

/-!
# Runs in layers

A run stays on a layer or moves to the next one.
-/

namespace Voxlib.Layers

variable {σ : Type*} {stay move : ℕ → σ → σ → Prop}

/-- From a state on a layer to a state on another one. -/
inductive Run (stay move : ℕ → σ → σ → Prop) (s : σ) (i : ℕ) : σ → ℕ → Prop
  | refl : Run stay move s i s i
  | stay {q r : σ} {p : ℕ} : Run stay move s i q p → stay p q r → Run stay move s i r p
  | move {q r : σ} {p : ℕ} : Run stay move s i q p → move p q r → Run stay move s i r (p + 1)

variable {s q r t : σ} {i p j : ℕ}

theorem Run.le (h : Run stay move s i q p) : i ≤ p := by
  induction h with
  | refl => exact Nat.le_refl i
  | stay _ _ ih => exact ih
  | move _ _ ih => exact Nat.le_succ_of_le ih

theorem Run.trans (h : Run stay move s i q p) (h' : Run stay move q p t j) :
    Run stay move s i t j := by
  induction h' with
  | refl => exact h
  | stay _ hstep ih => exact ih.stay hstep
  | move _ hstep ih => exact ih.move hstep

theorem Run.of_reach (h : Relation.ReflTransGen (stay i) s q) : Run stay move s i q i := by
  induction h with
  | refl => exact .refl
  | tail _ hstep ih => exact ih.stay hstep

theorem run_same : Run stay move s i q i ↔ Relation.ReflTransGen (stay i) s q := by
  constructor
  · have hstayed {p : ℕ} (h : Run stay move s i q p) (hp : p = i) :
        Relation.ReflTransGen (stay i) s q := by
      induction h with
      | refl => exact .refl
      | stay _ hstep ih => exact (ih hp).tail (hp ▸ hstep)
      | move h _ _ =>
        have hle := h.le
        omega
    exact fun h => hstayed h rfl
  · exact Run.of_reach

theorem run_succ (hp : i ≤ p) : Run stay move s i q (p + 1) ↔
    ∃ r t, Run stay move s i r p ∧ move p r t ∧ Relation.ReflTransGen (stay (p + 1)) t q := by
  constructor
  · have hlast {j : ℕ} (h : Run stay move s i q j) (hj : j = p + 1) :
        ∃ r t, Run stay move s i r p ∧ move p r t ∧
          Relation.ReflTransGen (stay (p + 1)) t q := by
      induction h with
      | refl => omega
      | stay _ hstep ih =>
        obtain ⟨r, t, hrun, hmove, hreach⟩ := ih hj
        exact ⟨r, t, hrun, hmove, hreach.tail (hj ▸ hstep)⟩
      | move h hstep _ =>
        obtain rfl := Nat.succ.inj hj
        exact ⟨_, _, h, hstep, .refl⟩
    exact fun h => hlast h rfl
  · rintro ⟨r, t, hrun, hmove, hreach⟩
    exact (hrun.move hmove).trans (.of_reach hreach)

theorem Run.moved (h : Run stay move s i q j) (hp : i ≤ p) (hj : p < j) :
    ∃ r t, Run stay move s i r p ∧ move p r t := by
  induction h with
  | refl => omega
  | stay _ _ ih => exact ih hj
  | @move r t k h hstep ih =>
    by_cases hlast : p = k
    · subst hlast
      exact ⟨r, t, h, hstep⟩
    · exact ih (by omega)

end Voxlib.Layers
