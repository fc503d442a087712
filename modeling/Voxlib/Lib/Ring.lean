import Mathlib.Tactic

/-!
# Rings

Item `i` of a row in an array of `c` slots is in slot `(p + i) % c`.
-/

namespace Voxlib.Ring

variable {E : Type*}

/-- The items are in the slots from position `p` on. -/
def Holds (get : ℕ → Option E) (c p : ℕ) (items : List E) : Prop :=
  ∀ i x, items[i]? = some x → get ((p + i) % c) = some x

theorem slot_inj {c p i j : ℕ} (hi : i < c) (hj : j < c) (h : (p + i) % c = (p + j) % c) :
    i = j := by
  have hmod : i ≡ j [MOD c] := Nat.ModEq.add_left_cancel' p h
  have heq : i % c = j % c := hmod
  rwa [Nat.mod_eq_of_lt hi, Nat.mod_eq_of_lt hj] at heq

variable {get : ℕ → Option E} {c p : ℕ} {items : List E}

theorem holds_nil : Holds get c p [] := by
  intro i x h
  cases h

theorem holds_mod : Holds get c (p % c) items ↔ Holds get c p items := by
  unfold Holds
  simp only [Nat.mod_add_mod]

theorem Holds.head {x : E} (h : Holds get c p (x :: items)) : get (p % c) = some x :=
  h 0 x rfl

theorem Holds.tail {x : E} (h : Holds get c p (x :: items)) : Holds get c (p + 1) items := by
  intro i y hy
  have hslot := h (i + 1) y hy
  rwa [show p + (i + 1) = p + 1 + i by omega] at hslot

theorem Holds.write (h : Holds get c p items) (hroom : items.length < c) (v : Option E) :
    Holds (Function.update get ((p + items.length) % c) v) c p items := by
  intro i x hx
  have hi : i < items.length := (List.getElem?_eq_some_iff.mp hx).1
  rw [Function.update_of_ne, h i x hx]
  intro heq
  have := slot_inj (hi.trans hroom) hroom heq
  omega

theorem Holds.snoc {x : E} (h : Holds get c p items)
    (hx : get ((p + items.length) % c) = some x) : Holds get c p (items ++ [x]) := by
  intro i y hy
  by_cases hi : i < items.length
  · rw [List.getElem?_append_left hi] at hy
    exact h i y hy
  · rw [List.getElem?_append_right (by omega)] at hy
    obtain ⟨hlt, hxy⟩ := List.getElem?_eq_some_iff.mp hy
    have heq : i = items.length := by
      simp only [List.length_singleton] at hlt
      omega
    subst heq
    simp only [Nat.sub_self, List.getElem_singleton] at hxy
    rw [hx, hxy]

theorem Holds.push (h : Holds get c p items) (hroom : items.length < c) (x : E) :
    Holds (Function.update get ((p + items.length) % c) (some x)) c p (items ++ [x]) :=
  (h.write hroom (some x)).snoc (Function.update_self _ _ _)

end Voxlib.Ring
