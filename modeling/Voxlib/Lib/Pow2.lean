import Mathlib.Tactic

/-!
# Rounding up to a power of two with shifts and ors

`n |= n >> 1; n |= n >> 2; ...` copies the highest set bit of a 64-bit word
into every lower position, so the result plus one is a power of two.
-/

namespace Voxlib.Pow2

/-- `n |= n >> k`. -/
def orShift (k n : ℕ) : ℕ := n ||| (n >>> k)

/-- The six assignments `n |= n >> 1` to `n |= n >> 32`. -/
def smear64 (n : ℕ) : ℕ :=
  orShift 32 (orShift 16 (orShift 8 (orShift 4 (orShift 2 (orShift 1 n)))))

/-- Bit `i` of `m` is set when one of the `w` bits of `n` from `i` on is. -/
def Window (w n m : ℕ) : Prop := ∀ i, m.testBit i = true ↔ ∃ j < w, n.testBit (i + j) = true

theorem window_one (n : ℕ) : Window 1 n n := by
  intro i
  constructor
  · intro h
    exact ⟨0, by omega, by simpa using h⟩
  · rintro ⟨j, hj, h⟩
    have hj0 : j = 0 := by omega
    subst hj0
    simpa using h

theorem window_orShift {w n m : ℕ} (h : Window w n m) : Window (w + w) n (orShift w m) := by
  intro i
  simp only [orShift, Nat.testBit_or, Nat.testBit_shiftRight, Bool.or_eq_true]
  rw [h i, h (w + i)]
  constructor
  · rintro (⟨j, hj, hb⟩ | ⟨j, hj, hb⟩)
    · exact ⟨j, by omega, hb⟩
    · exact ⟨w + j, by omega, by rwa [show i + (w + j) = w + i + j by omega]⟩
  · rintro ⟨j, hj, hb⟩
    by_cases hjw : j < w
    · exact Or.inl ⟨j, hjw, hb⟩
    · exact Or.inr ⟨j - w, by omega, by rwa [show w + i + (j - w) = i + j by omega]⟩

theorem window_smear64 (n : ℕ) : Window 64 n (smear64 n) :=
  window_orShift (window_orShift (window_orShift (window_orShift (window_orShift
    (window_orShift (window_one n))))))

theorem smear64_eq {n : ℕ} (hn : n ≠ 0) (hlt : n < 2 ^ 64) : smear64 n = 2 ^ (n.log2 + 1) - 1 := by
  apply Nat.eq_of_testBit_eq
  intro i
  rw [Nat.testBit_two_pow_sub_one, Bool.eq_iff_iff, window_smear64 n i, decide_eq_true_iff]
  have hlog : n.log2 < 64 := (Nat.log2_lt hn).mpr hlt
  constructor
  · rintro ⟨j, _, hb⟩
    by_contra hi
    have hsmall : n < 2 ^ (i + j) :=
      lt_of_lt_of_le Nat.lt_log2_self (Nat.pow_le_pow_right (by norm_num) (by omega))
    rw [Nat.testBit_lt_two_pow hsmall] at hb
    cases hb
  · intro hi
    refine ⟨n.log2 - i, by omega, ?_⟩
    rw [show i + (n.log2 - i) = n.log2 by omega]
    exact Nat.testBit_log2 hn

theorem pow2_of_and_pred {n : ℕ} (hn : n ≠ 0) (h : n &&& (n - 1) = 0) : n = 2 ^ n.log2 := by
  by_contra hne
  have hle := Nat.log2_self_le hn
  have hlt : n - 1 < 2 ^ (n.log2 + 1) := lt_of_le_of_lt (Nat.sub_le n 1) Nat.lt_log2_self
  have hb1 := Nat.testBit_log2 hn
  have hb2 : (n - 1).testBit n.log2 = true :=
    Nat.testBit_of_two_pow_le_and_two_pow_add_one_gt (by omega) hlt
  have hand : (n &&& (n - 1)).testBit n.log2 = true := by
    rw [Nat.testBit_and, hb1, hb2]
    rfl
  rw [h] at hand
  simp at hand

theorem and_mask_eq_mod {c n k : ℕ} (hc : c = 2 ^ k) : n &&& (c - 1) = n % c := by
  rw [hc, Nat.and_two_pow_sub_one_eq_mod]

end Voxlib.Pow2
