import Mathlib.Computability.Language

/-!
# Rows of words

The words of a language put one behind the other, a number of times or up to one.
-/

namespace Voxlib.Rows
open scoped Computability

variable {α : Type*} {l l' : Language α} {n k : ℕ} {t : List α}

def upTo (l : Language α) : ℕ → Language α
  | 0 => 1
  | n + 1 => l * upTo l n + 1

theorem mem_upTo : t ∈ upTo l n ↔ ∃ j ≤ n, t ∈ l ^ j := by
  induction n generalizing t with
  | zero =>
    constructor
    · intro ht
      exact ⟨0, le_rfl, ht⟩
    · rintro ⟨j, hj, ht⟩
      obtain rfl := Nat.le_zero.mp hj
      exact ht
  | succ n ih =>
    constructor
    · rintro (ht | ht)
      · obtain ⟨u, hu, v, hv, rfl⟩ := Language.mem_mul.mp ht
        obtain ⟨j, hj, hpow⟩ := ih.mp hv
        refine ⟨j + 1, by omega, ?_⟩
        rw [pow_succ']
        exact Language.mem_mul.mpr ⟨u, hu, v, hpow, rfl⟩
      · exact ⟨0, Nat.zero_le _, ht⟩
    · rintro ⟨j, hj, ht⟩
      cases j with
      | zero => exact .inr ht
      | succ j =>
        rw [pow_succ'] at ht
        obtain ⟨u, hu, v, hv, rfl⟩ := Language.mem_mul.mp ht
        exact .inl (Language.mem_mul.mpr ⟨u, hu, v, ih.mpr ⟨j, by omega, hv⟩, rfl⟩)

theorem mem_pow_mul_upTo (hk : n ≤ k) :
    t ∈ l ^ n * upTo l (k - n) ↔ ∃ j, n ≤ j ∧ j ≤ k ∧ t ∈ l ^ j := by
  constructor
  · intro ht
    obtain ⟨u, hu, v, hv, rfl⟩ := Language.mem_mul.mp ht
    obtain ⟨j, hj, hpow⟩ := mem_upTo.mp hv
    refine ⟨n + j, by omega, by omega, ?_⟩
    rw [pow_add]
    exact Language.mem_mul.mpr ⟨u, hu, v, hpow, rfl⟩
  · rintro ⟨j, hn, hj, ht⟩
    rw [show j = n + (j - n) by omega, pow_add] at ht
    obtain ⟨u, hu, v, hv, rfl⟩ := Language.mem_mul.mp ht
    exact Language.mem_mul.mpr ⟨u, hu, v, mem_upTo.mpr ⟨j - n, by omega, hv⟩, rfl⟩

theorem mem_pow_of_words (h : ∀ u : List α, u.length ≤ t.length → u ∈ l → u ∈ l') (ht : t ∈ l ^ n) :
    t ∈ l' ^ n := by
  induction n generalizing t with
  | zero => exact ht
  | succ n ih =>
    rw [pow_succ'] at ht ⊢
    obtain ⟨u, hu, v, hv, rfl⟩ := Language.mem_mul.mp ht
    rw [List.length_append] at h
    exact Language.mem_mul.mpr ⟨u, h u (by omega) hu, v,
      ih (fun w hw hwl => h w (by omega) hwl) hv, rfl⟩

theorem nil_mem_pow (h : [] ∈ l) (n : ℕ) : [] ∈ l ^ n := by
  induction n with
  | zero => exact Language.nil_mem_one
  | succ n ih =>
    rw [pow_succ']
    exact Language.mem_mul.mpr ⟨[], h, [], ih, rfl⟩

theorem mem_pow_of_nil (h : [] ∈ l) (hn : 0 < n) (ht : t ∈ l) : t ∈ l ^ n := by
  obtain ⟨k, rfl⟩ := Nat.exists_eq_add_one_of_ne_zero (Nat.ne_of_gt hn)
  rw [pow_succ']
  exact Language.mem_mul.mpr ⟨t, ht, [], nil_mem_pow h k, List.append_nil t⟩

theorem mem_kstar_of_pow (ht : t ∈ l ^ n * l∗) : t ∈ l∗ := by
  obtain ⟨u, hu, v, hv, rfl⟩ := Language.mem_mul.mp ht
  obtain ⟨S, rfl, -, hS⟩ := Language.mem_pow.mp hu
  obtain ⟨L, rfl, hL⟩ := Language.mem_kstar.mp hv
  refine Language.mem_kstar.mpr ⟨S ++ L, List.flatten_append.symm, ?_⟩
  intro w hw
  rcases List.mem_append.mp hw with hw | hw
  · exact hS w hw
  · exact hL w hw

theorem pow_mul_kstar_of_nil (h : [] ∈ l) (n : ℕ) : l ^ n * l∗ = l∗ := by
  ext t
  constructor
  · exact mem_kstar_of_pow
  · intro ht
    exact Language.mem_mul.mpr ⟨[], nil_mem_pow h n, t, ht, rfl⟩

end Voxlib.Rows
