import Mathlib.Computability.EpsilonNFA
import Mathlib.Order.CompletePartialOrder

/-!
# Words along the paths of an automaton

A part is a set of states that no step leaves, with one last state without steps, to which steps
can be added.
-/

namespace Voxlib.Automaton
open List
open scoped Computability

variable {α σ : Type*} {M N : εNFA α σ} {s t u : σ} {A : Set σ}

def words (M : εNFA α σ) (s t : σ) : Language α := {w | ∃ x, x.reduceOption = w ∧ M.IsPath s t x}

theorem nil_mem_words (M : εNFA α σ) (s : σ) : [] ∈ words M s s := ⟨[], rfl, .nil s⟩

theorem one_le_words (M : εNFA α σ) (s : σ) : 1 ≤ words M s s := fun w hw => by
  obtain rfl : w = [] := (Language.mem_one w).mp hw
  exact nil_mem_words M s

theorem words_mul_le (M : εNFA α σ) (s t u : σ) : words M s t * words M t u ≤ words M s u := by
  intro w hw
  obtain ⟨v, ⟨x, rfl, hx⟩, z, ⟨y, rfl, hy⟩, rfl⟩ := Language.mem_mul.mp hw
  exact ⟨x ++ y, reduceOption_append x y, M.isPath_append.mpr ⟨t, hx, hy⟩⟩

theorem words_eps (h : t ∈ M.step s none) : words M t u ≤ words M s u := by
  rintro w ⟨x, rfl, hx⟩
  exact ⟨none :: x, reduceOption_cons_of_none x, .cons t s u none x h hx⟩

theorem words_char {c : α} (h : t ∈ M.step s (some c)) : {[c]} * words M t u ≤ words M s u := by
  intro w hw
  obtain ⟨v, hv, z, ⟨x, rfl, hx⟩, rfl⟩ := Language.mem_mul.mp hw
  obtain rfl : v = [c] := hv
  exact ⟨some c :: x, reduceOption_cons_of_some c x, .cons t s u (some c) x h hx⟩

theorem words_first {w : List α} (hne : s ≠ t) : w ∈ words M s t ↔
    (∃ r ∈ M.step s none, w ∈ words M r t) ∨
      ∃ c, ∃ r ∈ M.step s (some c), w ∈ {[c]} * words M r t := by
  constructor
  · rintro ⟨x, rfl, hx⟩
    cases hx with
    | nil => exact absurd rfl hne
    | cons r _ _ a x hstep hx =>
      cases a with
      | none => exact .inl ⟨r, hstep, x, (reduceOption_cons_of_none x).symm, hx⟩
      | some c =>
        refine .inr ⟨c, r, hstep, ?_⟩
        rw [reduceOption_cons_of_some]
        exact Language.append_mem_mul (a := [c]) rfl ⟨x, rfl, hx⟩
  · rintro (⟨r, hstep, hw⟩ | ⟨c, r, hstep, hw⟩)
    · exact words_eps hstep hw
    · exact words_char hstep hw

theorem words_stuck_ne (h : ∀ a, M.step s a = ∅) (hne : s ≠ t) : words M s t = 0 := by
  ext w
  rw [words_first hne]
  simp [h, Language.notMem_zero]

theorem words_stuck (h : ∀ a, M.step s a = ∅) : words M s s = 1 := by
  ext w
  rw [Language.mem_one]
  constructor
  · rintro ⟨x, rfl, hx⟩
    cases hx with
    | nil => rfl
    | cons r _ _ a x hstep _ =>
      rw [h a] at hstep
      exact absurd hstep (Set.notMem_empty r)
  · rintro rfl
    exact nil_mem_words M s

def Closed (M : εNFA α σ) (A : Set σ) : Prop := ∀ q ∈ A, ∀ a, M.step q a ⊆ A

theorem words_congr (hclosed : Closed N A) (hsame : ∀ q ∈ A, ∀ a, M.step q a = N.step q a)
    (hs : s ∈ A) : words M s t = words N s t := by
  have hpath : ∀ x s, s ∈ A → (M.IsPath s t x ↔ N.IsPath s t x) := by
    intro x
    induction x with
    | nil => exact fun s _ => by rw [M.isPath_nil, N.isPath_nil]
    | cons a x ih =>
      intro s hs
      constructor
      · rintro (_ | ⟨r, _, _, _, _, hstep, hx⟩)
        rw [hsame s hs] at hstep
        exact .cons r s t a x hstep ((ih r (hclosed s hs a hstep)).mp hx)
      · rintro (_ | ⟨r, _, _, _, _, hstep, hx⟩)
        have hr := hclosed s hs a hstep
        rw [← hsame s hs] at hstep
        exact .cons r s t a x hstep ((ih r hr).mpr hx)
  ext w
  exact exists_congr fun x => and_congr_right fun _ => hpath x s hs

/-- A set that no step leaves, with a last state `e` that has no steps. -/
structure Part (N : εNFA α σ) (A : Set σ) (e : σ) : Prop where
  closed : Closed N A
  last : e ∈ A
  stuck : ∀ a, N.step e a = ∅

variable {e : σ}

/-- A path of the part is a path where only the last state has got other steps. -/
theorem Part.words_le (h : Part N A e) (hsame : ∀ q ∈ A, q ≠ e → ∀ a, M.step q a = N.step q a)
    (hs : s ∈ A) : words N s e ≤ words M s e := by
  rintro w ⟨x, rfl, hx⟩
  refine ⟨x, rfl, ?_⟩
  induction x generalizing s with
  | nil => exact M.isPath_nil.mpr (N.isPath_nil.mp hx)
  | cons a x ih =>
    cases hx with
    | cons r _ _ _ _ hstep hx =>
      have hne : s ≠ e := by
        rintro rfl
        rw [h.stuck a] at hstep
        exact hstep
      have hr := h.closed s hs a hstep
      rw [← hsame s hs hne a] at hstep
      exact .cons r s e a x hstep (ih hr hx)

theorem Part.words_exit (h : Part N A e) (hsame : ∀ q ∈ A, q ≠ e → ∀ a, M.step q a = N.step q a)
    (hs : s ∈ A) (ht : t ∉ A) : words M s t = words N s e * words M e t := by
  ext w
  rw [Language.mem_mul]
  constructor
  · rintro ⟨x, rfl, hx⟩
    induction x generalizing s with
    | nil =>
      rw [M.isPath_nil] at hx
      exact absurd (hx ▸ hs) ht
    | cons a x ih =>
      by_cases hse : s = e
      · subst hse
        exact ⟨[], nil_mem_words N s, (a :: x).reduceOption, ⟨a :: x, rfl, hx⟩, rfl⟩
      · cases hx with
        | cons r _ _ _ _ hstep hx =>
          rw [hsame s hs hse a] at hstep
          obtain ⟨v, ⟨y, rfl, hy⟩, z, hz, heq⟩ := ih (h.closed s hs a hstep) hx
          refine ⟨(a :: y).reduceOption, ⟨a :: y, rfl, .cons r s e a y hstep hy⟩, z, hz, ?_⟩
          cases a with
          | none =>
            rw [reduceOption_cons_of_none, reduceOption_cons_of_none, heq]
          | some c =>
            rw [reduceOption_cons_of_some, reduceOption_cons_of_some, cons_append,
              heq]
  · rintro ⟨v, hv, z, hz, rfl⟩
    exact words_mul_le M s e t (Language.append_mem_mul (h.words_le hsame hs hv) hz)

/-- When the last state leads back to `s`, possibly by way of `j`, or out to `t`, the words of the
part are repeated. -/
theorem Part.words_loop (h : Part N A e) (hsame : ∀ q ∈ A, q ≠ e → ∀ a, M.step q a = N.step q a)
    (hs : s ∈ A) (ht : t ∉ A) {j : σ} (hj : j ∉ A) (hstuck : ∀ a, M.step t a = ∅)
    (hout : t ∈ M.step e none) (hback : [] ∈ words M e s) (he : M.step e none ⊆ {j, s, t})
    (hjs : M.step j none ⊆ {s, t}) (hechar : ∀ c, M.step e (some c) = ∅)
    (hjchar : ∀ c, M.step j (some c) = ∅) : words M e t = (words N s e)∗ := by
  have hround : words N s e * (words N s e)∗ ≤ (words N s e)∗ := mul_kstar_le_kstar
  have hover : ∀ x q, M.IsPath q t x →
      (q ∈ A → x.reduceOption ∈ words N q e * (words N s e)∗) ∧
      (q = j ∨ q = t → x.reduceOption ∈ (words N s e)∗) := by
    intro x
    induction x with
    | nil =>
      intro q hx
      obtain rfl := M.isPath_nil.mp hx
      exact ⟨fun hq => absurd hq ht, fun _ => Language.nil_mem_kstar _⟩
    | cons a x ih =>
      rintro q (_ | ⟨r, _, _, _, _, hstep, hx⟩)
      obtain ⟨hinside, hbetween⟩ := ih r hx
      refine ⟨fun hq => ?_, ?_⟩
      · by_cases hqe : q = e
        · subst hqe
          rw [words_stuck h.stuck, one_mul]
          cases a with
          | none =>
            rw [reduceOption_cons_of_none]
            rcases he hstep with rfl | rfl | rfl
            · exact hbetween (.inl rfl)
            · exact hround (hinside hs)
            · exact hbetween (.inr rfl)
          | some c =>
            rw [hechar c] at hstep
            exact absurd hstep (Set.notMem_empty r)
        · rw [hsame q hq hqe a] at hstep
          have hread := hinside (h.closed q hq a hstep)
          cases a with
          | none =>
            rw [reduceOption_cons_of_none]
            exact mul_le_mul_left (words_eps hstep) _ hread
          | some c =>
            rw [reduceOption_cons_of_some]
            refine mul_le_mul_left (words_char hstep) _ ?_
            rw [mul_assoc]
            exact Language.append_mem_mul (a := [c]) rfl hread
      · rintro (rfl | rfl)
        · cases a with
          | none =>
            rw [reduceOption_cons_of_none]
            rcases hjs hstep with rfl | rfl
            · exact hround (hinside hs)
            · exact hbetween (.inr rfl)
          | some c =>
            rw [hjchar c] at hstep
            exact absurd hstep (Set.notMem_empty r)
        · rw [hstuck a] at hstep
          exact absurd hstep (Set.notMem_empty r)
  refine le_antisymm ?_ ?_
  · rintro w ⟨x, rfl, hx⟩
    have hmem := (hover x e hx).1 h.last
    rwa [words_stuck h.stuck, one_mul] at hmem
  · refine kstar_le_of_mul_le_right ?_ ?_
    · exact (one_le_words M t).trans (words_eps hout)
    · intro w hw
      obtain ⟨v, hv, z, hz, rfl⟩ := Language.mem_mul.mp hw
      have hround := words_mul_le M e s e
        (Language.append_mem_mul hback (h.words_le hsame hs hv))
      exact words_mul_le M e e t (Language.append_mem_mul hround hz)

end Voxlib.Automaton
