import Mathlib.Tactic

/-!
# Runs of a partial step function

`Along` speaks of every state of a run, `Guarded` of every step.
-/

namespace Voxlib.Run
open Option

variable {σ α : Type*} (step : σ → α → Option σ)

/-- The state after a list of actions, if each of them was enabled. -/
def exec : σ → List α → Option σ
  | s, [] => some s
  | s, a :: as => (step s a).bind fun t => exec t as

/-- Every action is enabled, and `P` holds in every state on the way. -/
def Along (P : σ → Prop) : σ → List α → Prop
  | s, [] => P s
  | s, a :: as => P s ∧ ∃ t, step s a = some t ∧ Along P t as

/-- Every action is enabled, and `ok` holds of every step on the way. -/
def Guarded (ok : σ → α → Prop) : σ → List α → Prop
  | _, [] => True
  | s, a :: as => ok s a ∧ ∃ t, step s a = some t ∧ Guarded ok t as

/-- `ok` holds of every step on the way; whether it is enabled is left open. -/
def Meets (ok : σ → α → Prop) : σ → List α → Prop
  | _, [] => True
  | s, a :: as => ok s a ∧ ∀ t, step s a = some t → Meets ok t as

variable {step}

variable {P : σ → Prop} {s : σ} {as : List α}

theorem along_head (h : Along step P s as) : P s := by
  cases as with
  | nil => exact h
  | cons a as => exact h.1

theorem along_mono {Q : σ → Prop} (hPQ : ∀ s, P s → Q s) (h : Along step P s as) :
    Along step Q s as := by
  induction as generalizing s with
  | nil => exact hPQ s h
  | cons a as ih =>
    obtain ⟨hp, t, ht, hrest⟩ := h
    exact ⟨hPQ s hp, t, ht, ih hrest⟩

theorem along_last {t : σ} (h : Along step P s as) (he : exec step s as = some t) : P t := by
  induction as generalizing s with
  | nil =>
    have hst : s = t := some.inj he
    exact hst ▸ h
  | cons a as ih =>
    obtain ⟨_, u, hu, hrest⟩ := h
    simp only [exec, hu, bind_some] at he
    exact ih hrest he

variable {I : σ → Prop}

/-- Invariant rule: what every step keeps holds at the end of a run. -/
theorem exec_invariant (hstep : ∀ s a t, I s → step s a = some t → I t) {t : σ} (h0 : I s)
    (he : exec step s as = some t) : I t := by
  induction as generalizing s with
  | nil => exact some.inj he ▸ h0
  | cons a as ih =>
    rw [exec] at he
    obtain ⟨u, hu, hrest⟩ := bind_eq_some_iff.mp he
    exact ih (hstep s a u h0 hu) hrest

variable {ok : σ → α → Prop}

/-- Invariant rule: what the guarded steps keep holds all along a guarded run. -/
theorem along_of_guarded (hstep : ∀ s a t, I s → ok s a → step s a = some t → I t) (h0 : I s)
    (hg : Guarded step ok s as) : Along step I s as := by
  induction as generalizing s with
  | nil => exact h0
  | cons a as ih =>
    obtain ⟨hok, t, ht, hrest⟩ := hg
    exact ⟨h0, t, ht, ih (hstep s a t h0 hok ht) hrest⟩

/-- Two step functions that agree through `f` where `I` holds make the same runs. -/
theorem exec_map {τ : Type*} {step' : τ → α → Option τ} {f : σ → τ} {ok : α → Prop}
    (hkeep : ∀ s a t, I s → step s a = some t → I t)
    (hsame : ∀ s a, I s → ok a → step' (f s) a = (step s a).map f) (h0 : I s)
    (hok : ∀ a ∈ as, ok a) : exec step' (f s) as = (exec step s as).map f := by
  induction as generalizing s with
  | nil => rfl
  | cons a as ih =>
    rw [List.forall_mem_cons] at hok
    rw [exec, exec, hsame s a h0 hok.1]
    cases ht : step s a with
    | none => rfl
    | some t => exact ih (hkeep s a t h0 ht) hok.2

theorem along_of_exec (hstep : ∀ s a t, I s → step s a = some t → I t) {t : σ} (h0 : I s)
    (he : exec step s as = some t) : Along step I s as := by
  induction as generalizing s with
  | nil => exact h0
  | cons a as ih =>
    rw [exec] at he
    obtain ⟨u, hu, hrest⟩ := bind_eq_some_iff.mp he
    exact ⟨h0, u, hu, ih (hstep s a u h0 hu) hrest⟩

theorem guarded_congr {P Q : σ → α → Prop} (h : ∀ s a, I s → (P s a ↔ Q s a))
    (hI : Along step I s as) : Guarded step P s as ↔ Guarded step Q s as := by
  induction as generalizing s with
  | nil => exact Iff.rfl
  | cons a as ih =>
    obtain ⟨hs, t, ht, hrest⟩ := hI
    refine and_congr (h s a hs) (exists_congr fun u => and_congr_right fun hu => ih ?_)
    exact some.inj (ht.symm.trans hu) ▸ hrest

/-- Progress rule: an invariant of the state and the actions to come, under which
a step that is `ok` is enabled. -/
theorem exec_of_meets {I : σ → List α → Prop}
    (hstep : ∀ s a as, I s (a :: as) → ok s a → ∃ t, step s a = some t ∧ I t as) (h0 : I s as)
    (hm : Meets step ok s as) : ∃ t, exec step s as = some t ∧ I t [] := by
  induction as generalizing s with
  | nil => exact ⟨s, rfl, h0⟩
  | cons a as ih =>
    obtain ⟨t, ht, hI⟩ := hstep s a as h0 hm.1
    obtain ⟨u, hu, hend⟩ := ih hI (hm.2 t ht)
    refine ⟨u, ?_, hend⟩
    rw [exec, ht]
    exact hu

theorem meets_true (s : σ) (as : List α) : Meets step (fun _ _ => True) s as := by
  induction as generalizing s with
  | nil => trivial
  | cons a as ih => exact ⟨trivial, fun t _ => ih t⟩

/-- Total correctness rule: where every `ok` step from a state of the invariant is enabled, keeps
the invariant and is right, whole runs are. -/
theorem guarded_of_meets {right : σ → α → Prop}
    (hstep : ∀ s a, I s → ok s a → ∃ t, step s a = some t ∧ I t ∧ right s a) (h0 : I s)
    (hm : Meets step ok s as) : Along step I s as ∧ Guarded step right s as := by
  induction as generalizing s with
  | nil => exact ⟨h0, trivial⟩
  | cons a as ih =>
    obtain ⟨t, ht, hI, hright⟩ := hstep s a h0 hm.1
    obtain ⟨halong, hguarded⟩ := ih hI (hm.2 t ht)
    exact ⟨⟨h0, t, ht, halong⟩, hright, t, ht, hguarded⟩

instance decidableMeets {ok : σ → α → Prop} [∀ s a, Decidable (ok s a)] :
    ∀ (s : σ) (as : List α), Decidable (Meets step ok s as)
  | _, [] => .isTrue trivial
  | s, a :: as =>
    match h : step s a with
    | none => decidable_of_iff (ok s a) (by simp [Meets, h])
    | some t =>
      haveI : Decidable (Meets step ok t as) := decidableMeets t as
      decidable_of_iff (ok s a ∧ Meets step ok t as) (by simp [Meets, h])

instance decidableGuarded {ok : σ → α → Prop} [∀ s a, Decidable (ok s a)] :
    ∀ (s : σ) (as : List α), Decidable (Guarded step ok s as)
  | _, [] => .isTrue trivial
  | s, a :: as =>
    match h : step s a with
    | none => .isFalse (by simp [Guarded, h])
    | some t =>
      haveI : Decidable (Guarded step ok t as) := decidableGuarded t as
      decidable_of_iff (ok s a ∧ Guarded step ok t as) (by simp [Guarded, h])

/-- Exactness rule: `P` strengthens `Q`, the `ok` steps keep `P`, and a step
from a `P` state into a `Q` state is `ok`. Then the runs through `Q` states
are exactly the runs of `ok` steps. -/
theorem along_iff_guarded {Q : σ → Prop} (hPQ : ∀ s, P s → Q s)
    (hkeep : ∀ s a t, P s → ok s a → step s a = some t → P t)
    (hexact : ∀ s a t, P s → step s a = some t → Q t → ok s a) (h0 : P s) :
    Along step Q s as ↔ Guarded step ok s as := by
  constructor
  · intro h
    induction as generalizing s with
    | nil => trivial
    | cons a as ih =>
      obtain ⟨_, t, ht, hrest⟩ := h
      have hok : ok s a := hexact s a t h0 ht (along_head hrest)
      exact ⟨hok, t, ht, ih (hkeep s a t h0 hok ht) hrest⟩
  · intro h
    exact along_mono hPQ (along_of_guarded hkeep h0 h)

end Voxlib.Run
