import Mathlib.Tactic

/-!
# Refinement of an abstract object by calls that answer

An implementation related to an abstract object by what each admitted call keeps answers as it
does.
-/

namespace Voxlib.Refine

variable {σ τ α ρ : Type*}

/-- The answers to a list of calls and the state after it, if every call ended. -/
def calls (impl : σ → α → Option (ρ × σ)) : σ → List α → Option (List ρ × σ)
  | s, [] => some ([], s)
  | s, a :: as =>
    (impl s a).bind fun p => (calls impl p.2 as).map fun q => (p.1 :: q.1, q.2)

def answers (spec : τ → α → ρ × τ) : τ → List α → List ρ × τ
  | m, [] => ([], m)
  | m, a :: as => ((spec m a).1 :: (answers spec (spec m a).2 as).1, (answers spec (spec m a).2 as).2)

def Admitted (impl : σ → α → Option (ρ × σ)) (ok : σ → α → Prop) : σ → List α → Prop
  | _, [] => True
  | s, a :: as => ok s a ∧ ∀ r t, impl s a = some (r, t) → Admitted impl ok t as

instance Admitted.decidable (impl : σ → α → Option (ρ × σ)) (ok : σ → α → Prop)
    [∀ s a, Decidable (ok s a)] : (s : σ) → (as : List α) → Decidable (Admitted impl ok s as)
  | _, [] => isTrue trivial
  | s, a :: as =>
    match h : impl s a with
    | none => decidable_of_iff (ok s a) (by simp [Admitted, h])
    | some p =>
      have := Admitted.decidable impl ok p.2 as
      decidable_of_iff (ok s a ∧ Admitted impl ok p.2 as) (by
        simp only [Admitted, h, Option.some.injEq]
        grind)

/-- The calls `ok` end, answer as the abstract object does and keep `R`. -/
def Simulates (impl : σ → α → Option (ρ × σ)) (spec : τ → α → ρ × τ) (ok : σ → α → Prop)
    (R : σ → τ → Prop) : Prop :=
  ∀ s m a, R s m → ok s a → ∃ t, impl s a = some ((spec m a).1, t) ∧ R t (spec m a).2

theorem calls_eq_answers {impl : σ → α → Option (ρ × σ)} {spec : τ → α → ρ × τ}
    {ok : σ → α → Prop} {R : σ → τ → Prop} (hsim : Simulates impl spec ok R) {s : σ} {m : τ}
    (h0 : R s m) {as : List α} (hok : Admitted impl ok s as) :
    ∃ t, calls impl s as = some ((answers spec m as).1, t) ∧ R t (answers spec m as).2 := by
  induction as generalizing s m with
  | nil => exact ⟨s, rfl, h0⟩
  | cons a as ih =>
    obtain ⟨hhead, htail⟩ := hok
    obtain ⟨s', hcall, hrel⟩ := hsim s m a h0 hhead
    obtain ⟨t, hrest, hlast⟩ := ih hrel (htail _ _ hcall)
    refine ⟨t, ?_, hlast⟩
    simp only [calls, hcall, Option.bind_some, hrest, Option.map_some, answers]

end Voxlib.Refine
