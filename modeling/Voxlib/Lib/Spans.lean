import Mathlib.Tactic

/-!
# Stretches of memory

A span is a base and a length. A list of spans of which any two are apart is
what an allocator has handed out.
-/

namespace Voxlib.Spans

abbrev Span := ℕ × ℕ

def Apart (r s : Span) : Prop := r.1 + r.2 ≤ s.1 ∨ s.1 + s.2 ≤ r.1

def Within (r s : Span) : Prop := s.1 ≤ r.1 ∧ r.1 + r.2 ≤ s.1 + s.2

instance (r s : Span) : Decidable (Apart r s) :=
  inferInstanceAs (Decidable (r.1 + r.2 ≤ s.1 ∨ s.1 + s.2 ≤ r.1))

variable {r r' s s' : Span}

theorem Apart.symm (h : Apart r s) : Apart s r := Or.symm h

instance : Std.Symm Apart := ⟨fun _ _ h => h.symm⟩

theorem Apart.within (h : Apart r s) (hr : Within r' r) (hs : Within s' s) : Apart r' s' := by
  unfold Apart Within at *
  omega

theorem Within.trans (h : Within r s) (h' : Within s s') : Within r s' := by
  unfold Within at *
  omega

end Voxlib.Spans
