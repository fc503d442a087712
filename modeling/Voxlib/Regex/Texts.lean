import Voxlib.Lib.Layers
import Voxlib.Regex.Compile

/-!
# Words in a text

The runs of an automaton along a text are its words that are read there.
-/

namespace Voxlib.Regex
open CStr Automaton Visit Layers List
open scoped Computability

def EolAt (text : Bytes) (i : ℕ) : Prop := ∃ c ∈ text[i]?, isEol c = true

def WordAt (text : Bytes) (i : ℕ) : Prop := ∃ c ∈ text[i]?, isWordChar c = true

/- A word of the body of an assertion begins at a position, or ends there. -/
def BodyAt (text : Bytes) (p : ℕ) (body : Language UInt8) (behind : Bool) : Prop :=
  if behind then ∃ w ∈ body, ∃ i, i + w.length = p ∧ w <+: text.drop i
  else ∃ w ∈ body, w <+: text.drop p

def Test.Holds (multiline : Bool) (text : Bytes) (p : ℕ) : Test → Prop
  | .lineStart => p = 0 ∨ multiline = true ∧ EolAt text (p - 1)
  | .lineEnd => p = text.length ∨ multiline = true ∧ EolAt text p
  | .wordBoundary => ¬ ((0 < p ∧ WordAt text (p - 1)) ↔ WordAt text p)
  | .look behind negative body => BodyAt text p body behind ↔ negative = false

/-- A word is read from one position to another one, and the tests in it hold where they are. -/
inductive Reads (multiline : Bool) (text : Bytes) : ℕ → List Letter → ℕ → Prop
  | nil {p : ℕ} : Reads multiline text p [] p
  | read {p q : ℕ} {c : UInt8} {w : List Letter} : text[p]? = some c →
      Reads multiline text (p + 1) w q → Reads multiline text p (.read c :: w) q
  | pass {p q : ℕ} {t : Test} {w : List Letter} : t.Holds multiline text p →
      Reads multiline text p w q → Reads multiline text p (.pass t :: w) q

variable {multiline : Bool} {text : Bytes} {p q i : ℕ} {v w : List Letter}

theorem reads_append : Reads multiline text p (v ++ w) q ↔
    ∃ r, Reads multiline text p v r ∧ Reads multiline text r w q := by
  induction v generalizing p with
  | nil =>
    refine ⟨fun h => ⟨p, .nil, h⟩, ?_⟩
    rintro ⟨r, ⟨⟩, h⟩
    exact h
  | cons a v ih =>
    constructor
    · intro h
      cases h with
      | read hc h =>
        obtain ⟨r, hv, hw⟩ := ih.mp h
        exact ⟨r, .read hc hv, hw⟩
      | pass ht h =>
        obtain ⟨r, hv, hw⟩ := ih.mp h
        exact ⟨r, .pass ht hv, hw⟩
    · rintro ⟨r, hv, hw⟩
      cases hv with
      | read hc hv => exact .read hc (ih.mpr ⟨r, hv, hw⟩)
      | pass ht hv => exact .pass ht (ih.mpr ⟨r, hv, hw⟩)

theorem reads_spelled {s : Bytes} : Reads multiline text p (s.map .read) q ↔
    s <+: text.drop p ∧ q = p + s.length := by
  induction s generalizing p with
  | nil =>
    constructor
    · rintro ⟨⟩
      exact ⟨List.nil_prefix, rfl⟩
    · rintro ⟨-, rfl⟩
      exact .nil
  | cons c s ih =>
    rw [map_cons]
    constructor
    · intro h
      cases h with
      | read hc h =>
        obtain ⟨hp, rfl⟩ := List.getElem?_eq_some_iff.mp hc
        obtain ⟨hs, rfl⟩ := ih.mp h
        rw [drop_eq_getElem_cons hp, length_cons]
        exact ⟨cons_prefix_cons.mpr ⟨rfl, hs⟩, by omega⟩
    · rintro ⟨hs, rfl⟩
      have hp : p < text.length := by
        by_contra hlen
        rw [drop_eq_nil_of_le (Nat.not_lt.mp hlen)] at hs
        exact absurd (prefix_nil.mp hs) (cons_ne_nil c s)
      rw [drop_eq_getElem_cons hp] at hs
      obtain ⟨hc, hrest⟩ := cons_prefix_cons.mp hs
      refine .read (by rw [hc, List.getElem?_eq_getElem hp]) (ih.mpr ⟨hrest, ?_⟩)
      rw [length_cons]
      omega

section Runs

variable (bodies : Bodies) (multiline : Bool) (text : Bytes) (h : Heap)

def Stays (p q r : ℕ) : Prop :=
  r ∈ (nfa bodies h).step q none ∨
    ∃ t : Test, t.Holds multiline text p ∧ r ∈ (nfa bodies h).step q (some (.pass t))

def Moves (p q r : ℕ) : Prop := ∃ c ∈ text[p]?, r ∈ (nfa bodies h).step q (some (.read c))

abbrev Runs (s i q p : ℕ) : Prop := Run (Stays bodies multiline text h)
    (Moves bodies text h) s i q p

end Runs

variable {bodies : Bodies} {h : Heap} {s t : ℕ}

theorem runs_iff : Runs bodies multiline text h s i t p ↔
    ∃ w ∈ words (nfa bodies h) s t, Reads multiline text i w p := by
  constructor
  · have hsnoc {q r j : ℕ} {a : Option Letter} (hstep : r ∈ (nfa bodies h).step q a)
      {w : List Letter}
        (hw : w ∈ words (nfa bodies h) s q) (hr : Reads multiline text i w j)
        {k : ℕ} (ha : Reads multiline text j a.toList k) :
        ∃ w ∈ words (nfa bodies h) s r, Reads multiline text i w k := by
      refine ⟨w ++ a.toList, words_mul_le _ s q r (Language.append_mem_mul hw ?_),
        reads_append.mpr ⟨j, hr, ha⟩⟩
      refine ⟨[a], ?_, .cons r q r a [] hstep (.nil r)⟩
      cases a <;> rfl
    intro hrun
    induction hrun with
    | refl => exact ⟨[], nil_mem_words _ s, .nil⟩
    | stay _ hstep ih =>
      obtain ⟨w, hw, hr⟩ := ih
      rcases hstep with hstep | ⟨t, ht, hstep⟩
      · exact hsnoc hstep hw hr .nil
      · exact hsnoc hstep hw hr (.pass ht .nil)
    | move _ hstep ih =>
      obtain ⟨w, hw, hr⟩ := ih
      obtain ⟨c, hc, hstep⟩ := hstep
      exact hsnoc hstep hw hr (.read hc .nil)
  · rintro ⟨w, ⟨x, rfl, hx⟩, hr⟩
    induction x generalizing s i with
    | nil =>
      obtain rfl := (nfa bodies h).isPath_nil.mp hx
      cases hr
      exact .refl
    | cons a x ih =>
      obtain _ | ⟨r, _, _, _, _, hstep, hx⟩ := hx
      cases a with
      | none =>
        rw [reduceOption_cons_of_none] at hr
        exact (Run.refl.stay (.inl hstep)).trans (ih hx hr)
      | some a =>
        rw [reduceOption_cons_of_some] at hr
        cases hr with
        | read hc hr => exact (Run.refl.move ⟨_, hc, hstep⟩).trans (ih hx hr)
        | pass ht hr => exact (Run.refl.stay (.inr ⟨_, ht, hstep⟩)).trans (ih hx hr)

end Voxlib.Regex
