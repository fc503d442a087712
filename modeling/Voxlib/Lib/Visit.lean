import Mathlib.Data.Finset.Card

/-!
# Depth-first search

A search that turns back at marked states marks what can be reached, each state once.
-/

namespace Voxlib.Visit
open List

variable {σ : Type*} (succ : σ → List σ)

def visit [DecidableEq σ] : ℕ → σ → List σ → List σ
  | 0, _, seen => seen
  | n + 1, s, seen =>
    if s ∈ seen then seen else (succ s).foldl (fun seen t => visit n t seen) (seen ++ [s])

def Reach : σ → σ → Prop := Relation.ReflTransGen fun s t => t ∈ succ s

structure Visited (U : Finset σ) (roots seen out : List σ) : Prop where
  front : seen <+: out
  nodup : out.Nodup
  within : ∀ t ∈ out, t ∈ U
  started : ∀ t ∈ roots, t ∈ out
  closed : ∀ t ∈ out, t ∉ seen → ∀ r ∈ succ t, r ∈ out
  sound : ∀ t ∈ out, t ∉ seen → ∃ r ∈ roots, Reach succ r t

variable {succ} {U : Finset σ} {roots seen mid out : List σ} {s : σ}

theorem Visited.nil (hnodup : seen.Nodup) (hwithin : ∀ t ∈ seen, t ∈ U) :
    Visited succ U [] seen seen where
  front := prefix_rfl
  nodup := hnodup
  within := hwithin
  started _ ht := absurd ht not_mem_nil
  closed _ ht hnew := absurd ht hnew
  sound _ ht hnew := absurd ht hnew

theorem Visited.append {more : List σ} (h : Visited succ U roots seen mid)
    (hmore : Visited succ U more mid out) : Visited succ U (roots ++ more) seen out where
  front := h.front.trans hmore.front
  nodup := hmore.nodup
  within := hmore.within
  started t ht := by
    rcases mem_append.mp ht with ht | ht
    · exact hmore.front.subset (h.started t ht)
    · exact hmore.started t ht
  closed t ht hnew := by
    by_cases hmid : t ∈ mid
    · exact fun r hr => hmore.front.subset (h.closed t hmid hnew r hr)
    · exact hmore.closed t ht hmid
  sound t ht hnew := by
    by_cases hmid : t ∈ mid
    · obtain ⟨r, hr, hreach⟩ := h.sound t hmid hnew
      exact ⟨r, mem_append_left more hr, hreach⟩
    · obtain ⟨r, hr, hreach⟩ := hmore.sound t ht hmid
      exact ⟨r, mem_append_right roots hr, hreach⟩

theorem Visited.step (h : Visited succ U (succ s) (seen ++ [s]) out) (hnew : s ∉ seen) :
    Visited succ U [s] seen out where
  front := (prefix_append seen [s]).trans h.front
  nodup := h.nodup
  within := h.within
  started t ht := by
    rw [mem_singleton.mp ht]
    exact h.front.subset (by simp)
  closed t ht htnew := by
    by_cases hts : t = s
    · subst hts
      exact h.started
    · exact h.closed t ht (by simp [htnew, hts])
  sound t ht htnew := by
    refine ⟨s, mem_singleton_self s, ?_⟩
    by_cases hts : t = s
    · subst hts
      exact Relation.ReflTransGen.refl
    · obtain ⟨r, hr, hreach⟩ := h.sound t ht (by simp [htnew, hts])
      exact Relation.ReflTransGen.head hr hreach

theorem foldl_visited {f : List σ → σ → List σ} {n : ℕ}
    (hf : ∀ t ∈ U, ∀ acc : List σ, acc.Nodup → (∀ r ∈ acc, r ∈ U) → n ≤ acc.length →
      Visited succ U [t] acc (f acc t))
    (ts : List σ) (hts : ∀ t ∈ ts, t ∈ U) (acc : List σ) (hacc : acc.Nodup)
    (hin : ∀ t ∈ acc, t ∈ U) (hn : n ≤ acc.length) : Visited succ U ts acc (ts.foldl f acc) := by
  induction ts generalizing acc with
  | nil => exact .nil hacc hin
  | cons t ts ih =>
    have hfirst := hf t (hts t (mem_cons_self ..)) acc hacc hin hn
    exact hfirst.append (ih (fun r hr => hts r (mem_cons_of_mem t hr)) _ hfirst.nodup
      hfirst.within (hn.trans hfirst.front.length_le))

theorem visit_visited [DecidableEq σ] (hU : ∀ s ∈ U, ∀ t ∈ succ s, t ∈ U) (n : ℕ) (s : σ)
    (seen : List σ) (hs : s ∈ U) (hnodup : seen.Nodup) (hwithin : ∀ t ∈ seen, t ∈ U)
    (hn : U.card < n + seen.length) : Visited succ U [s] seen (visit succ n s seen) := by
  induction n generalizing s seen with
  | zero =>
    have hcard : seen.length ≤ U.card := by
      rw [← toFinset_card_of_nodup hnodup]
      exact Finset.card_le_card fun t ht => hwithin t (mem_toFinset.mp ht)
    omega
  | succ n ih =>
    rw [visit]
    split
    · next hmem =>
      exact ⟨prefix_rfl, hnodup, hwithin, fun t ht => mem_singleton.mp ht ▸ hmem,
        fun t ht hnew => absurd ht hnew, fun t ht hnew => absurd ht hnew⟩
    · next hnew =>
      refine (foldl_visited (n := U.card + 1 - n) (fun t ht acc hacc hin hroom =>
        ih t acc ht hacc hin (by omega)) (succ s) (hU s hs) (seen ++ [s]) ?_ ?_ ?_).step hnew
      · exact nodup_append.mpr ⟨hnodup, nodup_singleton s, by
          rintro a ha b hb rfl
          exact hnew (mem_singleton.mp hb ▸ ha)⟩
      · intro t ht
        rcases mem_append.mp ht with ht | ht
        · exact hwithin t ht
        · exact mem_singleton.mp ht ▸ hs
      · rw [length_append, length_singleton]
        omega

theorem visitAll_visited [DecidableEq σ] (hU : ∀ s ∈ U, ∀ t ∈ succ s, t ∈ U) {n : ℕ}
    (hn : U.card < n) (hroots : ∀ t ∈ roots, t ∈ U) :
    Visited succ U roots [] (roots.foldl (fun seen t => visit succ n t seen) []) :=
  foldl_visited (fun t ht acc hacc hin _ => visit_visited hU n t acc ht hacc hin (by omega)) roots
    hroots [] nodup_nil (fun t ht => absurd ht not_mem_nil) (Nat.zero_le 0)

theorem Visited.mem_iff (h : Visited succ U roots [] out) {t : σ} :
    t ∈ out ↔ ∃ r ∈ roots, Reach succ r t := by
  constructor
  · exact fun ht => h.sound t ht not_mem_nil
  · rintro ⟨r, hr, hreach⟩
    induction hreach with
    | refl => exact h.started r hr
    | tail _ hstep ih => exact h.closed _ ih not_mem_nil _ hstep

end Voxlib.Visit
