import Voxlib.Lib.Stream

/-!
# Streams of frames

A frame is taken by one pass as soon as all of it is there; a proper part of it waits.
-/

namespace Voxlib.Stream
open List

variable {S α : Type*}

/-- In the state `s` the frame `f` is taken when it is complete, and leads to `t`. -/
structure Takes (pass : S → List α → Flow S α) (s : S) (f : List α) (t : S) : Prop where
  nonempty : f ≠ []
  whole : ∀ x, pass s (f ++ x) = .go t x
  part : ∀ p x, p ++ x = f → x ≠ [] → pass s p = .wait s p

inductive Frames (pass : S → List α → Flow S α) : S → List (List α) → S → Prop
  | nil (s : S) : Frames pass s [] s
  | cons {s t u : S} {f : List α} {fs : List (List α)} (h : Takes pass s f t)
      (hs : Frames pass t fs u) : Frames pass s (f :: fs) u

variable {pass : S → List α → Flow S α}

variable {fs : List (List α)}

theorem Frames.append {s t u : S} {gs : List (List α)} (hf : Frames pass s fs t)
    (hg : Frames pass t gs u) : Frames pass s (fs ++ gs) u := by
  induction hf with
  | nil s => exact hg
  | cons h _ ih => exact .cons h (ih hg)

def Partial (left : List α) : List (List α) → Prop
  | [] => left = []
  | f :: _ => ∃ x, left ++ x = f ∧ x ≠ []

theorem Frames.partial_nil {s t : S} (h : Frames pass s fs t) : Partial [] fs := by
  cases h with
  | nil s => rfl
  | cons hf _ => exact ⟨_, nil_append _, hf.nonempty⟩

/-- A call takes the complete frames in its input. It waits with a part of the next one, or goes
on behind the last of them. -/
theorem passes_through {s t : S} (h : Frames pass s fs t) {cur rest tail : List α}
    (hcur : cur ++ rest = fs.flatten ++ tail) (n : ℕ) (hn : cur.length < n) :
    (∃ m left, passes pass n s cur = passes pass m t left ∧ left.length < m ∧ left ++ rest = tail) ∨
    ∃ u g gs left, passes pass n s cur = .wait u left ∧ Frames pass u (g :: gs) t ∧
      left ++ rest = (g :: gs).flatten ++ tail ∧ Partial left (g :: gs) := by
  induction h generalizing cur n with
  | nil s => exact .inl ⟨n, cur, rfl, hn, hcur⟩
  | @cons s t u f fs hf hs ih =>
    obtain ⟨m, rfl⟩ : ∃ m, n = m + 1 := ⟨n - 1, by omega⟩
    have hpos := length_pos_of_ne_nil hf.nonempty
    rw [flatten_cons, append_assoc] at hcur
    rcases append_eq_append_iff.mp hcur with ⟨x, hfx, hrest⟩ | ⟨x, hcx, hrest⟩
    · by_cases hx : x = []
      · -- the input ends with the frame
        subst hx
        rw [append_nil] at hfx
        have hgo := hf.whole []
        rw [append_nil, hfx] at hgo
        have hlen : 0 < cur.length := hfx ▸ hpos
        rw [passes, hgo, Flow.go_andThen]
        exact ih (show [] ++ rest = fs.flatten ++ tail from hrest ▸ rfl) m (by
          rw [length_nil]
          omega)
      · -- the input ends inside the frame
        refine .inr ⟨s, f, fs, cur, ?_, .cons hf hs, ?_, x, hfx.symm, hx⟩
        · rw [passes, hf.part cur x hfx.symm hx, Flow.wait_andThen]
        · rw [flatten_cons, hfx, hrest, append_assoc, append_assoc]
    · subst hcx
      rw [length_append] at hn
      rw [passes, hf.whole, Flow.go_andThen]
      exact ih hrest.symm m (by omega)

theorem passes_frames (hnil : ∀ s, pass s [] = .wait s []) {s t : S} (h : Frames pass s fs t)
    {cur rest : List α} (hcur : cur ++ rest = fs.flatten) (n : ℕ) (hn : cur.length < n) :
    ∃ u gs left, passes pass n s cur = .wait u left ∧ Frames pass u gs t ∧
      left ++ rest = gs.flatten ∧ Partial left gs := by
  rw [← append_nil fs.flatten] at hcur
  rcases passes_through h hcur n hn with ⟨m, left, hpasses, hm, hleft⟩ |
    ⟨u, g, gs, left, hpasses, hframes, hleft, hpart⟩
  · obtain ⟨rfl, rfl⟩ : left = [] ∧ rest = [] := append_eq_nil_iff.mp hleft
    obtain ⟨m, rfl⟩ : ∃ k, m = k + 1 := ⟨m - 1, by omega⟩
    refine ⟨t, [], [], ?_, .nil t, rfl, rfl⟩
    rw [hpasses, passes, hnil, Flow.wait_andThen]
  · exact ⟨u, g :: gs, left, hpasses, hframes, hleft.trans (append_nil _), hpart⟩

theorem deliver_frames (hnil : ∀ s, pass s [] = .wait s []) {s t : S} (h : Frames pass s fs t)
    {left : List α} (pieces : List (List α)) (hpieces : left ++ pieces.flatten = fs.flatten)
    (hleft : Partial left fs) : deliver (settle pass fun _ => 0) s left pieces = .wait t [] := by
  induction pieces generalizing s fs left with
  | nil =>
    rw [flatten_nil, append_nil] at hpieces
    cases h with
    | nil s =>
      rw [deliver, hpieces]
      rfl
    | @cons s u t f fs hf hs =>
      obtain ⟨x, rfl, hx⟩ := hleft
      rw [flatten_cons, append_assoc] at hpieces
      have hlen := congrArg List.length hpieces
      have hpos := length_pos_of_ne_nil hx
      simp only [length_append] at hlen
      omega
  | cons piece pieces ih =>
    rw [flatten_cons, ← append_assoc] at hpieces
    obtain ⟨u, gs, rest, hpasses, hframes, hrest, hpart⟩ :=
      passes_frames hnil h hpieces ((left ++ piece).length + 0 + 1) (Nat.lt_succ_self _)
    rw [deliver, settle, hpasses]
    exact ih hframes hrest hpart

/-- In the state `s` the call fails at the frame `f` when it is complete, in a state with `P`. -/
structure Refuses (pass : S → List α → Flow S α) (s : S) (f : List α) (P : S → Prop) : Prop where
  nonempty : f ≠ []
  whole : ∀ x, ∃ t, pass s (f ++ x) = .fail t ∧ P t
  part : ∀ p x, p ++ x = f → x ≠ [] → pass s p = .wait s p

variable {P : S → Prop}

/-- A call takes the complete frames and fails at the one that is refused, or waits in front. -/
theorem passes_refused {s t : S} (h : Frames pass s fs t) {f : List α} (hf : Refuses pass t f P)
    {cur rest more : List α} (hcur : cur ++ rest = fs.flatten ++ (f ++ more)) (n : ℕ)
    (hn : cur.length < n) : (∃ u, passes pass n s cur = .fail u ∧ P u) ∨
    ∃ u gs left, passes pass n s cur = .wait u left ∧ Frames pass u gs t ∧
      left ++ rest = gs.flatten ++ (f ++ more) ∧ Partial left (gs ++ [f]) := by
  rcases passes_through h hcur n hn with ⟨m, left, hpasses, hm, hleft⟩ |
    ⟨u, g, gs, left, hpasses, hframes, hleft, hpart⟩
  · obtain ⟨m, rfl⟩ : ∃ k, m = k + 1 := ⟨m - 1, by omega⟩
    rw [hpasses, passes]
    have hrefused (x : List α) :
        ∃ u, (pass t (f ++ x)).andThen (passes pass m) = .fail u ∧ P u := by
      obtain ⟨u, hfail, hu⟩ := hf.whole x
      exact ⟨u, by rw [hfail, Flow.fail_andThen], hu⟩
    rcases append_eq_append_iff.mp hleft with ⟨x, hfx, hrest⟩ | ⟨x, hcx, hrest⟩
    · by_cases hx : x = []
      · rw [hx, append_nil] at hfx
        rw [← hfx, ← append_nil f]
        exact .inl (hrefused [])
      · refine .inr ⟨t, [], left, ?_, .nil t, hleft, x, hfx.symm, hx⟩
        rw [hf.part left x hfx.symm hx, Flow.wait_andThen]
    · rw [hcx]
      exact .inl (hrefused x)
  · exact .inr ⟨u, g :: gs, left, hpasses, hframes, hleft, hpart⟩

theorem deliver_refused {s t : S} (h : Frames pass s fs t) {f : List α} (hf : Refuses pass t f P)
    {left more : List α} (pieces : List (List α))
    (hpieces : left ++ pieces.flatten = fs.flatten ++ (f ++ more))
    (hleft : Partial left (fs ++ [f])) :
    ∃ u, deliver (settle pass fun _ => 0) s left pieces = .fail u ∧ P u := by
  induction pieces generalizing s fs left with
  | nil =>
    -- a part of the next frame is not all that there is
    obtain ⟨x, hx, hne⟩ : ∃ x, (left ++ x) <+: fs.flatten ++ (f ++ more) ∧ x ≠ [] := by
      cases fs with
      | nil =>
        obtain ⟨x, hx, hne⟩ := hleft
        exact ⟨x, ⟨more, by rw [hx]; rfl⟩, hne⟩
      | cons g gs =>
        obtain ⟨x, hx, hne⟩ := hleft
        exact ⟨x, ⟨gs.flatten ++ (f ++ more), by rw [hx]; simp⟩, hne⟩
    have hlen := hx.length_le
    have hpos := length_pos_of_ne_nil hne
    rw [← hpieces, flatten_nil, append_nil, length_append] at hlen
    omega
  | cons piece pieces ih =>
    rw [flatten_cons, ← append_assoc] at hpieces
    rw [deliver, settle]
    rcases passes_refused h hf hpieces ((left ++ piece).length + 0 + 1) (Nat.lt_succ_self _) with
      ⟨u, hfail, hu⟩ | ⟨u, gs, rest, hpasses, hframes, hrest, hpart⟩
    · exact ⟨u, by rw [hfail], hu⟩
    · rw [hpasses]
      exact ih hframes hrest hpart

theorem Refuses.partial_nil {s t : S} (h : Frames pass s fs t) {f : List α}
    (hf : Refuses pass t f P) : Partial [] (fs ++ [f]) := by
  cases h with
  | nil s => exact ⟨f, rfl, hf.nonempty⟩
  | cons hg _ => exact ⟨_, nil_append _, hg.nonempty⟩

end Voxlib.Stream
