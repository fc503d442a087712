import Voxlib.Lib.LinkTree

/-!
# Black heights

`Balanced s n`: every way down `s` passes `n` black nodes, and no red node has a red child.
`Fits c n` is for a tree with a hole.
-/

namespace Voxlib.LinkTree

variable {α : Type*} (red : α → Prop)

def RedRoot (s : Shape α) : Prop := ∃ a, s.root = some a ∧ red a

def TopRed (c : List (Frame α)) : Prop := ∃ a, top c = some a ∧ red a

/-- All ways to a NULL child have `n` black nodes, and no red node has a red child. -/
def Balanced : Shape α → ℕ → Prop
  | .nil, n => n = 0
  | .node l a r, n =>
    ∃ m, Balanced l m ∧ Balanced r m ∧
      (¬ red a ∧ n = m + 1 ∨ red a ∧ n = m ∧ ¬ RedRoot red l ∧ ¬ RedRoot red r)

/-- The rest of a balanced tree around a hole for a subtree of height `n`. -/
def Fits : List (Frame α) → ℕ → Prop
  | [], _ => True
  | f :: c, n =>
    Balanced red f.sib n ∧
      (¬ red f.a ∧ Fits c (n + 1) ∨
        red f.a ∧ ¬ RedRoot red f.sib ∧ ¬ TopRed red c ∧ Fits c n)

variable {red} {d : Dir} {s o : Shape α} {a : α} {c : List (Frame α)} {m n : ℕ}

@[simp] theorem redRoot_nil : ¬ RedRoot red (.nil : Shape α) := by
  intro ⟨a, ha, _⟩
  cases ha

@[simp] theorem redRoot_mk : RedRoot red (Shape.mk d s a o) ↔ red a := by
  unfold RedRoot
  rw [Shape.root_mk]
  constructor
  · intro ⟨b, hb, hred⟩
    rw [Option.some.inj hb]
    exact hred
  · intro h
    exact ⟨a, rfl, h⟩

@[simp] theorem topRed_nil : ¬ TopRed red ([] : List (Frame α)) := by
  intro ⟨a, ha, _⟩
  cases ha

@[simp] theorem topRed_cons {f : Frame α} : TopRed red (f :: c) ↔ red f.a := by
  constructor
  · intro ⟨b, hb, hred⟩
    rw [Option.some.inj hb]
    exact hred
  · intro h
    exact ⟨f.a, rfl, h⟩

theorem balanced_mk : Balanced red (Shape.mk d s a o) n ↔ ∃ m, Balanced red s m ∧ Balanced red o m ∧
      (¬ red a ∧ n = m + 1 ∨ red a ∧ n = m ∧ ¬ RedRoot red s ∧ ¬ RedRoot red o) := by
  cases d with
  | left => rfl
  | right =>
    simp only [Shape.mk, Balanced]
    constructor
    · rintro ⟨m, ho, hs, h | ⟨ha, hn, hro, hrs⟩⟩
      · exact ⟨m, hs, ho, Or.inl h⟩
      · exact ⟨m, hs, ho, Or.inr ⟨ha, hn, hrs, hro⟩⟩
    · rintro ⟨m, hs, ho, h | ⟨ha, hn, hrs, hro⟩⟩
      · exact ⟨m, ho, hs, Or.inl h⟩
      · exact ⟨m, ho, hs, Or.inr ⟨ha, hn, hro, hrs⟩⟩

theorem Balanced.black_mk (hs : Balanced red s n) (ho : Balanced red o n) (ha : ¬ red a) :
    Balanced red (Shape.mk d s a o) (n + 1) :=
  balanced_mk.mpr ⟨n, hs, ho, Or.inl ⟨ha, rfl⟩⟩

theorem Balanced.red_mk (hs : Balanced red s n) (ho : Balanced red o n) (ha : red a)
    (hsb : ¬ RedRoot red s) (hob : ¬ RedRoot red o) : Balanced red (Shape.mk d s a o) n :=
  balanced_mk.mpr ⟨n, hs, ho, Or.inr ⟨ha, rfl, hsb, hob⟩⟩

theorem Balanced.of_red (h : Balanced red (Shape.mk d s a o) n) (ha : red a) :
    Balanced red s n ∧ Balanced red o n ∧ ¬ RedRoot red s ∧ ¬ RedRoot red o := by
  obtain ⟨m, hs, ho, ⟨hblack, _⟩ | ⟨_, rfl, hsb, hob⟩⟩ := balanced_mk.mp h
  · exact absurd ha hblack
  · exact ⟨hs, ho, hsb, hob⟩

theorem Balanced.of_black (h : Balanced red (Shape.mk d s a o) (n + 1)) (ha : ¬ red a) :
    Balanced red s n ∧ Balanced red o n := by
  obtain ⟨m, hs, ho, ⟨_, hn⟩ | ⟨hred, _⟩⟩ := balanced_mk.mp h
  · rw [Nat.succ.inj hn]
    exact ⟨hs, ho⟩
  · exact absurd hred ha

theorem Balanced.unique (h : Balanced red s m) (h' : Balanced red s n) : m = n := by
  induction s generalizing m n with
  | nil => exact h.trans h'.symm
  | node l b r ihl _ =>
    obtain ⟨i, hl, _, hi⟩ := h
    obtain ⟨j, hl', _, hj⟩ := h'
    have hij : i = j := ihl hl hl'
    rcases hi with ⟨hb, hm⟩ | ⟨hb, hm, _⟩
    · rcases hj with ⟨_, hn⟩ | ⟨hb', _⟩
      · omega
      · exact absurd hb' hb
    · rcases hj with ⟨hb', _⟩ | ⟨_, hn, _⟩
      · exact absurd hb hb'
      · omega

theorem Balanced.eq_nil (h : Balanced red s 0) (hs : ¬ RedRoot red s) : s = .nil := by
  cases s with
  | nil => rfl
  | node l b r =>
    obtain ⟨m, _, _, ⟨_, hm⟩ | ⟨hb, _⟩⟩ := h
    · omega
    · exact absurd ⟨b, rfl, hb⟩ hs

/- The nodes on the longest way down. -/
def Shape.height : Shape α → ℕ
  | .nil => 0
  | .node l _ r => max l.height r.height + 1

theorem Balanced.height_le (h : Balanced red s n) :
    s.height ≤ 2 * n + 1 ∧ (¬ RedRoot red s → s.height ≤ 2 * n) := by
  induction s generalizing n with
  | nil => exact ⟨Nat.zero_le _, fun _ => Nat.zero_le _⟩
  | node l a r ihl ihr =>
    obtain ⟨m, hl, hr, ⟨-, rfl⟩ | ⟨ha, rfl, hbl, hbr⟩⟩ := h
    · have := (ihl hl).1
      have := (ihr hr).1
      exact ⟨by rw [Shape.height]; omega, fun _ => by rw [Shape.height]; omega⟩
    · have := (ihl hl).2 hbl
      have := (ihr hr).2 hbr
      exact ⟨by rw [Shape.height]; omega, fun hroot => absurd ⟨a, rfl, ha⟩ hroot⟩

theorem Balanced.pow_le (h : Balanced red s n) : 2 ^ n ≤ s.inorder.length + 1 := by
  induction s generalizing n with
  | nil => rw [show n = 0 from h]; exact Nat.le_add_left 1 _
  | node l a r ihl ihr =>
    obtain ⟨m, hl, hr, hn⟩ := h
    have := ihl hl
    have := ihr hr
    rw [Shape.inorder, List.length_append, List.length_cons]
    rcases hn with ⟨-, rfl⟩ | ⟨-, rfl, -⟩
    · rw [Nat.pow_succ]
      omega
    · omega

theorem Balanced.height_le_log (h : Balanced red s n) (hroot : ¬ RedRoot red s) :
    s.height ≤ 2 * Nat.log 2 (s.inorder.length + 1) :=
  (h.height_le.2 hroot).trans (Nat.mul_le_mul_left 2 (Nat.le_log_of_pow_le (by decide) h.pow_le))

/-- A node with one child at most: a red one is a leaf, and below a black one the child has no
black node. -/
theorem Balanced.only_child (h : Balanced red (Shape.mk d s a .nil) n) :
    red a ∧ n = 0 ∧ s = .nil ∨ ¬ red a ∧ n = 1 ∧ Balanced red s 0 := by
  obtain ⟨m, hs, hnil, ⟨hblack, rfl⟩ | ⟨hred, rfl, hsb, -⟩⟩ := balanced_mk.mp h
  · obtain rfl : m = 0 := hnil
    exact Or.inr ⟨hblack, rfl, hs⟩
  · obtain rfl : n = 0 := hnil
    exact Or.inl ⟨hred, rfl, hs.eq_nil hsb⟩

theorem balanced_plug : (∃ m, Balanced red (plug c s) m) ↔
    ∃ n, Fits red c n ∧ Balanced red s n ∧ (RedRoot red s → ¬ TopRed red c) := by
  induction c generalizing s with
  | nil =>
    constructor
    · rintro ⟨m, h⟩
      exact ⟨m, trivial, h, fun _ => topRed_nil⟩
    · rintro ⟨n, _, h, _⟩
      exact ⟨n, h⟩
  | cons f c ih =>
    rw [plug, ih]
    simp only [redRoot_mk, topRed_cons, Fits]
    constructor
    · rintro ⟨n, hc, hmk, htop⟩
      obtain ⟨m, hs, ho, ⟨ha, rfl⟩ | ⟨ha, rfl, hsb, hob⟩⟩ := balanced_mk.mp hmk
      · exact ⟨m, ⟨ho, Or.inl ⟨ha, hc⟩⟩, hs, fun _ => ha⟩
      · exact ⟨n, ⟨ho, Or.inr ⟨ha, hob, htop ha, hc⟩⟩, hs, fun hr => absurd hr hsb⟩
    · rintro ⟨n, ⟨ho, ⟨ha, hc⟩ | ⟨ha, hob, htop, hc⟩⟩, hs, hred⟩
      · exact ⟨n + 1, hc, hs.black_mk ho ha, fun h => absurd h ha⟩
      · exact ⟨n, hc, hs.red_mk ho ha (fun hr => hred hr ha) hob, fun _ => htop⟩

variable {red' : α → Prop}

theorem RedRoot.congr (h : ∀ b ∈ s.inorder, red' b ↔ red b) : RedRoot red' s ↔ RedRoot red s := by
  constructor
  · intro ⟨a, ha, hred⟩
    exact ⟨a, ha, (h a (Shape.root_mem ha)).mp hred⟩
  · intro ⟨a, ha, hred⟩
    exact ⟨a, ha, (h a (Shape.root_mem ha)).mpr hred⟩

theorem Balanced.congr (hs : Balanced red s n) (h : ∀ b ∈ s.inorder, red' b ↔ red b) :
    Balanced red' s n := by
  induction s generalizing n with
  | nil => exact hs
  | node l b r ihl ihr =>
    obtain ⟨m, hl, hr, hcase⟩ := hs
    simp only [Shape.inorder, List.mem_append, List.mem_cons] at h
    have hleft : ∀ x ∈ l.inorder, red' x ↔ red x := fun x hx => h x (Or.inl hx)
    have hright : ∀ x ∈ r.inorder, red' x ↔ red x := fun x hx => h x (Or.inr (Or.inr hx))
    refine ⟨m, ihl hl hleft, ihr hr hright, ?_⟩
    rw [h b (by simp), RedRoot.congr hleft, RedRoot.congr hright]
    exact hcase

theorem TopRed.congr (h : ∀ b ∈ nodes c, red' b ↔ red b) : TopRed red' c ↔ TopRed red c := by
  constructor
  · intro ⟨a, ha, hred⟩
    exact ⟨a, ha, (h a (top_mem ha)).mp hred⟩
  · intro ⟨a, ha, hred⟩
    exact ⟨a, ha, (h a (top_mem ha)).mpr hred⟩

theorem Fits.congr (hc : Fits red c n) (h : ∀ b ∈ nodes c, red' b ↔ red b) : Fits red' c n := by
  induction c generalizing n with
  | nil => trivial
  | cons f c ih =>
    simp only [mem_nodes_cons] at h
    have hsib : ∀ x ∈ f.sib.inorder, red' x ↔ red x := fun x hx => h x (Or.inr (Or.inl hx))
    have hrest : ∀ x ∈ nodes c, red' x ↔ red x := fun x hx => h x (Or.inr (Or.inr hx))
    obtain ⟨ho, hcase⟩ := hc
    refine ⟨ho.congr hsib, ?_⟩
    rw [h f.a (by simp), RedRoot.congr hsib, TopRed.congr hrest]
    exact hcase.imp (fun ⟨ha, hc⟩ => ⟨ha, ih hc hrest⟩)
      (fun ⟨ha, hob, htop, hc⟩ => ⟨ha, hob, htop, ih hc hrest⟩)

theorem Balanced.paint (h : Balanced red (Shape.mk d s a o) n) (ha : red a) (ha' : ¬ red' a)
    (hs : ∀ b ∈ s.inorder, red' b ↔ red b) (ho : ∀ b ∈ o.inorder, red' b ↔ red b) :
    Balanced red' (Shape.mk d s a o) (n + 1) := by
  obtain ⟨hbs, hbo, _⟩ := h.of_red ha
  exact (hbs.congr hs).black_mk (hbo.congr ho) ha'

theorem Balanced.turn {t u : Shape α} {q g : α} (hq : ¬ red q) (hg : red g)
    (hs : Balanced red s n) (ht : Balanced red t n) (hu : Balanced red u n)
    (htb : ¬ RedRoot red t) (hub : ¬ RedRoot red u) :
    Balanced red (Shape.mk d (Shape.mk d u g t) q s) (n + 1) :=
  (hu.red_mk ht hg hub htb).black_mk hs hq

end Voxlib.LinkTree
