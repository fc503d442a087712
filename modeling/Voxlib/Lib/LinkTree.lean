import Mathlib.Tactic

/-!
# Binary trees with parent pointers

`Linked` ties a subtree to the links of a heap, and `LinkedCtx` the rest of the tree around it.
-/

namespace Voxlib.LinkTree
open List

inductive Dir where
  | left
  | right
  deriving DecidableEq, Repr

def Dir.flip : Dir → Dir
  | .left => .right
  | .right => .left

@[simp] theorem Dir.flip_flip (d : Dir) : d.flip.flip = d := by
  cases d <;> rfl

@[simp] theorem Dir.flip_ne (d : Dir) : d.flip ≠ d := by
  cases d <;> decide

@[simp] theorem Dir.ne_flip (d : Dir) : d ≠ d.flip := by
  cases d <;> decide

theorem Dir.eq_or_flip (d e : Dir) : e = d ∨ e = d.flip := by
  cases d <;> cases e <;> decide

variable {α : Type*}

inductive Shape (α : Type*) where
  | nil
  | node (l : Shape α) (a : α) (r : Shape α)

namespace Shape

def root : Shape α → Option α
  | .nil => none
  | .node _ a _ => some a

def inorder : Shape α → List α
  | .nil => []
  | .node l a r => l.inorder ++ a :: r.inorder

def mk (d : Dir) (s : Shape α) (a : α) (o : Shape α) : Shape α :=
  match d with
  | .left => .node s a o
  | .right => .node o a s

variable (d : Dir)

@[simp] theorem root_mk (s : Shape α) (a : α) (o : Shape α) : (mk d s a o).root = some a := by
  cases d <;> rfl

theorem mk_flip (s : Shape α) (a : α) (o : Shape α) : mk d.flip s a o = mk d o a s := by
  cases d <;> rfl

variable {s : Shape α}

theorem mem_mk {d : Dir} {o : Shape α} {a b : α} :
    b ∈ (mk d s a o).inorder ↔ b = a ∨ b ∈ s.inorder ∨ b ∈ o.inorder := by
  cases d with
  | left =>
    simp only [mk, inorder, mem_append, mem_cons]
    tauto
  | right =>
    simp only [mk, inorder, mem_append, mem_cons]
    tauto

theorem nodup_mk {d : Dir} {o : Shape α} {a : α} : (mk d s a o).inorder.Nodup ↔
      a ∉ s.inorder ∧ a ∉ o.inorder ∧ s.inorder.Nodup ∧ o.inorder.Nodup ∧
        ∀ b ∈ s.inorder, b ∉ o.inorder := by
  cases d with
  | left =>
    simp only [mk, inorder, nodup_append, nodup_cons, mem_cons]
    grind
  | right =>
    simp only [mk, inorder, nodup_append, nodup_cons, mem_cons]
    grind

theorem length_mk (s : Shape α) (a : α) (o : Shape α) :
    (mk d s a o).inorder.length = s.inorder.length + o.inorder.length + 1 := by
  cases d with
  | left =>
    simp only [mk, inorder, length_append, length_cons]
    omega
  | right =>
    simp only [mk, inorder, length_append, length_cons]
    omega

theorem inorder_rotate (s m r : Shape α) (x y : α) :
    (mk d (mk d s x m) y r).inorder = (mk d s x (mk d m y r)).inorder := by
  cases d <;> simp [mk, inorder]

theorem root_mem {a : α} (h : s.root = some a) : a ∈ s.inorder := by
  cases s with
  | nil => cases h
  | node l b r =>
    rw [← Option.some.inj h]
    simp [inorder]

theorem root_eq_none : s.root = none ↔ s = .nil := by
  cases s with
  | nil => simp [root]
  | node l a r => simp [root]

theorem exists_mk_of_root {a : α} (h : s.root = some a) : ∃ t o, s = mk d t a o := by
  cases s with
  | nil => cases h
  | node l b r =>
    obtain rfl := Option.some.inj h
    cases d with
    | left => exact ⟨l, r, rfl⟩
    | right => exact ⟨r, l, rfl⟩

end Shape

/-- The hole is the child on side `dir` of `a`; `sib` is the other child. -/
structure Frame (α : Type*) where
  dir : Dir
  a : α
  sib : Shape α

def plug : List (Frame α) → Shape α → Shape α
  | [], s => s
  | f :: c, s => plug c (Shape.mk f.dir s f.a f.sib)

def top : List (Frame α) → Option α
  | [] => none
  | f :: _ => some f.a

def before : List (Frame α) → List α
  | [] => []
  | f :: c =>
    match f.dir with
    | .left => before c
    | .right => before c ++ (f.sib.inorder ++ [f.a])

def behind : List (Frame α) → List α
  | [] => []
  | f :: c =>
    match f.dir with
    | .left => f.a :: (f.sib.inorder ++ behind c)
    | .right => behind c

theorem inorder_plug (c : List (Frame α)) (s : Shape α) :
    (plug c s).inorder = before c ++ s.inorder ++ behind c := by
  induction c generalizing s with
  | nil => simp [plug, before, behind]
  | cons f c ih =>
    obtain ⟨dir, a, sib⟩ := f
    rw [plug, ih]
    cases dir with
    | left => simp [Shape.mk, Shape.inorder, before, behind]
    | right => simp [Shape.mk, Shape.inorder, before, behind]

def nodes (c : List (Frame α)) : List α := before c ++ behind c

variable {c : List (Frame α)}

theorem mem_nodes_cons {f : Frame α} {b : α} :
    b ∈ nodes (f :: c) ↔ b = f.a ∨ b ∈ f.sib.inorder ∨ b ∈ nodes c := by
  obtain ⟨dir, a, sib⟩ := f
  cases dir with
  | left =>
    simp only [nodes, before, behind, mem_append, mem_cons]
    tauto
  | right =>
    simp only [nodes, before, behind, mem_append, mem_cons, not_mem_nil]
    tauto

variable {s : Shape α}

theorem nodup_plug : (plug c s).inorder.Nodup ↔
      (nodes c).Nodup ∧ s.inorder.Nodup ∧ ∀ b ∈ s.inorder, b ∉ nodes c := by
  rw [inorder_plug, nodes]
  simp only [nodup_append, mem_append]
  grind

theorem nodup_nodes_cons {f : Frame α} : (nodes (f :: c)).Nodup ↔
      f.a ∉ f.sib.inorder ∧ f.a ∉ nodes c ∧ f.sib.inorder.Nodup ∧ (nodes c).Nodup ∧
        ∀ b ∈ f.sib.inorder, b ∉ nodes c := by
  have hplug : nodes (f :: c) = (plug (f :: c) .nil).inorder := by
    rw [inorder_plug]
    simp [nodes, Shape.inorder]
  rw [hplug, plug, nodup_plug, Shape.nodup_mk]
  simp only [Shape.mem_mk, Shape.inorder, not_mem_nil, nodup_nil]
  grind

theorem plug_append (c e : List (Frame α)) (s : Shape α) : plug (c ++ e) s = plug e (plug c s) := by
  induction c generalizing s with
  | nil => rfl
  | cons f c ih => exact ih _

theorem exists_plug {a : α} (h : a ∈ s.inorder) : ∃ c l r, s = plug c (.node l a r) := by
  induction s with
  | nil => cases h
  | node l b r ihl ihr =>
    rcases mem_append.mp h with hl | hr
    · obtain ⟨c, l', r', hc⟩ := ihl hl
      refine ⟨c ++ [⟨.left, b, r⟩], l', r', ?_⟩
      rw [plug_append, ← hc]
      rfl
    · rcases mem_cons.mp hr with hb | hr
      · subst hb
        exact ⟨[], l, r, rfl⟩
      · obtain ⟨c, l', r', hc⟩ := ihr hr
        refine ⟨c ++ [⟨.right, b, l⟩], l', r', ?_⟩
        rw [plug_append, ← hc]
        rfl

theorem length_le_nodes (c : List (Frame α)) : c.length ≤ (nodes c).length := by
  induction c with
  | nil => simp
  | cons f c ih =>
    obtain ⟨dir, a, sib⟩ := f
    rw [nodes, length_append] at ih
    cases dir with
    | left =>
      simp only [nodes, before, behind, length_append, length_cons]
      omega
    | right =>
      simp only [nodes, before, behind, length_append, length_cons, length_nil]
      omega

theorem before_eq_nil (h : ∀ f ∈ c, f.dir = .left) : before c = [] := by
  induction c with
  | nil => rfl
  | cons f c ih =>
    rw [before, h f mem_cons_self]
    exact ih (fun g hg => h g (mem_cons_of_mem f hg))

theorem behind_eq_nil (h : ∀ f ∈ c, f.dir = .right) : behind c = [] := by
  induction c with
  | nil => rfl
  | cons f c ih =>
    rw [behind, h f mem_cons_self]
    exact ih (fun g hg => h g (mem_cons_of_mem f hg))

structure Links (α : Type*) where
  child : Dir → α → Option α
  parent : α → Option α
  root : Option α

/-- The links below `q` spell out the shape. -/
def Linked (L : Links α) : Shape α → Option α → Prop
  | .nil, _ => True
  | .node l a r, q =>
    L.parent a = q ∧ L.child .left a = l.root ∧ L.child .right a = r.root ∧
      Linked L l (some a) ∧ Linked L r (some a)

/-- The links around a hole that is filled with `p`. -/
def LinkedCtx (L : Links α) : List (Frame α) → Option α → Prop
  | [], p => L.root = p
  | f :: c, p =>
    L.child f.dir f.a = p ∧ L.child f.dir.flip f.a = f.sib.root ∧ L.parent f.a = top c ∧
      Linked L f.sib (some f.a) ∧ LinkedCtx L c (some f.a)

/-- The links spell out a tree, and no node is in it twice. -/
structure Spells (L : Links α) (s : Shape α) : Prop where
  root : L.root = s.root
  linked : Linked L s none
  nodup : s.inorder.Nodup

theorem linked_mk {L : Links α} {d : Dir} {o : Shape α} {a : α} {q : Option α} :
    Linked L (Shape.mk d s a o) q ↔
      L.parent a = q ∧ L.child d a = s.root ∧ L.child d.flip a = o.root ∧
        Linked L s (some a) ∧ Linked L o (some a) := by
  cases d with
  | left => rfl
  | right =>
    simp only [Shape.mk, Linked, Dir.flip]
    tauto

theorem linked_plug {L : Links α} : L.root = (plug c s).root ∧ Linked L (plug c s) none ↔
      LinkedCtx L c s.root ∧ Linked L s (top c) := by
  induction c generalizing s with
  | nil => rfl
  | cons f c ih =>
    rw [plug, ih, Shape.root_mk, linked_mk, LinkedCtx, top]
    tauto

theorem spells_plug {L : Links α} : Spells L (plug c s) ↔
      LinkedCtx L c s.root ∧ Linked L s (top c) ∧ (plug c s).inorder.Nodup := by
  constructor
  · intro ⟨hroot, hlinked, hnodup⟩
    obtain ⟨hctx, hsub⟩ := linked_plug.mp ⟨hroot, hlinked⟩
    exact ⟨hctx, hsub, hnodup⟩
  · intro ⟨hctx, hsub, hnodup⟩
    obtain ⟨hroot, hlinked⟩ := linked_plug.mpr ⟨hctx, hsub⟩
    exact ⟨hroot, hlinked, hnodup⟩

theorem plug_root (f : Frame α) (c : List (Frame α)) :
    ∃ a ∈ nodes (f :: c), ∀ s, (plug (f :: c) s).root = some a := by
  induction c generalizing f with
  | nil =>
    refine ⟨f.a, mem_nodes_cons.mpr (Or.inl rfl), ?_⟩
    intro s
    exact Shape.root_mk f.dir s f.a f.sib
  | cons g c ih =>
    obtain ⟨a, ha, hroot⟩ := ih g
    refine ⟨a, mem_nodes_cons.mpr (Or.inr (Or.inr ha)), ?_⟩
    intro s
    exact hroot _

theorem top_mem {q : α} (h : top c = some q) : q ∈ nodes c := by
  cases c with
  | nil => cases h
  | cons f c => exact mem_nodes_cons.mpr (Or.inl (Option.some.inj h).symm)

theorem mem_plug {b : α} : b ∈ (plug c s).inorder ↔ b ∈ nodes c ∨ b ∈ s.inorder := by
  rw [inorder_plug, nodes]
  simp only [mem_append]
  tauto

theorem Spells.child_spec {L : Links α} (h : Spells L s) {d : Dir} {x y : α} (hx : x ∈ s.inorder)
    (hxy : L.child d x = some y) :
    y ∈ s.inorder ∧ L.parent y = some x ∧ y ≠ x ∧ L.root ≠ some y := by
  obtain ⟨c, l, r, hs⟩ := exists_plug hx
  obtain ⟨t, o, ht⟩ := Shape.exists_mk_of_root d (show (Shape.node l x r).root = some x from rfl)
  rw [hs, ht] at h
  obtain ⟨hctx, hsub, hnodup⟩ := spells_plug.mp h
  obtain ⟨_, hn, hout⟩ := nodup_plug.mp hnodup
  obtain ⟨hxt, _⟩ := Shape.nodup_mk.mp hn
  obtain ⟨_, hchild, _, hlinked, _⟩ := linked_mk.mp hsub
  rw [hchild] at hxy
  have hyt : y ∈ t.inorder := Shape.root_mem hxy
  have hmk : y ∈ (Shape.mk d t x o).inorder := Shape.mem_mk.mpr (Or.inr (Or.inl hyt))
  obtain ⟨l', r', hnode⟩ := Shape.exists_mk_of_root .left hxy
  have hne : y ≠ x := fun heq => hxt (heq ▸ hyt)
  refine ⟨?_, ?_, hne, ?_⟩
  · rw [hs, ht]
    exact mem_plug.mpr (Or.inr hmk)
  · rw [hnode] at hlinked
    exact (linked_mk.mp hlinked).1
  · intro hroot
    rw [h.root] at hroot
    cases c with
    | nil =>
      rw [plug, Shape.root_mk] at hroot
      exact hne (Option.some.inj hroot).symm
    | cons f c =>
      obtain ⟨a, ha, hplug⟩ := plug_root f c
      rw [hplug] at hroot
      rw [Option.some.inj hroot] at ha
      exact hout y hmk ha

theorem Spells.parent_mem {L : Links α} (h : Spells L s) {x q : α} (hx : x ∈ s.inorder)
    (hq : L.parent x = some q) : q ∈ s.inorder := by
  obtain ⟨c, l, r, hs⟩ := exists_plug hx
  rw [hs] at h
  obtain ⟨_, hsub, _⟩ := spells_plug.mp h
  rw [hsub.1] at hq
  rw [hs]
  exact mem_plug.mpr (Or.inl (top_mem hq))

theorem Linked.congr {L M : Links α} {q : Option α} (h : Linked L s q)
    (hchild : ∀ b ∈ s.inorder, ∀ d, M.child d b = L.child d b)
    (hparent : ∀ b ∈ s.inorder, M.parent b = L.parent b) : Linked M s q := by
  induction s generalizing q with
  | nil => trivial
  | node l a r ihl ihr =>
    obtain ⟨hp, hl, hr, hll, hrr⟩ := h
    simp only [Shape.inorder, mem_append, mem_cons] at hchild hparent
    refine ⟨?_, ?_, ?_, ihl hll ?_ ?_, ihr hrr ?_ ?_⟩
    · rw [hparent a (by simp), hp]
    · rw [hchild a (by simp), hl]
    · rw [hchild a (by simp), hr]
    · intro b hb
      exact hchild b (Or.inl hb)
    · intro b hb
      exact hparent b (Or.inl hb)
    · intro b hb
      exact hchild b (Or.inr (Or.inr hb))
    · intro b hb
      exact hparent b (Or.inr (Or.inr hb))

theorem LinkedCtx.congr {L M : Links α} {p : Option α} (h : LinkedCtx L c p)
    (hroot : M.root = L.root) (hchild : ∀ b ∈ nodes c, ∀ d, M.child d b = L.child d b)
    (hparent : ∀ b ∈ nodes c, M.parent b = L.parent b) : LinkedCtx M c p := by
  induction c generalizing p with
  | nil => exact hroot.trans h
  | cons f c ih =>
    obtain ⟨hdir, hflip, hpar, hsib, hrest⟩ := h
    simp only [mem_nodes_cons] at hchild hparent
    refine ⟨?_, ?_, ?_, hsib.congr ?_ ?_, ih hrest ?_ ?_⟩
    · rw [hchild f.a (by simp), hdir]
    · rw [hchild f.a (by simp), hflip]
    · rw [hparent f.a (by simp), hpar]
    · intro b hb
      exact hchild b (Or.inr (Or.inl hb))
    · intro b hb
      exact hparent b (Or.inr (Or.inl hb))
    · intro b hb
      exact hchild b (Or.inr (Or.inr hb))
    · intro b hb
      exact hparent b (Or.inr (Or.inr hb))

section Assign

variable [DecidableEq α]

def Links.setChild (L : Links α) (d : Dir) (a : α) (v : Option α) : Links α :=
  { L with child := fun e b => if e = d ∧ b = a then v else L.child e b }

def Links.setParent (L : Links α) (a : α) (q : Option α) : Links α :=
  { L with parent := fun b => if b = a then q else L.parent b }

/- `if (p) p->parent = q` -/
def Links.setParentOf (L : Links α) (p q : Option α) : Links α :=
  match p with
  | none => L
  | some a => L.setParent a q

def Links.setRoot (L : Links α) (p : Option α) : Links α := { L with root := p }

variable {L : Links α}

variable (d : Dir)

@[simp] theorem setChild_parent (a : α) (v : Option α) : (L.setChild d a v).parent = L.parent := rfl

@[simp] theorem setChild_root (a : α) (v : Option α) : (L.setChild d a v).root = L.root := rfl

@[simp] theorem setChild_same (a : α) (v : Option α) : (L.setChild d a v).child d a = v := by
  simp [Links.setChild]

variable {a : α}

variable (v : Option α)

theorem setChild_node {d e : Dir} {b : α} (h : b ≠ a) :
    (L.setChild d a v).child e b = L.child e b := by
  simp [Links.setChild, h]

@[simp] theorem setChild_flip (a b : α) (v : Option α) :
    (L.setChild d a v).child d.flip b = L.child d.flip b := by
  simp [Links.setChild]

@[simp] theorem setChild_flip_side (a b : α) (v : Option α) :
    (L.setChild d.flip a v).child d b = L.child d b := by
  simp [Links.setChild]

@[simp] theorem setParent_child (a : α) (q : Option α) : (L.setParent a q).child = L.child := rfl

@[simp] theorem setParent_root (a : α) (q : Option α) : (L.setParent a q).root = L.root := rfl

@[simp] theorem setParent_same (a : α) (q : Option α) : (L.setParent a q).parent a = q := by
  simp [Links.setParent]

theorem setParent_node {b : α} (q : Option α) (h : b ≠ a) :
    (L.setParent a q).parent b = L.parent b := by
  simp [Links.setParent, h]

@[simp] theorem setParentOf_child (p q : Option α) : (L.setParentOf p q).child = L.child := by
  cases p <;> rfl

@[simp] theorem setParentOf_root (p q : Option α) : (L.setParentOf p q).root = L.root := by
  cases p <;> rfl

variable {p : Option α}

theorem setParentOf_node {b : α} (q : Option α) (h : p ≠ some b) :
    (L.setParentOf p q).parent b = L.parent b := by
  cases p with
  | none => rfl
  | some a =>
    apply setParent_node
    intro hb
    rw [hb] at h
    exact h rfl

variable {s : Shape α} {q : Option α}

theorem Linked.setChild (v : Option α) (h : Linked L s q) (ha : a ∉ s.inorder) :
    Linked (L.setChild d a v) s q := by
  apply h.congr
  · intro b hb e
    exact setChild_node v (fun heq => ha (heq ▸ hb))
  · intro b _
    rfl

theorem Linked.setParent (h : Linked L s q) (ha : a ∉ s.inorder) :
    Linked (L.setParent a v) s q := by
  apply h.congr
  · intro b _ e
    rfl
  · intro b hb
    exact setParent_node v (fun heq => ha (heq ▸ hb))

variable {c : List (Frame α)}

theorem LinkedCtx.setChild (v : Option α) (h : LinkedCtx L c p) (ha : a ∉ nodes c) :
    LinkedCtx (L.setChild d a v) c p := by
  apply LinkedCtx.congr h
  · rfl
  · intro b hb e
    exact setChild_node v (fun heq => ha (heq ▸ hb))
  · intro b _
    rfl

theorem LinkedCtx.setParent (h : LinkedCtx L c p) (ha : a ∉ nodes c) :
    LinkedCtx (L.setParent a v) c p := by
  apply LinkedCtx.congr h
  · rfl
  · intro b _ e
    rfl
  · intro b hb
    exact setParent_node v (fun heq => ha (heq ▸ hb))

theorem Linked.setParentOf {t : Shape α} (h : Linked L s q)
    (hdisj : ∀ b ∈ t.inorder, b ∉ s.inorder) : Linked (L.setParentOf t.root v) s q := by
  cases t with
  | nil => exact h
  | node l a r => exact h.setParent v (hdisj a (Shape.root_mem rfl))

theorem LinkedCtx.setParentOf {t : Shape α} (h : LinkedCtx L c p)
    (hdisj : ∀ b ∈ t.inorder, b ∉ nodes c) : LinkedCtx (L.setParentOf t.root v) c p := by
  cases t with
  | nil => exact h
  | node l a r => exact h.setParent v (hdisj a (Shape.root_mem rfl))

theorem Linked.reparent (h : Linked L s q) (hnodup : s.inorder.Nodup) :
    Linked (L.setParentOf s.root v) s v := by
  cases s with
  | nil => trivial
  | node l a r =>
    obtain ⟨_, hl, hr, hll, hrr⟩ := h
    have hmk : (Shape.mk .left l a r).inorder.Nodup := hnodup
    obtain ⟨hal, har, _⟩ := Shape.nodup_mk.mp hmk
    exact ⟨setParent_same a v, hl, hr, hll.setParent v hal, hrr.setParent v har⟩

theorem LinkedCtx.refill {f : Frame α} (h : LinkedCtx L (f :: c) p)
    (hnodup : (nodes (f :: c)).Nodup) : LinkedCtx (L.setChild f.dir f.a v) (f :: c) v := by
  obtain ⟨_, hflip, hpar, hsib, hrest⟩ := h
  obtain ⟨hasib, hac, _⟩ := nodup_nodes_cons.mp hnodup
  refine ⟨setChild_same f.dir f.a v, ?_, hpar, hsib.setChild f.dir v hasib,
    hrest.setChild f.dir v hac⟩
  rw [setChild_flip]
  exact hflip

end Assign

end Voxlib.LinkTree
