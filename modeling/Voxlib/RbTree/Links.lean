import Voxlib.RbTree

/-!
# Rotations and unlinking over linked trees

A rotation keeps the nodes and their order; unlinking takes one node out.
-/

namespace Voxlib.RbTree
open CStr LinkTree

variable {L : Links Addr}

def fillHole (L : Links Addr) (v : Option Addr) : List (Frame Addr) → Links Addr
  | [] => L.setRoot v
  | f :: _ => L.setChild f.dir f.a v

variable {c : List (Frame Addr)}

variable (v : Option Addr)

theorem swing_eq {u : Addr} (hctx : LinkedCtx L c (some u)) (hparent : L.parent u = top c)
    (hu : u ∉ nodes c) : swing L u v = fillHole L v c := by
  unfold swing
  rw [hparent]
  cases c with
  | nil => rfl
  | cons f c =>
    obtain ⟨dir, a, sib⟩ := f
    obtain ⟨hdir, hflip, _⟩ := hctx
    dsimp only [top]
    cases dir with
    | left => rw [if_pos hdir]; rfl
    | right =>
      have hne : L.child .left a ≠ some u := by
        intro heq
        have hsib : L.child .left a = sib.root := hflip
        rw [hsib] at heq
        exact hu (mem_nodes_cons.mpr (Or.inr (Or.inl (Shape.root_mem heq))))
      rw [if_neg hne]
      rfl

@[simp] theorem fillHole_parent (c : List (Frame Addr)) : (fillHole L v c).parent = L.parent := by
  cases c <;> rfl

theorem fillHole_child {b : Addr} (d : Dir) (hb : b ∉ nodes c) :
    (fillHole L v c).child d b = L.child d b := by
  cases c with
  | nil => rfl
  | cons f c =>
    apply setChild_node
    intro heq
    exact hb (mem_nodes_cons.mpr (Or.inl heq))

theorem fillHole_ctx {p : Option Addr} (hctx : LinkedCtx L c p) (hnodup : (nodes c).Nodup) :
    LinkedCtx (fillHole L v c) c v := by
  cases c with
  | nil => rfl
  | cons f c => exact hctx.refill v hnodup

theorem fillHole_linked {s : Shape Addr} {q : Option Addr} (hs : Linked L s q)
    (hdisj : ∀ b ∈ s.inorder, b ∉ nodes c) : Linked (fillHole L v c) s q := by
  apply hs.congr
  · intro b hb d
    exact fillHole_child v d (hdisj b hb)
  · intro b _
    rw [fillHole_parent]

theorem rotate_spells {d : Dir} {l m r : Shape Addr} {x y : Addr}
    (h : Spells L (plug c (.mk d l x (.mk d m y r)))) :
    ∃ L', rotate d L x = some L' ∧ Spells L' (plug c (.mk d (.mk d l x m) y r)) := by
  obtain ⟨hctx, hsub, hnodup⟩ := spells_plug.mp h
  obtain ⟨hc, hs, hout⟩ := nodup_plug.mp hnodup
  obtain ⟨hxl, hxr, hl, hyr, hdisj⟩ := Shape.nodup_mk.mp hs
  obtain ⟨hym, hyr', hm, hr, hmr⟩ := Shape.nodup_mk.mp hyr
  simp only [Shape.mem_mk, Shape.root_mk] at hout hxr hdisj hctx
  obtain ⟨hpx, hdx, hfx, hll, hsub'⟩ := linked_mk.mp hsub
  obtain ⟨hpy, hdy, hfy, hmm, hrr⟩ := linked_mk.mp hsub'
  rw [Shape.root_mk] at hfx
  have hxy : x ≠ y := by
    intro heq
    exact hxr (Or.inl heq)
  have hyx : y ≠ x := Ne.symm hxy
  have hxc : x ∉ nodes c := hout x (Or.inl rfl)
  have hyc : y ∉ nodes c := hout y (Or.inr (Or.inr (Or.inl rfl)))
  have hxm : x ∉ m.inorder := fun hx => hxr (Or.inr (Or.inl hx))
  have hxr' : x ∉ r.inorder := fun hx => hxr (Or.inr (Or.inr hx))
  have hyl : y ∉ l.inorder := fun hy => hdisj y hy (Or.inl rfl)
  have hlc : ∀ b ∈ l.inorder, b ∉ nodes c := fun b hb => hout b (Or.inr (Or.inl hb))
  have hmc : ∀ b ∈ m.inorder, b ∉ nodes c :=
    fun b hb => hout b (Or.inr (Or.inr (Or.inr (Or.inl hb))))
  have hrc : ∀ b ∈ r.inorder, b ∉ nodes c :=
    fun b hb => hout b (Or.inr (Or.inr (Or.inr (Or.inr hb))))
  have hml : ∀ b ∈ m.inorder, b ∉ l.inorder :=
    fun b hb hbl => hdisj b hbl (Or.inr (Or.inl hb))
  have hmx : m.root ≠ some x := fun heq => hxm (Shape.root_mem heq)
  unfold rotate
  rw [hfx]
  dsimp only
  rw [setChild_node _ hyx, hdy]
  -- the tree after `x->right = y->left`, after the parent of the moved subtree is
  -- set, and after `y->parent = x->parent`
  generalize h₁ : L.setChild d.flip x m.root = L₁
  have hctx₁ : LinkedCtx L₁ c (some x) := h₁ ▸ hctx.setChild d.flip m.root hxc
  have hl₁ : Linked L₁ l (some x) := h₁ ▸ hll.setChild d.flip m.root hxl
  have hm₁ : Linked L₁ m (some y) := h₁ ▸ hmm.setChild d.flip m.root hxm
  have hr₁ : Linked L₁ r (some y) := h₁ ▸ hrr.setChild d.flip m.root hxr'
  have hpx₁ : L₁.parent x = top c := by rw [← h₁]; exact hpx
  have hdx₁ : L₁.child d x = l.root := by rw [← h₁, setChild_flip_side]; exact hdx
  have hfx₁ : L₁.child d.flip x = m.root := by rw [← h₁, setChild_same]
  have hfy₁ : L₁.child d.flip y = r.root := by rw [← h₁, setChild_node _ hyx]; exact hfy
  generalize h₂ : L₁.setParentOf m.root (some x) = L₂
  have hctx₂ : LinkedCtx L₂ c (some x) := h₂ ▸ hctx₁.setParentOf (some x) hmc
  have hl₂ : Linked L₂ l (some x) := h₂ ▸ hl₁.setParentOf (some x) hml
  have hm₂ : Linked L₂ m (some x) := h₂ ▸ hm₁.reparent (some x) hm
  have hr₂ : Linked L₂ r (some y) := h₂ ▸ hr₁.setParentOf (some x) hmr
  have hpx₂ : L₂.parent x = top c := by rw [← h₂, setParentOf_node _ hmx]; exact hpx₁
  have hchild₂ : L₂.child = L₁.child := by rw [← h₂, setParentOf_child]
  rw [hpx₂]
  generalize h₃ : L₂.setParent y (top c) = L₃
  have hctx₃ : LinkedCtx L₃ c (some x) := h₃ ▸ hctx₂.setParent (top c) hyc
  have hl₃ : Linked L₃ l (some x) := h₃ ▸ hl₂.setParent (top c) hyl
  have hm₃ : Linked L₃ m (some x) := h₃ ▸ hm₂.setParent (top c) hym
  have hr₃ : Linked L₃ r (some y) := h₃ ▸ hr₂.setParent (top c) hyr'
  have hpx₃ : L₃.parent x = top c := by rw [← h₃, setParent_node _ hxy]; exact hpx₂
  have hpy₃ : L₃.parent y = top c := by rw [← h₃, setParent_same]
  have hchild₃ : L₃.child = L₁.child := by rw [← h₃]; exact hchild₂
  rw [swing_eq (some y) hctx₃ hpx₃ hxc]
  refine ⟨_, rfl, spells_plug.mpr ⟨?_, ?_, ?_⟩⟩
  · rw [Shape.root_mk]
    exact ((fillHole_ctx (some y) hctx₃ hc).setChild d (some x) hyc).setParent (some y) hxc
  · apply linked_mk.mpr
    refine ⟨?_, ?_, ?_, linked_mk.mpr ⟨?_, ?_, ?_, ?_, ?_⟩, ?_⟩
    · rw [setParent_node _ hyx, setChild_parent, fillHole_parent, hpy₃]
    · rw [setParent_child, setChild_same, Shape.root_mk]
    · rw [setParent_child, setChild_flip, fillHole_child _ _ hyc, hchild₃, hfy₁]
    · rw [setParent_same]
    · rw [setParent_child, setChild_node _ hxy, fillHole_child _ _ hxc, hchild₃, hdx₁]
    · rw [setParent_child, setChild_node _ hxy, fillHole_child _ _ hxc, hchild₃, hfx₁]
    · exact ((fillHole_linked (some y) hl₃ hlc).setChild d (some x) hyl).setParent (some y) hxl
    · exact ((fillHole_linked (some y) hm₃ hmc).setChild d (some x) hym).setParent (some y) hxm
    · exact ((fillHole_linked (some y) hr₃ hrc).setChild d (some x) hyr').setParent (some y) hxr'
  · rw [inorder_plug, Shape.inorder_rotate, ← inorder_plug]
    exact hnodup

theorem transplant_eq {u : Addr} (hctx : LinkedCtx L c (some u)) (hparent : L.parent u = top c)
    (hu : u ∉ nodes c) : transplant L u v = (fillHole L v c).setParentOf v (top c) := by
  unfold transplant
  rw [swing_eq v hctx hparent hu]
  dsimp only
  rw [fillHole_parent, hparent]

theorem transplant_spells {d : Dir} {s : Shape Addr} {u : Addr}
    (h : Spells L (plug c (.mk d s u .nil))) : Spells (transplant L u s.root) (plug c s) := by
  obtain ⟨hctx, hsub, hnodup⟩ := spells_plug.mp h
  obtain ⟨hc, hs, hout⟩ := nodup_plug.mp hnodup
  obtain ⟨_, _, hsn, _⟩ := Shape.nodup_mk.mp hs
  obtain ⟨hpu, _, _, hss, _⟩ := linked_mk.mp hsub
  rw [Shape.root_mk] at hctx
  have huc : u ∉ nodes c := hout u (Shape.mem_mk.mpr (Or.inl rfl))
  have hsc : ∀ b ∈ s.inorder, b ∉ nodes c :=
    fun b hb => hout b (Shape.mem_mk.mpr (Or.inr (Or.inl hb)))
  rw [transplant_eq s.root hctx hpu huc]
  refine spells_plug.mpr ⟨?_, ?_, ?_⟩
  · exact (fillHole_ctx s.root hctx hc).setParentOf (top c) hsc
  · exact (fillHole_linked s.root hss hsc).reparent (top c) hsn
  · exact nodup_plug.mpr ⟨hc, hsn, hsc⟩

theorem transplant_parent {d : Dir} {s : Shape Addr} {u : Addr}
    (h : Spells L (plug c (.mk d s u .nil))) : (transplant L u s.root).parent u = top c := by
  obtain ⟨hctx, hsub, hnodup⟩ := spells_plug.mp h
  obtain ⟨_, hs, hout⟩ := nodup_plug.mp hnodup
  obtain ⟨hus, _⟩ := Shape.nodup_mk.mp hs
  obtain ⟨hpu, _⟩ := linked_mk.mp hsub
  rw [Shape.root_mk] at hctx
  rw [transplant_eq s.root hctx hpu (hout u (Shape.mem_mk.mpr (Or.inl rfl)))]
  rw [setParentOf_node _ (fun heq => hus (Shape.root_mem heq)), fillHole_parent, hpu]

/- The last steps of the deletion of `z`: `y`, which already has its right
   subtree, gets the place and the left subtree of `z`. -/
theorem takePlace_spells {l t : Shape Addr} {z y : Addr} (hctx : LinkedCtx L c (some z))
    (hpz : L.parent z = top c) (hlz : L.child .left z = l.root) (hl : Linked L l (some z))
    (ht : Linked L t (some y)) (hry : L.child .right y = t.root) (hzc : z ∉ nodes c)
    (hnodup : (plug c (.node l y t)).inorder.Nodup) :
    let L₂ := transplant L z (some y)
    let L₃ := L₂.setChild .left y (L₂.child .left z)
    Spells (L₃.setParentOf (L₃.child .left y) (some y)) (plug c (.node l y t)) := by
  obtain ⟨hc, hs, hout⟩ := nodup_plug.mp hnodup
  obtain ⟨hyl, hyt, hln, _, hlt⟩ := (Shape.nodup_mk (d := .left)).mp hs
  have hmem {b} := Shape.mem_mk (d := .left) (s := l) (o := t) (a := y) (b := b)
  have hyc : y ∉ nodes c := hout y (hmem.mpr (Or.inl rfl))
  have hlc : ∀ b ∈ l.inorder, b ∉ nodes c := fun b hb => hout b (hmem.mpr (Or.inr (Or.inl hb)))
  have htc : ∀ b ∈ t.inorder, b ∉ nodes c := fun b hb => hout b (hmem.mpr (Or.inr (Or.inr hb)))
  have hyroot : l.root ≠ some y := fun heq => hyl (Shape.root_mem heq)
  intro L₂ L₃
  have hL₂ : L₂ = (fillHole L (some y) c).setParent y (top c) :=
    transplant_eq (some y) hctx hpz hzc
  have hctx₂ : LinkedCtx L₂ c (some y) := by
    rw [hL₂]
    exact (fillHole_ctx (some y) hctx hc).setParent (top c) hyc
  have hl₂ : Linked L₂ l (some z) := by
    rw [hL₂]
    exact (fillHole_linked (some y) hl hlc).setParent (top c) hyl
  have ht₂ : Linked L₂ t (some y) := by
    rw [hL₂]
    exact (fillHole_linked (some y) ht htc).setParent (top c) hyt
  have hchild₂ : ∀ d b, b ∉ nodes c → L₂.child d b = L.child d b := by
    intro d b hb
    rw [hL₂]
    exact fillHole_child (some y) d hb
  have hleft : L₃.child .left y = l.root := by
    have hz : L₂.child .left z = l.root := (hchild₂ .left z hzc).trans hlz
    rw [← hz]
    exact setChild_same .left y _
  rw [hleft]
  refine spells_plug.mpr ⟨?_, ⟨?_, ?_, ?_, ?_, ?_⟩, hnodup⟩
  · exact (hctx₂.setChild .left _ hyc).setParentOf (some y) hlc
  · rw [setParentOf_node _ hyroot]
    show L₂.parent y = top c
    rw [hL₂, setParent_same]
  · rw [setParentOf_child]
    exact hleft
  · rw [setParentOf_child]
    show L₂.child .right y = t.root
    rw [hchild₂ .right y hyc, hry]
  · exact (hl₂.setChild .left _ hyl).reparent (some y) hln
  · exact (ht₂.setChild .left _ hyt).setParentOf (some y) hlt

theorem replaced_out {e : List (Frame Addr)} {l r : Shape Addr} {z y : Addr}
    (h : (plug c (.node l z (plug e (.node .nil y r)))).inorder.Nodup) :
    z ∉ (plug c (.node l y (plug e r))).inorder ∧ (plug c (.node l y (plug e r))).inorder.Nodup := by
  have hperm : (plug c (.node l z (plug e (.node .nil y r)))).inorder.Perm
      (z :: (plug c (.node l y (plug e r))).inorder) := by
    simp only [inorder_plug, Shape.inorder, List.nil_append]
    rw [← Multiset.coe_eq_coe]
    simp only [← Multiset.coe_add, ← Multiset.cons_coe, ← Multiset.singleton_add]
    abel
  exact List.nodup_cons.mp (hperm.nodup_iff.mp h)

theorem unlinkMin_x {sk : Skeleton} {e : List (Frame Addr)} {l r : Shape Addr} {z y : Addr}
    (h : Spells sk.links (plug c (.node l z (plug e (.node .nil y r))))) :
    (unlinkMin sk z y).x = r.root := by
  have hfull : Spells sk.links (plug (e ++ ⟨.right, z, l⟩ :: c) (.mk .right r y .nil)) := by
    rw [plug_append]
    exact h
  obtain ⟨_, hsub, _⟩ := spells_plug.mp hfull
  exact (linked_mk.mp hsub).2.1

/- A node with two children: the first node of the right subtree takes its
   place. -/
theorem unlinkMin_spells {sk : Skeleton} {e : List (Frame Addr)} {l r : Shape Addr} {z y : Addr}
    (h : Spells sk.links (plug c (.node l z (plug e (.node .nil y r))))) :
    Spells (unlinkMin sk z y).skel.links (plug c (.node l y (plug e r))) := by
  obtain ⟨hctx, hsub, hnodup⟩ := spells_plug.mp h
  obtain ⟨hzout, hnew⟩ := replaced_out hnodup
  obtain ⟨hpz, hlz, hrz, hll, hrr⟩ := hsub
  obtain ⟨hc, hs, hout⟩ := nodup_plug.mp hnew
  obtain ⟨hyl, hyt, hln, htn, hlt⟩ := (Shape.nodup_mk (d := .left)).mp hs
  have hmem {b} := Shape.mem_mk (d := .left) (s := l) (o := plug e r) (a := y) (b := b)
  have hyc : y ∉ nodes c := hout y (hmem.mpr (Or.inl rfl))
  have htc : ∀ b ∈ (plug e r).inorder, b ∉ nodes c :=
    fun b hb => hout b (hmem.mpr (Or.inr (Or.inr hb)))
  have htl : ∀ b ∈ (plug e r).inorder, b ∉ l.inorder := fun b hb hbl => hlt b hbl hb
  have hz : z ∉ before c ∧ z ∉ behind c ∧ z ∉ l.inorder ∧ z ≠ y ∧ z ∉ (plug e r).inorder := by
    rw [inorder_plug] at hzout
    simp only [Shape.inorder, List.mem_append, List.mem_cons, not_or] at hzout
    tauto
  obtain ⟨hzb, hzh, hzl, hzy, hzt⟩ := hz
  have hzc : z ∉ nodes c := by
    rw [nodes, List.mem_append, not_or]
    exact ⟨hzb, hzh⟩
  have hroot : (plug e r).root ≠ some z := fun heq => hzt (Shape.root_mem heq)
  unfold unlinkMin
  cases e with
  | nil =>
    obtain ⟨hpy, _, hry, _, hr⟩ := hrr
    dsimp only [plug] at hnew hyt htn htc htl hroot ⊢
    rw [if_neg (by rw [hpy]; simp), hry]
    refine takePlace_spells (hctx.setParentOf (some y) htc) ?_ ?_ (hll.setParentOf (some y) htl)
      (hr.reparent (some y) htn) ?_ hzc hnew
    · rw [setParentOf_node _ hroot, hpz]
    · rw [setParentOf_child, hlz]
    · rw [setParentOf_child, hry]
  | cons f e =>
    -- `y` with its way up to the root, and that tree without `y`
    have hfull : Spells sk.links
        (plug ((f :: e) ++ ⟨.right, z, l⟩ :: c) (.mk .right r y .nil)) := by
      rw [plug_append]
      exact h
    obtain ⟨_, hy, _⟩ := spells_plug.mp hfull
    obtain ⟨hpy, hry, _⟩ := linked_mk.mp hy
    have hne : sk.links.parent y ≠ some z := by
      rw [hpy]
      intro heq
      have hfz : f.a = z := Option.some.inj heq
      apply hzt
      rw [inorder_plug, List.mem_append, List.mem_append]
      have hfn : z ∈ nodes (f :: e) := mem_nodes_cons.mpr (Or.inl hfz.symm)
      rcases List.mem_append.mp hfn with hb | hb
      · exact Or.inl (Or.inl hb)
      · exact Or.inr hb
    have hout' : Spells (transplant sk.links y r.root)
        (plug c (.node l z (plug (f :: e) r))) := by
      have hless := transplant_spells hfull
      rw [plug_append] at hless
      exact hless
    obtain ⟨hctx₁, ⟨hpz₁, hlz₁, hrz₁, hll₁, hrr₁⟩, _⟩ := spells_plug.mp hout'
    dsimp only
    rw [if_pos hne, hry]
    generalize transplant sk.links y r.root = L₁ at *
    rw [hrz₁, setChild_same]
    refine takePlace_spells ((hctx₁.setChild .right _ hyc).setParentOf (some y) htc) ?_ ?_
      ((hll₁.setChild .right _ hyl).setParentOf (some y) htl)
      ((hrr₁.setChild .right _ hyt).reparent (some y) htn) ?_ hzc hnew
    · rw [setParentOf_node _ hroot]
      exact hpz₁
    · rw [setParentOf_child, setChild_node _ hzy]
      exact hlz₁
    · rw [setParentOf_child, setChild_same]

end Voxlib.RbTree
