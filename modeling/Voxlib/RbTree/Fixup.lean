import Voxlib.Lib.RedBlack
import Voxlib.RbTree.Links

/-!
# The fix-ups end and keep the order of the nodes
-/

namespace Voxlib.RbTree
open CStr LinkTree Option

@[simp] theorem setColor_links (sk : Skeleton) (p : Option Addr) (c : Color) :
    (setColor sk p c).links = sk.links := by
  cases p <;> rfl

theorem setColor_same (sk : Skeleton) (a : Addr) (c : Color) :
    (setColor sk (some a) c).color a = c := by
  simp [setColor]

theorem setColor_other {sk : Skeleton} {p : Option Addr} {b : Addr} (c : Color) (h : p ≠ some b) :
    (setColor sk p c).color b = sk.color b := by
  cases p with
  | none => rfl
  | some a =>
    have hne : b ≠ a := fun heq => h (heq ▸ rfl)
    simp [setColor, hne]

theorem setColor_black {sk : Skeleton} {p : Option Addr} {b : Addr} (h : sk.color b = .black) :
    (setColor sk p .black).color b = .black := by
  by_cases hp : p = some b
  · rw [hp]
    exact setColor_same sk b .black
  · rw [setColor_other .black hp, h]

theorem isBlack_eq_not_isRed (sk : Skeleton) (p : Option Addr) : isBlack sk p = !isRed sk p := by
  cases p with
  | none => rfl
  | some a =>
    cases hc : sk.color a with
    | red => simp [isBlack, isRed, hc]
    | black => simp [isBlack, isRed, hc]

def RootBlack (sk : Skeleton) : Prop := ∀ a, sk.links.root = some a → sk.color a = .black

theorem rootBlack_paint_root (sk : Skeleton) : RootBlack (setColor sk sk.links.root .black) := by
  intro b hb
  rw [setColor_links] at hb
  rw [hb]
  exact setColor_same sk b .black

theorem rotateAt_eq (d : Dir) (sk : Skeleton) (x : Addr) :
    rotateAt d sk x = (rotate d sk.links x).map fun L => { sk with links := L } := by
  cases d <;> rfl

variable {c : List (Frame Addr)}

theorem rotateAt_turn {sk : Skeleton} {d : Dir} {l m r : Shape Addr} {x y : Addr}
    (h : Spells sk.links (plug c (.mk d l x (.mk d m y r)))) :
    ∃ L, rotateAt d sk x = some ⟨L, sk.color⟩ ∧ Spells L (plug c (.mk d (.mk d l x m) y r)) := by
  obtain ⟨L, hrot, hspell⟩ := rotate_spells h
  refine ⟨L, ?_, hspell⟩
  rw [rotateAt_eq, hrot]
  rfl

theorem insertCase3_spells {sk : Skeleton} {d : Dir} {s o u : Shape Addr} {a p g : Addr}
    (h : Spells sk.links (plug c (.mk d (.mk d s p o) g u))) (ha : s.root = some a) :
    ∃ L, insertCase3 d sk a =
        some (⟨L, Function.update (Function.update sk.color p .black) g .red⟩, a) ∧
      Spells L (plug c (.mk d.flip (.mk d.flip u g o) p s)) := by
  obtain ⟨hctx, hsub, hnodup⟩ := spells_plug.mp h
  obtain ⟨_, _, _, hsub', _⟩ := linked_mk.mp hsub
  obtain ⟨hpp, _, _, hs, _⟩ := linked_mk.mp hsub'
  have hpa : sk.links.parent a = some p := by
    obtain ⟨l, r, hmk⟩ := Shape.exists_mk_of_root .left ha
    rw [hmk] at hs
    exact (linked_mk.mp hs).1
  have hflip : Spells sk.links (plug c (.mk d.flip u g (.mk d.flip o p s))) := by
    rw [Shape.mk_flip, Shape.mk_flip]
    exact h
  obtain ⟨L, hrot, hspell⟩ := rotate_spells hflip
  refine ⟨L, ?_, hspell⟩
  unfold insertCase3
  rw [hpa]
  dsimp only
  rw [hpp]
  dsimp only
  rw [rotateAt_eq, setColor_links, setColor_links, hrot]
  rfl

theorem insertLoop_stop {sk : Skeleton} {a p : Addr} (fuel : ℕ) (hp : sk.links.parent a = some p)
    (hblack : sk.color p = .black) : insertLoop (fuel + 1) sk a = some sk := by
  unfold insertLoop
  split
  · rfl
  · rw [hp]
    simp [isRed, hblack]

/- What a turn makes of the subtree `s` below the red parent `p`: `q` comes up
   between `m` and `w`. -/
inductive Turned (d : Dir) (p a : Addr) : Shape Addr → Shape Addr → Addr → Shape Addr →
    Shape Addr → Prop where
  | outer {s o : Shape Addr} : Turned d p a s o p o s
  | inner {m r o : Shape Addr} : Turned d p a (.mk d m a r) o a r (.mk d o p m)

theorem insertCases_turn {sk : Skeleton} {d e : Dir} {s o u : Shape Addr} {a p g : Addr}
    (h : Spells sk.links (plug c (.mk d (.mk e s p o) g u))) (ha : s.root = some a)
    (huncle : isRed sk u.root = false) : ∃ L node q m w, insertCases d sk a p g =
        some (⟨L, Function.update (Function.update sk.color q .black) g .red⟩, node) ∧
      Spells L (plug c (.mk d.flip (.mk d.flip u g m) q w)) ∧
      (plug c (.mk d.flip (.mk d.flip u g m) q w)).inorder =
        (plug c (.mk d (.mk e s p o) g u)).inorder ∧
      L.parent node = some q ∧ q ≠ g ∧ Turned d p a s o q m w := by
  obtain ⟨_, hsub, hnodup⟩ := spells_plug.mp h
  obtain ⟨_, hn, _⟩ := nodup_plug.mp hnodup
  obtain ⟨hgs, _, hn', _⟩ := Shape.nodup_mk.mp hn
  obtain ⟨hps, hpo, _, _, hso⟩ := Shape.nodup_mk.mp hn'
  obtain ⟨_, _, hgu, hsub', _⟩ := linked_mk.mp hsub
  obtain ⟨_, hps', hpo', hs, _⟩ := linked_mk.mp hsub'
  have has : a ∈ s.inorder := Shape.root_mem ha
  have hpg : p ≠ g := fun heq => hgs (Shape.mem_mk.mpr (Or.inl heq.symm))
  have hag : a ≠ g := fun heq => hgs (Shape.mem_mk.mpr (Or.inr (Or.inl (heq ▸ has))))
  unfold insertCases
  dsimp only
  rw [hgu, huncle]
  rw [if_neg (by decide)]
  rcases Dir.eq_or_flip d e with he | he
  · -- the node is on the outer side
    subst he
    have hne : sk.links.child e.flip p ≠ some a := by
      rw [hpo']
      intro heq
      exact hso a has (Shape.root_mem heq)
    rw [if_neg hne]
    obtain ⟨L, hcase, hspell⟩ := insertCase3_spells h ha
    refine ⟨L, a, p, o, s, hcase, hspell, ?_, ?_, hpg, .outer⟩
    · rw [inorder_plug, inorder_plug, Shape.inorder_rotate, Shape.mk_flip, Shape.mk_flip]
    · obtain ⟨_, hl, _⟩ := spells_plug.mp hspell
      obtain ⟨_, _, _, _, hl'⟩ := linked_mk.mp hl
      obtain ⟨l, r, hmk⟩ := Shape.exists_mk_of_root .left ha
      rw [hmk] at hl'
      exact (linked_mk.mp hl').1
  · -- the node is on the inner side and is turned outwards first
    subst he
    rw [if_pos (by rw [hps', ha])]
    obtain ⟨m, r, hmk⟩ := Shape.exists_mk_of_root d ha
    subst hmk
    have hinner : Spells sk.links (plug (⟨d, g, u⟩ :: c) (.mk d o p (.mk d m a r))) := by
      rw [← Shape.mk_flip]
      exact h
    obtain ⟨L, hrot, hspell⟩ := rotateAt_turn hinner
    have houter : Spells (⟨L, sk.color⟩ : Skeleton).links
        (plug c (.mk d (.mk d (.mk d o p m) a r) g u)) := hspell
    obtain ⟨L', hcase, hspell'⟩ := insertCase3_spells houter (Shape.root_mk d o p m)
    refine ⟨L', p, a, r, .mk d o p m, ?_, hspell', ?_, ?_, hag, .inner⟩
    · rw [hrot]
      exact hcase
    · have hturn : (plug c (.mk d (.mk d (.mk d o p m) a r) g u)).inorder =
          (plug c (.mk d (.mk d.flip (.mk d m a r) p o) g u)).inorder := by
        cases d with
        | left => simp [inorder_plug, Shape.mk, Shape.inorder, Dir.flip]
        | right => simp [inorder_plug, Shape.mk, Shape.inorder, Dir.flip]
      rw [← hturn, inorder_plug, inorder_plug, Shape.inorder_rotate, Shape.mk_flip, Shape.mk_flip]
    · obtain ⟨_, hl, _⟩ := spells_plug.mp hspell'
      obtain ⟨_, _, _, _, hl'⟩ := linked_mk.mp hl
      exact (linked_mk.mp hl').1

def Reds (sk : Skeleton) (a : Addr) : Prop := sk.color a = .red

theorem isRed_iff {sk : Skeleton} {s : Shape Addr} :
    isRed sk s.root = true ↔ RedRoot (Reds sk) s := by
  unfold RedRoot
  cases s.root with
  | none => simp [isRed]
  | some a => simp [isRed, Reds]

theorem not_reds {sk : Skeleton} {a : Addr} : ¬ Reds sk a ↔ sk.color a = .black := by
  unfold Reds
  cases sk.color a with
  | red => simp
  | black => simp

theorem reds_setColor {sk : Skeleton} {p : Option Addr} {b : Addr} (c : Color) (h : p ≠ some b) :
    Reds (setColor sk p c) b ↔ Reds sk b := by
  unfold Reds
  rw [setColor_other c h]

/- After the turn the two nodes below the black one are the roots of balanced
   subtrees. -/
theorem turn_balanced {red red' : Addr → Prop} {d e : Dir} {s o u m w : Shape Addr} {a p g q : Addr}
    {n : ℕ} (hs : Balanced red s n) (ha : s.root = some a) (hared : red a)
    (hc : Fits red (⟨e, p, o⟩ :: ⟨d, g, u⟩ :: c) n) (hp : red p) (hu : ¬ RedRoot red u)
    (hturn : Turned d p a s o q m w)
    (hnodup : (plug c (.mk d.flip (.mk d.flip u g m) q w)).inorder.Nodup) (hq : ¬ red' q)
    (hg : red' g) (hsame : ∀ b, b ≠ q → b ≠ g → (red' b ↔ red b)) :
    ∃ k, Balanced red' (plug c (.mk d.flip (.mk d.flip u g m) q w)) k := by
  -- the grandparent is black, and the parent has a black sibling
  obtain ⟨ho, ⟨hblack, _⟩ | ⟨_, hob, htop, hun, hcg⟩⟩ := hc
  · exact absurd hp hblack
  obtain ⟨_, hcn⟩ : ¬ red g ∧ Fits red c (n + 1) := by
    rcases hcg with hcg | ⟨hgr, _⟩
    · exact hcg
    · exact absurd (topRed_cons.mpr hgr) htop
  have hparts : Balanced red m n ∧ ¬ RedRoot red m ∧ Balanced red w n := by
    cases hturn with
    | outer => exact ⟨ho, hob, hs⟩
    | @inner x =>
      obtain ⟨hx, hm, hxb, hmb⟩ := hs.of_red
        (some.inj ((Shape.root_mk ..).symm.trans ha) ▸ hared)
      exact ⟨hm, hmb, ho.red_mk hx hp hob hxb⟩
  obtain ⟨hm, hmb, hw⟩ := hparts
  -- none of the other nodes is painted
  obtain ⟨_, hn, hout⟩ := nodup_plug.mp hnodup
  obtain ⟨hqs, hqw, hn', _, hdisj⟩ := Shape.nodup_mk.mp hn
  obtain ⟨hgu, hgm, _⟩ := Shape.nodup_mk.mp hn'
  simp only [Shape.mem_mk] at hqs hdisj hout
  have hctx : ∀ b ∈ nodes c, red' b ↔ red b := by
    intro b hb
    apply hsame
    · intro heq
      exact hout b (Or.inl heq) hb
    · intro heq
      exact hout b (Or.inr (Or.inl (Or.inl heq))) hb
  have huc : ∀ b ∈ u.inorder, red' b ↔ red b := by
    intro b hb
    apply hsame
    · intro heq
      exact hqs (Or.inr (Or.inl (heq ▸ hb)))
    · intro heq
      exact hgu (heq ▸ hb)
  have hmc : ∀ b ∈ m.inorder, red' b ↔ red b := by
    intro b hb
    apply hsame
    · intro heq
      exact hqs (Or.inr (Or.inr (heq ▸ hb)))
    · intro heq
      exact hgm (heq ▸ hb)
  have hwc : ∀ b ∈ w.inorder, red' b ↔ red b := by
    intro b hb
    apply hsame
    · intro heq
      exact hqw (heq ▸ hb)
    · intro heq
      exact hdisj b (Or.inl heq) hb
  apply balanced_plug.mpr
  refine ⟨n + 1, hcn.congr hctx, ?_, ?_⟩
  · apply Balanced.turn hq hg (hw.congr hwc) (hm.congr hmc) (hun.congr huc)
    · rw [RedRoot.congr hmc]
      exact hmb
    · rw [RedRoot.congr huc]
      exact hu
  · intro hred
    exact absurd (redRoot_mk.mp hred) hq

theorem recolour_balanced {red red' : Addr → Prop} {d e : Dir} {s o u : Shape Addr} {p g : Addr}
    {n : ℕ} (hs : Balanced red s n) (hc : Fits red (⟨e, p, o⟩ :: ⟨d, g, u⟩ :: c) n) (hp : red p)
    (hu : RedRoot red u) (hnodup : (plug c (.mk d (.mk e s p o) g u)).inorder.Nodup)
    (hp' : ¬ red' p) (hg' : red' g) (hu' : ¬ RedRoot red' u)
    (hsame : ∀ b, b ≠ p → b ≠ g → u.root ≠ some b → (red' b ↔ red b)) :
    Balanced red' (.mk d (.mk e s p o) g u) (n + 1) ∧ Fits red' c (n + 1) := by
  obtain ⟨ho, ⟨hblack, _⟩ | ⟨_, _, htop, hun, hcg⟩⟩ := hc
  · exact absurd hp hblack
  obtain ⟨_, hcn⟩ : ¬ red g ∧ Fits red c (n + 1) := by
    rcases hcg with hcg | ⟨hgr, _⟩
    · exact hcg
    · exact absurd (topRed_cons.mpr hgr) htop
  obtain ⟨x, hx, hxr⟩ := hu
  obtain ⟨u₁, u₂, rfl⟩ := Shape.exists_mk_of_root .left hx
  rw [redRoot_mk] at hu'
  obtain ⟨_, hn, hout⟩ := nodup_plug.mp hnodup
  obtain ⟨hgs, hgu, hn', hnu, hdisj⟩ := Shape.nodup_mk.mp hn
  obtain ⟨hps, hpo, _, _, _⟩ := Shape.nodup_mk.mp hn'
  obtain ⟨hx₁, hx₂, _⟩ := Shape.nodup_mk.mp hnu
  simp only [Shape.mem_mk] at hgs hgu hout hdisj
  rw [Shape.root_mk] at hsame
  have hpart : ∀ t : Shape Addr, (∀ b ∈ t.inorder, b ≠ p ∧ b ≠ g ∧ b ≠ x) →
      ∀ b ∈ t.inorder, red' b ↔ red b := by
    intro t ht b hb
    obtain ⟨hbp, hbg, hbx⟩ := ht b hb
    exact hsame b hbp hbg (fun heq => hbx (some.inj heq).symm)
  have hsc : ∀ b ∈ s.inorder, red' b ↔ red b := hpart s (by grind)
  have hoc : ∀ b ∈ o.inorder, red' b ↔ red b := hpart o (by grind)
  have h₁c : ∀ b ∈ u₁.inorder, red' b ↔ red b := hpart u₁ (by grind)
  have h₂c : ∀ b ∈ u₂.inorder, red' b ↔ red b := hpart u₂ (by grind)
  constructor
  · have hup : Balanced red' (Shape.mk .left u₁ x u₂) (n + 1) := hun.paint hxr hu' h₁c h₂c
    have hpp : Balanced red' (Shape.mk e s p o) (n + 1) :=
      (hs.congr hsc).black_mk (ho.congr hoc) hp'
    exact hpp.red_mk hup hg' (by rwa [redRoot_mk]) (by rwa [redRoot_mk])
  · apply hcn.congr
    intro b hb
    apply hsame
    · intro heq
      exact hout b (by grind) hb
    · intro heq
      exact hout b (Or.inl heq) hb
    · intro heq
      exact hout b (by grind) hb

/- The painting of the case with a red uncle. -/
def recolour (sk : Skeleton) (p : Addr) (uncle : Option Addr) (g : Addr) : Skeleton :=
  setColor (setColor (setColor sk (some p) .black) uncle .black) (some g) .red

section
variable {sk : Skeleton} {p g b : Addr} {uncle : Option Addr}

theorem recolour_links : (recolour sk p uncle g).links = sk.links := by
  unfold recolour
  rw [setColor_links, setColor_links, setColor_links]

theorem recolour_grandparent : Reds (recolour sk p uncle g) g := setColor_same _ g .red

theorem recolour_black (h : sk.color b = .black) (hb : b ≠ g) :
    (recolour sk p uncle g).color b = .black := by
  unfold recolour
  rw [setColor_other .red fun heq => hb (some.inj heq).symm]
  exact setColor_black (setColor_black h)

theorem recolour_parent (hp : p ≠ g) : ¬ Reds (recolour sk p uncle g) p := by
  unfold recolour
  rw [not_reds, setColor_other .red fun heq => hp (some.inj heq).symm]
  exact setColor_black (setColor_same sk p .black)

theorem recolour_uncle (hb : b ≠ g) : ¬ Reds (recolour sk p (some b) g) b := by
  unfold recolour
  rw [not_reds, setColor_other .red fun heq => hb (some.inj heq).symm]
  exact setColor_same _ b .black

theorem recolour_same (hp : b ≠ p) (hg : b ≠ g) (hu : uncle ≠ some b) :
    Reds (recolour sk p uncle g) b ↔ Reds sk b := by
  unfold recolour
  rw [reds_setColor .red fun heq => hg (some.inj heq).symm, reds_setColor .black hu,
    reds_setColor .black fun heq => hp (some.inj heq).symm]

end

variable {s : Shape Addr}

theorem insertLoop_go {sk : Skeleton} {f g : Frame Addr} {c : List (Frame Addr)} {a : Addr}
    (h : Spells sk.links (plug (f :: g :: c) s)) (ha : s.root = some a)
    (hred : sk.color f.a ≠ .black) (fuel : ℕ) : insertLoop (fuel + 1) sk a =
      (insertCases g.dir sk a f.a g.a).bind fun r => insertLoop fuel r.1 r.2 := by
  obtain ⟨hctx, hsub, hnodup⟩ := spells_plug.mp h
  obtain ⟨hcn, _, hout⟩ := nodup_plug.mp hnodup
  have hpa : sk.links.parent a = top (f :: g :: c) := by
    obtain ⟨l, r, hmk⟩ := Shape.exists_mk_of_root .left ha
    rw [hmk] at hsub
    exact (linked_mk.mp hsub).1
  obtain ⟨_, _, hpf, _, hdg, hfg, _⟩ := hctx
  have hag : sk.links.root ≠ some a := by
    rw [h.root]
    obtain ⟨b, hb, hplug⟩ := plug_root f (g :: c)
    rw [hplug]
    intro heq
    rw [some.inj heq] at hb
    exact hout a (Shape.root_mem ha) hb
  have hside : (if sk.links.child .left g.a = some f.a then Dir.left else Dir.right) =
      g.dir := by
    cases hg : g.dir with
    | left =>
      rw [hg] at hdg
      rw [if_pos hdg]
    | right =>
      rw [hg] at hfg
      have hne : sk.links.child .left g.a ≠ some f.a := by
        intro heq
        have hsib : f.a ∈ g.sib.inorder := Shape.root_mem (hfg.symm.trans heq)
        have hnot := (nodup_nodes_cons.mp hcn).2.1
        exact hnot (mem_nodes_cons.mpr (Or.inr (Or.inl hsib)))
      rw [if_neg hne]
  have hred' : isRed sk (sk.links.parent a) = true := by
    rw [hpa]
    cases hc : sk.color f.a with
    | red => simp [top, isRed, hc]
    | black => exact absurd hc hred
  rw [insertLoop, if_neg hag, if_pos hred', hpa]
  dsimp only [top]
  rw [hpf]
  dsimp only [top]
  rw [hside]
  cases insertCases g.dir sk a f.a g.a with
  | none => rfl
  | some r => rfl

theorem insertLoop_spells (fuel : ℕ) : ∀ {sk : Skeleton} {c : List (Frame Addr)} {s : Shape Addr}
    {a : Addr}, Spells sk.links (plug c s) → s.root = some a →
    (∀ b, c ≠ [] → sk.links.root = some b → sk.color b = .black) → c.length < fuel →
    ∃ sk' s', insertLoop fuel sk a = some sk' ∧ Spells sk'.links s' ∧
      s'.inorder = (plug c s).inorder ∧
      ∀ n, Reds sk a → Balanced (Reds sk) s n → Fits (Reds sk) c n →
        ∃ m, Balanced (Reds sk') s' m := by
  induction fuel using Nat.strong_induction_on with
  | _ fuel ih =>
    intro sk c s a h ha hblack hfuel
    obtain ⟨fuel, rfl⟩ : ∃ n, fuel = n + 1 := ⟨fuel - 1, by omega⟩
    obtain ⟨hctx, hsub, hnodup⟩ := spells_plug.mp h
    obtain ⟨hcn, _, _⟩ := nodup_plug.mp hnodup
    have hpa : sk.links.parent a = top c := by
      obtain ⟨l, r, hmk⟩ := Shape.exists_mk_of_root .left ha
      rw [hmk] at hsub
      exact (linked_mk.mp hsub).1
    match c with
    | [] =>
      refine ⟨sk, s, ?_, h, rfl, fun n _ hs _ => ⟨n, hs⟩⟩
      unfold insertLoop
      rw [if_pos (h.root.trans ha)]
    | [f] =>
      have hroot : sk.links.root = some f.a := by
        rw [h.root]
        exact Shape.root_mk f.dir s f.a f.sib
      have hfb : sk.color f.a = .black := hblack f.a (by simp) hroot
      refine ⟨sk, _, insertLoop_stop fuel hpa hfb, h, rfl, ?_⟩
      intro n _ hs hc
      exact balanced_plug.mpr ⟨n, hc, hs, fun _ => mt topRed_cons.mp (not_reds.mpr hfb)⟩
    | f :: g :: c =>
      by_cases hred : sk.color f.a = .black
      · refine ⟨sk, _, insertLoop_stop fuel hpa hred, h, rfl, ?_⟩
        intro n _ hs hc
        exact balanced_plug.mpr ⟨n, hc, hs, fun _ => mt topRed_cons.mp (not_reds.mpr hred)⟩
      · obtain ⟨_, _, _, _, _, hfg, _⟩ := hctx
        rw [insertLoop_go h ha hred fuel]
        have hshape : Spells sk.links
            (plug c (.mk g.dir (.mk f.dir s f.a f.sib) g.a g.sib)) := h
        have hfr : Reds sk f.a := not_not.mp (mt not_reds.mp hred)
        cases huncle : isRed sk g.sib.root with
        | false =>
          obtain ⟨L, node, q, m, w, hcases, hspell, horder, hq, hqg, hturned⟩ :=
            insertCases_turn hshape ha huncle
          generalize hsk : (⟨L, Function.update (Function.update sk.color q .black) g.a .red⟩ :
            Skeleton) = sk' at hcases
          have hqblack : sk'.color q = .black := by
            rw [← hsk]
            simp [hqg]
          refine ⟨sk', _, ?_, hsk ▸ hspell, horder, ?_⟩
          · obtain ⟨n, hn⟩ : ∃ n, fuel = n + 1 := ⟨fuel - 1, by
              simp only [List.length_cons] at hfuel
              omega⟩
            rw [hcases, hn, bind_some]
            exact insertLoop_stop n (hsk ▸ hq) hqblack
          · intro n har hs hc
            refine turn_balanced hs ha har hc hfr ?_ hturned hspell.nodup (not_reds.mpr hqblack)
              ?_ ?_
            · rw [← isRed_iff, huncle]
              decide
            · rw [← hsk]
              simp [Reds]
            · intro b hbq hbg
              rw [← hsk]
              simp [Reds, hbq, hbg]
        | true =>
          -- both are painted and the loop goes on at the grandparent
          have hcases : insertCases g.dir sk a f.a g.a =
              some (recolour sk f.a g.sib.root g.a, g.a) := by
            unfold insertCases
            dsimp only
            rw [hfg, if_pos huncle]
            rfl
          rw [hcases, bind_some]
          have hg := (nodup_nodes_cons.mp hcn).2.2.2.1
          obtain ⟨sk'', s', hloop, hspell, horder, hbalance⟩ := ih fuel (by omega)
            (show Spells (recolour sk f.a g.sib.root g.a).links
                (plug c (.mk g.dir (.mk f.dir s f.a f.sib) g.a g.sib)) by
              rw [recolour_links]
              exact hshape)
            (Shape.root_mk g.dir _ g.a g.sib)
            (by
              intro b hne hroot
              rw [recolour_links] at hroot
              refine recolour_black (hblack b (by simp) hroot) fun hbg => ?_
              rw [hbg, h.root] at hroot
              obtain ⟨f', c', rfl⟩ := List.exists_cons_of_ne_nil hne
              obtain ⟨r, hr, hplug⟩ := plug_root f' c'
              have hrg : r = g.a := some.inj ((hplug _).symm.trans hroot)
              rw [hrg] at hr
              exact (nodup_nodes_cons.mp hg).2.1 hr)
            (by
              simp only [List.length_cons] at hfuel
              omega)
          refine ⟨sk'', s', hloop, hspell, horder, ?_⟩
          intro n _ hs hc
          have hfb : f.a ≠ g.a := fun heq =>
            (nodup_nodes_cons.mp hcn).2.1 (mem_nodes_cons.mpr (Or.inl heq))
          have hub : ¬ RedRoot (Reds (recolour sk f.a g.sib.root g.a)) g.sib := by
            rintro ⟨b, hb, hbr⟩
            rw [hb] at hbr
            refine recolour_uncle (fun heq => ?_) hbr
            exact (nodup_nodes_cons.mp hg).1 (heq ▸ Shape.root_mem hb)
          obtain ⟨hup, hctx'⟩ := recolour_balanced hs hc hfr (isRed_iff.mp huncle) hnodup
            (recolour_parent hfb) recolour_grandparent hub
            fun b hbf hbg hbu => recolour_same hbf hbg hbu
          exact hbalance (n + 1) recolour_grandparent hup hctx'

theorem paint_root_balanced {sk : Skeleton} {n : ℕ} (h : Spells sk.links s)
    (hs : Balanced (Reds sk) s n) :
    ∃ m, Balanced (Reds (setColor sk sk.links.root .black)) s m := by
  cases s with
  | nil => exact ⟨0, rfl⟩
  | node l a r =>
    have hroot : sk.links.root = some a := h.root
    obtain ⟨hal, har, _⟩ := (Shape.nodup_mk (d := .left)).mp h.nodup
    have hother : ∀ b, b ≠ a → (Reds (setColor sk sk.links.root .black) b ↔ Reds sk b) := by
      intro b hb
      rw [hroot]
      exact reds_setColor .black (fun heq => hb (some.inj heq).symm)
    have hl : ∀ b ∈ l.inorder, Reds (setColor sk sk.links.root .black) b ↔ Reds sk b :=
      fun b hb => hother b (fun heq => hal (heq ▸ hb))
    have hr : ∀ b ∈ r.inorder, Reds (setColor sk sk.links.root .black) b ↔ Reds sk b :=
      fun b hb => hother b (fun heq => har (heq ▸ hb))
    have hblack : ¬ Reds (setColor sk sk.links.root .black) a := by
      rw [not_reds, hroot]
      exact setColor_same sk a .black
    obtain ⟨m, hbl, hbr, _⟩ := hs
    exact ⟨m + 1, (hbl.congr hl).black_mk (d := .left) (hbr.congr hr) hblack⟩

theorem insertFixup_spells {fuel : ℕ} {sk : Skeleton} {c : List (Frame Addr)} {a : Addr}
    (h : Spells sk.links (plug c s)) (ha : s.root = some a)
    (hblack : ∀ b, c ≠ [] → sk.links.root = some b → sk.color b = .black)
    (hfuel : c.length < fuel) : ∃ sk' s', insertFixup fuel sk a = some sk' ∧ Spells sk'.links s' ∧
      s'.inorder = (plug c s).inorder ∧ RootBlack sk' ∧
      ∀ n, Reds sk a → Balanced (Reds sk) s n → Fits (Reds sk) c n →
        ∃ m, Balanced (Reds sk') s' m := by
  obtain ⟨sk', s', hloop, hspell, horder, hbalance⟩ := insertLoop_spells fuel h ha hblack hfuel
  refine ⟨setColor sk' sk'.links.root .black, s', ?_, ?_, horder, ?_, ?_⟩
  · rw [insertFixup, hloop]
    rfl
  · rw [setColor_links]
    exact hspell
  · exact rootBlack_paint_root sk'
  · intro n hred hs hc
    obtain ⟨m, hm⟩ := hbalance n hred hs hc
    exact paint_root_balanced hspell hm

theorem rotateAt_keeps {sk : Skeleton} {d : Dir} {x y : Addr} (h : Spells sk.links s)
    (hx : x ∈ s.inorder) (hy : sk.links.child d.flip x = some y) :
    ∃ L s', rotateAt d sk x = some ⟨L, sk.color⟩ ∧ Spells L s' ∧ s'.inorder = s.inorder ∧
      L.root = if sk.links.root = some x then some y else sk.links.root := by
  obtain ⟨c, l₀, r₀, hs⟩ := exists_plug hx
  obtain ⟨l, t, hmk⟩ := Shape.exists_mk_of_root d (show (Shape.node l₀ x r₀).root = some x from rfl)
  rw [hmk] at hs
  subst hs
  obtain ⟨_, hsub, hnodup⟩ := spells_plug.mp h
  obtain ⟨_, _, hout⟩ := nodup_plug.mp hnodup
  obtain ⟨_, _, hflip, _, _⟩ := linked_mk.mp hsub
  obtain ⟨m, r, hyt⟩ := Shape.exists_mk_of_root d (hflip.symm.trans hy)
  subst hyt
  obtain ⟨L, hrot, hspell⟩ := rotateAt_turn h
  refine ⟨L, _, hrot, hspell, ?_, ?_⟩
  · rw [inorder_plug, Shape.inorder_rotate, ← inorder_plug]
  · rw [hspell.root, h.root]
    cases c with
    | nil => simp [plug]
    | cons f c =>
      obtain ⟨b, hb, hplug⟩ := plug_root f c
      have hbx : b ≠ x := by
        intro heq
        rw [heq] at hb
        exact hout x (Shape.mem_mk.mpr (Or.inl rfl)) hb
      rw [hplug, hplug, if_neg]
      intro heq
      exact hbx (some.inj heq)

theorem case1_keeps {sk : Skeleton} {p : Addr} (d : Dir) (h : Spells sk.links s)
    (hp : p ∈ s.inorder) (hroot : RootBlack sk) :
    ∃ sk' s', case1 d sk p = some sk' ∧ Spells sk'.links s' ∧ s'.inorder = s.inorder ∧
      RootBlack sk' ∧ (sk'.links = sk.links ∨ sk'.color p = .red) := by
  unfold case1
  dsimp only
  split
  · rename_i hred
    cases hsib : sk.links.child d.flip p with
    | none =>
      rw [hsib] at hred
      cases hred
    | some y =>
      obtain ⟨_, _, hne, _⟩ := h.child_spec hp hsib
      have hpaint : Spells (setColor (setColor sk (some y) .black) (some p) .red).links s := by
        rw [setColor_links, setColor_links]
        exact h
      obtain ⟨L, s', hrot, hspell, horder, hL⟩ := rotateAt_keeps hpaint hp
        (by rw [setColor_links, setColor_links]; exact hsib)
      refine ⟨_, s', hrot, hspell, horder, ?_, Or.inr (setColor_same _ p .red)⟩
      intro b hb
      rw [setColor_links, setColor_links] at hL
      have hb' : L.root = some b := hb
      show (setColor (setColor sk (some y) .black) (some p) .red).color b = .black
      by_cases hpr : sk.links.root = some p
      · rw [if_pos hpr] at hL
        have hyb : y = b := some.inj (hL.symm.trans hb')
        subst hyb
        rw [setColor_other .red (fun heq => hne (some.inj heq).symm)]
        exact setColor_same sk y .black
      · rw [if_neg hpr] at hL
        rw [hL] at hb'
        rw [setColor_other .red (fun heq => hpr (hb'.trans heq.symm))]
        exact setColor_black (hroot b hb')
  · exact ⟨sk, s, rfl, h, rfl, hroot, Or.inl rfl⟩

theorem case3_keeps {sk : Skeleton} {p y : Addr} (d : Dir) (h : Spells sk.links s)
    (hp : p ∈ s.inorder) (hroot : RootBlack sk) (hy : sk.links.child d.flip p = some y)
    (hred : ¬ (isBlack sk (sk.links.child .left y) = true ∧
      isBlack sk (sk.links.child .right y) = true)) :
    ∃ sk' s', case3 d sk y = some sk' ∧ Spells sk'.links s' ∧ s'.inorder = s.inorder ∧
      RootBlack sk' := by
  obtain ⟨hymem, _, _, hyroot⟩ := h.child_spec hp hy
  unfold case3
  split
  · rename_i hfar
    -- the near child is red, so it is there
    have hnear : isBlack sk (sk.links.child d y) = false := by
      rw [Bool.eq_false_iff]
      intro hb
      apply hred
      cases d with
      | left => exact ⟨hb, hfar⟩
      | right => exact ⟨hfar, hb⟩
    cases hn : sk.links.child d y with
    | none =>
      rw [hn] at hnear
      cases hnear
    | some n =>
      obtain ⟨_, _, hny, _⟩ := h.child_spec hymem hn
      have hpaint : Spells (setColor (setColor sk (some n) .black) (some y) .red).links s := by
        rw [setColor_links, setColor_links]
        exact h
      obtain ⟨L, s', hrot, hspell, horder, hL⟩ := rotateAt_keeps (d := d.flip) hpaint hymem
        (by rw [setColor_links, setColor_links, Dir.flip_flip]; exact hn)
      refine ⟨_, s', hrot, hspell, horder, ?_⟩
      intro b hb
      rw [setColor_links, setColor_links, if_neg hyroot] at hL
      have hb' : sk.links.root = some b := hL.symm.trans hb
      show (setColor (setColor sk (some n) .black) (some y) .red).color b = .black
      rw [setColor_other .red (fun heq => hyroot (hb'.trans heq.symm))]
      exact setColor_black (hroot b hb')
  · exact ⟨sk, s, rfl, h, rfl, hroot⟩

theorem case4_keeps {sk : Skeleton} {p : Addr} (d : Dir) (h : Spells sk.links s)
    (hp : p ∈ s.inorder) (hroot : RootBlack sk) :
    ∃ sk' s', case4 d sk p = some sk' ∧ Spells sk'.links s' ∧ s'.inorder = s.inorder ∧
      RootBlack sk' := by
  unfold case4
  cases hy : sk.links.child d.flip p with
  | none => exact ⟨sk, s, rfl, h, rfl, hroot⟩
  | some y =>
    dsimp only
    obtain ⟨_, _, hne, hyroot⟩ := h.child_spec hp hy
    generalize hq : (setColor (setColor sk (some y) (getColor sk (some p))) (some p)
      .black).links.child d.flip y = q
    have hpaint : Spells (setColor (setColor (setColor sk (some y) (getColor sk (some p))) (some p)
        .black) q .black).links s := by
      rw [setColor_links, setColor_links, setColor_links]
      exact h
    obtain ⟨L, s', hrot, hspell, horder, hL⟩ := rotateAt_keeps hpaint hp
      (by rw [setColor_links, setColor_links, setColor_links]; exact hy)
    refine ⟨_, s', hrot, hspell, horder, ?_⟩
    intro b hb
    rw [setColor_links, setColor_links, setColor_links] at hL
    have hb' : L.root = some b := hb
    apply setColor_black
    by_cases hpr : sk.links.root = some p
    · -- the sibling becomes the root with the colour of the old root
      rw [if_pos hpr] at hL
      have hyb : y = b := some.inj (hL.symm.trans hb')
      subst hyb
      apply setColor_black
      rw [setColor_same]
      exact hroot p hpr
    · rw [if_neg hpr] at hL
      rw [hL] at hb'
      apply setColor_black
      rw [setColor_other _ (fun heq => hyroot (hb'.trans heq.symm))]
      exact hroot b hb'

theorem deleteCases_keeps {sk : Skeleton} {p : Addr} (d : Dir) (h : Spells sk.links s)
    (hp : p ∈ s.inorder) (hroot : RootBlack sk) :
    ∃ sk' up s', deleteCases d sk p = some (sk', up) ∧ Spells sk'.links s' ∧
      s'.inorder = s.inorder ∧ RootBlack sk' ∧
      (up = true → sk'.links = sk.links ∨ isBlack sk' (some p) = false) := by
  obtain ⟨sk₁, s₁, hcase₁, hspell₁, horder₁, hroot₁, hup⟩ := case1_keeps d h hp hroot
  have hp₁ : p ∈ s₁.inorder := by
    rw [horder₁]
    exact hp
  unfold deleteCases
  rw [hcase₁]
  dsimp only
  cases hy : sk₁.links.child d.flip p with
  | none =>
    refine ⟨sk₁, true, s₁, rfl, hspell₁, horder₁, hroot₁, ?_⟩
    intro _
    exact hup.imp_right (fun hred => by simp [isBlack, hred])
  | some y =>
    dsimp only
    obtain ⟨_, _, hne, hyroot⟩ := hspell₁.child_spec hp₁ hy
    split
    · refine ⟨_, true, s₁, rfl, ?_, horder₁, ?_, ?_⟩
      · rw [setColor_links]
        exact hspell₁
      · intro b hb
        rw [setColor_links] at hb
        rw [setColor_other .red (fun heq => hyroot (hb.trans heq.symm))]
        exact hroot₁ b hb
      · intro _
        rw [setColor_links]
        apply hup.imp_right
        intro hred
        have hstill : (setColor sk₁ (some y) .red).color p = .red := by
          rw [setColor_other .red (fun heq => hne (some.inj heq)), hred]
        simp [isBlack, hstill]
    · rename_i hred
      obtain ⟨sk₃, s₃, hcase₃, hspell₃, horder₃, hroot₃⟩ :=
        case3_keeps d hspell₁ hp₁ hroot₁ hy hred
      obtain ⟨sk₄, s₄, hcase₄, hspell₄, horder₄, hroot₄⟩ := case4_keeps d hspell₃
        (by rw [horder₃]; exact hp₁) hroot₃
      refine ⟨sk₄, false, s₄, ?_, hspell₄, ?_, hroot₄, ?_⟩
      · rw [hcase₃, bind_some, hcase₄]
        rfl
      · rw [horder₄, horder₃, horder₁]
      · intro hf
        cases hf

theorem rootBlack_paint {sk : Skeleton} (p : Option Addr) (hroot : RootBlack sk) :
    RootBlack (setColor sk p .black) := by
  intro b hb
  rw [setColor_links] at hb
  exact setColor_black (hroot b hb)

theorem deleteFixup_stop {sk : Skeleton} {node parent : Option Addr} (fuel : ℕ) (isLeft : Bool)
    (h : node = sk.links.root ∨ isBlack sk node = false ∨ parent = none) :
    deleteFixup (fuel + 1) sk node parent isLeft = some (setColor sk node .black) := by
  unfold deleteFixup
  split
  · rename_i hgo
    rcases h with hroot | hred | hnone
    · exact absurd hroot hgo.1
    · rw [hgo.2] at hred
      cases hred
    · rw [hnone]
  · rfl

/- What delete_fixup leaves behind. -/
def Fixed (s : Shape Addr) (r : Option Skeleton) : Prop :=
  ∃ sk' s', r = some sk' ∧ Spells sk'.links s' ∧ s'.inorder = s.inorder ∧ RootBlack sk'

theorem fixed_paint {sk : Skeleton} {t : Shape Addr} (p : Option Addr) (h : Spells sk.links s)
    (horder : s.inorder = t.inorder) (hroot : RootBlack sk) :
    Fixed t (some (setColor sk p .black)) := by
  refine ⟨_, s, rfl, ?_, horder, rootBlack_paint p hroot⟩
  rw [setColor_links]
  exact h

/- One round of the loop: it ends with the next test, or it goes on above `p`. -/
theorem deleteFixup_round {sk : Skeleton} {p : Addr} (fuel : ℕ) (node : Option Addr) (isLeft : Bool)
    (h : Spells sk.links s) (hp : p ∈ s.inorder) (hroot : RootBlack sk) :
    Fixed s (deleteFixup (fuel + 2) sk node (some p) isLeft) ∨
    ∃ sk', sk'.links = sk.links ∧ RootBlack sk' ∧ deleteFixup (fuel + 2) sk node (some p) isLeft =
        deleteFixup (fuel + 1) sk' (some p) (sk'.links.parent p) (isLeftOf sk'.links p) := by
  by_cases hgo : node ≠ sk.links.root ∧ isBlack sk node = true
  · obtain ⟨sk', up, s', hround, hspell, horder, hroot', hup⟩ := deleteCases_keeps
      (if isLeft then .left else .right) h hp hroot
    cases up with
    | false =>
      left
      rw [deleteFixup, if_pos hgo, hround]
      dsimp only
      rw [deleteFixup_stop fuel false (Or.inl rfl)]
      exact fixed_paint _ hspell horder hroot'
    | true =>
      rcases hup rfl with hlinks | hred
      · right
        refine ⟨sk', hlinks, hroot', ?_⟩
        rw [deleteFixup, if_pos hgo, hround]
      · left
        rw [deleteFixup, if_pos hgo, hround]
        dsimp only
        rw [deleteFixup_stop fuel _ (Or.inr (Or.inl hred))]
        exact fixed_paint _ hspell horder hroot'
  · left
    rw [deleteFixup, if_neg hgo]
    exact fixed_paint _ h rfl hroot

theorem deleteFixup_loop (c : List (Frame Addr)) :
    ∀ {fuel : ℕ} {sk : Skeleton} {s : Shape Addr} {p : Addr} (node : Option Addr) (isLeft : Bool),
      Spells sk.links (plug c s) → s.root = some p → RootBlack sk → c.length + 2 ≤ fuel →
      Fixed (plug c s) (deleteFixup fuel sk node (some p) isLeft) := by
  induction c with
  | nil =>
    intro fuel sk s p node isLeft h hp hroot hfuel
    obtain ⟨fuel, rfl⟩ : ∃ n, fuel = n + 2 := ⟨fuel - 2, by omega⟩
    rcases deleteFixup_round fuel node isLeft h (Shape.root_mem hp) hroot with
      hdone | ⟨sk', hlinks, hroot', hnext⟩
    · exact hdone
    · obtain ⟨l, r, hmk⟩ := Shape.exists_mk_of_root .left hp
      have hnone : sk'.links.parent p = none := by
        have hl := h.linked
        rw [plug, hmk] at hl
        rw [hlinks]
        exact (linked_mk.mp hl).1
      rw [hnext, hnone, deleteFixup_stop fuel _ (Or.inr (Or.inr rfl))]
      rw [← hlinks] at h
      exact fixed_paint _ h rfl hroot'
  | cons f c ih =>
    intro fuel sk s p node isLeft h hp hroot hfuel
    rw [List.length_cons] at hfuel
    obtain ⟨fuel, rfl⟩ : ∃ n, fuel = n + 2 := ⟨fuel - 2, by omega⟩
    have hmem : p ∈ (plug (f :: c) s).inorder := mem_plug.mpr (Or.inr (Shape.root_mem hp))
    rcases deleteFixup_round fuel node isLeft h hmem hroot with
      hdone | ⟨sk', hlinks, hroot', hnext⟩
    · exact hdone
    · obtain ⟨l, r, hmk⟩ := Shape.exists_mk_of_root .left hp
      have hup : sk'.links.parent p = some f.a := by
        obtain ⟨_, hl, _⟩ := spells_plug.mp h
        rw [hmk] at hl
        rw [hlinks]
        exact (linked_mk.mp hl).1
      rw [hnext, hup]
      rw [← hlinks] at h
      exact ih _ _ h (Shape.root_mk f.dir s f.a f.sib) hroot' (by omega)

theorem deleteFixup_spells {fuel : ℕ} {sk : Skeleton} (node parent : Option Addr) (isLeft : Bool)
    (h : Spells sk.links s) (hroot : RootBlack sk) (hparent : ∀ p, parent = some p → p ∈ s.inorder)
    (hfuel : s.inorder.length < fuel) : Fixed s (deleteFixup fuel sk node parent isLeft) := by
  cases parent with
  | none =>
    obtain ⟨fuel, rfl⟩ : ∃ n, fuel = n + 1 := ⟨fuel - 1, by omega⟩
    rw [deleteFixup_stop fuel isLeft (Or.inr (Or.inr rfl))]
    exact fixed_paint _ h rfl hroot
  | some p =>
    obtain ⟨c, l, r, hs⟩ := exists_plug (hparent p rfl)
    subst hs
    refine deleteFixup_loop c node isLeft h rfl hroot ?_
    have hlen := length_le_nodes c
    rw [nodes, List.length_append] at hlen
    simp only [inorder_plug, Shape.inorder, List.length_append, List.length_cons] at hfuel
    omega

end Voxlib.RbTree
