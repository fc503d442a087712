import Voxlib.RbTree.Refine

/-!
# The red-black conditions

vox_rbtree_delete looks for the place of the fix-up when the pointers that it compares have
moved.
-/

namespace Voxlib.RbTree
open CStr LinkTree Refine List Option

variable {V : Type} {cmp : KeyCmp}

/-- The tree is ordered by the keys, its links are consistent, its root is
black, no red node has a red child and all ways down pass the same number of
black nodes. -/
def RedBlack (cmp : KeyCmp) (t : Tree V) : Prop :=
  ∃ s, TreeInv cmp t s ∧ ∃ n, Balanced (Reds t.skel) s n

theorem findPlace_height {t : Tree V} (key : Bytes) {s : Shape Addr} {q : Option Addr}
    (h : Linked t.skel.links s q) (p : Option Addr) (c : ℤ) :
    ∃ place, ∀ fuel ≥ s.height, findPlace cmp t key fuel s.root p c = some place := by
  induction s generalizing q p c with
  | nil => exact ⟨.free p c, fun fuel _ => by cases fuel <;> rfl⟩
  | node l a r ihl ihr =>
    obtain ⟨-, hleft, hright, hl, hr⟩ := h
    obtain ⟨x, hx⟩ := ihl hl (some a) (compareKeys cmp key (t.key a))
    obtain ⟨y, hy⟩ := ihr hr (some a) (compareKeys cmp key (t.key a))
    refine ⟨if compareKeys cmp key (t.key a) = 0 then .found a else
      if compareKeys cmp key (t.key a) < 0 then x else y, fun fuel hfuel => ?_⟩
    rw [ge_iff_le, Shape.height] at hfuel
    obtain ⟨fuel, rfl⟩ : ∃ n, fuel = n + 1 := ⟨fuel - 1, by omega⟩
    rw [Shape.root, findPlace, hleft, hright, hx fuel (by omega), hy fuel (by omega)]
    split_ifs <;> rfl

def SameReds (sk sk' : Skeleton) (s : Shape Addr) : Prop := ∀ b ∈ s.inorder, Reds sk' b ↔ Reds sk b

variable {sk : Skeleton}

theorem reds_paint {a b : Addr} (c : Color) (h : b ≠ a) :
    Reds (setColor sk (some a) c) b ↔ Reds sk b :=
  reds_setColor c (fun heq => h (some.inj heq).symm)

/- What the painting in front of a turn leaves: `a` black, `b` red and the rest as it was. -/
theorem two_painted (sk : Skeleton) {a b : Addr} (hne : b ≠ a) (L : Links Addr) {sk' : Skeleton}
    (hsk : setColor (setColor sk (some a) .black) (some b) .red = sk') :
    Reds ⟨L, sk'.color⟩ b ∧ ¬ Reds ⟨L, sk'.color⟩ a ∧
      ∀ q, q ≠ b → q ≠ a → (Reds ⟨L, sk'.color⟩ q ↔ Reds sk q) := by
  subst hsk
  refine ⟨setColor_same _ b .red, ?_, fun q hqb hqa => ?_⟩
  · rw [not_reds]
    exact (setColor_other .red fun heq => hne (some.inj heq)).trans (setColor_same sk a .black)
  · exact (reds_paint .red hqb).trans (reds_paint .black hqa)

variable {c : List (Frame Addr)} {d : Dir} {s : Shape Addr} {p : Addr}

theorem case1_turn {o : Shape Addr} (h : Spells sk.links (plug (⟨d, p, o⟩ :: c) s)) :
    ∃ sk₁ c₁ o₁, case1 d sk p = some sk₁ ∧ Spells sk₁.links (plug (⟨d, p, o₁⟩ :: c₁) s) ∧
      SameReds sk sk₁ s ∧ (c₁ = c ∨ Reds sk₁ p) ∧ ∀ n, Fits (Reds sk) (⟨d, p, o⟩ :: c) (n + 1) →
        Fits (Reds sk₁) (⟨d, p, o₁⟩ :: c₁) (n + 1) ∧ ¬ RedRoot (Reds sk₁) o₁ := by
  obtain ⟨_, hsib, _⟩ := (spells_plug.mp h).1
  unfold case1
  dsimp only at hsib ⊢
  rw [hsib]
  by_cases hred : isRed sk o.root = true
  · rw [if_pos hred]
    rw [isRed_iff] at hred
    obtain ⟨y, hy, hyr⟩ := hred
    obtain ⟨x, z, rfl⟩ := Shape.exists_mk_of_root d hy
    rw [Shape.root_mk]
    generalize hsk : setColor (setColor sk (some y) .black) (some p) .red = sk'
    have hlinks : sk'.links = sk.links := by
      rw [← hsk, setColor_links, setColor_links]
    obtain ⟨L, hrot, hspell⟩ := rotateAt_turn
      (show Spells sk'.links (plug c (.mk d s p (.mk d x y z))) by
        rw [hlinks]
        exact h)
    obtain ⟨_, hn, hout⟩ := nodup_plug.mp hspell.nodup
    obtain ⟨hyp, hyz, hn', _, hdisj⟩ := Shape.nodup_mk.mp hn
    obtain ⟨hps, hpx, _, _, _⟩ := Shape.nodup_mk.mp hn'
    simp only [Shape.mem_mk] at hyp hdisj hout
    obtain ⟨hpr, hyb, hsame⟩ := two_painted sk (fun heq => hyp (.inl heq.symm)) L hsk
    refine ⟨_, ⟨d, y, z⟩ :: c, x, hrot, hspell, fun b hb => hsame b (by grind) (by grind),
      Or.inr hpr, ?_⟩
    intro n hc
    obtain ⟨ho, hcase⟩ := hc
    obtain ⟨hx, hz, hxb, hzb⟩ := ho.of_red hyr
    have hcn : Fits (Reds sk) c (n + 1 + 1) := by
      rcases hcase with ⟨_, hc⟩ | ⟨_, hob, _⟩
      · exact hc
      · exact absurd (redRoot_mk.mpr hyr) hob
    have hxc : SameReds sk ⟨L, sk'.color⟩ x := fun b hb => hsame b (by grind) (by grind)
    have hzc : SameReds sk ⟨L, sk'.color⟩ z := fun b hb => hsame b (by grind) (by grind)
    have hcc : ∀ b ∈ nodes c, Reds ⟨L, sk'.color⟩ b ↔ Reds sk b :=
      fun b hb => hsame b (by grind) (by grind)
    have hxb' : ¬ RedRoot (Reds ⟨L, sk'.color⟩) x := by
      rw [RedRoot.congr hxc]
      exact hxb
    refine ⟨⟨hx.congr hxc, Or.inr ⟨hpr, hxb', ?_, hz.congr hzc, Or.inl ⟨hyb, ?_⟩⟩⟩, hxb'⟩
    · rw [topRed_cons]
      exact hyb
    · exact hcn.congr hcc
  · rw [if_neg hred]
    refine ⟨sk, c, o, rfl, h, fun b _ => Iff.rfl, Or.inl rfl, fun n hc => ⟨hc, ?_⟩⟩
    rw [← isRed_iff]
    exact hred

/- The near child of the sibling is red and the far one is black: the near child
   becomes the sibling. -/
theorem case3_turn {x z : Shape Addr} {y : Addr}
    (h : Spells sk.links (plug (⟨d, p, .mk d x y z⟩ :: c) s))
    (hred : RedRoot (Reds sk) x ∨ RedRoot (Reds sk) z) : ∃ sk' x' y' z', case3 d sk y = some sk' ∧
      Spells sk'.links (plug (⟨d, p, .mk d x' y' z'⟩ :: c) s) ∧ SameReds sk sk' s ∧
      ∀ n, ¬ Reds sk y → Fits (Reds sk) (⟨d, p, .mk d x y z⟩ :: c) (n + 1) →
        Fits (Reds sk') (⟨d, p, .mk d x' y' z'⟩ :: c) (n + 1) ∧ ¬ Reds sk' y' ∧
          RedRoot (Reds sk') z' := by
  obtain ⟨_, _, _, hsib, _⟩ := (spells_plug.mp h).1
  obtain ⟨_, hnear, hfar, _⟩ := linked_mk.mp hsib
  unfold case3
  rw [hfar, isBlack_eq_not_isRed]
  by_cases hz : isRed sk z.root = true
  · rw [hz, if_neg (by decide)]
    exact ⟨sk, x, y, z, rfl, h, fun b _ => Iff.rfl, fun n hy hc => ⟨hc, hy, isRed_iff.mp hz⟩⟩
  · rw [Bool.not_eq_true] at hz
    rw [hz, if_pos (by decide), hnear]
    have hzb : ¬ RedRoot (Reds sk) z := by
      rw [← isRed_iff, hz]
      decide
    obtain ⟨w, hw, hwr⟩ := hred.resolve_right hzb
    obtain ⟨x₁, x₂, rfl⟩ := Shape.exists_mk_of_root d hw
    rw [Shape.root_mk]
    generalize hsk : setColor (setColor sk (some w) .black) (some y) .red = sk'
    have hlinks : sk'.links = sk.links := by
      rw [← hsk, setColor_links, setColor_links]
    obtain ⟨L, hrot, hspell⟩ := rotateAt_turn
      (show Spells sk'.links (plug (⟨d.flip, p, s⟩ :: c) (.mk d.flip z y (.mk d.flip x₂ w x₁))) by
        rw [hlinks, Shape.mk_flip, Shape.mk_flip, plug, Shape.mk_flip]
        exact h)
    have hturned : Spells L (plug (⟨d, p, .mk d x₁ w (.mk d x₂ y z)⟩ :: c) s) := by
      rw [Shape.mk_flip, Shape.mk_flip, plug, Shape.mk_flip] at hspell
      exact hspell
    obtain ⟨hcn, hsn, hout⟩ := nodup_plug.mp hturned.nodup
    obtain ⟨hpo, hpc, hon, hcn', hoc⟩ := nodup_nodes_cons.mp hcn
    obtain ⟨hwx, hwy, _, hyn, hwdisj⟩ := Shape.nodup_mk.mp hon
    obtain ⟨hyx, hyz, _, _, _⟩ := Shape.nodup_mk.mp hyn
    simp only [Shape.mem_mk, mem_nodes_cons] at hpo hwy hwdisj hout hoc
    obtain ⟨hyr, hwb, hsame⟩ := two_painted sk (fun heq => hwy (.inl heq.symm)) L hsk
    refine ⟨_, x₁, w, .mk d x₂ y z, hrot, hturned, ?_, ?_⟩
    · intro b hb
      exact hsame b (by grind) (by grind)
    · intro n hy hc
      obtain ⟨ho, hcase⟩ := hc
      obtain ⟨hx, hzn⟩ := ho.of_black hy
      obtain ⟨hx₁, hx₂, _, hx₂b⟩ := hx.of_red hwr
      have h₁c : SameReds sk ⟨L, sk'.color⟩ x₁ := fun b hb => hsame b (by grind) (by grind)
      have h₂c : SameReds sk ⟨L, sk'.color⟩ x₂ := fun b hb => hsame b (by grind) (by grind)
      have hzc : SameReds sk ⟨L, sk'.color⟩ z := fun b hb => hsame b (by grind) (by grind)
      have hcc : ∀ b ∈ nodes c, Reds ⟨L, sk'.color⟩ b ↔ Reds sk b :=
        fun b hb => hsame b (by grind) (by grind)
      have hpsame : Reds ⟨L, sk'.color⟩ p ↔ Reds sk p := hsame p (by grind) (by grind)
      have hlow : Balanced (Reds ⟨L, sk'.color⟩) (.mk d x₂ y z) n := by
        apply (hx₂.congr h₂c).red_mk (hzn.congr hzc) hyr
        · rw [RedRoot.congr h₂c]
          exact hx₂b
        · rw [RedRoot.congr hzc]
          exact hzb
      refine ⟨⟨(hx₁.congr h₁c).black_mk hlow hwb, ?_⟩, hwb, redRoot_mk.mpr hyr⟩
      rw [hpsame, redRoot_mk, TopRed.congr hcc]
      rcases hcase with ⟨hpb, hc⟩ | ⟨hpr, _, htop, hc⟩
      · exact Or.inl ⟨hpb, hc.congr hcc⟩
      · exact Or.inr ⟨hpr, hwb, htop, hc.congr hcc⟩

/- The far child of the black sibling is red: the sibling comes up, and the tree
   is balanced. -/
theorem case4_turn {x z : Shape Addr} {y : Addr}
    (h : Spells sk.links (plug (⟨d, p, .mk d x y z⟩ :: c) s)) : ∃ sk', case4 d sk p = some sk' ∧
      Spells sk'.links (plug (⟨d, p, x⟩ :: ⟨d, y, z⟩ :: c) s) ∧ SameReds sk sk' s ∧
      ∀ n, ¬ Reds sk y → RedRoot (Reds sk) z → Balanced (Reds sk) s n →
        Fits (Reds sk) (⟨d, p, .mk d x y z⟩ :: c) (n + 1) →
        ∃ m, Balanced (Reds sk') (plug (⟨d, p, x⟩ :: ⟨d, y, z⟩ :: c) s) m := by
  obtain ⟨_, hy, _, hsib, _⟩ := (spells_plug.mp h).1
  obtain ⟨_, _, hfar, _⟩ := linked_mk.mp hsib
  rw [Shape.root_mk] at hy
  unfold case4
  rw [hy]
  dsimp only
  rw [setColor_links, setColor_links, hfar]
  generalize hsk : setColor (setColor (setColor sk (some y) (getColor sk (some p))) (some p) .black)
    z.root .black = sk'
  have hlinks : sk'.links = sk.links := by
    rw [← hsk, setColor_links, setColor_links, setColor_links]
  obtain ⟨L, hrot, hspell⟩ := rotateAt_turn
    (show Spells sk'.links (plug c (.mk d s p (.mk d x y z))) by
      rw [hlinks]
      exact h)
  -- the nodes that are painted
  obtain ⟨_, hn, hout⟩ := nodup_plug.mp hspell.nodup
  obtain ⟨hyp, hyz, hn', hzn, hdisj⟩ := Shape.nodup_mk.mp hn
  obtain ⟨hps, hpx, _, _, hsx⟩ := Shape.nodup_mk.mp hn'
  simp only [Shape.mem_mk] at hyp hdisj hout
  have hsame : ∀ b, b ≠ p → b ≠ y → z.root ≠ some b → (Reds ⟨L, sk'.color⟩ b ↔ Reds sk b) := by
    intro b hbp hby hbz
    have hpaint : Reds sk' b ↔ Reds sk b := by
      rw [← hsk, reds_setColor .black hbz, reds_paint .black hbp, reds_paint _ hby]
    exact hpaint
  have hzout : ∀ b, b ∉ z.inorder → z.root ≠ some b := fun b hb heq => hb (Shape.root_mem heq)
  have hpb : ¬ Reds ⟨L, sk'.color⟩ p := by
    rw [not_reds]
    show sk'.color p = .black
    rw [← hsk]
    exact setColor_black (setColor_same _ p .black)
  have hyc : Reds ⟨L, sk'.color⟩ y ↔ Reds sk p := by
    have hpy : some p ≠ some y := fun heq => hyp (Or.inl (some.inj heq).symm)
    have hcolor : sk'.color y = sk.color p := by
      rw [← hsk, setColor_other .black (hzout y hyz), setColor_other .black hpy]
      exact setColor_same sk y _
    show sk'.color y = .red ↔ sk.color p = .red
    rw [hcolor]
  refine ⟨_, hrot, hspell, fun b hb => hsame b (by grind) (by grind) (hzout b (by grind)), ?_⟩
  intro n hyb hzr hs hc
  obtain ⟨ho, hcase⟩ := hc
  obtain ⟨hx, hz⟩ := ho.of_black hyb
  obtain ⟨w, hw, hwr⟩ := hzr
  obtain ⟨z₁, z₂, rfl⟩ := Shape.exists_mk_of_root .left hw
  obtain ⟨hwz₁, hwz₂, _⟩ := Shape.nodup_mk.mp hzn
  simp only [Shape.mem_mk, Shape.root_mk] at hyz hdisj hout hsame hzout
  have hwb : ¬ Reds ⟨L, sk'.color⟩ w := by
    rw [not_reds]
    show sk'.color w = .black
    rw [← hsk, Shape.root_mk]
    exact setColor_same _ w .black
  have hsc : SameReds sk ⟨L, sk'.color⟩ s := fun b hb => hsame b (by grind) (by grind) (by grind)
  have hxc : SameReds sk ⟨L, sk'.color⟩ x := fun b hb => hsame b (by grind) (by grind) (by grind)
  have h₁c : SameReds sk ⟨L, sk'.color⟩ z₁ := fun b hb => hsame b (by grind) (by grind) (by grind)
  have h₂c : SameReds sk ⟨L, sk'.color⟩ z₂ := fun b hb => hsame b (by grind) (by grind) (by grind)
  have hcc : ∀ b ∈ nodes c, Reds ⟨L, sk'.color⟩ b ↔ Reds sk b :=
    fun b hb => hsame b (by grind) (by grind) (by grind)
  have hfarUp : Balanced (Reds ⟨L, sk'.color⟩) (.mk .left z₁ w z₂) (n + 1) :=
    hz.paint hwr hwb h₁c h₂c
  apply balanced_plug.mpr
  rcases hcase with ⟨hpblack, hc⟩ | ⟨hpred, _, htop, hc⟩
  · have hyblack : ¬ Reds ⟨L, sk'.color⟩ y := mt hyc.mp hpblack
    refine ⟨n, ⟨hx.congr hxc, Or.inl ⟨hpb, hfarUp, Or.inl ⟨hyblack, hc.congr hcc⟩⟩⟩,
      hs.congr hsc, ?_⟩
    rw [topRed_cons]
    exact fun _ => hpb
  · have hyred : Reds ⟨L, sk'.color⟩ y := hyc.mpr hpred
    rw [← TopRed.congr hcc] at htop
    refine ⟨n, ⟨hx.congr hxc, Or.inl ⟨hpb, hfarUp, Or.inr ⟨hyred, ?_, htop, hc.congr hcc⟩⟩⟩,
      hs.congr hsc, ?_⟩
    · rw [redRoot_mk]
      exact hwb
    · rw [topRed_cons]
      exact fun _ => hpb

theorem SameReds.trans {sk' sk'' : Skeleton} (h : SameReds sk sk' s) (h' : SameReds sk' sk'' s) :
    SameReds sk sk'' s := by
  intro b hb
  rw [h' b hb, h b hb]

/- What one round leaves: the subtree `s` still hangs at `p`, and either it is
   short of a black node no more, or the whole subtree of `p` is unless `p` is
   red and will be painted. -/
structure Round (sk : Skeleton) (d : Dir) (p : Addr) (o : Shape Addr) (c : List (Frame Addr))
    (s : Shape Addr) (sk' : Skeleton) (up : Bool) (c' : List (Frame Addr)) (o' : Shape Addr) :
    Prop where
  run : deleteCases d sk p = some (sk', up)
  spells : Spells sk'.links (plug (⟨d, p, o'⟩ :: c') s)
  same : SameReds sk sk' s
  place : up = true → c' = c ∨ Reds sk' p
  climbs : up = true → ∀ n, Balanced (Reds sk) s n → Fits (Reds sk) (⟨d, p, o⟩ :: c) (n + 1) →
    Balanced (Reds sk') s n ∧ Balanced (Reds sk') o' n ∧
      (¬ Reds sk' p → Fits (Reds sk') c' (n + 2)) ∧ (Reds sk' p → Fits (Reds sk') c' (n + 1))
  done : up = false → ∀ n, Balanced (Reds sk) s n → Fits (Reds sk) (⟨d, p, o⟩ :: c) (n + 1) →
    ∃ m, Balanced (Reds sk') (plug (⟨d, p, o'⟩ :: c') s) m

theorem deleteCases_round {o : Shape Addr} (h : Spells sk.links (plug (⟨d, p, o⟩ :: c) s)) :
    ∃ sk' up c' o', Round sk d p o c s sk' up c' o' := by
  obtain ⟨sk₁, c₁, o₁, hcase₁, hspell₁, hsame₁, hplace₁, hfits₁⟩ := case1_turn h
  obtain ⟨_, hsib, _, hlinked, _⟩ := (spells_plug.mp hspell₁).1
  dsimp only at hsib hlinked
  cases hy : o₁.root with
  | none =>
    obtain rfl : o₁ = .nil := Shape.root_eq_none.mp hy
    refine ⟨sk₁, true, c₁, .nil, ?_, hspell₁, hsame₁, fun _ => hplace₁, ?_, fun hf => (by cases hf)⟩
    · rw [deleteCases, hcase₁]
      dsimp only
      rw [hsib, hy]
    · intro _ n _ hc
      obtain ⟨⟨hnil, _⟩, _⟩ := hfits₁ n hc
      cases hnil
  | some y =>
    obtain ⟨x, z, rfl⟩ := Shape.exists_mk_of_root d hy
    obtain ⟨_, hnear, hfar, _⟩ := linked_mk.mp hlinked
    have hblacks : (isBlack sk₁ (sk₁.links.child .left y) = true ∧
        isBlack sk₁ (sk₁.links.child .right y) = true) ↔
        ¬ (RedRoot (Reds sk₁) x ∨ RedRoot (Reds sk₁) z) := by
      rw [isBlack_eq_not_isRed, isBlack_eq_not_isRed, ← isRed_iff, ← isRed_iff, ← hnear, ← hfar]
      cases d with
      | left => simp [Dir.flip]
      | right =>
        simp only [Dir.flip, Bool.not_eq_true', not_or, Bool.not_eq_true]
        exact and_comm
    by_cases hred : RedRoot (Reds sk₁) x ∨ RedRoot (Reds sk₁) z
    · obtain ⟨sk₂, x', y', z', hcase₃, hspell₂, hsame₂, hfits₂⟩ := case3_turn hspell₁ hred
      obtain ⟨sk₃, hcase₄, hspell₃, hsame₃, hdone⟩ := case4_turn hspell₂
      refine ⟨sk₃, false, ⟨d, y', z'⟩ :: c₁, x', ?_, hspell₃,
        (hsame₁.trans hsame₂).trans hsame₃, fun hf => (by cases hf), fun hf => (by cases hf), ?_⟩
      · rw [deleteCases, hcase₁]
        dsimp only
        rw [hsib, Shape.root_mk]
        dsimp only
        rw [if_neg (fun hb => hblacks.mp hb hred), hcase₃, bind_some, hcase₄]
        rfl
      · intro _ n hs hc
        obtain ⟨hc₁, hyb⟩ := hfits₁ n hc
        rw [redRoot_mk] at hyb
        obtain ⟨hc₂, hyb', hzr⟩ := hfits₂ n hyb hc₁
        exact hdone n hyb' hzr ((hs.congr hsame₁).congr hsame₂) hc₂
    · -- both children of the sibling are black: it turns red
      generalize hsk : setColor sk₁ (some y) .red = sk₂
      have hlinks : sk₂.links = sk₁.links := by
        rw [← hsk, setColor_links]
      obtain ⟨hcn, _, hout⟩ := nodup_plug.mp hspell₁.nodup
      obtain ⟨hpo, _, hon, _, hoc⟩ := nodup_nodes_cons.mp hcn
      obtain ⟨hyx, hyz, _⟩ := Shape.nodup_mk.mp hon
      simp only [Shape.mem_mk, mem_nodes_cons] at hpo hout hoc
      have hsame : ∀ b, b ≠ y → (Reds sk₂ b ↔ Reds sk₁ b) := by
        intro b hby
        rw [← hsk, reds_paint .red hby]
      have hsc : SameReds sk₁ sk₂ s := fun b hb => hsame b (by grind)
      have hp : Reds sk₂ p ↔ Reds sk₁ p := hsame p (by grind)
      refine ⟨sk₂, true, c₁, .mk d x y z, ?_, ?_, hsame₁.trans hsc,
        fun _ => hplace₁.imp_right hp.mpr, ?_, fun hf => (by cases hf)⟩
      · rw [deleteCases, hcase₁]
        dsimp only
        rw [hsib, Shape.root_mk]
        dsimp only
        rw [if_pos (hblacks.mpr hred), hsk]
      · rw [hlinks]
        exact hspell₁
      · intro _ n hs hc
        obtain ⟨⟨ho, hcase⟩, hyb⟩ := hfits₁ n hc
        rw [redRoot_mk] at hyb
        rw [not_or] at hred
        obtain ⟨hx, hz⟩ := ho.of_black hyb
        have hyr : Reds sk₂ y := by
          rw [← hsk]
          exact setColor_same sk₁ y .red
        have hxc : SameReds sk₁ sk₂ x := fun b hb => hsame b (by grind)
        have hzc : SameReds sk₁ sk₂ z := fun b hb => hsame b (by grind)
        have hcc : ∀ b ∈ nodes c₁, Reds sk₂ b ↔ Reds sk₁ b := fun b hb => hsame b (by grind)
        refine ⟨(hs.congr hsame₁).congr hsc, ?_, ?_, ?_⟩
        · apply (hx.congr hxc).red_mk (hz.congr hzc) hyr
          · rw [RedRoot.congr hxc]
            exact hred.1
          · rw [RedRoot.congr hzc]
            exact hred.2
        · intro hpb
          rcases hcase with ⟨_, hc⟩ | ⟨hpr, _⟩
          · exact hc.congr hcc
          · exact absurd (hp.mpr hpr) hpb
        · intro hpr
          rcases hcase with ⟨hpb, _⟩ | ⟨_, _, _, hc⟩
          · exact absurd (hp.mp hpr) hpb
          · exact hc.congr hcc

def SideIs (c : List (Frame Addr)) (isLeft : Bool) : Prop :=
  ∀ f ∈ c.head?, f.dir = if isLeft then .left else .right

variable {L : Links Addr}

theorem isLeftOf_side {a : Addr} (h : LinkedCtx L c (some a)) (hparent : L.parent a = top c)
    (ha : a ∉ nodes c) : SideIs c (isLeftOf L a) := by
  intro f hf
  cases c with
  | nil => cases hf
  | cons g c =>
    obtain rfl : g = f := some.inj hf
    obtain ⟨hchild, hother, _⟩ := h
    have hleft : isLeftOf L a = decide (L.child .left g.a = some a) := by
      unfold isLeftOf
      rw [hparent]
      rfl
    rw [hleft]
    cases hd : g.dir with
    | left =>
      rw [hd] at hchild
      rw [decide_eq_true hchild]
      rfl
    | right =>
      rw [hd] at hother
      have hne : L.child .left g.a ≠ some a := by
        intro heq
        have hin : a ∈ g.sib.inorder := Shape.root_mem (hother.symm.trans heq)
        exact ha (mem_nodes_cons.mpr (Or.inr (Or.inl hin)))
      rw [decide_eq_false hne]
      rfl

variable {fuel : ℕ}

theorem deleteFixup_go {node : Option Addr} {isLeft : Bool}
    (hgo : node ≠ sk.links.root ∧ isBlack sk node = true) :
    deleteFixup (fuel + 1) sk node (some p) isLeft =
      (deleteCases (if isLeft then .left else .right) sk p).bind fun r =>
        if r.2 then deleteFixup fuel r.1 (some p) (r.1.links.parent p) (isLeftOf r.1.links p)
        else deleteFixup fuel r.1 r.1.links.root (some p) false := by
  rw [deleteFixup, if_pos hgo]
  cases deleteCases (if isLeft then .left else .right) sk p with
  | none => rfl
  | some r =>
    obtain ⟨sk', up⟩ := r
    cases up with
    | true => rfl
    | false => rfl

theorem paint_balanced {n : ℕ} (h : (plug c s).inorder.Nodup) (hs : Balanced (Reds sk) s n)
    (hc : Fits (Reds sk) c (n + 1)) (hstop : c = [] ∨ RedRoot (Reds sk) s) :
    ∃ m, Balanced (Reds (setColor sk s.root .black)) (plug c s) m := by
  obtain ⟨_, hn, hout⟩ := nodup_plug.mp h
  by_cases hred : RedRoot (Reds sk) s
  · obtain ⟨a, ha, har⟩ := hred
    obtain ⟨t, o, rfl⟩ := Shape.exists_mk_of_root .left ha
    obtain ⟨hat, hao, _⟩ := Shape.nodup_mk.mp hn
    simp only [Shape.mem_mk] at hout
    rw [Shape.root_mk]
    have hsame : ∀ b, b ≠ a → (Reds (setColor sk (some a) .black) b ↔ Reds sk b) :=
      fun b hb => reds_paint .black hb
    have hab : ¬ Reds (setColor sk (some a) .black) a := by
      rw [not_reds]
      exact setColor_same sk a .black
    apply balanced_plug.mpr
    refine ⟨n + 1, hc.congr (fun b hb => hsame b (by grind)), ?_, fun hr => absurd hr ?_⟩
    · exact hs.paint har hab (fun b hb => hsame b (by grind)) (fun b hb => hsame b (by grind))
    · rw [redRoot_mk]
      exact hab
  · obtain rfl := hstop.resolve_right hred
    refine ⟨n, hs.congr ?_⟩
    intro b _
    by_cases hb : s.root = some b
    · rw [hb]
      have hblack : ¬ Reds sk b := fun hr => hred ⟨b, hb, hr⟩
      have hpaint : ¬ Reds (setColor sk (some b) .black) b := by
        rw [not_reds]
        exact setColor_same sk b .black
      exact iff_of_false hpaint hblack
    · exact reds_setColor .black hb

/-- The fix-up at a hole keeps the subtree in the hole; when it is handed the
root of that subtree, and the subtree is short of one black node, the tree is
balanced afterwards. -/
theorem deleteFixup_hole (c : List (Frame Addr)) :
    ∀ {fuel : ℕ} {sk : Skeleton} {s : Shape Addr} {node : Option Addr} {isLeft : Bool},
      Spells sk.links (plug c s) → (node = s.root ∨ node = none) → SideIs c isLeft →
      c.length + 2 ≤ fuel → ∃ sk' c', deleteFixup fuel sk node (top c) isLeft = some sk' ∧
        Spells sk'.links (plug c' s) ∧
        (∀ b ∈ s.inorder, s.root ≠ some b → (Reds sk' b ↔ Reds sk b)) ∧
        (node = s.root → ∀ n, Balanced (Reds sk) s n → Fits (Reds sk) c (n + 1) →
          ∃ m, Balanced (Reds sk') (plug c' s) m) := by
  induction c with
  | nil =>
    intro fuel sk s node isLeft h hnode _ hfuel
    obtain ⟨fuel, rfl⟩ : ∃ k, fuel = k + 1 := ⟨fuel - 1, by omega⟩
    refine ⟨setColor sk node .black, [], deleteFixup_stop fuel isLeft (Or.inr (Or.inr rfl)), ?_,
      ?_, ?_⟩
    · rw [setColor_links]
      exact h
    · intro b _ hb
      rcases hnode with heq | heq
      · rw [heq]
        exact reds_setColor .black hb
      · rw [heq]
        rfl
    · intro heq n hs hc
      rw [heq]
      exact paint_balanced h.nodup hs hc (Or.inl rfl)
  | cons f c ih =>
    intro fuel sk s node isLeft h hnode hside hfuel
    obtain ⟨fuel, rfl⟩ : ∃ k, fuel = k + 2 := ⟨fuel - 2, by omega⟩
    rw [length_cons] at hfuel
    obtain ⟨hcn, hsn, hout⟩ := nodup_plug.mp h.nodup
    by_cases hred : node = s.root ∧ RedRoot (Reds sk) s
    · -- the loop is not entered
      obtain ⟨heq, hred⟩ := hred
      have hnot : isBlack sk node = false := by
        rw [heq, isBlack_eq_not_isRed, isRed_iff.mpr hred]
        rfl
      refine ⟨setColor sk node .black, f :: c,
        deleteFixup_stop (fuel + 1) isLeft (Or.inr (Or.inl hnot)), ?_, ?_, ?_⟩
      · rw [setColor_links]
        exact h
      · intro b _ hb
        rw [heq]
        exact reds_setColor .black hb
      · intro _ n hs hc
        rw [heq]
        exact paint_balanced h.nodup hs hc (Or.inr hred)
    · have hgo : node ≠ sk.links.root ∧ isBlack sk node = true := by
        obtain ⟨a, ha, hroot⟩ := plug_root f c
        rw [h.root, hroot]
        constructor
        · intro heq
          rcases hnode with hnode | hnode
          · exact hout a (Shape.root_mem (hnode.symm.trans heq)) ha
          · rw [hnode] at heq
            cases heq
        · rcases hnode with hnode | hnode
          · rw [hnode, isBlack_eq_not_isRed, Bool.not_eq_true', ← Bool.not_eq_true, isRed_iff]
            exact fun hr => hred ⟨hnode, hr⟩
          · rw [hnode]
            rfl
      obtain ⟨sk', up, c', o', hround⟩ := deleteCases_round h
      have hunfold : deleteFixup (fuel + 2) sk node (top (f :: c)) isLeft =
          if up then deleteFixup (fuel + 1) sk' (some f.a) (sk'.links.parent f.a)
            (isLeftOf sk'.links f.a)
          else deleteFixup (fuel + 1) sk' sk'.links.root (some f.a) false := by
        rw [top, deleteFixup_go hgo, ← hside f rfl, hround.run]
        rfl
      rw [hunfold]
      have hspell := hround.spells
      obtain ⟨hcn', _, hout'⟩ := nodup_plug.mp hspell.nodup
      have hpout : f.a ∉ s.inorder := fun hin => hout f.a hin (mem_nodes_cons.mpr (Or.inl rfl))
      have hpo : f.a ∉ o'.inorder := (nodup_nodes_cons.mp hcn').1
      have hpc : f.a ∉ nodes c' := (nodup_nodes_cons.mp hcn').2.1
      cases up with
      | false =>
        -- case 4 was the last round
        rw [if_neg Bool.false_ne_true]
        refine ⟨setColor sk' sk'.links.root .black, ⟨f.dir, f.a, o'⟩ :: c',
          deleteFixup_stop fuel false (Or.inl rfl), ?_, ?_, ?_⟩
        · rw [setColor_links]
          exact hspell
        · intro b hb _
          obtain ⟨a, ha, hroot⟩ := plug_root ⟨f.dir, f.a, o'⟩ c'
          rw [hspell.root, hroot, reds_setColor .black, hround.same b hb]
          intro heq
          exact hout' b hb (some.inj heq ▸ ha)
        · intro _ n hs hc
          obtain ⟨m, hm⟩ := hround.done rfl n hs hc
          exact paint_root_balanced hspell hm
      | true =>
        rw [if_pos rfl]
        by_cases hpr : Reds sk' f.a
        · -- the red parent is painted
          have hnot : isBlack sk' (some f.a) = false := by
            rw [isBlack_eq_not_isRed, Bool.not_eq_false']
            exact decide_eq_true hpr
          refine ⟨setColor sk' (some f.a) .black, ⟨f.dir, f.a, o'⟩ :: c',
            deleteFixup_stop fuel _ (Or.inr (Or.inl hnot)), ?_, ?_, ?_⟩
          · rw [setColor_links]
            exact hspell
          · intro b hb _
            have hbp : b ≠ f.a := fun heq => hpout (heq ▸ hb)
            rw [reds_paint .black hbp, hround.same b hb]
          · intro _ n hs hc
            obtain ⟨hs', ho', _, hred'⟩ := hround.climbs rfl n hs hc
            have hpb : ¬ Reds (setColor sk' (some f.a) .black) f.a := by
              rw [not_reds]
              exact setColor_same sk' f.a .black
            have hsame : ∀ b, b ≠ f.a → (Reds (setColor sk' (some f.a) .black) b ↔ Reds sk' b) :=
              fun b hb => reds_paint .black hb
            apply balanced_plug.mpr
            refine ⟨n, ⟨ho'.congr (fun b hb => hsame b (fun heq => hpo (heq ▸ hb))),
              Or.inl ⟨hpb, (hred' hpr).congr (fun b hb => hsame b (fun heq => hpc (heq ▸ hb)))⟩⟩,
              hs'.congr (fun b hb => hsame b (fun heq => hpout (heq ▸ hb))), ?_⟩
            rw [topRed_cons]
            exact fun _ => hpb
        · -- the loop goes up with the subtree of the parent
          obtain rfl : c' = c := (hround.place rfl).resolve_right hpr
          have hup : Spells sk'.links (plug c' (.mk f.dir s f.a o')) := hspell
          obtain ⟨hctx, hlinked, _⟩ := spells_plug.mp hup
          obtain ⟨hparent, _⟩ := linked_mk.mp hlinked
          rw [Shape.root_mk] at hctx
          have hside' : SideIs c' (isLeftOf sk'.links f.a) := isLeftOf_side hctx hparent hpc
          rw [hparent]
          obtain ⟨sk'', c'', hrun, hspell'', hkeep, hbalance⟩ := ih
            hup (Or.inl (Shape.root_mk f.dir s f.a o').symm) hside'
              (show c'.length + 2 ≤ fuel + 1 by
              omega)
          refine ⟨sk'', ⟨f.dir, f.a, o'⟩ :: c'', hrun, hspell'', ?_, ?_⟩
          · intro b hb _
            have hbp : b ≠ f.a := fun heq => hpout (heq ▸ hb)
            rw [hkeep b (Shape.mem_mk.mpr (Or.inr (Or.inl hb))) ?_, hround.same b hb]
            rw [Shape.root_mk]
            exact fun heq => hbp (some.inj heq).symm
          · intro _ n hs hc
            obtain ⟨hs', ho', hblack', _⟩ := hround.climbs rfl n hs hc
            exact hbalance (Shape.root_mk f.dir s f.a o').symm (n + 1) (hs'.black_mk ho' hpr)
              (hblack' hpr)

theorem linked_unique {s' : Shape Addr} {q q' : Option Addr} (h : Linked L s q)
    (h' : Linked L s' q') (hroot : s.root = s'.root) : s = s' := by
  induction s generalizing s' q q' with
  | nil => exact (Shape.root_eq_none.mp hroot.symm).symm
  | node l a r ihl ihr =>
    cases s' with
    | nil => cases hroot
    | node l' a' r' =>
      obtain rfl : a = a' := some.inj hroot
      obtain ⟨_, hl, hr, hll, hrr⟩ := h
      obtain ⟨_, hl', hr', hll', hrr'⟩ := h'
      rw [ihl hll hll' (hl.symm.trans hl'), ihr hrr hrr' (hr.symm.trans hr')]

theorem spells_unique {s' : Shape Addr} (h : Spells L s) (h' : Spells L s') : s = s' :=
  linked_unique h.linked h'.linked (h.root.symm.trans h'.root)

theorem redBlack_iff {t : Tree V} {s' : Shape Addr} (h : TreeInv cmp t s)
    (hs : Spells t.skel.links s') : RedBlack cmp t ↔ ∃ n, Balanced (Reds t.skel) s' n := by
  obtain rfl := spells_unique hs h.spells
  constructor
  · intro ⟨s, hinv, hbalance⟩
    rw [spells_unique hs hinv.spells]
    exact hbalance
  · intro hbalance
    exact ⟨s', h, hbalance⟩

/- The end of vox_rbtree_delete. -/
def repair (fuel : ℕ) (u : Unlinked) (z : Addr) (isLeftChild : Bool) : Option Skeleton :=
  if u.yColor = .black then
    deleteFixup fuel u.skel u.x (fixupPlace u.skel.links z u.x u.y isLeftChild).1
      (fixupPlace u.skel.links z u.x u.y isLeftChild).2
  else some u.skel

theorem length_add_le_inorder : c.length + s.inorder.length ≤ (plug c s).inorder.length := by
  have hlen := length_le_nodes c
  rw [nodes, length_append] at hlen
  rw [inorder_plug]
  simp only [length_append]
  omega

theorem fits_height {red red' : Addr → Prop} {f : Frame Addr} {c' : List (Frame Addr)}
    (h : Fits red (f :: c) 0) (h' : Fits red' (f :: c') 1)
    (hsame : ∀ b ∈ f.sib.inorder, red' b ↔ red b) : False := by
  have heq : 0 = 1 := (h.1.congr hsame).unique h'.1
  cases heq

theorem deleteFixup_child {a : Addr} {n : ℕ} (h : Spells sk.links (plug c s))
    (hroot : s.root = some a) (hs : Balanced (Reds sk) s n) (hc : Fits (Reds sk) c (n + 1))
    (hfuel : c.length + 2 ≤ fuel) :
    ∃ sk' s', deleteFixup fuel sk (some a) (sk.links.parent a) (isLeftOf sk.links a) = some sk' ∧
      Spells sk'.links s' ∧ ∃ m, Balanced (Reds sk') s' m := by
  obtain ⟨t, o, rfl⟩ := Shape.exists_mk_of_root .left hroot
  obtain ⟨hctx, hsub, hnodup⟩ := spells_plug.mp h
  obtain ⟨_, _, hout⟩ := nodup_plug.mp hnodup
  rw [Shape.root_mk] at hctx
  have hpa : sk.links.parent a = top c := (linked_mk.mp hsub).1
  obtain ⟨sk', c', hrun, hspell, _, hdone⟩ := deleteFixup_hole c h (Or.inl hroot.symm)
    (isLeftOf_side hctx hpa (hout a (Shape.root_mem hroot))) hfuel
  rw [hpa]
  exact ⟨sk', _, hrun, hspell, hdone hroot.symm n hs hc⟩

variable {z : Addr}

theorem isLeftOf_gone (h : LinkedCtx L c none) (hparent : L.parent z = top c) (hz : z ∉ nodes c) :
    isLeftOf L z = false := by
  unfold isLeftOf
  rw [hparent]
  cases c with
  | nil => rfl
  | cons f c =>
    apply decide_eq_false
    intro heq
    obtain ⟨hchild, hother, _⟩ := h
    cases hd : f.dir with
    | left =>
      rw [hd] at hchild
      rw [hchild] at heq
      cases heq
    | right =>
      rw [hd] at hother
      have hin : z ∈ f.sib.inorder := Shape.root_mem (hother.symm.trans heq)
      exact hz (mem_nodes_cons.mpr (Or.inr (Or.inl hin)))

theorem deleteFixup_astray {f : Frame Addr} (h : Spells sk.links (plug (f :: c) .nil))
    (hd : f.dir = .left) (fuel : ℕ) : deleteFixup (fuel + 1) sk none (some f.a) false =
      deleteFixup fuel sk (some f.a) (top c) (isLeftOf sk.links f.a) := by
  obtain ⟨⟨hchild, _, hpf, _⟩, _⟩ := spells_plug.mp h
  rw [hd] at hchild
  have hgo : (none : Option Addr) ≠ sk.links.root ∧ isBlack sk none = true := by
    obtain ⟨a, _, hplug⟩ := plug_root f c
    rw [h.root, hplug]
    exact ⟨fun heq => (by cases heq), rfl⟩
  have hround : deleteCases .right sk f.a = some (sk, true) := by
    have hcase : case1 .right sk f.a = some sk := by
      unfold case1
      dsimp only [Dir.flip]
      rw [hchild]
      rfl
    rw [deleteCases, hcase]
    dsimp only [Dir.flip]
    rw [hchild]
    rfl
  rw [deleteFixup_go hgo, if_neg Bool.false_ne_true, hround, ← hpf]
  rfl

theorem unlinkOne_repair (h : Spells sk.links (plug c (.mk d s z .nil)))
    (hbalance : ∃ n, Balanced (Reds sk) (plug c (.mk d s z .nil)) n) (hfuel : c.length + 2 ≤ fuel) :
    ∃ sk' s', repair fuel ⟨{ sk with links := transplant sk.links z s.root }, s.root, z,
        sk.color z⟩ z (isLeftOf sk.links z) = some sk' ∧ Spells sk'.links s' ∧
      ((∃ m, Balanced (Reds sk') s' m) ↔
        Reds sk z ∨ s.root ≠ none ∨ isLeftOf sk.links z = false) := by
  have hspell := transplant_spells h
  have hparent := transplant_parent h
  obtain ⟨hctx, hsub, hnodup⟩ := spells_plug.mp h
  obtain ⟨hcn, _, hout⟩ := nodup_plug.mp hnodup
  rw [Shape.root_mk] at hctx
  have hzc : z ∉ nodes c := hout z (Shape.mem_mk.mpr (Or.inl rfl))
  have hzside : SideIs c (isLeftOf sk.links z) :=
    isLeftOf_side hctx (linked_mk.mp hsub).1 hzc
  obtain ⟨n, hc, hmk, _⟩ := balanced_plug.mp hbalance
  generalize transplant sk.links z s.root = L at hspell hparent
  rcases hmk.only_child with ⟨hz, rfl, rfl⟩ | ⟨hz, rfl, hs⟩
  · have hne : sk.color z ≠ .black := fun hb => not_reds.mpr hb hz
    refine ⟨⟨L, sk.color⟩, plug c .nil, if_neg hne, hspell, iff_of_true ?_ (Or.inl hz)⟩
    exact balanced_plug.mpr ⟨0, hc, rfl, fun hr => absurd hr redRoot_nil⟩
  · unfold repair
    rw [if_pos (not_reds.mp hz)]
    obtain ⟨hctx', _, _⟩ := spells_plug.mp hspell
    have hLsk : Spells (⟨L, sk.color⟩ : Skeleton).links (plug c s) := hspell
    cases hroot : s.root with
    | some a =>
      -- the child is red and takes the place
      obtain ⟨sk', s', hrun, hspell', hdone⟩ := deleteFixup_child hLsk hroot hs hc hfuel
      exact ⟨sk', s', hrun, hspell',
        iff_of_true hdone (Or.inr (Or.inl (some_ne_none a)))⟩
    | none =>
      obtain rfl := Shape.root_eq_none.mp hroot
      have hzout : L.parent z ≠ some z := by
        rw [hparent]
        exact fun heq => hzc (top_mem heq)
      have hplace : fixupPlace L z none z (isLeftOf sk.links z) = (top c, false) := by
        dsimp only [fixupPlace]
        rw [if_neg hzout, hparent, isLeftOf_gone hctx' hparent hzc]
      dsimp only
      rw [hplace]
      cases hleft : isLeftOf sk.links z with
      | false =>
        rw [hleft] at hzside
        obtain ⟨sk', c', hrun, hspell', _, hdone⟩ :=
          deleteFixup_hole c hLsk (Or.inl rfl) hzside hfuel
        exact ⟨sk', _, hrun, hspell', iff_of_true (hdone rfl 0 hs hc) (Or.inr (Or.inr rfl))⟩
      | true =>
        -- the fix-up starts on the side of the sibling, and finds none on the other
        rw [hleft] at hzside
        cases c with
        | nil =>
          unfold isLeftOf at hleft
          rw [(linked_mk.mp hsub).1] at hleft
          cases hleft
        | cons f c =>
          obtain ⟨_, _, hpf, _, hctxf⟩ := hctx'
          have hup : Spells (⟨L, sk.color⟩ : Skeleton).links (plug c (.mk f.dir .nil f.a f.sib)) :=
            hspell
          have hfc : f.a ∉ nodes c := (nodup_nodes_cons.mp hcn).2.1
          obtain ⟨fuel, rfl⟩ : ∃ k, fuel = k + 1 := ⟨fuel - 1, by omega⟩
          rw [length_cons] at hfuel
          obtain ⟨sk', c', hrun, hspell', hkeep, _⟩ := deleteFixup_hole c hup
            (Or.inl (Shape.root_mk _ _ _ _).symm) (isLeftOf_side hctxf hpf hfc)
            (show c.length + 2 ≤ fuel by omega)
          refine ⟨sk', _, (deleteFixup_astray hLsk (hzside f rfl) fuel).trans hrun, hspell',
            iff_of_false ?_ ?_⟩
          · intro hm
            -- the sibling still has a black node more than the hole
            obtain ⟨k, _, hfk, _⟩ := balanced_plug.mp hm
            obtain ⟨i, hi, hsib, _⟩ := balanced_mk.mp hfk
            obtain rfl : i = 0 := hi
            have hsibs : ∀ b ∈ f.sib.inorder, Reds sk b ↔ Reds sk' b := by
              intro b hb
              have hbf : b ≠ f.a := fun heq => (nodup_nodes_cons.mp hcn).1 (heq ▸ hb)
              rw [hkeep b (Shape.mem_mk.mpr (Or.inr (Or.inr hb)))]
              · exact Iff.rfl
              · rw [Shape.root_mk]
                exact fun heq => hbf (some.inj heq).symm
            have heq : 0 = 0 + 1 := (hsib.congr hsibs).unique hc.1
            cases heq
          · simp [hz]

variable {l : Shape Addr}

theorem topRed_replace {red red' : Addr → Prop} {e : List (Frame Addr)} {y : Addr}
    (hsame : ∀ b ∈ nodes e, red' b ↔ red b) (hy : red' y ↔ red z) :
    TopRed red' (e ++ ⟨d, y, l⟩ :: c) ↔ TopRed red (e ++ ⟨d, z, l⟩ :: c) := by
  cases e with
  | nil =>
    rw [nil_append, nil_append, topRed_cons, topRed_cons]
    exact hy
  | cons f e =>
    rw [cons_append, cons_append, topRed_cons, topRed_cons]
    exact hsame f.a (mem_nodes_cons.mpr (Or.inl rfl))

theorem fits_replace {red red' : Addr → Prop} {e : List (Frame Addr)} {y : Addr} {n : ℕ}
    (h : Fits red (e ++ ⟨d, z, l⟩ :: c) n) (he : ∀ b ∈ nodes e, red' b ↔ red b)
    (hl : ∀ b ∈ l.inorder, red' b ↔ red b) (hc : ∀ b ∈ nodes c, red' b ↔ red b)
    (hy : red' y ↔ red z) : Fits red' (e ++ ⟨d, y, l⟩ :: c) n := by
  induction e generalizing n with
  | nil =>
    obtain ⟨hsib, hcase⟩ := h
    refine ⟨hsib.congr hl, ?_⟩
    dsimp only
    rw [hy, RedRoot.congr hl, TopRed.congr hc]
    exact hcase.imp (fun ⟨hz, hfit⟩ => ⟨hz, hfit.congr hc⟩)
      (fun ⟨hz, hlb, htop, hfit⟩ => ⟨hz, hlb, htop, hfit.congr hc⟩)
  | cons f e ih =>
    simp only [mem_nodes_cons] at he
    have hsib' : ∀ b ∈ f.sib.inorder, red' b ↔ red b := fun b hb => he b (Or.inr (Or.inl hb))
    have he' : ∀ b ∈ nodes e, red' b ↔ red b := fun b hb => he b (Or.inr (Or.inr hb))
    obtain ⟨hsib, hcase⟩ := h
    refine ⟨hsib.congr hsib', ?_⟩
    rw [he f.a (Or.inl rfl), RedRoot.congr hsib', append_eq, topRed_replace he' hy]
    exact hcase.imp (fun ⟨hf, hfit⟩ => ⟨hf, ih hfit he'⟩)
      (fun ⟨hf, hsb, htop, hfit⟩ => ⟨hf, hsb, htop, ih hfit he'⟩)

theorem unlinkMin_repair {e : List (Frame Addr)} {r : Shape Addr} {y : Addr}
    (h : Spells sk.links (plug c (.node l z (plug e (.node .nil y r)))))
    (hbalance : ∃ n, Balanced (Reds sk) (plug c (.node l z (plug e (.node .nil y r)))) n)
    (hfuel : e.length + c.length + 3 ≤ fuel) (isLeft : Bool) :
    ∃ sk' s', repair fuel (unlinkMin sk z y) z isLeft = some sk' ∧ Spells sk'.links s' ∧
      ((∃ m, Balanced (Reds sk') s' m) ↔ Reds sk y ∨ r.root ≠ none) := by
  have hspell := unlinkMin_spells h
  have hold : plug c (.node l z (plug e (.node .nil y r))) =
      plug (e ++ ⟨.right, z, l⟩ :: c) (.mk .right r y .nil) := by
    rw [plug_append]
    rfl
  have hnew : plug c (.node l y (plug e r)) = plug (e ++ ⟨.right, y, l⟩ :: c) r := by
    rw [plug_append]
    rfl
  have hx := unlinkMin_x h
  have hycolor : (unlinkMin sk z y).yColor = sk.color y := rfl
  -- `y` has the colour of `z`, the other nodes keep theirs
  have hyc : Reds (unlinkMin sk z y).skel y ↔ Reds sk z := by
    have hcolor : (unlinkMin sk z y).skel.color y = sk.color z := setColor_same _ y _
    unfold Reds
    rw [hcolor]
  have hsame : ∀ b, b ≠ y → (Reds (unlinkMin sk z y).skel b ↔ Reds sk b) :=
    fun b hb => reds_paint _ hb
  obtain ⟨_, hsub, hnodup⟩ := spells_plug.mp hspell
  have hzout := (replaced_out h.nodup).1
  have hymem : y ∈ (plug c (.node l y (plug e r))).inorder :=
    mem_plug.mpr (Or.inr (Shape.root_mem rfl))
  obtain ⟨_, hmkn, hout⟩ := nodup_plug.mp hnodup
  obtain ⟨hyl, hyt, _, htn, hlt⟩ := (Shape.nodup_mk (d := .left)).mp hmkn
  obtain ⟨_, _, hrout⟩ := nodup_plug.mp htn
  have hyt' : y ∉ nodes e ∧ y ∉ r.inorder := by
    rw [mem_plug, not_or] at hyt
    exact hyt
  have hyctx : y ∉ nodes c := hout y (Shape.root_mem rfl)
  generalize hu : unlinkMin sk z y = u at hspell hx hycolor hyc hsame
  rw [hold] at hbalance
  obtain ⟨n, hc, hmk, _⟩ := balanced_plug.mp hbalance
  have hc' : Fits (Reds u.skel) (e ++ ⟨.right, y, l⟩ :: c) n :=
    fits_replace hc (fun b hb => hsame b (fun heq => hyt'.1 (heq ▸ hb)))
      (fun b hb => hsame b (fun heq => hyl (heq ▸ hb)))
      (fun b hb => hsame b (fun heq => hyctx (heq ▸ hb))) hyc
  have hlen : (e ++ ⟨.right, y, l⟩ :: c).length + 2 ≤ fuel := by
    rw [length_append, length_cons]
    omega
  unfold repair
  rw [hycolor]
  rcases hmk.only_child with ⟨hy, rfl, rfl⟩ | ⟨hy, rfl, hr⟩
  · have hne : sk.color y ≠ .black := fun hb => not_reds.mpr hb hy
    rw [if_neg hne]
    refine ⟨u.skel, _, rfl, hspell, iff_of_true ?_ (Or.inl hy)⟩
    rw [hnew]
    exact balanced_plug.mpr ⟨0, hc', rfl, fun hred => absurd hred redRoot_nil⟩
  · rw [if_pos (not_reds.mp hy), hx]
    cases hroot : r.root with
    | some a =>
      -- the red child takes the place
      rw [hnew] at hspell
      have hr' : Balanced (Reds u.skel) r 0 :=
        hr.congr (fun b hb => hsame b (fun heq => hyt'.2 (heq ▸ hb)))
      obtain ⟨sk', s', hrun, hspell', hdone⟩ := deleteFixup_child hspell hroot hr' hc' hlen
      exact ⟨sk', s', hrun, hspell', iff_of_true hdone (Or.inr (some_ne_none a))⟩
    | none =>
      -- the fix-up is handed the place of the node that has moved up
      obtain rfl := Shape.root_eq_none.mp hroot
      obtain ⟨hctx, hsub', _⟩ := spells_plug.mp hspell
      have hpy : u.skel.links.parent y = top c := hsub'.1
      have hplace : fixupPlace u.skel.links z none u.y isLeft =
          (top c, isLeftOf u.skel.links y) := by
        have huy : u.y = y := by
          rw [← hu]
          rfl
        rw [huy]
        dsimp only [fixupPlace]
        rw [if_neg, hpy]
        rw [hpy]
        intro heq
        exact hzout (mem_plug.mpr (Or.inl (top_mem heq)))
      rw [hplace]
      obtain ⟨sk', c', hrun, hspell', hkeep, _⟩ := deleteFixup_hole c hspell (Or.inr rfl)
        (isLeftOf_side hctx hpy hyctx) (show c.length + 2 ≤ fuel by omega)
      refine ⟨sk', _, hrun, hspell', iff_of_false ?_ ?_⟩
      · intro hm
        obtain ⟨k, _, hyk, _⟩ := balanced_plug.mp hm
        obtain ⟨i, hl, ht, _⟩ := hyk
        have hbelow : ∀ b, b ≠ y → b ∈ (Shape.node l y (plug e .nil)).inorder →
            (Reds u.skel b ↔ Reds sk' b) := by
          intro b hby hb
          rw [hkeep b hb]
          exact fun heq => hby (some.inj heq).symm
        have hmem : ∀ b, b ∈ (Shape.node l y (plug e .nil)).inorder ↔
            b = y ∨ b ∈ l.inorder ∨ b ∈ (plug e .nil).inorder :=
          fun b => Shape.mem_mk (d := .left)
        cases e with
        | nil =>
          obtain rfl : i = 0 := ht
          have hls : ∀ b ∈ l.inorder, Reds u.skel b ↔ Reds sk' b := fun b hb =>
            hbelow b (fun heq => hyl (heq ▸ hb)) ((hmem b).mpr (Or.inr (Or.inl hb)))
          have heq : 0 = 0 + 1 := (hl.congr hls).unique hc'.1
          cases heq
        | cons f e =>
          obtain ⟨j, hf, hnilj, _⟩ := balanced_plug.mp ⟨i, ht⟩
          obtain rfl : j = 0 := hnilj
          have hfs : ∀ b ∈ f.sib.inorder, Reds u.skel b ↔ Reds sk' b := by
            intro b hb
            have hbn : b ∈ nodes (f :: e) := mem_nodes_cons.mpr (Or.inr (Or.inl hb))
            exact hbelow b (fun heq => hyt'.1 (heq ▸ hbn))
              ((hmem b).mpr (Or.inr (Or.inr (mem_plug.mpr (Or.inl hbn)))))
          exact fits_height hf hc' hfs
      · simp [hy]

/-- The node that leaves its place: the one with the key, or the first one of
its right subtree when it has two children. -/
def leaving (t : Tree V) (z : Addr) : Option Addr :=
  match t.skel.links.child .left z, t.skel.links.child .right z with
  | some _, some r => minNode t.skel.links t.fuel r
  | _, _ => some z

def Placed (t : Tree V) (z : Addr) : Prop :=
  ∀ y ∈ leaving t z, t.skel.color y = .red ∨
    t.skel.links.child .left y ≠ none ∨ t.skel.links.child .right y ≠ none ∨
    (y = z ∧ isLeftOf t.skel.links z = false)

theorem delete_eq_repair {t : Tree V} {u : Unlinked} (hcmp : CmpTotal cmp) (h : TreeInv cmp t s)
    (hz : z ∈ s.inorder) (hu : unlink t.fuel t.skel z = some u) :
    delete cmp t (t.key z) = (repair t.fuel u z (isLeftOf t.skel.links z)).map fun sk =>
      (0, { t with skel := sk, live := t.live.erase z, size := t.size - 1 }) := by
  unfold delete repair
  rw [if_neg (h.keys z hz), findNode_stored hcmp h hz]
  dsimp only
  rw [hu]
  dsimp only
  split
  · rfl
  · rfl

/- What the call leaves, seen from the node that leaves its place. -/
theorem unlink_repair {t : Tree V} {r : Shape Addr} (h : Spells t.skel.links (plug c (.node l z r)))
    (hbalance : ∃ n, Balanced (Reds t.skel) (plug c (.node l z r)) n)
    (hsize : t.size = (plug c (.node l z r)).inorder.length) :
    ∃ u sk' s', unlink t.fuel t.skel z = some u ∧
      repair t.fuel u z (isLeftOf t.skel.links z) = some sk' ∧ Spells sk'.links s' ∧
      ((∃ m, Balanced (Reds sk') s' m) ↔ Placed t z) := by
  obtain ⟨_, hsub, _⟩ := spells_plug.mp h
  obtain ⟨_, hl, hr, _, hrr⟩ := hsub
  have hlen := @length_add_le_inorder c (.node l z r)
  rw [← hsize] at hlen
  simp only [Shape.inorder, length_append, length_cons] at hlen
  have hfuel : c.length + 2 ≤ t.fuel := by
    rw [Tree.fuel]
    omega
  unfold unlink Placed leaving
  rw [hl]
  cases hlroot : l.root with
  | none =>
    rw [Shape.root_eq_none.mp hlroot] at h hbalance
    obtain ⟨sk', s', hrun, hspell, hiff⟩ := unlinkOne_repair (d := .right)
      (show Spells t.skel.links (plug c (.mk .right r z .nil)) from h) hbalance hfuel
    refine ⟨_, sk', s', rfl, ?_, hspell, hiff.trans ?_⟩
    · rw [hr]
      exact hrun
    · simp [hl, hlroot, hr, Reds]
  | some a =>
    dsimp only
    rw [hr]
    cases hrroot : r.root with
    | none =>
      rw [Shape.root_eq_none.mp hrroot] at h hbalance
      obtain ⟨sk', s', hrun, hspell, hiff⟩ := unlinkOne_repair (d := .left)
        (show Spells t.skel.links (plug c (.mk .left l z .nil)) from h) hbalance hfuel
      rw [hlroot] at hrun
      refine ⟨_, sk', s', rfl, hrun, hspell, hiff.trans ?_⟩
      simp [hl, hlroot, Reds]
    | some b =>
      obtain ⟨e, y, o, hmin, hplug, hdir⟩ := endNode_spec .left t.fuel hrr hrroot (by
        rw [Tree.fuel]
        omega)
      subst hplug
      have hfull : Spells t.skel.links
          (plug (e ++ ⟨.right, z, l⟩ :: c) (.mk .right o y .nil)) := by
        rw [plug_append]
        exact h
      obtain ⟨_, hsub', _⟩ := spells_plug.mp hfull
      obtain ⟨_, hright, hleft, _⟩ := linked_mk.mp hsub'
      have hyz : y ≠ z := by
        intro heq
        obtain ⟨_, hn, _⟩ := nodup_plug.mp h.nodup
        obtain ⟨_, hzr, _⟩ := (Shape.nodup_mk (d := .left)).mp hn
        apply hzr
        rw [← heq]
        exact mem_plug.mpr (Or.inr (Shape.root_mem (Shape.root_mk .left .nil y o)))
      have hdeep := @length_add_le_inorder e (.mk .left .nil y o)
      obtain ⟨sk', s', hrun, hspell, hiff⟩ := unlinkMin_repair h hbalance
        (show e.length + c.length + 3 ≤ t.fuel by
          rw [Tree.fuel]
          rw [Shape.length_mk] at hdeep
          omega) (isLeftOf t.skel.links z)
      dsimp only
      rw [minNode, hmin]
      refine ⟨_, sk', s', rfl, hrun, hspell, hiff.trans ?_⟩
      simp only [mem_some_iff, forall_eq']
      rw [hright]
      have hleft' : t.skel.links.child .left y = none := hleft
      rw [hleft']
      simp [Reds, hyz]

/-- After a deletion the tree satisfies the red-black conditions again exactly
when the place of the fix-up was right. -/
theorem delete_redBlack_iff (hcmp : CmpTotal cmp) {t : Tree V} (h : RedBlack cmp t) {z : Addr}
    (hz : z ∈ t.live) :
    ∃ t', delete cmp t (t.key z) = some (0, t') ∧ (RedBlack cmp t' ↔ Placed t z) := by
  obtain ⟨s, hinv, hbalance⟩ := h
  have hzs : z ∈ s.inorder := (hinv.live z).mp hz
  obtain ⟨t', s', hrun, hinv', _⟩ := delete_stored hcmp hinv hzs
  refine ⟨t', hrun, ?_⟩
  obtain ⟨c, l, r, rfl⟩ := exists_plug hzs
  obtain ⟨u, sk', s'', hunlink, hrepair, hspell, hiff⟩ :=
    unlink_repair hinv.spells hbalance hinv.size
  have hdelete := delete_eq_repair hcmp hinv hzs hunlink
  rw [hrepair, hrun, map_some] at hdelete
  have ht' : t' = { t with skel := sk', live := t.live.erase z, size := t.size - 1 } :=
    congrArg Prod.snd (some.inj hdelete)
  have hskel : t'.skel = sk' := by
    rw [ht']
  rw [← hskel] at hspell hiff
  exact (redBlack_iff hinv' hspell).trans hiff

def exampleCalls : List (Op ℕ) :=
  [.insert (lit "a") 1 (some 0) true, .insert (lit "b") 2 (some 1) true,
    .insert (lit "c") 3 (some 2) true, .insert (lit "d") 4 (some 3) true, .delete (lit "d")]

def exampleTree : Tree ℕ :=
  ((calls (call exampleCmp) create exampleCalls).map Prod.snd).getD create

theorem exampleTree_inv : ∃ s, TreeInv exampleCmp exampleTree s := by
  have hok : Admitted (call exampleCmp) OpOk (create : Tree ℕ) exampleCalls := by
    decide +kernel
  obtain ⟨t, hcalls, s, hrel⟩ :=
    calls_eq_answers (call_simulates exampleCmp_total) ⟨.nil, create_rel⟩ hok
  have heq : exampleTree = t := by
    unfold exampleTree
    rw [hcalls]
    rfl
  rw [heq]
  exact ⟨s, hrel.inv⟩

theorem exampleTree_redBlack : RedBlack exampleCmp exampleTree := by
  obtain ⟨s, hinv⟩ := exampleTree_inv
  have hspell : Spells exampleTree.skel.links
    (.node (.node .nil 0 .nil) 1 (.node .nil 2 .nil)) := by
    refine ⟨by decide +kernel, ⟨?_, ?_, ?_, ⟨?_, ?_, ?_, trivial, trivial⟩, ⟨?_, ?_, ?_, trivial,
      trivial⟩⟩, by decide⟩
    all_goals decide +kernel
  have hblack : ∀ a ∈ [0, 1, 2], exampleTree.skel.color a = .black := by
    decide +kernel
  apply (redBlack_iff hinv hspell).mpr
  have hleaf : ∀ a ∈ [0, 1, 2], Balanced (Reds exampleTree.skel) (.node .nil a .nil) 1 :=
    fun a ha => ⟨0, rfl, rfl, Or.inl ⟨not_reds.mpr (hblack a ha), rfl⟩⟩
  exact ⟨2, 1, hleaf 0 (by decide), hleaf 2 (by decide),
    Or.inl ⟨not_reds.mpr (hblack 1 (by decide)), rfl⟩⟩

theorem right_leaf_deleted : ∃ t', delete exampleCmp exampleTree (exampleTree.key 2) =
    some (0, t') ∧ RedBlack exampleCmp t' := by
  obtain ⟨t', hrun, hiff⟩ := delete_redBlack_iff exampleCmp_total exampleTree_redBlack
    (show 2 ∈ exampleTree.live by decide +kernel)
  refine ⟨t', hrun, hiff.mpr ?_⟩
  intro y hy
  have hleaving : leaving exampleTree 2 = some 2 := by
    decide +kernel
  rw [hleaving] at hy
  obtain rfl : 2 = y := some.inj hy
  right; right; right
  exact ⟨rfl, by decide +kernel⟩

/-- The first key of three black nodes is deleted: the other two are left with
no node on one side of the root and a black one on the other. -/
theorem left_leaf_unbalances : RedBlack exampleCmp exampleTree ∧ 0 ∈ exampleTree.live ∧
    ¬ ∃ r t', delete exampleCmp exampleTree (exampleTree.key 0) = some (r, t') ∧
      RedBlack exampleCmp t' := by
  refine ⟨exampleTree_redBlack, by decide +kernel, ?_⟩
  intro ⟨r, t', hrun, s, hinv, n, hbalance⟩
  have ht' : t' = ((delete exampleCmp exampleTree (exampleTree.key 0)).map Prod.snd).getD
    create := by
    rw [hrun]
    rfl
  have hspell : Spells t'.skel.links (.node .nil 1 (.node .nil 2 .nil)) := by
    rw [ht']
    refine ⟨by decide +kernel, ⟨?_, ?_, ?_, trivial, ⟨?_, ?_, ?_, trivial, trivial⟩⟩, by decide⟩
    all_goals decide +kernel
  have hblack : t'.skel.color 2 = .black := by
    rw [ht']
    decide +kernel
  rw [spells_unique hinv.spells hspell] at hbalance
  obtain ⟨m, hnil, ⟨k, _, _, hk⟩, _⟩ := hbalance
  obtain rfl : m = 0 := hnil
  rcases hk with ⟨_, hk⟩ | ⟨hred, _⟩
  · cases hk
  · exact not_reds.mpr hblack hred

end Voxlib.RbTree
