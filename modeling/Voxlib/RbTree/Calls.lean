import Voxlib.RbTree.Fixup

/-!
# What each call does to the stored pairs

A tree is in order when its links spell out a shape whose nodes carry rising keys.
-/

namespace Voxlib.RbTree
open CStr LinkTree List Function

variable {V : Type} {cmp : KeyCmp}

structure CmpTotal (cmp : KeyCmp) : Prop where
  eq_iff : ∀ a b : Bytes, a.length = b.length → (cmp a b a.length = 0 ↔ a = b)
  swap : ∀ a b : Bytes, a.length = b.length → (cmp a b a.length < 0 ↔ 0 < cmp b a b.length)
  trans : ∀ a b c : Bytes, a.length = b.length → b.length = c.length →
    cmp a b a.length < 0 → cmp b c b.length < 0 → cmp a c a.length < 0

def KeyLt (cmp : KeyCmp) (a b : Bytes) : Prop := compareKeys cmp a b < 0

theorem compareKeys_eq_zero (hcmp : CmpTotal cmp) (a b : Bytes) :
    compareKeys cmp a b = 0 ↔ a = b := by
  unfold compareKeys
  split
  · rename_i hlen
    constructor
    · intro h
      split at h
      · omega
      · omega
    · intro h
      exact absurd (congrArg List.length h) hlen
  · rename_i hlen
    exact hcmp.eq_iff a b (not_not.mp hlen)

theorem compareKeys_pos (hcmp : CmpTotal cmp) (a b : Bytes) :
    0 < compareKeys cmp a b ↔ KeyLt cmp b a := by
  unfold KeyLt compareKeys
  by_cases hlen : a.length = b.length
  · rw [if_neg (not_not.mpr hlen), if_neg (not_not.mpr hlen.symm)]
    exact (hcmp.swap b a hlen.symm).symm
  · rw [if_pos hlen, if_pos (Ne.symm hlen)]
    rcases Nat.lt_or_gt_of_ne hlen with hlt | hgt
    · rw [if_pos hlt, if_neg (by omega)]
      decide
    · rw [if_neg (by omega), if_pos hgt]
      decide

theorem KeyLt.trans {a b c : Bytes} (hcmp : CmpTotal cmp) (hab : KeyLt cmp a b)
    (hbc : KeyLt cmp b c) : KeyLt cmp a c := by
  unfold KeyLt compareKeys at *
  by_cases h₁ : a.length = b.length
  · by_cases h₂ : b.length = c.length
    · rw [if_neg (not_not.mpr h₁)] at hab
      rw [if_neg (not_not.mpr h₂)] at hbc
      rw [if_neg (not_not.mpr (h₁.trans h₂))]
      exact hcmp.trans a b c h₁ h₂ hab hbc
    · rw [if_pos h₂] at hbc
      rw [h₁, if_pos h₂]
      exact hbc
  · rw [if_pos h₁] at hab
    split at hab
    · rename_i hlt
      by_cases h₂ : b.length = c.length
      · rw [← h₂, if_pos h₁, if_pos hlt]
        decide
      · rw [if_pos h₂] at hbc
        split at hbc
        · rw [if_pos (by omega), if_pos (by omega)]
          decide
        · omega
    · omega

theorem KeyLt.ne {a b : Bytes} (hcmp : CmpTotal cmp) (h : KeyLt cmp a b) : a ≠ b := by
  intro heq
  have hzero := (compareKeys_eq_zero hcmp a b).mpr heq
  unfold KeyLt at h
  omega

structure TreeInv (cmp : KeyCmp) (t : Tree V) (s : Shape Addr) : Prop where
  spells : Spells t.skel.links s
  rootBlack : RootBlack t.skel
  live : ∀ a, a ∈ t.live ↔ a ∈ s.inorder
  size : t.size = s.inorder.length
  sorted : s.inorder.Pairwise fun a b => KeyLt cmp (t.key a) (t.key b)
  keys : ∀ a ∈ s.inorder, (t.key a).length ≠ 0
  values : ∀ a ∈ s.inorder, (t.value a).isSome

def Stored (t : Tree V) (s : Shape Addr) (k : Bytes) (v : Option V) : Prop :=
  ∃ a ∈ s.inorder, t.key a = k ∧ t.value a = v

variable {a : Addr} {t : Tree V} {s : Shape Addr}

theorem key_injective (hcmp : CmpTotal cmp) (h : TreeInv cmp t s) {b : Addr} (ha : a ∈ s.inorder)
    (hb : b ∈ s.inorder) (heq : t.key a = t.key b) : a = b := by
  have hnodup : (s.inorder.map t.key).Nodup := by
    rw [List.Nodup, pairwise_map]
    exact h.sorted.imp (fun hlt => hlt.ne hcmp)
  exact inj_on_of_nodup_map hnodup ha hb heq

def Place.node : Place → Option Addr
  | .found a => some a
  | .free _ _ => none

theorem findNode_eq (t : Tree V) (key : Bytes) (fuel : ℕ) (p q : Option Addr) (c : ℤ) :
    findNode cmp t key fuel p = (findPlace cmp t key fuel p q c).map Place.node := by
  induction fuel generalizing p q c with
  | zero =>
    cases p with
    | none => rfl
    | some a => rfl
  | succ fuel ih =>
    cases p with
    | none => rfl
    | some a =>
      rw [findNode, findPlace]
      split
      · rfl
      · split
        · exact ih _ _ _
        · exact ih _ _ _

/- All keys of the list are smaller, or greater, than the key. -/
def Below (cmp : KeyCmp) (t : Tree V) (as : List Addr) (key : Bytes) : Prop :=
  ∀ a ∈ as, KeyLt cmp (t.key a) key

def Above (cmp : KeyCmp) (t : Tree V) (as : List Addr) (key : Bytes) : Prop :=
  ∀ a ∈ as, KeyLt cmp key (t.key a)

def SideOk (c : List (Frame Addr)) (last : ℤ) : Prop :=
  ∀ f ∈ c.head?, (last < 0 ↔ f.dir = .left)

/- Where the search in the subtree `s` around which `c` lies may end. -/
inductive Ends (cmp : KeyCmp) (t : Tree V) (whole : Shape Addr) (key : Bytes) : Place → Prop where
  | found (a : Addr) (ha : a ∈ whole.inorder) (hkey : t.key a = key) :
    Ends cmp t whole key (.found a)
  | free (c : List (Frame Addr)) (last : ℤ) (hwhole : whole = plug c .nil)
      (hbelow : Below cmp t (before c) key) (habove : Above cmp t (behind c) key)
      (hside : SideOk c last) : Ends cmp t whole key (.free (top c) last)

variable {key : Bytes}

theorem findPlace_ends (hcmp : CmpTotal cmp) (s : Shape Addr) :
    ∀ {q : Option Addr} {c : List (Frame Addr)} {fuel : ℕ} {last : ℤ}, Linked t.skel.links s q →
      s.inorder.Pairwise (fun a b => KeyLt cmp (t.key a) (t.key b)) →
      Below cmp t (before c) key → Above cmp t (behind c) key → SideOk c last →
      s.inorder.length ≤ fuel → ∃ place, findPlace cmp t key fuel s.root (top c) last = some place ∧
        Ends cmp t (plug c s) key place := by
  induction s with
  | nil =>
    intro q c fuel last _ _ hbelow habove hside _
    refine ⟨.free (top c) last, ?_, .free c last rfl hbelow habove hside⟩
    cases fuel with
    | zero => rfl
    | succ fuel => rfl
  | node l a r ihl ihr =>
    intro q c fuel last hlinked hsorted hbelow habove hside hfuel
    obtain ⟨_, hleft, hright, hl, hr⟩ := hlinked
    simp only [Shape.inorder, length_append, length_cons] at hfuel
    obtain ⟨hsl, hsr, hlr⟩ := pairwise_append.mp hsorted
    obtain ⟨har, hsr'⟩ := pairwise_cons.mp hsr
    obtain ⟨fuel, rfl⟩ : ∃ n, fuel = n + 1 := ⟨fuel - 1, by omega⟩
    show ∃ place, findPlace cmp t key (fuel + 1) (some a) (top c) last = some place ∧ _
    rw [findPlace]
    split
    · rename_i hzero
      refine ⟨.found a, rfl, .found a ?_ ((compareKeys_eq_zero hcmp _ _).mp hzero).symm⟩
      exact mem_plug.mpr (Or.inr (Shape.root_mem rfl))
    · rename_i hne
      split
      · rename_i hlt
        rw [hleft]
        refine ihl (c := ⟨.left, a, r⟩ :: c) hl hsl hbelow ?_ ?_ (by omega)
        · intro b hb
          rcases mem_cons.mp hb with heq | hb
          · rw [heq]
            exact hlt
          · rcases mem_append.mp hb with hb | hb
            · exact KeyLt.trans hcmp hlt (har b hb)
            · exact habove b hb
        · intro f hf
          rw [List.head?_cons, Option.mem_some_iff] at hf
          rw [← hf]
          exact ⟨fun _ => rfl, fun _ => hlt⟩
      · rename_i hge
        rw [hright]
        have hgt : KeyLt cmp (t.key a) key := (compareKeys_pos hcmp _ _).mp (by omega)
        refine ihr (c := ⟨.right, a, l⟩ :: c) hr hsr' ?_ habove ?_ (by omega)
        · intro b hb
          rcases mem_append.mp hb with hb | hb
          · exact hbelow b hb
          · rcases mem_append.mp hb with hb | hb
            · exact KeyLt.trans hcmp (hlr b hb a mem_cons_self) hgt
            · rw [mem_singleton.mp hb]
              exact hgt
        · intro f hf
          rw [List.head?_cons, Option.mem_some_iff] at hf
          rw [← hf]
          exact ⟨fun h => absurd h hge, fun h => by cases h⟩

theorem findPlace_spec (hcmp : CmpTotal cmp) (h : TreeInv cmp t s) (key : Bytes) :
    ∃ place, findPlace cmp t key t.fuel t.skel.links.root none 0 = some place ∧
      Ends cmp t s key place := by
  rw [h.spells.root]
  refine findPlace_ends hcmp s (c := []) h.spells.linked h.sorted ?_ ?_ ?_ ?_
  · intro a ha
    cases ha
  · intro a ha
    cases ha
  · intro f hf
    cases hf
  · rw [Tree.fuel, h.size]
    omega

variable {c : List (Frame Addr)}

theorem absent_of_hole (hcmp : CmpTotal cmp) (hbelow : Below cmp t (before c) key)
    (habove : Above cmp t (behind c) key) : ∀ a ∈ (plug c .nil).inorder, t.key a ≠ key := by
  intro a ha
  rcases mem_plug.mp ha with hn | hn
  · rcases mem_append.mp hn with hb | hb
    · exact (hbelow a hb).ne hcmp
    · exact ((habove a hb).ne hcmp).symm
  · cases hn

theorem findNode_spec (hcmp : CmpTotal cmp) (h : TreeInv cmp t s) (key : Bytes) :
    (∃ a ∈ s.inorder, t.key a = key ∧ findNode cmp t key t.fuel t.skel.links.root = some (some a)) ∨
    ((∀ a ∈ s.inorder, t.key a ≠ key) ∧
      findNode cmp t key t.fuel t.skel.links.root = some none) := by
  obtain ⟨place, hplace, hends⟩ := findPlace_spec hcmp h key
  have hfind : findNode cmp t key t.fuel t.skel.links.root =
      (findPlace cmp t key t.fuel t.skel.links.root none 0).map Place.node :=
    findNode_eq t key t.fuel t.skel.links.root none 0
  rw [hplace] at hfind
  cases hends with
  | found a ha hkey =>
    left
    exact ⟨a, ha, hkey, hfind⟩
  | free c last hwhole hbelow habove _ =>
    right
    subst hwhole
    exact ⟨absent_of_hole hcmp hbelow habove, hfind⟩

variable {sk : Skeleton}

theorem link_spells {last : ℤ} (h : Spells sk.links (plug c .nil)) (ha : a ∉ (plug c .nil).inorder)
    (hside : SideOk c last) :
    Spells (link sk a (top c) last).links (plug c (.node .nil a .nil)) := by
  obtain ⟨hctx, _, hnodup⟩ := spells_plug.mp h
  obtain ⟨hc, _, _⟩ := nodup_plug.mp hnodup
  have hac : a ∉ nodes c := fun hn => ha (mem_plug.mpr (Or.inl hn))
  generalize hL : ((sk.links.setChild .left a none).setChild .right a none).setParent a (top c) = L
  have hlinks : (link sk a (top c) last).links = fillHole L (some a) c := by
    unfold link
    rw [hL]
    cases c with
    | nil => rfl
    | cons f c =>
      have hf := hside f rfl
      dsimp only [top]
      cases hd : f.dir with
      | left =>
        rw [if_pos (hf.mpr hd), fillHole, hd]
      | right =>
        rw [if_neg (fun hlt => by rw [hf.mp hlt] at hd; cases hd), fillHole, hd]
  have hctx' : LinkedCtx L c none := by
    rw [← hL]
    exact ((hctx.setChild .left none hac).setChild .right none hac).setParent (top c) hac
  rw [hlinks]
  refine spells_plug.mpr ⟨fillHole_ctx (some a) hctx' hc, ⟨?_, ?_, ?_, trivial, trivial⟩, ?_⟩
  · rw [fillHole_parent, ← hL, setParent_same]
  · rw [fillHole_child _ _ hac, ← hL]
    simp [Links.setChild, Links.setParent, Shape.root]
  · rw [fillHole_child _ _ hac, ← hL]
    simp [Links.setChild, Links.setParent, Shape.root]
  · refine nodup_plug.mpr ⟨hc, ?_, ?_⟩
    · simp [Shape.inorder]
    · intro b hb
      have hba : b = a := by simpa [Shape.inorder] using hb
      rw [hba]
      exact hac

theorem link_balanced {n : ℕ} (last : ℤ) (h : Balanced (Reds sk) (plug c .nil) n)
    (ha : a ∉ (plug c .nil).inorder) : Reds (link sk a (top c) last) a ∧
      Balanced (Reds (link sk a (top c) last)) (.node .nil a .nil) 0 ∧
      Fits (Reds (link sk a (top c) last)) c 0 := by
  have hself : (link sk a (top c) last).color a = .red := update_self a _ sk.color
  have hred : Reds (link sk a (top c) last) a := hself
  obtain ⟨m, hc, hm, _⟩ := balanced_plug.mp ⟨n, h⟩
  obtain rfl : m = 0 := hm
  refine ⟨hred, ⟨0, rfl, rfl, Or.inr ⟨hred, rfl, redRoot_nil, redRoot_nil⟩⟩, hc.congr ?_⟩
  intro b hb
  have hba : b ≠ a := fun heq => ha (mem_plug.mpr (Or.inl (heq ▸ hb)))
  have hcolor : (link sk a (top c) last).color b = sk.color b := update_of_ne hba _ _
  unfold Reds
  rw [hcolor]

theorem link_root {f : Frame Addr} {last : ℤ} :
    (link sk a (top (f :: c)) last).links.root = sk.links.root := by
  unfold link
  dsimp only [top]
  split
  · rfl
  · rfl

def Updated (t t' : Tree V) (s s' : Shape Addr) (key : Bytes) (value : V) : Prop :=
  ∀ k v, Stored t' s' k v ↔ (k = key ∧ v = some value) ∨ (k ≠ key ∧ Stored t s k v)

theorem insert_found (value : V) (hcmp : CmpTotal cmp) (h : TreeInv cmp t s) (ha : a ∈ s.inorder) :
    TreeInv cmp { t with value := Function.update t.value a (some value) } s ∧
      Updated t { t with value := Function.update t.value a (some value) } s s (t.key a) value := by
  constructor
  · refine ⟨h.spells, h.rootBlack, h.live, h.size, h.sorted, h.keys, ?_⟩
    intro b hb
    by_cases hba : b = a
    · subst hba
      simp
    · simp [hba, h.values b hb]
  · intro k v
    constructor
    · rintro ⟨b, hb, hkey, hvalue⟩
      by_cases hba : b = a
      · left
        subst hba
        exact ⟨hkey.symm, by simpa using hvalue.symm⟩
      · right
        refine ⟨?_, b, hb, hkey, ?_⟩
        · intro heq
          exact hba (key_injective hcmp h hb ha (hkey.trans heq))
        · simpa [hba] using hvalue
    · intro hcase
      rcases hcase with ⟨hk, hv⟩ | ⟨hk, b, hb, hkey, hvalue⟩
      · exact ⟨a, ha, hk.symm, by simp [hv]⟩
      · have hba : b ≠ a := by
          intro heq
          subst heq
          exact hk hkey.symm
        exact ⟨b, hb, hkey, by simpa [hba] using hvalue⟩

theorem insert_free {s' : Shape Addr} (value : V) (hcmp : CmpTotal cmp)
    (h : TreeInv cmp t (plug c .nil)) (hkey : key.length ≠ 0) (ha : a ∉ t.live)
    (hbelow : Below cmp t (before c) key) (habove : Above cmp t (behind c) key)
    (hspell : Spells sk.links s') (hroot : RootBlack sk)
    (horder : s'.inorder = before c ++ a :: behind c) :
    let t' : Tree V :=
      { skel := sk
        key := Function.update t.key a key
        value := Function.update t.value a (some value)
        live := Insert.insert a t.live
        size := t.size + 1 }
    TreeInv cmp t' s' ∧ Updated t t' (plug c .nil) s' key value := by
  have hold : (plug c (.nil : Shape Addr)).inorder = before c ++ behind c := by
    rw [inorder_plug]
    simp [Shape.inorder]
  have hmem : ∀ b, b ∈ s'.inorder ↔ b = a ∨ b ∈ (plug c (.nil : Shape Addr)).inorder := by
    intro b
    rw [horder, hold]
    simp only [mem_append, mem_cons]
    tauto
  have hother : ∀ b ∈ (plug c (.nil : Shape Addr)).inorder, b ≠ a := by
    intro b hb heq
    exact ha ((h.live a).mpr (heq ▸ hb))
  have habsent := absent_of_hole hcmp hbelow habove
  have hsorted := h.sorted
  rw [hold] at hother hsorted
  intro t'
  have hself : t'.key a = key := update_self a key t.key
  have hsame : ∀ b ∈ before c ++ behind c, t'.key b = t.key b := by
    intro b hb
    exact update_of_ne (hother b hb) key t.key
  refine ⟨⟨hspell, hroot, ?_, ?_, ?_, ?_, ?_⟩, ?_⟩
  · intro b
    rw [hmem b, ← h.live b]
    exact Finset.mem_insert
  · show t.size + 1 = s'.inorder.length
    rw [h.size, horder, hold]
    simp only [length_append, length_cons]
    omega
  · rw [horder]
    obtain ⟨hb, hh, hbh⟩ := pairwise_append.mp hsorted
    refine pairwise_append.mpr ⟨?_, pairwise_cons.mpr ⟨?_, ?_⟩, ?_⟩
    · refine hb.imp_of_mem ?_
      intro x y hx hy hlt
      rw [hsame x (mem_append_left _ hx), hsame y (mem_append_left _ hy)]
      exact hlt
    · intro y hy
      rw [hself, hsame y (mem_append_right _ hy)]
      exact habove y hy
    · refine hh.imp_of_mem ?_
      intro x y hx hy hlt
      rw [hsame x (mem_append_right _ hx), hsame y (mem_append_right _ hy)]
      exact hlt
    · intro x hx y hy
      rw [hsame x (mem_append_left _ hx)]
      rcases mem_cons.mp hy with heq | hy
      · rw [heq, hself]
        exact hbelow x hx
      · rw [hsame y (mem_append_right _ hy)]
        exact hbh x hx y hy
  · intro b hb
    rcases (hmem b).mp hb with heq | hb'
    · rw [heq, hself]
      exact hkey
    · rw [hsame b (hold ▸ hb')]
      exact h.keys b hb'
  · intro b hb
    rcases (hmem b).mp hb with heq | hb'
    · subst heq
      simp [t']
    · have hba := hother b (hold ▸ hb')
      simp [t', hba, h.values b hb']
  · intro k v
    constructor
    · rintro ⟨b, hb, hk, hv⟩
      rcases (hmem b).mp hb with heq | hb'
      · left
        subst heq
        exact ⟨hk.symm.trans hself, by simpa [t'] using hv.symm⟩
      · right
        have hba := hother b (hold ▸ hb')
        rw [hsame b (hold ▸ hb')] at hk
        exact ⟨hk ▸ habsent b hb', b, hb', hk, by simpa [t', hba] using hv⟩
    · intro hcase
      rcases hcase with ⟨hk, hv⟩ | ⟨_, b, hb, hk, hv⟩
      · exact ⟨a, (hmem a).mpr (Or.inl rfl), hself.trans hk.symm, by simp [t', hv]⟩
      · have hba := hother b (hold ▸ hb)
        refine ⟨b, (hmem b).mpr (Or.inr hb), ?_, by simpa [t', hba] using hv⟩
        rw [hsame b (hold ▸ hb)]
        exact hk

theorem insert_spec (value : V) (hcmp : CmpTotal cmp) (h : TreeInv cmp t s) (hkey : key.length ≠ 0)
    (ha : a ∉ t.live) :
    ∃ t' s', insert cmp t key value (some a) true = some (0, t') ∧ TreeInv cmp t' s' ∧
      Updated t t' s s' key value ∧
      ∀ n, Balanced (Reds t.skel) s n → ∃ m, Balanced (Reds t'.skel) s' m := by
  obtain ⟨place, hplace, hends⟩ := findPlace_spec hcmp h key
  unfold insert
  rw [if_neg hkey, hplace]
  cases hends with
  | found b hb hkeyb =>
    obtain ⟨hinv, hupdated⟩ := insert_found value hcmp h hb
    rw [hkeyb] at hupdated
    exact ⟨_, s, rfl, hinv, hupdated, fun n hn => ⟨n, hn⟩⟩
  | free c last hwhole hbelow habove hside =>
    subst hwhole
    dsimp only
    rw [if_neg (by decide)]
    have haout : a ∉ (plug c (.nil : Shape Addr)).inorder := fun hin => ha ((h.live a).mpr hin)
    have hlink := link_spells h.spells haout hside
    have hfuel : c.length < t.fuel := by
      have hlen := length_le_nodes c
      rw [nodes, length_append] at hlen
      rw [Tree.fuel, h.size, inorder_plug]
      simp only [Shape.inorder, length_append, length_nil]
      omega
    have hblack : ∀ b, c ≠ [] → (link t.skel a (top c) last).links.root = some b →
        (link t.skel a (top c) last).color b = .black := by
      intro b hne hb
      obtain ⟨f, c', rfl⟩ := exists_cons_of_ne_nil hne
      rw [link_root] at hb
      have hba : b ≠ a := by
        intro heq
        rw [heq, h.spells.root] at hb
        exact haout (Shape.root_mem hb)
      have hcolor : (link t.skel a (top (f :: c')) last).color b = t.skel.color b :=
        update_of_ne hba _ _
      rw [hcolor]
      exact h.rootBlack b hb
    obtain ⟨sk, s', hfix, hspell, horder, hroot, hbalance⟩ :=
      insertFixup_spells hlink rfl hblack hfuel
    rw [hfix]
    have horder' : s'.inorder = before c ++ a :: behind c := by
      rw [horder, inorder_plug]
      simp [Shape.inorder]
    obtain ⟨hinv, hupdated⟩ := insert_free value hcmp h hkey ha hbelow habove hspell hroot horder'
    refine ⟨_, s', rfl, hinv, hupdated, ?_⟩
    intro n hn
    obtain ⟨hred, hleaf, hctx⟩ := link_balanced last hn haout
    exact hbalance 0 hred hleaf hctx

theorem endNode_spec {L : Links Addr} (d : Dir) (fuel : ℕ) :
    ∀ {s : Shape Addr} {q : Option Addr} {a : Addr}, Linked L s q → s.root = some a →
      s.inorder.length ≤ fuel →
      ∃ e b o, endNode d L fuel a = some b ∧ s = plug e (.mk d .nil b o) ∧ ∀ f ∈ e, f.dir = d := by
  induction fuel with
  | zero =>
    intro s q a _ ha hfuel
    obtain ⟨t, o, hmk⟩ := Shape.exists_mk_of_root d ha
    rw [hmk, Shape.length_mk] at hfuel
    omega
  | succ fuel ih =>
    intro s q a h ha hfuel
    obtain ⟨t, o, hmk⟩ := Shape.exists_mk_of_root d ha
    subst hmk
    rw [Shape.length_mk] at hfuel
    obtain ⟨_, hchild, _, ht, _⟩ := linked_mk.mp h
    rw [endNode, hchild]
    cases hroot : t.root with
    | none =>
      rw [Shape.root_eq_none.mp hroot]
      exact ⟨[], a, o, rfl, rfl, by simp⟩
    | some b =>
      obtain ⟨e, b', o', hend, hplug, hdir⟩ := ih ht hroot (by omega)
      refine ⟨e ++ [⟨d, a, o⟩], b', o', hend, ?_, ?_⟩
      · rw [plug_append, ← hplug]
        rfl
      · intro f hf
        rcases mem_append.mp hf with hf | hf
        · exact hdir f hf
        · rw [mem_singleton.mp hf]

/- The state in which vox_rbtree_delete starts the fix-up: the root may be red
   only when it is the node that the fix-up paints at once. -/
structure Out (z : Addr) (order : List Addr) (u : Unlinked) (s : Shape Addr) : Prop where
  spells : Spells u.skel.links s
  order : s.inorder = order
  root : RootBlack u.skel ∨ (u.yColor = .black ∧ u.x = u.skel.links.root)
  place : ∀ isLeft q, (fixupPlace u.skel.links z u.x u.y isLeft).1 = some q → q ∈ s.inorder

variable {z : Addr}

theorem fixupPlace_mem {L : Links Addr} {y : Addr} {x : Option Addr} (h : Spells L s)
    (hx : ∀ a, x = some a → a ∈ s.inorder) (hy : L.parent y ≠ some z)
    (hparent : ∀ q, L.parent y = some q → q ∈ s.inorder) (isLeft : Bool) (q : Addr)
    (hq : (fixupPlace L z x y isLeft).1 = some q) : q ∈ s.inorder := by
  unfold fixupPlace at hq
  cases x with
  | some a => exact h.parent_mem (hx a rfl) hq
  | none =>
    dsimp only at hq
    rw [if_neg hy] at hq
    exact hparent q hq

theorem unlinkOne_out {d : Dir} (h : Spells sk.links (plug c (.mk d s z .nil)))
    (hroot : RootBlack sk) : Out z (before c ++ s.inorder ++ behind c)
      ⟨{ sk with links := transplant sk.links z s.root }, s.root, z, sk.color z⟩ (plug c s) := by
  have hspell := transplant_spells h
  have hparent := transplant_parent h
  obtain ⟨_, _, hnodup⟩ := spells_plug.mp h
  obtain ⟨_, _, hout⟩ := nodup_plug.mp hnodup
  have hzc : z ∉ nodes c := hout z (Shape.mem_mk.mpr (Or.inl rfl))
  refine ⟨hspell, inorder_plug c s, ?_, ?_⟩
  · cases c with
    | nil =>
      right
      refine ⟨hroot z ?_, hspell.root.symm⟩
      rw [h.root]
      exact Shape.root_mk d s z .nil
    | cons f c =>
      left
      intro b hb
      apply hroot b
      obtain ⟨r, _, hplug⟩ := plug_root f c
      rw [h.root, hplug, ← hb]
      exact ((hspell.root).trans (hplug s)).symm
  · apply fixupPlace_mem hspell
    · intro a ha
      exact mem_plug.mpr (Or.inr (Shape.root_mem ha))
    · rw [hparent]
      intro heq
      exact hzc (top_mem heq)
    · intro q hq
      rw [hparent] at hq
      exact mem_plug.mpr (Or.inl (top_mem hq))

theorem unlinkMin_out {e : List (Frame Addr)} {l r : Shape Addr} {y : Addr}
    (h : Spells sk.links (plug c (.node l z (plug e (.node .nil y r))))) (hroot : RootBlack sk)
    (he : before e = []) :
    Out z (before c ++ (l.inorder ++ (plug e (.node .nil y r)).inorder) ++ behind c)
      (unlinkMin sk z y) (plug c (.node l y (plug e r))) := by
  have hspell := unlinkMin_spells h
  have horder : (plug c (.node l y (plug e r))).inorder =
      before c ++ (l.inorder ++ (plug e (.node .nil y r)).inorder) ++ behind c := by
    simp [inorder_plug, Shape.inorder, he]
  have hzout := (replaced_out h.nodup).1
  have hymem : y ∈ (plug c (.node l y (plug e r))).inorder :=
    mem_plug.mpr (Or.inr (Shape.root_mem rfl))
  have hx := unlinkMin_x h
  refine ⟨hspell, horder, Or.inl ?_, ?_⟩
  · -- `y` has the colour of `z`, the other nodes keep theirs
    intro b hb
    have hb' := hspell.root.symm.trans hb
    cases c with
    | nil =>
      have hby : y = b := Option.some.inj hb'
      subst hby
      have hz : sk.links.root = some z := h.root
      have hcolor : (unlinkMin sk z y).skel.color y = sk.color z := setColor_same _ y _
      rw [hcolor]
      exact hroot z hz
    | cons f c =>
      obtain ⟨a, ha, hplug⟩ := plug_root f c
      have hab : a = b := Option.some.inj ((hplug _).symm.trans hb')
      subst hab
      obtain ⟨_, _, hout⟩ := nodup_plug.mp hspell.nodup
      have hne : some y ≠ some a := by
        intro heq
        rw [← Option.some.inj heq] at ha
        exact hout y (Shape.root_mem rfl) ha
      have hcolor : (unlinkMin sk z y).skel.color a = sk.color a := setColor_other _ hne
      rw [hcolor]
      exact hroot a (h.root.trans (hplug _))
  · apply fixupPlace_mem hspell
    · intro a ha
      rw [hx] at ha
      have hr : a ∈ (plug e r).inorder := mem_plug.mpr (Or.inr (Shape.root_mem ha))
      have hsub : a ∈ (Shape.mk .left l y (plug e r)).inorder :=
        Shape.mem_mk.mpr (Or.inr (Or.inr hr))
      exact mem_plug.mpr (Or.inr hsub)
    · intro hz
      exact hzout (hspell.parent_mem hymem hz)
    · intro q hq
      exact hspell.parent_mem hymem hq

theorem unlink_out {l r : Shape Addr} {fuel : ℕ} (h : Spells sk.links (plug c (.node l z r)))
    (hroot : RootBlack sk) (hfuel : r.inorder.length ≤ fuel) : ∃ u s, unlink fuel sk z = some u ∧
      Out z (before c ++ (l.inorder ++ r.inorder) ++ behind c) u s := by
  obtain ⟨_, ⟨_, hl, hr, hll, hrr⟩, _⟩ := spells_plug.mp h
  unfold unlink
  rw [hl]
  cases hlroot : l.root with
  | none =>
    rw [Shape.root_eq_none.mp hlroot] at h ⊢
    dsimp only
    rw [hr]
    have hright : Spells sk.links (plug c (.mk .right r z .nil)) := h
    exact ⟨_, _, rfl, unlinkOne_out hright hroot⟩
  | some a =>
    dsimp only
    rw [hr]
    cases hrroot : r.root with
    | none =>
      rw [Shape.root_eq_none.mp hrroot] at h ⊢
      have hleft : Spells sk.links (plug c (.mk .left l z .nil)) := h
      have hout := unlinkOne_out hleft hroot
      rw [hlroot] at hout
      refine ⟨_, plug c l, rfl, ?_⟩
      rw [Shape.inorder, append_nil]
      exact hout
    | some b =>
      obtain ⟨e, y, o, hmin, hplug, hdir⟩ := endNode_spec .left fuel hrr hrroot hfuel
      dsimp only
      rw [minNode, hmin]
      subst hplug
      exact ⟨_, _, rfl, unlinkMin_out h hroot (before_eq_nil hdir)⟩

def Removed (t t' : Tree V) (s s' : Shape Addr) (key : Bytes) : Prop :=
  ∀ k v, Stored t' s' k v ↔ k ≠ key ∧ Stored t s k v

theorem fixup_out {order : List Addr} {u : Unlinked} {fuel : ℕ} (h : Out z order u s)
    (hfuel : order.length < fuel) (isLeft : Bool) : (u.yColor ≠ .black ∧ RootBlack u.skel) ∨
    (u.yColor = .black ∧ Fixed s (deleteFixup fuel u.skel u.x
      (fixupPlace u.skel.links z u.x u.y isLeft).1
      (fixupPlace u.skel.links z u.x u.y isLeft).2)) := by
  by_cases hcolor : u.yColor = .black
  · right
    refine ⟨hcolor, ?_⟩
    rcases h.root with hroot | ⟨_, hx⟩
    · apply deleteFixup_spells _ _ _ h.spells hroot (h.place isLeft)
      rw [h.order]
      exact hfuel
    · obtain ⟨fuel, rfl⟩ : ∃ n, fuel = n + 1 := ⟨fuel - 1, by omega⟩
      rw [deleteFixup_stop fuel _ (Or.inl hx)]
      refine ⟨_, s, rfl, ?_, rfl, ?_⟩
      · rw [setColor_links]
        exact h.spells
      · rw [hx]
        exact rootBlack_paint_root u.skel
  · left
    rcases h.root with hroot | ⟨hblack, _⟩
    · exact ⟨hcolor, hroot⟩
    · exact absurd hblack hcolor

section
variable (hcmp : CmpTotal cmp)
include hcmp

theorem removed_inv {l r s' : Shape Addr} (h : TreeInv cmp t (plug c (.node l z r)))
    (hspell : Spells sk.links s') (hroot : RootBlack sk)
    (horder : s'.inorder = before c ++ (l.inorder ++ r.inorder) ++ behind c) :
    let t' : Tree V := { t with skel := sk, live := t.live.erase z, size := t.size - 1 }
    TreeInv cmp t' s' ∧ Removed t t' (plug c (.node l z r)) s' (t.key z) := by
  have hold : (plug c (.node l z r)).inorder =
      before c ++ (l.inorder ++ z :: r.inorder) ++ behind c := by
    rw [inorder_plug, Shape.inorder]
  have hsub : s'.inorder.Sublist (plug c (.node l z r)).inorder := by
    rw [horder, hold]
    have hstep : (l.inorder ++ r.inorder).Sublist (l.inorder ++ z :: r.inorder) :=
      (sublist_cons_self z r.inorder).append_left l.inorder
    exact (hstep.append_left (before c)).append_right (behind c)
  have hmem : ∀ b, b ∈ (plug c (.node l z r)).inorder ↔ b = z ∨ b ∈ s'.inorder := by
    intro b
    rw [hold, horder]
    simp only [mem_append, mem_cons]
    tauto
  have hzmem : z ∈ (plug c (.node l z r)).inorder := (hmem z).mpr (Or.inl rfl)
  have hzout : z ∉ s'.inorder := by
    have hnodup := h.spells.nodup
    rw [hold] at hnodup
    rw [horder]
    simp only [nodup_append, nodup_cons, mem_append, mem_cons] at hnodup ⊢
    grind
  intro t'
  refine ⟨⟨hspell, hroot, ?_, ?_, h.sorted.sublist hsub, ?_, ?_⟩, ?_⟩
  · intro b
    show b ∈ t.live.erase z ↔ b ∈ s'.inorder
    rw [Finset.mem_erase, h.live b, hmem b]
    constructor
    · rintro ⟨hne, hb⟩
      exact hb.resolve_left hne
    · intro hb
      exact ⟨fun heq => hzout (heq ▸ hb), Or.inr hb⟩
  · show t.size - 1 = s'.inorder.length
    rw [h.size, hold, horder]
    simp only [length_append, length_cons]
    omega
  · intro b hb
    exact h.keys b (hsub.subset hb)
  · intro b hb
    exact h.values b (hsub.subset hb)
  · intro k v
    constructor
    · rintro ⟨b, hb, hk, hv⟩
      refine ⟨?_, b, hsub.subset hb, hk, hv⟩
      intro heq
      have hbz : b = z := key_injective hcmp h (hsub.subset hb) hzmem (hk.trans heq)
      exact hzout (hbz ▸ hb)
    · rintro ⟨hne, b, hb, hk, hv⟩
      refine ⟨b, ?_, hk, hv⟩
      refine ((hmem b).mp hb).resolve_left ?_
      intro heq
      subst heq
      exact hne hk.symm

theorem findNode_stored (h : TreeInv cmp t s) (hz : z ∈ s.inorder) :
    findNode cmp t (t.key z) t.fuel t.skel.links.root = some (some z) := by
  rcases findNode_spec hcmp h (t.key z) with ⟨a, ha, hkey, hfind⟩ | ⟨habsent, _⟩
  · rw [hfind, key_injective hcmp h ha hz hkey]
  · exact absurd rfl (habsent z hz)

theorem delete_stored (h : TreeInv cmp t s) (hz : z ∈ s.inorder) :
    ∃ t' s', delete cmp t (t.key z) = some (0, t') ∧ TreeInv cmp t' s' ∧
      Removed t t' s s' (t.key z) ∧ t'.size < t.size := by
  have hfind := findNode_stored hcmp h hz
  obtain ⟨c, l, r, hs⟩ := exists_plug hz
  subst hs
  have hlen : t.size = (before c).length + (l.inorder.length + (r.inorder.length + 1)) +
      (behind c).length := by
    rw [h.size, inorder_plug, Shape.inorder]
    simp only [length_append, length_cons]
  have hless : t.size - 1 < t.size := by omega
  obtain ⟨u, s', hunlink, hout⟩ := unlink_out h.spells h.rootBlack
    (show r.inorder.length ≤ t.fuel by rw [Tree.fuel]; omega)
  have hshort : (before c ++ (l.inorder ++ r.inorder) ++ behind c).length < t.fuel := by
    rw [Tree.fuel]
    simp only [length_append]
    omega
  have hfix := fixup_out hout hshort (isLeftOf t.skel.links z)
  unfold delete
  rw [if_neg (h.keys z hz), hfind]
  dsimp only
  rw [hunlink]
  dsimp only
  rcases hfix with ⟨hred, hroot⟩ | ⟨hblack, sk, s'', hrun, hspell, horder, hroot⟩
  · rw [if_neg hred]
    obtain ⟨hinv, hremoved⟩ := removed_inv hcmp h hout.spells hroot hout.order
    exact ⟨_, s', rfl, hinv, hremoved, hless⟩
  · rw [if_pos hblack, hrun]
    obtain ⟨hinv, hremoved⟩ := removed_inv hcmp h hspell hroot (horder.trans hout.order)
    exact ⟨_, s'', rfl, hinv, hremoved, hless⟩

theorem delete_absent (h : TreeInv cmp t s) (habsent : ∀ a ∈ s.inorder, t.key a ≠ key) :
    delete cmp t key = some (-1, t) := by
  unfold delete
  split
  · rfl
  · rcases findNode_spec hcmp h key with ⟨a, ha, hkey, _⟩ | ⟨_, hfind⟩
    · exact absurd hkey (habsent a ha)
    · rw [hfind]

theorem find_spec (h : TreeInv cmp t s) (key : Bytes) :
    ∃ r, find cmp t key = some r ∧ ∀ v, r = some v ↔ Stored t s key (some v) := by
  unfold find
  split
  · rename_i hempty
    refine ⟨none, rfl, ?_⟩
    intro v
    constructor
    · intro heq
      cases heq
    · rintro ⟨a, ha, hkey, _⟩
      rw [← hkey] at hempty
      exact absurd hempty (h.keys a ha)
  · rcases findNode_spec hcmp h key with ⟨a, ha, hkey, hfind⟩ | ⟨habsent, hfind⟩
    · rw [hfind]
      refine ⟨t.value a, rfl, ?_⟩
      intro v
      constructor
      · intro hv
        exact ⟨a, ha, hkey, hv⟩
      · rintro ⟨b, hb, hkeyb, hv⟩
        rw [key_injective hcmp h ha hb (hkey.trans hkeyb.symm)]
        exact hv
    · rw [hfind]
      refine ⟨none, rfl, ?_⟩
      intro v
      constructor
      · intro heq
        cases heq
      · rintro ⟨a, ha, hkey, _⟩
        exact absurd hkey (habsent a ha)

theorem clear_spec (fuel : ℕ) : ∀ {t : Tree V} {s : Shape Addr}, TreeInv cmp t s → t.size < fuel →
      ∃ t', clear cmp fuel t = some t' ∧ TreeInv cmp t' .nil := by
  induction fuel with
  | zero =>
    intro t s _ hfuel
    omega
  | succ fuel ih =>
    intro t s h hfuel
    rw [clear]
    cases hroot : t.skel.links.root with
    | none =>
      have hnil : s = .nil := Shape.root_eq_none.mp (h.spells.root.symm.trans hroot)
      subst hnil
      exact ⟨t, rfl, h⟩
    | some a =>
      have ha : a ∈ s.inorder := Shape.root_mem (h.spells.root.symm.trans hroot)
      obtain ⟨t', s', hdel, hinv, _, hless⟩ := delete_stored hcmp h ha
      dsimp only
      rw [hdel]
      exact ih hinv (by omega)

end

theorem inorderRecursive_spec (s : Shape Addr) :
    ∀ {q : Option Addr} {fuel : ℕ}, Linked t.skel.links s q → s.inorder.length ≤ fuel →
      inorderRecursive t fuel s.root = some (s.inorder.map fun a => (t.key a, t.value a)) := by
  induction s with
  | nil =>
    intro q fuel _ _
    cases fuel <;> rfl
  | node l a r ihl ihr =>
    intro q fuel h hfuel
    obtain ⟨_, hleft, hright, hl, hr⟩ := h
    simp only [Shape.inorder, length_append, length_cons] at hfuel
    obtain ⟨fuel, rfl⟩ : ∃ n, fuel = n + 1 := ⟨fuel - 1, by omega⟩
    show inorderRecursive t (fuel + 1) (some a) = _
    rw [inorderRecursive, hleft, hright, ihl hl (by omega), ihr hr (by omega)]
    simp [Shape.inorder]

theorem inorder_spec (h : TreeInv cmp t s) :
    inorder t = some (s.inorder.map fun a => (t.key a, t.value a)) := by
  unfold inorder
  rw [h.spells.root]
  apply inorderRecursive_spec s h.spells.linked
  rw [Tree.fuel, h.size]
  omega

theorem min_spec (h : TreeInv cmp t s) : min t = some (s.inorder.head?.map t.key) := by
  unfold min endKey
  rw [h.spells.root]
  cases hroot : s.root with
  | none =>
    rw [Shape.root_eq_none.mp hroot]
    rfl
  | some a =>
    obtain ⟨e, b, o, hend, hplug, hdir⟩ := endNode_spec .left t.fuel h.spells.linked hroot
      (by rw [Tree.fuel, h.size]; omega)
    dsimp only
    rw [minNode, hend, hplug, inorder_plug, before_eq_nil hdir]
    rfl

theorem max_spec (h : TreeInv cmp t s) : max t = some (s.inorder.getLast?.map t.key) := by
  unfold max endKey
  rw [h.spells.root]
  cases hroot : s.root with
  | none =>
    rw [Shape.root_eq_none.mp hroot]
    rfl
  | some a =>
    obtain ⟨e, b, o, hend, hplug, hdir⟩ := endNode_spec .right t.fuel h.spells.linked hroot
      (by rw [Tree.fuel, h.size]; omega)
    dsimp only
    rw [maxNode, hend, hplug, inorder_plug, behind_eq_nil hdir]
    simp [Shape.mk, Shape.inorder]

theorem create_inv : TreeInv cmp (create : Tree V) .nil := by
  refine ⟨⟨rfl, trivial, nodup_nil⟩, ?_, ?_, rfl, List.Pairwise.nil, ?_, ?_⟩
  · intro a ha
    cases ha
  · intro a
    simp [create, Shape.inorder]
  · intro a ha
    cases ha
  · intro a ha
    cases ha

end Voxlib.RbTree
