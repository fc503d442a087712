import Voxlib.Regex.Compile

/-!
# What holds of every automaton (vox_regex.c)
-/

namespace Voxlib.Regex
open CStr

structure Proper (h : Heap) : Prop where
  marked : Marked h
  noNul : ∀ q, (h.state q).type ≠ .char 0

/-- From `h` to `k` choices stay choices, and a proper heap stays proper. -/
structure Keeps (h k : Heap) : Prop where
  splits : ∀ q, (h.state q).type = .split → (k.state q).type = .split
  proper : Proper h → Proper k

def Closes (h : Heap) (out : Heap × Fragment) : Prop :=
  Keeps h out.1 ∧ (out.1.state out.2.last).type = .split

theorem proper_nil : Proper [] := ⟨fun _ hq => absurd rfl hq, fun _ => nofun⟩

section Steps

variable {h k r : Heap} {p q : ℕ} {frag : Fragment} {b : Bool} {n : ℕ}

theorem Keeps.refl (h : Heap) : Keeps h h := ⟨fun _ hq => hq, fun hh => hh⟩

theorem Keeps.trans (hk : Keeps h k) (hr : Keeps k r) : Keeps h r :=
  ⟨fun q hq => hr.splits q (hk.splits q hq), fun hh => hr.proper (hk.proper hh)⟩

theorem state_update_cases (h : Heap) (q : ℕ) (f : NfaState → NfaState) (p : ℕ) :
    (h.update q f).state p = h.state p ∨
      p = q ∧ q < h.length ∧ (h.update q f).state p = f (h.state q) := by
  by_cases hpq : p = q
  · subst hpq
    by_cases hp : p < h.length
    · exact .inr ⟨rfl, hp, state_update_same f hp⟩
    · have hlen : h.length ≤ p := Nat.not_lt.mp hp
      exact .inl (by simp [Heap.state, Heap.update, List.getD_eq_getElem?_getD, hlen])
  · exact .inl (state_update_ne f hpq)

theorem keeps_update {f : NfaState → NfaState} (htype : ∀ s, (f s).type = s.type)
    (hgroup : ∀ s, (f s).groupId ≠ none → s.groupId ≠ none ∨ (h.state q).type = .split) :
    Keeps h (h.update q f) := by
  have hsame (p : ℕ) : ((h.update q f).state p).type = (h.state p).type := by
    rcases state_update_cases h q f p with heq | ⟨rfl, -, heq⟩ <;> rw [heq]
    exact htype _
  refine ⟨fun p hp => (hsame p).trans hp, fun hh => ⟨fun p hp => ?_, fun p => ?_⟩⟩
  · change ((h.update q f).state p).type = .split
    rw [hsame]
    rcases state_update_cases h q f p with heq | ⟨rfl, -, heq⟩ <;> rw [heq] at hp
    · exact hh.marked p hp
    · exact (hgroup _ hp).elim (hh.marked p) id
  · rw [hsame]
    exact hh.noNul p

section
variable (hk : Keeps h k)
include hk

theorem Keeps.setOut1 (q : ℕ) (a : Option ℕ) : Keeps h (k.setOut1 q a) :=
  hk.trans (keeps_update (fun _ => rfl) fun _ => .inl)

theorem Keeps.setOut2 (q : ℕ) (a : Option ℕ) : Keeps h (k.setOut2 q a) :=
  hk.trans (keeps_update (fun _ => rfl) fun _ => .inl)

theorem Keeps.setOuts (q : ℕ) (a b : Option ℕ) : Keeps h (k.setOuts q a b) :=
  (hk.setOut1 q a).setOut2 q b

theorem Keeps.setNonGreedy (q : ℕ) (b : Bool) : Keeps h (k.setNonGreedy q b) :=
  hk.trans (keeps_update (fun _ => rfl) fun _ => .inl)

theorem Keeps.choose (q : ℕ) (b : Bool) (more done : ℕ) : Keeps h (k.choose q b more done) := by
  cases b
  · exact hk.setOuts ..
  · exact hk.setOuts ..

theorem Keeps.setGroup (hq : (k.state q).type = .split) (g : ℕ) (b : Bool) :
    Keeps h (k.setGroup q g b) :=
  hk.trans (keeps_update (fun _ => rfl) fun _ _ => .inr hq)

theorem Keeps.append (l : List NfaState)
    (hl : Proper k → ∀ s ∈ l, (s.groupId ≠ none → s.type = .split) ∧ s.type ≠ .char 0) :
    Keeps h (k ++ l) := by
  have hcases (q : ℕ) : q < k.length ∧ Heap.state (k ++ l) q = k.state q ∨
      Heap.state (k ++ l) q ∈ l ∨ Heap.state (k ++ l) q = { type := .matched } := by
    by_cases hq : q < k.length
    · exact .inl ⟨hq, state_append_old l hq⟩
    · obtain ⟨i, rfl⟩ := Nat.exists_eq_add_of_le (Nat.not_lt.mp hq)
      rw [state_append_new]
      by_cases hi : i < l.length
      · refine .inr (.inl ?_)
        rw [Heap.state, List.getD_eq_getElem _ _ hi]
        exact List.getElem_mem hi
      · exact .inr (.inr (List.getD_eq_default _ _ (Nat.not_lt.mp hi)))
  refine hk.trans ⟨fun q hq => ?_, fun hh => ⟨fun q hq => ?_, fun q => ?_⟩⟩
  · have hlt : q < k.length := by
      by_contra hge
      rw [Heap.state, List.getD_eq_default _ _ (Nat.not_lt.mp hge)] at hq
      cases hq
    rw [state_append_old l hlt]
    exact hq
  · change (Heap.state (k ++ l) q).type = .split
    rcases hcases q with ⟨-, heq⟩ | hmem | heq
    · rw [heq] at hq ⊢
      exact hh.marked q hq
    · exact (hl hh _ hmem).1 hq
    · rw [heq] at hq
      exact absurd rfl hq
  · rcases hcases q with ⟨-, heq⟩ | hmem | heq
    · rw [heq]
      exact hh.noNul q
    · exact (hl hh _ hmem).2
    · rw [heq]
      exact fun h => NfaStateType.noConfusion h

end

variable {type : NfaStateType}

theorem Keeps.create (hk : Keeps h k) (htype : type ≠ .char 0) :
    Keeps h (createNfaState k type).2 := by
  refine hk.append _ fun _ s hs => ?_
  rw [List.mem_singleton.mp hs]
  exact ⟨fun hne => absurd rfl hne, htype⟩

theorem Keeps.split (hk : Keeps h k) : Keeps h (createNfaState k .split).2 := hk.create nofun

theorem Keeps.addSplit (hk : Keeps h k) : Keeps h k.addSplit := hk.split

theorem split_new (h : Heap) : (h.addSplit.state h.length).type = .split :=
  congrArg NfaState.type (state_append_new [{ type := .split }] 0)

theorem closes_of {start last : ℕ} (hk : Keeps h k) (hr : Keeps k r)
    (hlast : (k.state last).type = .split) : Closes h (r, ⟨start, last⟩) :=
  ⟨hk.trans hr, hr.splits _ hlast⟩

theorem keeps_two (h : Heap) : Keeps h h.addSplit.addSplit := (Keeps.refl h).addSplit.addSplit

theorem star_closes (h : Heap) (frag : Fragment) (b : Bool) : Closes h (applyStar h frag b) := by
  rw [applyStar_eq]
  exact closes_of (keeps_two h) ((((Keeps.refl _).setNonGreedy ..).choose ..).setOuts ..)
    (split_new h.addSplit)

theorem any_closes (h : Heap) (frag : Fragment) (b : Bool) : Closes h (applyAny h frag b) := by
  rw [applyAny_eq]
  exact closes_of (keeps_two h)
    (((((Keeps.refl _).setNonGreedy ..).choose ..).setNonGreedy ..).choose ..)
    (split_new h.addSplit)

theorem plus_closes (h : Heap) (frag : Fragment) (b : Bool) : Closes h (applyPlus h frag b) := by
  rw [applyPlus_eq]
  exact closes_of (keeps_two h)
    (((((Keeps.refl _).setNonGreedy ..).setOut1 ..).setNonGreedy ..).choose ..)
    (split_new h.addSplit)

theorem optional_closes (h : Heap) (frag : Fragment) (b : Bool) :
    Closes h (applyOptional h frag b) := by
  rw [applyOptional_eq]
  exact closes_of (keeps_two h) ((((Keeps.refl _).setNonGreedy ..).choose ..).setOut1 ..)
    (split_new h.addSplit)

theorem Keeps.clone (hk : Keeps h k) (frag : Fragment) : Keeps h (cloneFragment k frag).1 := by
  rw [cloneFragment_eq]
  refine hk.append _ fun hh s hs => ?_
  rcases List.mem_cons.mp hs with rfl | hs
  · exact ⟨hh.marked frag.start, hh.noNul frag.start⟩
  · rw [List.mem_singleton.mp hs]
    exact ⟨hh.marked frag.last, hh.noNul frag.last⟩

theorem Keeps.clones (hk : Keeps h k) (frag : Fragment) (n : ℕ) :
    Keeps h (cloneFragments k frag n).1 := by
  induction n generalizing k with
  | zero => exact hk
  | succ n ih =>
    rw [cloneFragments_succ]
    exact ih (hk.clone frag)

theorem Keeps.linkClones (hk : Keeps h k) (current : ℕ) (clones : List Fragment) :
    Keeps h (linkClones k current clones).1 := by
  induction clones generalizing k current with
  | nil => exact hk
  | cons clone clones ih =>
    rw [linkClones_cons]
    exact ih (hk.setOuts ..) _

theorem Keeps.copyRow (hk : Keeps h k) (frag : Fragment) (cur n : ℕ) :
    Keeps h (copyRow k frag cur n).1 := (hk.clones frag n).linkClones ..

theorem atLeast_closes (h : Heap) (frag : Fragment) (min : ℕ) (b : Bool) :
    Closes h ((applyAtLeast h frag min b).1, (applyAtLeast h frag min b).2.1) := by
  by_cases hn : min ≤ 128
  · rw [applyAtLeast_eq h frag b hn]
    exact closes_of (keeps_two h) (((((((Keeps.refl _).copyRow ..).addSplit.setOuts ..).setNonGreedy
      ..).choose ..).setNonGreedy ..).choose ..) (split_new h.addSplit)
  · rw [show applyAtLeast h frag min b = (h.addSplit.addSplit, ⟨h.length, h.addSplit.length⟩, false)
      from if_pos (Nat.not_le.mp hn)]
    exact closes_of (keeps_two h) (Keeps.refl _) (split_new h.addSplit)

theorem Keeps.upToLoop (hk : Keeps h k) (frag : Fragment) (quantEnd n lastSplit : ℕ) :
    Keeps h (upToLoop frag quantEnd n k lastSplit) := by
  induction n generalizing k lastSplit with
  | zero => exact hk
  | succ n ih =>
    rw [upToLoop_succ]
    exact ih (((hk.addSplit.setOut2 ..).setOuts ..).addSplit.setOut1 ..) _

theorem upTo_closes (h : Heap) (frag : Fragment) (max : ℕ) (b : Bool) :
    Closes h (applyUpTo h frag max b) := by
  rw [applyUpTo_eq]
  exact closes_of (Keeps.refl h).addSplit
    (((((Keeps.refl _).addSplit.setOuts ..).upToLoop ..).setNonGreedy ..).choose ..) (split_new h)

theorem Keeps.optionFragments (hk : Keeps h k) (frag : Fragment) (finalEnd : ℕ) (b : Bool) (n : ℕ) :
    Keeps h (optionFragments k frag finalEnd b n).1 := by
  induction n generalizing k with
  | zero => exact hk
  | succ n ih =>
    rw [optionFragments_succ]
    exact ih ((((hk.clone frag).addSplit.setNonGreedy ..).choose ..))

theorem Keeps.linkOptions (hk : Keeps h k) (finalEnd : ℕ) (b : Bool)
    (options : List (ℕ × Fragment)) : Keeps h (linkOptions finalEnd b k options) := by
  induction options generalizing k with
  | nil => exact hk
  | cons a options ih =>
    rcases options with _ | ⟨c, options⟩
    · exact (hk.setNonGreedy ..).setOuts ..
    · exact ih ((hk.setNonGreedy ..).choose ..)

theorem between_closes (h : Heap) (frag : Fragment) (min max : ℕ) (b : Bool) :
    Closes h ((applyBetween h frag min max b).1, (applyBetween h frag min max b).2.1) := by
  by_cases hn : min ≤ 128
  · by_cases hx : max - min ≤ 128
    · rw [applyBetween_eq h frag b hn hx]
      exact closes_of (keeps_two h) (((((((Keeps.refl _).addSplit.copyRow ..).optionFragments
        ..).setNonGreedy ..).choose ..).linkOptions ..)) (split_new h.addSplit)
    · rw [show applyBetween h frag min max b =
        ((copyRow h.addSplit.addSplit.addSplit frag h.addSplit.addSplit.length min).1,
          ⟨h.addSplit.addSplit.length, h.addSplit.length⟩, false)
        from (if_neg (Nat.not_lt.mpr hn)).trans (if_pos (Nat.not_le.mp hx))]
      exact closes_of (keeps_two h) ((Keeps.refl _).addSplit.copyRow ..) (split_new h.addSplit)
  · rw [show applyBetween h frag min max b = (h.addSplit.addSplit.addSplit,
      ⟨h.addSplit.addSplit.length, h.addSplit.length⟩, false) from if_pos (Nat.not_le.mp hn)]
    exact closes_of (keeps_two h) (Keeps.refl _).addSplit (split_new h.addSplit)

theorem exactly_closes (h : Heap) (frag : Fragment) (min : ℕ) :
    Closes h (applyExactly h frag min) := by
  by_cases hn : min ≤ 128
  · rw [applyExactly_eq h frag hn]
    exact closes_of (keeps_two h) (((Keeps.refl _).copyRow ..).setOuts ..) (split_new h.addSplit)
  · rw [show applyExactly h frag min = (h.addSplit.addSplit, ⟨h.length, h.addSplit.length⟩)
      from if_pos (Nat.not_le.mp hn)]
    exact closes_of (keeps_two h) (Keeps.refl _) (split_new h.addSplit)

def ClosesFrom (h : Heap) (frag : Fragment) (out : Heap × Fragment × Bytes) : Prop :=
  (h.state frag.last).type = .split → Closes h (out.1, out.2.1)

theorem counted_closes (h : Heap) (frag : Fragment) (pattern rest : Bytes) (b : Bool) (min : ℕ)
    (max : Option ℕ) : Closes h ((buildCounted h frag pattern rest b min max).1,
      (buildCounted h frag pattern rest b min max).2.1) := by
  cases max with
  | none =>
    rw [buildCounted]
    split
    · exact any_closes ..
    · exact atLeast_closes ..
  | some max =>
    rw [buildCounted]
    split
    · split
      · exact upTo_closes ..
      · exact between_closes ..
    · split
      · exact closes_of (Keeps.refl h).addSplit (Keeps.refl _) (split_new h)
      · exact exactly_closes ..

theorem quantifier_closes (h : Heap) (frag : Fragment) (p : Bytes) :
    ClosesFrom h frag (applyQuantifier h frag p) := by
  intro hlast
  rw [applyQuantifier]
  dsimp only
  split
  · exact star_closes ..
  split
  · exact plus_closes ..
  split
  · exact optional_closes ..
  split
  · rw [applyCounted_eq]
    split
    · exact ⟨Keeps.refl h, hlast⟩
    · exact counted_closes ..
  · exact ⟨Keeps.refl h, hlast⟩

theorem single_closes (h : Heap) (htype : type ≠ .char 0) : Closes h (singleState h type) := by
  have hnew := split_new (createNfaState h type).2
  exact closes_of ((Keeps.refl h).create htype).addSplit ((Keeps.refl _).setOut1 ..) hnew

theorem join_closes (h : Heap) (frag next : Fragment) : Closes h (joinBranches h frag next) :=
  closes_of (keeps_two h) ((((Keeps.refl _).setOuts ..).setOut1 ..).setOut1 ..)
    (split_new h.addSplit)

theorem assertion_closes (h : Heap) (sub : Fragment) {type : ℕ → NfaStateType}
    (htype : ∀ q, type q ≠ .char 0) : Closes h (closeAssertion h sub type) := by
  have hnew : Keeps h (createNfaState h .matched).2 := (Keeps.refl h).create nofun
  have hmark : ∃ k, Keeps h k ∧ closeAssertion h sub type = singleState k (type sub.start) := by
    unfold closeAssertion
    dsimp only [createNfaState]
    split
    · exact ⟨_, hnew.setOut1 .., rfl⟩
    · exact ⟨_, (hnew.split.setOut1 ..).setOut1 .., rfl⟩
  obtain ⟨k, hk, heq⟩ := hmark
  obtain ⟨hsingle, hlast⟩ := single_closes k (htype sub.start)
  rw [heq]
  exact ⟨hk.trans hsingle, hlast⟩

theorem group_closes (h : Heap) (frag : Fragment) (groupId : ℕ)
    (hlast : (h.state frag.last).type = .split) : Closes h (closeGroup h frag groupId) := by
  have hmarker := (((Keeps.refl h).addSplit.setGroup (split_new h) groupId true).setOut1 h.length
    (some frag.start))
  have hend := hmarker.splits _ hlast
  exact closes_of hmarker ((Keeps.refl _).setGroup hend groupId false) hend

theorem groupKind_type {p rest : Bytes} {type : ℕ → NfaStateType}
    (h : groupKind p = (.assertion type, rest)) (q : ℕ) : type q ≠ .char 0 := by
  unfold groupKind at h
  split_ifs at h <;> cases h <;> exact nofun

/-- A parsing function keeps the heap proper, and the fragment that it gives ends in a choice. -/
def Parses (h : Heap) (out : Option (Option Fragment × Parser)) : Prop :=
  ∀ frag t, out = some (frag, t) → Keeps h t.heap ∧
    ∀ f, frag = some f → (t.heap.state f.last).type = .split

theorem parses_none (h : Heap) : Parses h none := nofun

theorem parses_nothing (hk : Keeps h k) (p : Bytes) (g : Option ℕ) :
    Parses h (some (none, ⟨k, p, g⟩)) := by
  rintro frag t ⟨⟩
  exact ⟨hk, nofun⟩

theorem parses_some (hk : Keeps h k) (hlast : (k.state frag.last).type = .split) (p : Bytes)
    (g : Option ℕ) : Parses h (some (some frag, ⟨k, p, g⟩)) := by
  rintro f t ⟨⟩
  refine ⟨hk, ?_⟩
  rintro f ⟨⟩
  exact hlast

theorem parses_bind {out : Option (Option Fragment × Parser)} (ho : Parses h out)
    {f : Option Fragment × Parser → Option (Option Fragment × Parser)}
    (hf : ∀ frag t, Keeps h t.heap → (∀ g, frag = some g → (t.heap.state g.last).type = .split) →
      Parses h (f (frag, t))) : Parses h (out >>= f) := by
  cases hout : out with
  | none => exact parses_none h
  | some a =>
    obtain ⟨frag, t⟩ := a
    obtain ⟨hk, hg⟩ := ho frag t hout
    exact hf frag t hk hg

theorem parses_trans {out : Option (Option Fragment × Parser)} (hk : Keeps h k)
    (ho : Parses k out) : Parses h out := fun frag t hout =>
  ⟨hk.trans (ho frag t hout).1, (ho frag t hout).2⟩

theorem singleAtom_parses (s : Parser) (htype : type ≠ .char 0) (rest : Bytes) :
    Parses s.heap (some (singleAtom s type rest)) := by
  obtain ⟨hk, hlast⟩ := single_closes s.heap htype
  exact parses_some hk hlast _ _

theorem parseSimple_parses (flags : Flags) (s : Parser) (hs : s.pattern.headD 0 ≠ 0) :
    Parses s.heap (parseSimple flags s) := by
  have hchar {c : UInt8} (hc : c ≠ 0) : NfaStateType.char c ≠ .char 0 :=
    fun heq => hc (NfaStateType.char.inj heq)
  unfold parseSimple
  dsimp only
  split
  · exact singleAtom_parses s (by exact nofun) _
  split
  · exact singleAtom_parses s (by exact nofun) _
  split
  · exact singleAtom_parses s (by exact nofun) _
  split
  · cases hclass : parseCharClass flags.ignoreCase s.pattern.tail with
    | none => exact parses_none _
    | some a =>
      rcases a with _ | ⟨charset, rest⟩
      · exact parses_nothing (Keeps.refl _) _ _
      · exact singleAtom_parses s (by exact nofun) _
  split
  · split
    · exact parses_nothing (Keeps.refl _) _ _
    next hnext =>
    split
    · exact singleAtom_parses s (by exact nofun) _
    · cases hescape : parseEscapeSequence s.pattern.tail with
      | none => exact parses_none _
      | some a =>
        rcases a with _ | ⟨charset, rest⟩
        · exact singleAtom_parses s (hchar hnext) _
        · exact singleAtom_parses s (by exact nofun) _
  · exact singleAtom_parses s (hchar hs) _

structure ParsesAll (flags : Flags) (n : ℕ) : Prop where
  atom : ∀ s, Parses s.heap (parseAtom flags n s)
  factor : ∀ s, Parses s.heap (parseFactor flags n s)
  term : ∀ s, Parses s.heap (parseTerm flags n s)
  termLoop : ∀ s frag, (s.heap.state frag.last).type = .split →
    Parses s.heap (termLoop flags n s frag)
  expr : ∀ s, Parses s.heap (parseExpr flags n s)
  exprLoop : ∀ s frag, (s.heap.state frag.last).type = .split →
    Parses s.heap (exprLoop flags n s frag)

variable {flags : Flags}

theorem ParsesAll.succ_atom (hn : ParsesAll flags n) (s : Parser) :
    Parses s.heap (parseAtom flags (n + 1) s) := by
  rw [parseAtom]
  split
  · exact parses_nothing (Keeps.refl _) _ _
  next hzero =>
  split
  · cases hkind : groupKind s.pattern.tail with
    | mk kind p =>
    cases kind with
    | assertion type =>
      refine parses_bind (hn.expr { s with pattern := p, groupId := none }) fun sub t hk hlast => ?_
      cases sub with
      | none => exact parses_nothing hk _ _
      | some sub =>
        dsimp only
        split
        · exact parses_nothing hk _ _
        · obtain ⟨hclose, hend⟩ := assertion_closes t.heap sub (groupKind_type hkind)
          exact parses_some (hk.trans hclose) hend _ _
    | nonCapturing =>
      refine parses_bind (hn.expr { s with pattern := p }) fun group t hk hlast => ?_
      dsimp only
      split
      · exact parses_nothing hk _ _
      · rintro frag u ⟨⟩
        exact ⟨hk, hlast⟩
    | capturing =>
      refine parses_bind (hn.expr { s with pattern := p, groupId := s.groupId.map (· + 1) })
        fun group t hk hlast => ?_
      cases group with
      | none => exact parses_nothing hk _ _
      | some frag =>
        dsimp only
        split
        · exact parses_nothing hk _ _
        · cases s.groupId with
          | none => exact parses_some hk (hlast frag rfl) _ _
          | some groupId =>
            obtain ⟨hclose, hend⟩ := group_closes t.heap frag groupId (hlast frag rfl)
            exact parses_some (hk.trans hclose) hend _ _
  · exact parseSimple_parses flags s hzero

theorem ParsesAll.succ (hn : ParsesAll flags n) : ParsesAll flags (n + 1) where
  atom := hn.succ_atom
  factor s := by
    rw [parseFactor]
    refine parses_bind (hn.atom s) fun atom t hk hlast => ?_
    cases atom with
    | none => exact parses_nothing hk _ _
    | some frag =>
      obtain ⟨hclose, hend⟩ := quantifier_closes t.heap frag t.pattern (hlast frag rfl)
      exact parses_some (hk.trans hclose) hend _ _
  term s := by
    rw [parseTerm]
    refine parses_bind (hn.factor s) fun factor t hk hlast => ?_
    cases factor with
    | none => exact parses_nothing hk _ _
    | some frag => exact parses_trans hk (hn.termLoop t frag (hlast frag rfl))
  termLoop s frag hfrag := by
    rw [Regex.termLoop]
    split
    · exact parses_some (Keeps.refl _) hfrag _ _
    · refine parses_bind (hn.factor s) fun next t hk hlast => ?_
      cases next with
      | none => exact parses_some hk (hk.splits _ hfrag) _ _
      | some next =>
        have hlink := (Keeps.refl t.heap).setOut1 frag.last (some next.start)
        exact parses_trans (hk.trans hlink)
          (hn.termLoop { t with heap := t.heap.setOut1 frag.last (some next.start) } _
            (hlink.splits _ (hlast next rfl)))
  expr s := by
    rw [parseExpr]
    refine parses_bind (hn.term s) fun term t hk hlast => ?_
    cases term with
    | none => exact parses_nothing hk _ _
    | some frag => exact parses_trans hk (hn.exprLoop t frag (hlast frag rfl))
  exprLoop s frag hfrag := by
    rw [Regex.exprLoop]
    split
    · exact parses_some (Keeps.refl _) hfrag _ _
    · refine parses_bind (hn.term { s with pattern := s.pattern.tail }) fun next t hk hlast => ?_
      cases next with
      | none => exact parses_some hk (hk.splits _ hfrag) _ _
      | some next =>
        obtain ⟨hclose, hend⟩ := join_closes t.heap frag next
        exact parses_trans (hk.trans hclose)
          (hn.exprLoop { t with heap := (joinBranches t.heap frag next).1 } _ hend)

theorem parsesAll (flags : Flags) (n : ℕ) : ParsesAll flags n := by
  induction n with
  | zero =>
    refine ⟨fun s => ?_, fun s => ?_, fun s => ?_, fun s frag _ => ?_, fun s => ?_,
      fun s frag _ => ?_⟩ <;> exact parses_none _
  | succ n ih => exact ih.succ

theorem Keeps.assign (hk : Keeps h k) (n : ℕ) (o : Option ℕ) (count : ℕ) :
    Keeps h (assignStateIds n k o count).1 := by
  induction n generalizing k o count with
  | zero => exact hk
  | succ n ih =>
    cases o with
    | none => exact hk
    | some q =>
      by_cases hid : (k.state q).id = none
      · have hmark : Keeps h (k.update q ({ · with id := some count })) :=
          hk.trans (keeps_update (fun _ => rfl) fun _ => .inl)
        rw [assignStateIds_fresh n hid]
        exact ih (ih (ih hmark _ _) _ _) _ _
      · rw [assignStateIds_marked hid]
        exact hk

theorem compile_proper {pattern : Bytes} {re : VoxRegex}
    (h : compile pattern flags = some (some re)) : Proper re.heap := by
  rw [compile] at h
  obtain ⟨⟨frag, s⟩, hparse, h⟩ := Option.bind_eq_some_iff.mp h
  obtain ⟨hk, -⟩ := (parsesAll flags _).expr _ frag s hparse
  cases frag with
  | none => cases h
  | some frag =>
    dsimp only at h
    split at h
    · cases h
    · have hnew : Keeps [] (createNfaState s.heap .matched).2 :=
        hk.create fun h => NfaStateType.noConfusion h
      cases h
      refine (Keeps.assign ?_ _ _ _).proper proper_nil
      split
      · exact hnew.setOut1 ..
      · exact (hnew.split.setOut1 ..).setOut1 ..

end Steps

end Voxlib.Regex
