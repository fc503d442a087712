import Voxlib.Lib.Automaton
import Voxlib.Regex.Patterns

/-!
# Fragments

A fragment is the newest states, with a last one from which no step has been set. `bodies` gives
the languages of assertions.
-/

namespace Voxlib.Regex
open CStr Automaton List
open scoped Computability

/- The part of a state that steps and numbers depend on. -/
structure Node where
  type : NfaStateType
  out1 : Option ℕ
  out2 : Option ℕ
  id : Option ℕ

def NfaState.node (s : NfaState) : Node := ⟨s.type, s.out1, s.out2, s.id⟩

def Heap.node (h : Heap) (q : ℕ) : Node := (h.state q).node

variable {h : Heap} {p q : ℕ}

@[simp] theorem length_update (h : Heap) (q : ℕ) (f : NfaState → NfaState) :
    (h.update q f).length = h.length := length_modify ..

variable (f : NfaState → NfaState)

theorem state_update_same (hq : q < h.length) : (h.update q f).state q = f (h.state q) := by
  simp [Heap.state, Heap.update, getD_eq_getElem?_getD, hq]

theorem state_update_ne (hne : p ≠ q) : (h.update q f).state p = h.state p := by
  simp [Heap.state, Heap.update, getD_eq_getElem?_getD, hne.symm]

variable (l : List NfaState)

theorem state_append_old (hq : q < h.length) : Heap.state (h ++ l) q = h.state q := by
  simp [Heap.state, getD_eq_getElem?_getD, List.getElem?_append_left hq]

theorem state_append_new (i : ℕ) : Heap.state (h ++ l) (h.length + i) = Heap.state l i := by
  simp [Heap.state, getD_eq_getElem?_getD, List.getElem?_append_right]

theorem node_update (hf : ∀ s, (f s).node = s.node) (p q : ℕ) :
    (h.update q f).node p = h.node p := by
  by_cases hpq : p = q
  · subst hpq
    by_cases hp : p < h.length
    · rw [Heap.node, state_update_same f hp, hf]
      rfl
    · have hlen : h.length ≤ p := Nat.not_lt.mp hp
      simp [Heap.node, Heap.state, Heap.update, getD_eq_getElem?_getD, hlen]
  · rw [Heap.node, state_update_ne f hpq]
    rfl

@[simp] theorem node_setNonGreedy (h : Heap) (q : ℕ) (b : Bool) (p : ℕ) :
    (h.setNonGreedy q b).node p = h.node p :=
  node_update ({ · with nonGreedy := b }) (fun _ => rfl) p q

@[simp] theorem node_setGroup (h : Heap) (q g : ℕ) (b : Bool) (p : ℕ) :
    (h.setGroup q g b).node p = h.node p :=
  node_update ({ · with groupId := some g, groupStart := b }) (fun _ => rfl) p q

@[simp] theorem length_setNonGreedy (h : Heap) (q : ℕ) (b : Bool) :
    (h.setNonGreedy q b).length = h.length := length_update ..

@[simp] theorem length_setGroup (h : Heap) (q g : ℕ) (b : Bool) :
    (h.setGroup q g b).length = h.length := length_update ..

@[simp] theorem length_setOut1 (h : Heap) (q : ℕ) (a : Option ℕ) :
    (h.setOut1 q a).length = h.length := length_update ..

@[simp] theorem length_setOut2 (h : Heap) (q : ℕ) (a : Option ℕ) :
    (h.setOut2 q a).length = h.length := length_update ..

@[simp] theorem length_setOuts (h : Heap) (q : ℕ) (a b : Option ℕ) :
    (h.setOuts q a b).length = h.length := by
  rw [Heap.setOuts, length_setOut2, length_setOut1]

@[simp] theorem length_choose (h : Heap) (q : ℕ) (b : Bool) (more done : ℕ) :
    (h.choose q b more done).length = h.length := by
  cases b <;> exact length_setOuts ..

@[simp] theorem length_create (h : Heap) (type : NfaStateType) :
    (createNfaState h type).2.length = h.length + 1 := by
  rw [createNfaState, length_append, length_singleton]

theorem node_setOut1_same (a : Option ℕ) (hq : q < h.length) :
    (h.setOut1 q a).node q = { h.node q with out1 := a } := by
  rw [Heap.node, Heap.setOut1, state_update_same _ hq]
  rfl

theorem node_setOut1_ne (a : Option ℕ) (hne : p ≠ q) : (h.setOut1 q a).node p = h.node p := by
  rw [Heap.node, Heap.setOut1, state_update_ne _ hne]
  rfl

theorem node_setOut2_same (a : Option ℕ) (hq : q < h.length) :
    (h.setOut2 q a).node q = { h.node q with out2 := a } := by
  rw [Heap.node, Heap.setOut2, state_update_same _ hq]
  rfl

theorem node_setOut2_ne (a : Option ℕ) (hne : p ≠ q) : (h.setOut2 q a).node p = h.node p := by
  rw [Heap.node, Heap.setOut2, state_update_ne _ hne]
  rfl

theorem node_setOuts_same (a b : Option ℕ) (hq : q < h.length) :
    (h.setOuts q a b).node q = { h.node q with out1 := a, out2 := b } := by
  rw [Heap.setOuts, node_setOut2_same b (by rwa [length_setOut1]), node_setOut1_same a hq]

theorem node_setOuts_ne (a b : Option ℕ) (hne : p ≠ q) : (h.setOuts q a b).node p = h.node p := by
  rw [Heap.setOuts, node_setOut2_ne b hne, node_setOut1_ne a hne]

theorem node_choose_same (b : Bool) (more done : ℕ) (hq : q < h.length) :
    (h.choose q b more done).node q = { h.node q with
        out1 := some (if b then done else more), out2 := some (if b then more else done) } := by
  cases b <;> exact node_setOuts_same _ _ hq

theorem node_choose_ne (b : Bool) (more done : ℕ) (hne : p ≠ q) :
    (h.choose q b more done).node p = h.node p := by
  cases b <;> exact node_setOuts_ne _ _ hne

theorem node_append_old (hq : q < h.length) : Heap.node (h ++ l) q = h.node q := by
  rw [Heap.node, state_append_old l hq]
  rfl

theorem node_create_old (type : NfaStateType) (hq : q < h.length) :
    (createNfaState h type).2.node q = h.node q := node_append_old _ hq

theorem node_create_new (h : Heap) (type : NfaStateType) (hq : q = h.length) :
    (createNfaState h type).2.node q = ⟨type, none, none, none⟩ := by
  have hnew : Heap.state (h ++ [{ type := type }]) (h.length + 0) = { type := type } :=
    state_append_new _ 0
  rw [hq, Heap.node, createNfaState, ← Nat.add_zero h.length, hnew]
  rfl

inductive Test where
  | lineStart
  | lineEnd
  | wordBoundary
  | look (behind negative : Bool) (body : Language UInt8)

inductive Letter where
  | read (c : UInt8)
  | pass (t : Test)

/- The languages of the bodies of assertions, by their first states. -/
abbrev Bodies := ℕ → Language UInt8

def NfaStateType.test (bodies : Bodies) : NfaStateType → Option Test
  | .anchorStart => some .lineStart
  | .anchorEnd => some .lineEnd
  | .wordBoundary => some .wordBoundary
  | .lookahead negative start => some (.look false negative (bodies start))
  | .lookbehind negative start => some (.look true negative (bodies start))
  | _ => none

def NfaStateType.accepts (bodies : Bodies) (type : NfaStateType) : Letter → Prop
  | .read c => type.reads false c = true
  | .pass t => type.test bodies = some t

def NfaStateType.body : NfaStateType → Option ℕ
  | .lookahead _ start | .lookbehind _ start => some start
  | _ => none

/- The steps of the states; characters are compared as they are. -/
def nfa (bodies : Bodies) (h : Heap) : εNFA Letter ℕ where
  step q
    | none => {t | (h.node q).type = .split ∧
      ((h.node q).out1 = some t ∨ (h.node q).out2 = some t)}
    | some a => {t | (h.node q).type.accepts bodies a ∧ (h.node q).out1 = some t}
  start := ∅
  accept := {q | (h.node q).type = .matched}

variable {bodies : Bodies}

variable {t : ℕ}

theorem mem_step_none : t ∈ (nfa bodies h).step q none ↔
    (h.node q).type = .split ∧ ((h.node q).out1 = some t ∨ (h.node q).out2 = some t) := Iff.rfl

theorem mem_step_some {a : Letter} : t ∈ (nfa bodies h).step q (some a) ↔
    (h.node q).type.accepts bodies a ∧ (h.node q).out1 = some t := Iff.rfl

theorem step_congr {h k : Heap} (heq : h.node q = k.node q) (a : Option Letter) :
    (nfa bodies h).step q a = (nfa bodies k).step q a := by
  cases a <;> simp only [nfa, heq]

theorem split_accepts (a : Letter) : ¬ NfaStateType.split.accepts bodies a := by
  cases a <;> simp [NfaStateType.accepts, NfaStateType.reads, NfaStateType.test]

def oneLetter (p : Letter → Prop) : Language Letter := {w | ∃ a, p a ∧ w = [a]}

def wordsFrom (bodies : Bodies) (h : Heap) (out : Option ℕ) (t : ℕ) : Language Letter :=
  match out with
  | none => 0
  | some q => words (nfa bodies h) q t

/- What a step along `out1` reads. -/
def NfaStateType.via (bodies : Bodies) : NfaStateType → Language Letter
  | .split => 1
  | type => oneLetter (type.accepts bodies)

theorem words_split (hne : q ≠ t) (hq : (h.node q).type = .split) : words (nfa bodies h) q t =
      wordsFrom bodies h (h.node q).out1 t + wordsFrom bodies h (h.node q).out2 t := by
  ext w
  rw [words_first hne, Language.mem_add]
  constructor
  · rintro (⟨r, hr, hw⟩ | ⟨a, r, hr, -⟩)
    · rcases (mem_step_none.mp hr).2 with hout | hout
      · exact .inl (hout ▸ hw)
      · exact .inr (hout ▸ hw)
    · rw [mem_step_some, hq] at hr
      exact (split_accepts a hr.1).elim
  · rintro (hw | hw)
    · cases hout : (h.node q).out1 with
      | none =>
        rw [hout] at hw
        exact absurd hw (Language.notMem_zero w)
      | some r =>
        rw [hout] at hw
        exact .inl ⟨r, mem_step_none.mpr ⟨hq, .inl hout⟩, hw⟩
    · cases hout : (h.node q).out2 with
      | none =>
        rw [hout] at hw
        exact absurd hw (Language.notMem_zero w)
      | some r =>
        rw [hout] at hw
        exact .inl ⟨r, mem_step_none.mpr ⟨hq, .inr hout⟩, hw⟩

theorem words_reading (hne : q ≠ t) (hq : (h.node q).type ≠ .split) : words (nfa bodies h) q t =
      (h.node q).type.via bodies * wordsFrom bodies h (h.node q).out1 t := by
  have hvia : (h.node q).type.via bodies = oneLetter ((h.node q).type.accepts bodies) := by
    cases htype : (h.node q).type <;> first | rfl | exact absurd htype hq
  ext w
  rw [words_first hne, hvia, Language.mem_mul]
  constructor
  · rintro (⟨r, hr, -⟩ | ⟨a, r, hr, hw⟩)
    · exact absurd (mem_step_none.mp hr).1 hq
    · obtain ⟨hread, hout⟩ := mem_step_some.mp hr
      obtain ⟨v, rfl, z, hz, rfl⟩ := Language.mem_mul.mp hw
      exact ⟨[a], ⟨a, hread, rfl⟩, z, hout ▸ hz, rfl⟩
  · rintro ⟨_, ⟨a, hread, rfl⟩, z, hz, rfl⟩
    cases hout : (h.node q).out1 with
    | none =>
      rw [hout] at hz
      exact absurd hz (Language.notMem_zero z)
    | some r =>
      rw [hout] at hz
      exact .inr ⟨a, r, mem_step_some.mpr ⟨hread, hout⟩,
        Language.append_mem_mul (a := [a]) rfl hz⟩

theorem words_congr_node {h k : Heap} {A : Set ℕ} {s : ℕ} (hclosed : Closed (nfa bodies h) A)
    (hsame : ∀ q ∈ A, k.node q = h.node q) (hs : s ∈ A) :
    words (nfa bodies k) s t = words (nfa bodies h) s t :=
  words_congr hclosed (fun q hq a => step_congr (hsame q hq) a) hs

def Node.open : Node := ⟨.split, none, none, none⟩

theorem step_open (hq : h.node q = Node.open) (a : Option Letter) :
    (nfa bodies h).step q a = ∅ := by
  ext t
  cases a with
  | none =>
    rw [mem_step_none, hq]
    simp [Node.open]
  | some a =>
    rw [mem_step_some, hq]
    simp [Node.open]

def NfaStateType.IsPlain : NfaStateType → Prop
  | .char _ | .charset _ | .split => True
  | _ => False

def NfaStateType.Fits (tests : Bool) (type : NfaStateType) : Prop :=
  type.IsPlain ∨ tests = true ∧ type ≠ .matched

/- A state without a number that leads to states from `lo` up to `hi`. -/
structure Node.Inside (n : Node) (lo hi : ℕ) : Prop where
  id : n.id = none
  body : ∀ t, n.type.body = some t → lo ≤ t ∧ t < hi
  outs : ∀ t, n.out1 = some t ∨ n.out2 = some t → lo ≤ t ∧ t < hi

theorem Node.Inside.mono {n : Node} {lo lo' hi hi' : ℕ} (hn : n.Inside lo hi) (hlo : lo' ≤ lo)
    (hhi : hi ≤ hi') : n.Inside lo' hi' where
  id := hn.id
  body t ht := ⟨hlo.trans (hn.body t ht).1, (hn.body t ht).2.trans_le hhi⟩
  outs t ht := ⟨hlo.trans (hn.outs t ht).1, (hn.outs t ht).2.trans_le hhi⟩

def Marked (h : Heap) : Prop :=
  ∀ q, (h.state q).groupId ≠ none → (h.node q).type = .split

/-- The states in `A` lead to each other, and from `start` to the match state `final` they read the
language `l`. -/
structure Machine (bodies : Bodies) (tests : Bool) (h : Heap) (start final : ℕ) (A : Set ℕ)
    (l : Language Letter) : Prop where
  start_mem : start ∈ A
  final_mem : final ∈ A
  closed : ∀ q ∈ A, ∀ t, (h.node q).out1 = some t ∨ (h.node q).out2 = some t → t ∈ A
  types : ∀ q ∈ A, q ≠ final → (h.node q).type.Fits tests
  matched : (h.node final).type = .matched
  lang : words (nfa bodies h) start final = l

def spelled (l : Language UInt8) : Language Letter := Language.map Letter.read l

/-- The body of an assertion is a machine of its own, between `lo` and `hi` and outside of `A`. -/
def Settled (bodies : Bodies) (h : Heap) (lo hi : ℕ) (A : Set ℕ) (start : ℕ) : Prop :=
  ∃ B final, Machine bodies false h start final B (spelled (bodies start)) ∧
    (∀ q ∈ B, lo ≤ q ∧ q < hi) ∧ ∀ q ∈ B, q ∉ A

/- The states in `A` and those from `n` on. -/
def Own (A : Set ℕ) (n : ℕ) (k : Heap) (q : ℕ) : Prop := q ∈ A ∨ n ≤ q ∧ q < k.length

/-- From `h` to `k` states have been added, which lead to each other only. The states in `A` and those
from `n` on are not in the body of an assertion. -/
structure Grown (bodies : Bodies) (tests : Bool) (h k : Heap) (A : Set ℕ) (n : ℕ) : Prop where
  lo : h.length ≤ n
  hi : n ≤ k.length
  same : ∀ q < h.length, k.node q = h.node q
  inside : ∀ q, h.length ≤ q → q < k.length → (k.node q).Inside h.length k.length
  marked : Marked h → Marked k
  within : ∀ q ∈ A, h.length ≤ q ∧ q < n
  outs : ∀ q, Own A n k q → ∀ t, (k.node q).out1 = some t ∨ (k.node q).out2 = some t → Own A n k t
  types : ∀ q, Own A n k q → (k.node q).type.Fits tests
  settled : ∀ q, Own A n k q → ∀ s, (k.node q).type.body = some s →
    Settled bodies k h.length n A s

/- What is known of a fragment: its words, its words by way of the first pointer of its first
   state, whether that pointer leads to the last state, and whether the two states are one. -/
structure Meaning where
  lang : Language Letter
  front : Language Letter
  direct : Bool
  touch : Bool

structure Built (bodies : Bodies) (tests : Bool) (h k : Heap) (frag : Fragment) (m : Meaning) :
    Prop where
  region : ∃ A, Grown bodies tests h k A k.length ∧ frag.start ∈ A ∧ frag.last ∈ A
  last_open : k.node frag.last = Node.open
  lang : words (nfa bodies k) frag.start frag.last = m.lang
  front : (k.node frag.start).type.via bodies *
    wordsFrom bodies k (k.node frag.start).out1 frag.last = m.front
  direct : m.direct = true ↔ (k.node frag.start).out1 = some frag.last
  touch : m.touch = true ↔ frag.start = frag.last

variable {tests : Bool} {k r : Heap} {frag : Fragment} {m : Meaning} {A : Set ℕ} {n : ℕ}

theorem own_old (hq : q ∈ A) : Own A n k q := .inl hq

theorem own_new (hq : n ≤ q ∧ q < k.length) : Own A n k q := .inr hq

theorem own_some (ht : Own A n k t) : ∀ u, some t = some u → Own A n k u := by
  rintro u hu
  rwa [← Option.some.inj hu]

theorem own_none : ∀ u, none = some u → Own A n k u :=
  fun u hu => absurd hu (Option.some_ne_none u).symm

theorem Settled.congr {lo hi s : ℕ} (hs : Settled bodies k lo hi A s)
    (hsame : ∀ q, lo ≤ q → q < hi → q ∉ A → r.node q = k.node q) : Settled bodies r lo hi A s := by
  obtain ⟨B, final, hm, hB, hA⟩ := hs
  have hnode (q : ℕ) (hq : q ∈ B) : r.node q = k.node q :=
    hsame q (hB q hq).1 (hB q hq).2 (hA q hq)
  have hclosed : Closed (nfa bodies k) B := by
    rintro q hq (_ | a) t ht
    · exact hm.closed q hq t (mem_step_none.mp ht).2
    · exact hm.closed q hq t (.inl (mem_step_some.mp ht).2)
  refine ⟨B, final, ⟨hm.start_mem, hm.final_mem, fun q hq => ?_, fun q hq => ?_, ?_, ?_⟩, hB, hA⟩
  · rw [hnode q hq]
    exact hm.closed q hq
  · rw [hnode q hq]
    exact hm.types q hq
  · rw [hnode final hm.final_mem]
    exact hm.matched
  · rw [words_congr_node hclosed hnode hm.start_mem, hm.lang]

theorem Grown.refl (h : Heap) : Grown bodies tests h h ∅ h.length where
  lo := le_rfl
  hi := le_rfl
  same _ _ := rfl
  inside _ hlo hhi := absurd hhi (Nat.not_lt.mpr hlo)
  marked hm := hm
  within _ hq := absurd hq (Set.notMem_empty _)
  outs _ hq := hq.elim (fun hq => absurd hq (Set.notMem_empty _))
    fun hq => absurd hq.2 (Nat.not_lt.mpr hq.1)
  types _ hq := hq.elim (fun hq => absurd hq (Set.notMem_empty _))
    fun hq => absurd hq.2 (Nat.not_lt.mpr hq.1)
  settled _ hq := hq.elim (fun hq => absurd hq (Set.notMem_empty _))
    fun hq => absurd hq.2 (Nat.not_lt.mpr hq.1)

theorem Grown.le (hg : Grown bodies tests h k A n) : h.length ≤ k.length := hg.lo.trans hg.hi

theorem Own.mono (hq : Own A n k q) (hle : k.length ≤ r.length) : Own A n r q :=
  hq.imp id fun hq => ⟨hq.1, hq.2.trans_le hle⟩

section
variable (hg : Grown bodies tests h k A n)
include hg

theorem Grown.bound (hq : Own A n k q) : h.length ≤ q ∧ q < k.length := by
  have hlo := hg.lo
  have hhi := hg.hi
  rcases hq with hq | hq
  · have hin := hg.within q hq
    omega
  · omega

theorem Grown.settle : Grown bodies tests h k {q | Own A n k q} k.length := by
  have hown (q : ℕ) : Own {q | Own A n k q} k.length k q ↔ Own A n k q :=
    or_iff_left fun hq => Nat.not_lt.mpr hq.1 hq.2
  have hlo := hg.lo
  have hhi := hg.hi
  refine ⟨hg.le, le_rfl, hg.same, hg.inside, hg.marked, fun q hq => ?_, fun q hq t ht => ?_,
    fun q hq => ?_, fun q hq s hs => ?_⟩
  · rcases hq with hq | hq
    · have hbound := hg.within q hq
      omega
    · omega
  · rw [hown] at hq ⊢
    exact hg.outs q hq t ht
  · rw [hown] at hq
    exact hg.types q hq
  · rw [hown] at hq
    obtain ⟨B, final, hm, hB, hA⟩ := hg.settled q hq s hs
    refine ⟨B, final, hm, fun p hp => ⟨(hB p hp).1, (hB p hp).2.trans_le hhi⟩, fun p hp hown => ?_⟩
    rcases hown with hmem | hnew
    · exact hA p hp hmem
    · exact Nat.not_lt.mpr hnew.1 (hB p hp).2

theorem Grown.append (l : List NfaState)
    (hinside : ∀ s ∈ l, s.node.Inside h.length (k.length + l.length))
    (hmarked : Marked k → ∀ s ∈ l, s.groupId ≠ none → s.type = .split)
    (houts : ∀ s ∈ l, ∀ t, s.out1 = some t ∨ s.out2 = some t → Own A n (k ++ l) t)
    (htypes : ∀ s ∈ l, s.type.Fits tests)
    (hsettled : ∀ s ∈ l, ∀ t, s.type.body = some t → Settled bodies k h.length n A t) :
    Grown bodies tests h (k ++ l) A n := by
  have hstate (q : ℕ) (hq : k.length ≤ q) : Heap.state (k ++ l) q ∈ l ∨
      k.length + l.length ≤ q ∧ (Heap.state (k ++ l) q).groupId = none := by
    obtain ⟨i, rfl⟩ := Nat.exists_eq_add_of_le hq
    rw [state_append_new]
    by_cases hi : i < l.length
    · left
      rw [Heap.state, getD_eq_getElem l _ hi]
      exact getElem_mem hi
    · right
      rw [Heap.state, getD_eq_default l _ (Nat.not_lt.mp hi)]
      exact ⟨by omega, rfl⟩
  have hlo := hg.lo
  have hhi := hg.hi
  have hkept (t : ℕ) (ht : Settled bodies k h.length n A t) :
      Settled bodies (k ++ l) h.length n A t :=
    ht.congr fun q _ hq _ => node_append_old l (by omega)
  -- an own state is an old one or a new one
  have hown (q : ℕ) (hq : Own A n (k ++ l) q) :
      Own A n k q ∧ q < k.length ∨ Heap.state (k ++ l) q ∈ l := by
    rcases hq with hq | hq
    · exact .inl ⟨.inl hq, by have hbound := hg.within q hq; omega⟩
    · rw [length_append] at hq
      by_cases hold : q < k.length
      · exact .inl ⟨.inr ⟨hq.1, hold⟩, hold⟩
      · rcases hstate q (Nat.not_lt.mp hold) with hmem | ⟨hlen, -⟩
        · exact .inr hmem
        · omega
  refine ⟨hlo, by rw [length_append]; omega, fun q hq => ?_, fun q hlo hhi => ?_,
    fun hm q hq => ?_, hg.within, fun q hq t ht => ?_, fun q hq => ?_, fun q hq s hs => ?_⟩
  · rw [node_append_old l (by omega), hg.same q hq]
  · rw [length_append] at hhi ⊢
    by_cases hold : q < k.length
    · rw [node_append_old l hold]
      exact (hg.inside q hlo hold).mono le_rfl (Nat.le_add_right ..)
    · rcases hstate q (Nat.not_lt.mp hold) with hmem | ⟨hlen, -⟩
      · exact hinside _ hmem
      · omega
  · by_cases hold : q < k.length
    · rw [node_append_old l hold]
      rw [state_append_old l hold] at hq
      exact hg.marked hm q hq
    · rcases hstate q (Nat.not_lt.mp hold) with hmem | ⟨-, hnone⟩
      · exact hmarked (hg.marked hm) _ hmem hq
      · exact absurd hnone hq
  · rcases hown q hq with ⟨hown, hlt⟩ | hmem
    · rw [node_append_old l hlt] at ht
      refine (hg.outs q hown t ht).imp id fun ht => ⟨ht.1, ?_⟩
      rw [length_append]
      omega
    · exact houts _ hmem t ht
  · rcases hown q hq with ⟨hown, hlt⟩ | hmem
    · rw [node_append_old l hlt]
      exact hg.types q hown
    · exact htypes _ hmem
  · rcases hown q hq with ⟨hown, hlt⟩ | hmem
    · rw [node_append_old l hlt] at hs
      exact hkept s (hg.settled q hown s hs)
    · exact hkept s (hsettled _ hmem s hs)

theorem Grown.update {f : NfaState → NfaState} (hq : Own A n k q)
    (hkeep : ∀ s, (f s).type = s.type ∧ (f s).id = s.id ∧ (f s).groupId = s.groupId)
    (houts : ∀ s t, (f s).out1 = some t ∨ (f s).out2 = some t →
      (s.out1 = some t ∨ s.out2 = some t) ∨ Own A n k t) :
    Grown bodies tests h (k.update q f) A n := by
  have hlo := hg.lo
  have hhi := hg.hi
  have hqbound := hg.bound hq
  have hlen : (k.update q f).length = k.length := length_update ..
  have hsame : (k.update q f).node q = (f (k.state q)).node := by
    rw [Heap.node, state_update_same f hqbound.2]
  have hother (p : ℕ) (hp : p ≠ q) : (k.update q f).node p = k.node p := by
    rw [Heap.node, state_update_ne f hp]
    rfl
  have htype (p : ℕ) : ((k.update q f).node p).type = (k.node p).type := by
    by_cases hp : p = q
    · rw [hp, hsame]
      exact (hkeep _).1
    · rw [hother p hp]
  have hown (p : ℕ) : Own A n (k.update q f) p ↔ Own A n k p := by
    rw [Own, hlen]
    rfl
  refine ⟨hlo, by omega, fun p hp => ?_, fun p hlo hhi => ?_, fun hm p hp => ?_, hg.within,
    fun p hp t ht => ?_, fun p hp => ?_, fun p hp s hs => ?_⟩
  · rw [hother p (by omega), hg.same p hp]
  · rw [hlen] at hhi ⊢
    have hold := hg.inside p hlo hhi
    by_cases hpq : p = q
    · subst hpq
      refine ⟨?_, fun t ht => hold.body t (htype p ▸ ht), fun t ht => ?_⟩
      · rw [hsame]
        exact (hkeep _).2.1.trans hold.id
      · rw [hsame] at ht
        exact (houts _ t ht).elim (hold.outs t) hg.bound
    · rw [hother p hpq]
      exact hold
  · have hold := hg.marked hm p
    rw [htype p]
    by_cases hpq : p = q
    · subst hpq
      rw [state_update_same f hqbound.2, (hkeep _).2.2] at hp
      exact hold hp
    · rw [state_update_ne f hpq] at hp
      exact hold hp
  · rw [hown] at hp ⊢
    by_cases hpq : p = q
    · subst hpq
      rw [hsame] at ht
      exact (houts _ t ht).elim (hg.outs p hp t) id
    · rw [hother p hpq] at ht
      exact hg.outs p hp t ht
  · rw [hown] at hp
    rw [htype p]
    exact hg.types p hp
  · rw [hown] at hp
    rw [htype p] at hs
    refine (hg.settled p hp s hs).congr fun t _ ht hA => hother t ?_
    rintro rfl
    exact hq.elim hA fun hq => Nat.not_lt.mpr hq.1 ht

end

variable {a b : Option ℕ}

theorem Grown.setOut1 (hg : Grown bodies tests h k A n) (hq : Own A n k q)
    (ha : ∀ t, a = some t → Own A n k t) : Grown bodies tests h (k.setOut1 q a) A n :=
  hg.update hq (fun _ => ⟨rfl, rfl, rfl⟩) fun _ t ht =>
    ht.elim (fun ht => .inr (ha t ht)) fun ht => .inl (.inr ht)

theorem Grown.setOut2 (hg : Grown bodies tests h k A n) (hq : Own A n k q)
    (ha : ∀ t, a = some t → Own A n k t) : Grown bodies tests h (k.setOut2 q a) A n :=
  hg.update hq (fun _ => ⟨rfl, rfl, rfl⟩) fun _ t ht =>
    ht.elim (fun ht => .inl (.inl ht)) fun ht => .inr (ha t ht)

theorem own_length (hlen : r.length = k.length) (ht : Own A n k t) : Own A n r t := by
  rwa [Own, hlen]

theorem Grown.setOuts (hg : Grown bodies tests h k A n) (hq : Own A n k q)
    (ha : ∀ t, a = some t → Own A n k t) (hb : ∀ t, b = some t → Own A n k t) :
    Grown bodies tests h (k.setOuts q a b) A n :=
  (hg.setOut1 hq ha).setOut2 (own_length (length_setOut1 ..) hq) fun t ht =>
    own_length (length_setOut1 ..) (hb t ht)

theorem Grown.choose (hg : Grown bodies tests h k A n) (hq : Own A n k q) {nonGreedy : Bool}
    {more done : ℕ} (hmore : Own A n k more) (hdone : Own A n k done) :
    Grown bodies tests h (k.choose q nonGreedy more done) A n := by
  cases nonGreedy with
  | false => exact hg.setOuts hq (own_some hmore) (own_some hdone)
  | true => exact hg.setOuts hq (own_some hdone) (own_some hmore)

theorem Grown.setNonGreedy (hg : Grown bodies tests h k A n) (hq : Own A n k q)
    (nonGreedy : Bool) : Grown bodies tests h (k.setNonGreedy q nonGreedy) A n :=
  hg.update hq (fun _ => ⟨rfl, rfl, rfl⟩) fun _ _ ht => .inl ht

theorem Grown.create (hg : Grown bodies tests h k A n) {type : NfaStateType}
    (htype : type.Fits tests) (hbody : ∀ t, type.body = some t →
      (h.length ≤ t ∧ t < k.length) ∧ Settled bodies k h.length n A t) :
    Grown bodies tests h (createNfaState k type).2 A n := by
  refine hg.append [{ type := type }] (fun s hs => ?_) (fun _ s hs hgroup => ?_)
    (fun s hs t ht => ?_) (fun s hs => ?_) fun s hs t ht => ?_
  all_goals rw [mem_singleton.mp hs] at *
  · exact ⟨rfl, fun t ht => ⟨(hbody t ht).1.1, by have hlt := (hbody t ht).1.2; simp; omega⟩,
      fun t ht => by simp [NfaState.node] at ht⟩
  · exact absurd rfl hgroup
  · simp at ht
  · exact htype
  · exact (hbody t ht).2

theorem Grown.setGroup (hg : Grown bodies tests h k A n) (hsplit : (k.node q).type = .split) (g : ℕ)
    (b : Bool) : Grown bodies tests h (k.setGroup q g b) A n := by
  have hlen : (k.setGroup q g b).length = k.length := length_setGroup ..
  have hown (p : ℕ) : Own A n (k.setGroup q g b) p ↔ Own A n k p := by
    rw [Own, hlen]
    rfl
  refine ⟨hg.lo, by rw [hlen]; exact hg.hi, fun p hp => ?_, fun p hlo hhi => ?_, fun hm p hp => ?_,
    hg.within, fun p hp t ht => ?_, fun p hp => ?_, fun p hp s hs => ?_⟩
  · rw [node_setGroup, hg.same p hp]
  · rw [hlen] at hhi ⊢
    rw [node_setGroup]
    exact hg.inside p hlo hhi
  · rw [node_setGroup]
    by_cases hpq : p = q
    · rw [hpq, hsplit]
    · rw [Heap.setGroup, state_update_ne _ hpq] at hp
      exact hg.marked hm p hp
  · rw [hown] at hp ⊢
    rw [node_setGroup] at ht
    exact hg.outs p hp t ht
  · rw [hown] at hp
    rw [node_setGroup]
    exact hg.types p hp
  · rw [hown] at hp
    rw [node_setGroup] at hs
    exact (hg.settled p hp s hs).congr fun t _ _ _ => node_setGroup ..

section Built

variable (hb : Built bodies tests h k frag m)

include hb

theorem Built.le : h.length ≤ k.length := hb.region.elim fun _ hA => hA.1.le

theorem Built.same : ∀ q < h.length, k.node q = h.node q := hb.region.elim fun _ hA => hA.1.same

theorem Built.inside : ∀ q, h.length ≤ q → q < k.length → (k.node q).Inside h.length k.length :=
  hb.region.elim fun _ hA => hA.1.inside

theorem Built.start : h.length ≤ frag.start ∧ frag.start < k.length :=
  hb.region.elim fun _ hA => hA.1.within _ hA.2.1

theorem Built.last : h.length ≤ frag.last ∧ frag.last < k.length :=
  hb.region.elim fun _ hA => hA.1.within _ hA.2.2

theorem Built.closed : Closed (nfa bodies k) (Set.Ico h.length k.length) := by
  rintro q hq (_ | a) t ht
  · exact (hb.inside q hq.1 hq.2).outs t (mem_step_none.mp ht).2
  · exact (hb.inside q hq.1 hq.2).outs t (.inl (mem_step_some.mp ht).2)

theorem Built.part : Part (nfa bodies k) (Set.Ico h.length k.length) frag.last where
  closed := hb.closed
  last := hb.last
  stuck := step_open hb.last_open

end Built

theorem Grown.trans {B : Set ℕ} (hg : Grown bodies tests h k A k.length)
    (hg' : Grown bodies tests k r B r.length) : Grown bodies tests h r (A ∪ B) r.length := by
  have hle := hg.le
  have hle' := hg'.le
  have hown (q : ℕ) (hq : Own (A ∪ B) r.length r q) : q ∈ A ∧ q < k.length ∨ q ∈ B := by
    rcases hq with (hq | hq) | hq
    · exact .inl ⟨hq, (hg.within q hq).2⟩
    · exact .inr hq
    · omega
  have hownA (q : ℕ) (hq : Own A k.length k q) : Own (A ∪ B) r.length r q := by
    rcases hq with hq | hq
    · exact .inl (.inl hq)
    · omega
  have hownB (q : ℕ) (hq : Own B r.length r q) : Own (A ∪ B) r.length r q := by
    rcases hq with hq | hq
    · exact .inl (.inr hq)
    · omega
  refine ⟨hle.trans hle', le_rfl, fun q hq => ?_, fun q hlo hhi => ?_,
    fun hm => hg'.marked (hg.marked hm), fun q hq => ?_, fun q hq t ht => ?_, fun q hq => ?_,
    fun q hq s hs => ?_⟩
  · rw [hg'.same q (by omega), hg.same q hq]
  · by_cases hq : q < k.length
    · rw [hg'.same q hq]
      exact (hg.inside q hlo hq).mono le_rfl hle'
    · exact (hg'.inside q (Nat.not_lt.mp hq) hhi).mono hle le_rfl
  · rcases hq with hq | hq
    · have hbound := hg.within q hq
      omega
    · have hbound := hg'.within q hq
      omega
  · rcases hown q hq with ⟨hmem, hlt⟩ | hmem
    · rw [hg'.same q hlt] at ht
      exact hownA t (hg.outs q (.inl hmem) t ht)
    · exact hownB t (hg'.outs q (.inl hmem) t ht)
  · rcases hown q hq with ⟨hmem, hlt⟩ | hmem
    · rw [hg'.same q hlt]
      exact hg.types q (.inl hmem)
    · exact hg'.types q (.inl hmem)
  · rcases hown q hq with ⟨hmem, hlt⟩ | hmem
    · rw [hg'.same q hlt] at hs
      obtain ⟨C, final, hm, hC, hA⟩ := (hg.settled q (.inl hmem) s hs).congr (r := r)
        fun p _ hp _ => hg'.same p hp
      refine ⟨C, final, hm, fun p hp => ⟨(hC p hp).1, (hC p hp).2.trans_le hle'⟩, fun p
        hp hAB => ?_⟩
      rcases hAB with hmemA | hmemB
      · exact hA p hp hmemA
      · exact Nat.not_lt.mpr (hg'.within p hmemB).1 (hC p hp).2
    · obtain ⟨C, final, hm, hC, hB⟩ := hg'.settled q (.inl hmem) s hs
      refine ⟨C, final, hm, fun p hp => ⟨hle.trans (hC p hp).1, (hC p hp).2⟩, fun p hp hAB => ?_⟩
      rcases hAB with hmemA | hmemB
      · exact Nat.not_lt.mpr (hC p hp).1 (hg.within p hmemA).2
      · exact hB p hp hmemB

/- The states of the fragment between `h` and `k` are in `r`, and only the steps from `last` are
   set anew. -/
def Rewired (h k r : Heap) (last : ℕ) : Prop :=
  ∀ q, h.length ≤ q → q < k.length → q ≠ last → r.node q = k.node q

section
variable (hb : Built bodies tests h k frag m)
include hb

theorem Built.exit (hr : Rewired h k r frag.last) {s t : ℕ} (hs : h.length ≤ s ∧ s < k.length)
    (ht : ¬ (h.length ≤ t ∧ t < k.length)) : words (nfa bodies r) s t =
      words (nfa bodies k) s frag.last * words (nfa bodies r) frag.last t :=
  hb.part.words_exit (fun q hq hne a => step_congr (hr q hq.1 hq.2 hne) a) hs ht

theorem Built.exit_lang (hr : Rewired h k r frag.last) {t : ℕ}
    (ht : ¬ (h.length ≤ t ∧ t < k.length)) :
    words (nfa bodies r) frag.start t = m.lang * words (nfa bodies r) frag.last t := by
  rw [hb.exit hr hb.start ht, hb.lang]

theorem Built.exit_front (hr : Rewired h k r frag.last) {t : ℕ}
    (ht : ¬ (h.length ≤ t ∧ t < k.length)) :
    (k.node frag.start).type.via bodies * wordsFrom bodies r (k.node frag.start).out1 t =
      m.front * words (nfa bodies r) frag.last t := by
  rw [← hb.front, mul_assoc]
  congr 1
  cases hout : (k.node frag.start).out1 with
  | none => exact (zero_mul _).symm
  | some q => exact hb.exit hr ((hb.inside _ hb.start.1 hb.start.2).outs q (.inl hout)) ht

theorem Built.loop (hr : Rewired h k r frag.last) {j t : ℕ} (ht : ¬ (h.length ≤ t ∧ t < k.length))
    (hj : ¬ (h.length ≤ j ∧ j < k.length)) (hopen : r.node t = Node.open)
    (hetype : (r.node frag.last).type = .split) (hjtype : (r.node j).type = .split)
    (heouts : ∀ q, (r.node frag.last).out1 = some q ∨ (r.node frag.last).out2 = some q →
      q = j ∨ q = frag.start ∨ q = t)
    (hjouts : ∀ q, (r.node j).out1 = some q ∨ (r.node j).out2 = some q →
      q = frag.start ∨ q = t) (hout : t ∈ (nfa bodies r).step frag.last none)
    (hback : frag.start ∈ (nfa bodies r).step frag.last none ∨
      j ∈ (nfa bodies r).step frag.last none ∧ frag.start ∈ (nfa bodies r).step j none) :
    words (nfa bodies r) frag.last t = m.lang∗ := by
  have hletter {q : ℕ} (hq : (r.node q).type = .split) (a : Letter) :
      (nfa bodies r).step q (some a) = ∅ := by
    ext t
    rw [mem_step_some, hq]
    exact iff_of_false (fun h => split_accepts a h.1) (Set.notMem_empty t)
  rw [← hb.lang]
  refine hb.part.words_loop (fun q hq hne a => step_congr (hr q hq.1 hq.2 hne) a) hb.start ht hj
    (step_open hopen) hout ?_ ?_ ?_ (hletter hetype) (hletter hjtype)
  · rcases hback with hback | ⟨hej, hjs⟩
    · exact words_eps hback (nil_mem_words _ _)
    · exact words_eps hej (words_eps hjs (nil_mem_words _ _))
  · exact fun q hq => heouts q (mem_step_none.mp hq).2
  · exact fun q hq => hjouts q (mem_step_none.mp hq).2

end

theorem accepts_congr (type : NfaStateType) {other : Bodies}
    (heq : ∀ s, type.body = some s → other s = bodies s) (a : Letter) :
    type.accepts other a ↔ type.accepts bodies a := by
  have htest : type.test other = type.test bodies := by
    cases type with
    | lookahead negative s =>
      exact congrArg (fun l => some (Test.look false negative l)) (heq s rfl)
    | lookbehind negative s =>
      exact congrArg (fun l => some (Test.look true negative l)) (heq s rfl)
    | _ => rfl
  cases a with
  | read c => exact Iff.rfl
  | pass t => rw [NfaStateType.accepts, NfaStateType.accepts, htest]

theorem via_congr (type : NfaStateType) {other : Bodies}
    (heq : ∀ s, type.body = some s → other s = bodies s) : type.via other = type.via bodies := by
  have hletter : oneLetter (type.accepts other) = oneLetter (type.accepts bodies) :=
    congrArg oneLetter (funext fun a => propext (accepts_congr type heq a))
  cases type <;> first | rfl | exact hletter

theorem Built.rebody (hb : Built bodies tests h k frag m) {other : Bodies}
    (heq : ∀ s < k.length, other s = bodies s) : Built other tests h k frag m := by
  have hstep : ∀ q ∈ Set.Ico h.length k.length, ∀ a,
      (nfa other k).step q a = (nfa bodies k).step q a := by
    rintro q hq (_ | a)
    · rfl
    · have haccepts := accepts_congr (k.node q).type
        (fun s hs => heq s ((hb.inside q hq.1 hq.2).body s hs).2) a
      exact Set.ext fun t => and_congr_left' haccepts
  have hwords {s t : ℕ} (hs : h.length ≤ s ∧ s < k.length) :
      words (nfa other k) s t = words (nfa bodies k) s t := words_congr hb.closed hstep hs
  have hin := hb.inside _ hb.start.1 hb.start.2
  obtain ⟨A, hg, hsA, hlA⟩ := hb.region
  refine ⟨⟨A, { hg with settled := fun q hq s hs => ?_ }, hsA, hlA⟩, hb.last_open, ?_, ?_,
    hb.direct, hb.touch⟩
  · obtain ⟨B, final, hm, hB, hA⟩ := hg.settled q hq s hs
    have hsB := hB s hm.start_mem
    refine ⟨B, final, ⟨hm.start_mem, hm.final_mem, hm.closed, hm.types, hm.matched, ?_⟩, hB, hA⟩
    rw [hwords hsB, hm.lang, heq s hsB.2]
  · rw [hwords hb.start, hb.lang]
  · rw [← hb.front, via_congr _ fun s hs => heq s (hin.body s hs).2]
    congr 1
    cases hout : (k.node frag.start).out1 with
    | none => rfl
    | some q => exact hwords (hin.outs q (.inl hout))

end Voxlib.Regex
