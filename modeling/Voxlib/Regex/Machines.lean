import Voxlib.Regex.Thompson

/-!
# Machines

Behind a whole fragment a match state is put.
-/

namespace Voxlib.Regex
open CStr Automaton
open scoped Computability

variable {bodies : Bodies} {tests : Bool} {h j k : Heap} {frag : Fragment} {m : Meaning} {q : ℕ}

def Heap.withMatch (h : Heap) (last : ℕ) : Heap :=
  (createNfaState h .matched).2.setOut1 last (some h.length)

@[simp] theorem length_withMatch (h : Heap) (last : ℕ) :
    (h.withMatch last).length = h.length + 1 := by
  rw [Heap.withMatch, length_setOut1, length_create]

variable {last : ℕ}

theorem node_withMatch_old (hq : q < h.length) (hne : q ≠ last) :
    (h.withMatch last).node q = h.node q := by
  rw [Heap.withMatch, node_setOut1_ne _ hne, node_create_old _ hq]

theorem node_withMatch_last (hlast : last < h.length) (hopen : h.node last = Node.open) :
    (h.withMatch last).node last = ⟨.split, some h.length, none, none⟩ := by
  rw [Heap.withMatch, node_setOut1_same _ (by rw [length_create]; omega),
    node_create_old _ hlast, hopen]
  rfl

theorem node_withMatch_new (hlast : last < h.length) :
    (h.withMatch last).node h.length = ⟨.matched, none, none, none⟩ := by
  rw [Heap.withMatch, node_setOut1_ne _ (by omega), node_create_new h _ rfl]

theorem step_matched (hq : h.node q = ⟨.matched, none, none, none⟩) (a : Option Letter) :
    (nfa bodies h).step q a = ∅ := by
  ext t
  cases a with
  | none =>
    rw [mem_step_none, hq]
    simp
  | some a =>
    rw [mem_step_some, hq]
    simp

/-- What is known of the states from `h` to `j` when the last of them is a match state. -/
structure Finished (bodies : Bodies) (tests : Bool) (h j : Heap) (start final : ℕ)
    (l : Language Letter) : Prop where
  le : h.length ≤ j.length
  same : ∀ q < h.length, j.node q = h.node q
  inside : ∀ q, h.length ≤ q → q < j.length → (j.node q).Inside h.length j.length
  marked : Marked h → Marked j
  machine : ∃ A, Machine bodies tests j start final A l ∧
    (∀ q ∈ A, h.length ≤ q ∧ q < j.length) ∧
    ∀ q ∈ A, ∀ s, (j.node q).type.body = some s → Settled bodies j h.length j.length A s

theorem marked_withMatch (hm : Marked k) (hlast : last < k.length)
    (hopen : k.node last = Node.open) : Marked (k.withMatch last) := by
  intro q hq
  by_cases hql : q = last
  · rw [hql, node_withMatch_last hlast hopen]
  · rw [Heap.withMatch, Heap.setOut1, state_update_ne _ hql] at hq
    by_cases hold : q < k.length
    · rw [node_withMatch_old hold hql]
      rw [createNfaState, state_append_old _ hold] at hq
      exact hm q hq
    · obtain ⟨i, rfl⟩ := Nat.exists_eq_add_of_le (Nat.not_lt.mp hold)
      rw [createNfaState, state_append_new] at hq
      cases i <;> exact absurd rfl hq

theorem Built.finished (hb : Built bodies tests h k frag m) :
    Finished bodies tests h (k.withMatch frag.last) frag.start k.length m.lang := by
  have hle := hb.le
  have hstart := hb.start
  have hlast := hb.last
  have hlen := length_withMatch k frag.last
  have hend := node_withMatch_last hlast.2 hb.last_open
  have hnew := node_withMatch_new hlast.2
  have hold (q : ℕ) (hq : q < k.length) (hne : q ≠ frag.last) :
      (k.withMatch frag.last).node q = k.node q := node_withMatch_old hq hne
  have hmarked (hm : Marked k) := marked_withMatch hm hlast.2 hb.last_open
  generalize k.withMatch frag.last = j at *
  obtain ⟨A, hg, hsA, hlA⟩ := hb.region
  have hcases (q : ℕ) (hq : q ∈ A ∪ {k.length}) : q = k.length ∨ q = frag.last ∨
      q ∈ A ∧ q < k.length ∧ q ≠ frag.last := by
    rcases hq with hq | hq
    · by_cases hql : q = frag.last
      · exact .inr (.inl hql)
      · exact .inr (.inr ⟨hq, (hg.within q hq).2, hql⟩)
    · exact .inl hq
  refine ⟨by omega, fun q hq => ?_, fun q hlo hhi => ?_, fun hm => hmarked (hg.marked hm),
    A ∪ {k.length}, ⟨.inl hsA, .inr rfl, fun q hq t ht => ?_, fun q hq hne => ?_, ?_, ?_⟩,
    fun q hq => ?_, fun q hq s hs => ?_⟩
  · rw [hold q (by omega) (by omega), hb.same q hq]
  · by_cases hqk : q = k.length
    · rw [hqk, hnew]
      exact ⟨rfl, nofun, nofun⟩
    · by_cases hql : q = frag.last
      · rw [hql, hend]
        refine ⟨rfl, nofun, fun t ht => ?_⟩
        rcases ht with ht | ht
        · cases ht
          omega
        · cases ht
      · rw [hold q (by omega) hql]
        exact (hb.inside q hlo (by omega)).mono le_rfl (by omega)
  · rcases hcases q hq with rfl | rfl | ⟨hqA, hlt, hql⟩
    · rw [hnew] at ht
      rcases ht with ht | ht <;> cases ht
    · rw [hend] at ht
      rcases ht with ht | ht <;> cases ht
      exact .inr rfl
    · rw [hold q hlt hql] at ht
      rcases hg.outs q (.inl hqA) t ht with htA | htn
      · exact .inl htA
      · omega
  · rcases hcases q hq with rfl | rfl | ⟨hqA, hlt, hql⟩
    · exact absurd rfl hne
    · rw [hend]
      exact .inl trivial
    · rw [hold q hlt hql]
      exact hg.types q (.inl hqA)
  · rw [hnew]
  · have hrewired : Rewired h k j frag.last := fun q _ hq hne => hold q hq hne
    rw [hb.exit_lang hrewired (by omega), words_forward hend (by omega),
      words_stuck (step_matched hnew), mul_one]
  · rcases hcases q hq with rfl | rfl | ⟨hqA, hlt, -⟩
    · omega
    · omega
    · have hbound := hg.within q hqA
      omega
  · rcases hcases q hq with rfl | rfl | ⟨hqA, hlt, hql⟩
    · rw [hnew] at hs
      cases hs
    · rw [hend] at hs
      cases hs
    · rw [hold q hlt hql] at hs
      obtain ⟨B, final, hm, hB, hA⟩ := (hg.settled q (.inl hqA) s hs).congr (r := j)
        fun p _ hp hpA => hold p hp fun h => hpA (h ▸ hlA)
      refine ⟨B, final, hm, fun p hp => ?_, fun p hp hpA => ?_⟩
      · have hbound := hB p hp
        omega
      · rcases hpA with hpA | hpA
        · exact hA p hp hpA
        · exact Nat.ne_of_lt (hB p hp).2 hpA

theorem Machine.body_none {start final : ℕ} {A : Set ℕ} {l : Language Letter}
    (hm : Machine bodies false h start final A l) : ∀ q ∈ A, (h.node q).type.body = none := by
  intro q hq
  by_cases hqf : q = final
  · rw [hqf, hm.matched]
    rfl
  · rcases hm.types q hq hqf with hplain | ⟨hfalse, -⟩
    · cases htype : (h.node q).type with
      | lookahead | lookbehind =>
        rw [htype] at hplain
        exact hplain.elim
      | _ => rfl
    · cases hfalse

theorem Machine.rebody {start final : ℕ} {A : Set ℕ} {l : Language Letter}
    (hm : Machine bodies false h start final A l) (other : Bodies) :
    Machine other false h start final A l := by
  have hclosed : Closed (nfa bodies h) A := by
    rintro q hq (_ | a) t ht
    · exact hm.closed q hq t (mem_step_none.mp ht).2
    · exact hm.closed q hq t (.inl (mem_step_some.mp ht).2)
  have hstep : ∀ q ∈ A, ∀ a, (nfa other h).step q a = (nfa bodies h).step q a := by
    rintro q hq (_ | a)
    · rfl
    · have haccepts : (h.node q).type.accepts other a ↔ (h.node q).type.accepts bodies a :=
        accepts_congr _ (fun s hs => by rw [hm.body_none q hq] at hs; cases hs) a
      exact Set.ext fun t => and_congr_left' haccepts
  refine ⟨hm.start_mem, hm.final_mem, hm.closed, hm.types, hm.matched, ?_⟩
  rw [words_congr hclosed hstep hm.start_mem, hm.lang]

theorem closeAssertion_eq {sub : Fragment} (type : ℕ → NfaStateType) (hlast : sub.last < k.length)
    (hopen : k.node sub.last = Node.open) :
    closeAssertion k sub type = singleState (k.withMatch sub.last) (type sub.start) := by
  have hsplit : ((createNfaState k .matched).2.state sub.last).type = .split := by
    change ((createNfaState k .matched).2.node sub.last).type = .split
    rw [node_create_old _ hlast, hopen]
    rfl
  exact congrArg (fun r => singleState r (type sub.start)) (if_pos hsplit)

def asking (t : Test) : Language Letter := oneLetter (· = .pass t)

def lookType (behind negative : Bool) (start : ℕ) : NfaStateType :=
  if behind then .lookbehind negative start else .lookahead negative start

theorem via_look (behind negative : Bool) (start : ℕ) :
    (lookType behind negative start).via bodies =
    asking (.look behind negative (bodies start)) := by
  have haccepts (a : Letter) : (lookType behind negative start).accepts bodies a ↔
      a = .pass (.look behind negative (bodies start)) := by
    cases behind <;> cases a <;>
      simp [lookType, NfaStateType.accepts, NfaStateType.reads, NfaStateType.test, eq_comm]
  have hletter : oneLetter ((lookType behind negative start).accepts bodies) =
      asking (.look behind negative (bodies start)) :=
    congrArg oneLetter (funext fun a => propext (haccepts a))
  cases behind <;> exact hletter

theorem assertion_built {sub : Fragment} {l : Language UInt8} (hb : Built bodies false h k sub m)
    (hl : m.lang = spelled l) (behind negative : Bool) :
    Built (Function.update bodies sub.start l) true h
      (closeAssertion k sub (lookType behind negative)).1
      (closeAssertion k sub (lookType behind negative)).2
        (.atom (asking (.look behind negative l))) := by
  have hstart := hb.start
  have hf := hb.finished
  rw [closeAssertion_eq _ hb.last.2 hb.last_open]
  have hlen := length_withMatch k sub.last
  generalize k.withMatch sub.last = j at *
  obtain ⟨A, hm, hA, -⟩ := hf.machine
  have hsub : Function.update bodies sub.start l sub.start = l := Function.update_self ..
  have hnone (q : ℕ) (hq : Own ∅ j.length j q) : False :=
    hq.elim id fun hq => Nat.not_lt.mpr hq.1 hq.2
  have hgrown : Grown (Function.update bodies sub.start l) true h j ∅ j.length :=
    ⟨hf.le, le_rfl, hf.same, hf.inside, hf.marked, fun _ hq => absurd hq (Set.notMem_empty _),
      fun q hq => (hnone q hq).elim, fun q hq => (hnone q hq).elim, fun q hq => (hnone q hq).elim⟩
  have hvia : (lookType behind negative sub.start).via (Function.update bodies sub.start l) =
      asking (.look behind negative l) := by rw [via_look, hsub]
  rw [← hvia]
  have hbody : (lookType behind negative sub.start).body = some sub.start := by
    cases behind <;> rfl
  refine atom_built hgrown (.inr ⟨rfl, ?_⟩) ?_ fun t ht => ?_
  · cases behind <;> exact nofun
  · cases behind <;> exact nofun
  · obtain rfl := Option.some.inj (hbody.symm.trans ht)
    refine ⟨by omega, A, k.length, ?_, hA, fun _ _ => Set.notMem_empty _⟩
    rw [hsub, ← hl]
    exact hm.rebody _

end Voxlib.Regex
