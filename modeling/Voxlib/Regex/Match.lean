import Voxlib.Regex.Closure

/-!
# Matching

The lists hold the states that the runs of the automaton reach.
-/

namespace Voxlib.Regex
open CStr Automaton Visit Layers List

/-- The states that matching can come to, of the machine that begins at `start`. -/
structure Follower (assertion : ℕ → ℕ → Bool → Bool) (bodies : Bodies) (tests : Bool)
    (re : VoxRegex) (text : Bytes) (start final : ℕ) (l : Language Letter) (S A : Set ℕ)
    (U : Finset ℕ) : Prop where
  ready : Ready re S
  begins : start ∈ S
  machine : Machine bodies tests re.heap start final A l
  asserted : Asserted assertion bodies re.heap text (S ∩ A)
  states : ∀ q, q ∈ U ↔ q ∈ S ∧ q ∈ A
  card : U.card ≤ re.heap.length
  plain : re.flags.ignoreCase = false

variable {assertion : ℕ → ℕ → Bool → Bool} {bodies : Bodies} {tests : Bool} {re : VoxRegex}
  {text : Bytes} {start final : ℕ} {l : Language Letter} {S A : Set ℕ} {U : Finset ℕ}
  {generation : UInt32} {m : Marks} {seen roots : List ℕ} {i p q r n : ℕ}

theorem step_out {h : Heap} {a : Option Letter} (hstep : r ∈ (nfa bodies h).step q a) :
    (h.node q).out1 = some r ∨ (h.node q).out2 = some r := by
  cases a with
  | none => exact (mem_step_none.mp hstep).2
  | some a => exact .inl (mem_step_some.mp hstep).2

theorem reads_listed {type : NfaStateType} {b : Bool} {c : UInt8} (h : type.reads b c = true) :
    type.listed = true := by
  cases type <;> first | rfl | cases h

theorem mem_list (hs : Shows re U generation m seen) :
    q ∈ m.list ↔ q ∈ seen ∧ (re.heap.node q).type.listed = true := by
  rw [hs.list, mem_filter]

theorem nextList_eq (ch : UInt8) (list : List ℕ) (m : Marks) :
    nextList assertion re text generation p ch list m =
      (list.flatMap fun q => if (re.heap.state q).type.reads re.flags.ignoreCase ch then
        (re.heap.state q).out1.toList else []).foldl (fun m t =>
          addState assertion re text generation p (re.heap.length + 1) (some t) m) m := by
  induction list generalizing m with
  | nil => rfl
  | cons q list ih =>
    rw [flatMap_cons, foldl_append, ← ih, nextList, foldl_cons, nextList]
    split
    · rw [foldl_option (addState assertion re text generation p (re.heap.length + 1))
        (addState_none _)]
    · rfl

section Following

variable (hf : Follower assertion bodies tests re text start final l S A U)

include hf

theorem Follower.within : ∀ q ∈ U, q ∈ S := fun q hq => ((hf.states q).mp hq).1

theorem Follower.start_mem : start ∈ U := (hf.states start).mpr ⟨hf.begins, hf.machine.start_mem⟩

theorem Follower.step {a : Option Letter} (hq : q ∈ U)
    (hstep : r ∈ (nfa bodies re.heap).step q a) : r ∈ U := by
  obtain ⟨hS, hA⟩ := (hf.states q).mp hq
  have hout := step_out hstep
  refine (hf.states r).mpr ⟨hf.ready.closed q hS r ?_, hf.machine.closed q hA r hout⟩
  simp only [nextStates, mem_append, Option.mem_toList]
  exact .inl hout

theorem Follower.stays (hq : q ∈ U)
    (h : Stays bodies re.flags.multiline text re.heap p q r) : r ∈ U := by
  rcases h with hstep | ⟨t, -, hstep⟩
  · exact hf.step hq hstep
  · exact hf.step hq hstep

theorem Follower.runs (h : Runs bodies re.flags.multiline text re.heap start i q p) : q ∈ U := by
  induction h with
  | refl => exact hf.start_mem
  | stay _ hstep ih => exact hf.stays ih hstep
  | move _ hstep ih =>
    obtain ⟨c, -, hstep⟩ := hstep
    exact hf.step ih hstep

theorem Follower.mem_nexts (hq : q ∈ U) (hp : p ≤ text.length) :
    r ∈ nexts assertion re text p q ↔ Stays bodies re.flags.multiline text re.heap p q r :=
  Voxlib.Regex.mem_nexts hf.asserted ((hf.states q).mp hq) hp

/-- What the search reaches is what is reached without reading. -/
theorem Follower.reach (hq : q ∈ U) (hp : p ≤ text.length) : Reach (nexts assertion re text p) q r ↔
      Relation.ReflTransGen (Stays bodies re.flags.multiline text re.heap p) q r := by
  constructor
  · intro h
    suffices hboth : r ∈ U ∧
        Relation.ReflTransGen (Stays bodies re.flags.multiline text re.heap p) q r from hboth.2
    induction h with
    | refl => exact ⟨hq, .refl⟩
    | tail _ hstep ih =>
      have hstay := (hf.mem_nexts ih.1 hp).mp hstep
      exact ⟨hf.stays ih.1 hstay, ih.2.tail hstay⟩
  · intro h
    suffices hboth : r ∈ U ∧ Reach (nexts assertion re text p) q r from hboth.2
    induction h with
    | refl => exact ⟨hq, .refl⟩
    | tail _ hstep ih => exact ⟨hf.stays ih.1 hstep, ih.2.tail ((hf.mem_nexts ih.1 hp).mpr hstep)⟩

theorem Follower.search (hp : p ≤ text.length) (hroots : ∀ t ∈ roots, t ∈ U)
    (hs : Shows re U generation m []) : ∃ seen, Shows re U generation (roots.foldl (fun m t =>
        addState assertion re text generation p (re.heap.length + 1) (some t) m) m) seen ∧
      ∀ q, q ∈ seen ↔ ∃ r ∈ roots,
        Relation.ReflTransGen (Stays bodies re.flags.multiline text re.heap p) r q := by
  have hclosed : ∀ q ∈ U, ∀ t ∈ Voxlib.Regex.nexts assertion re text p q, t ∈ U :=
    fun q hq t ht => hf.stays hq ((hf.mem_nexts hq hp).mp ht)
  have hvisited := visitAll_visited hclosed (Nat.lt_succ_of_le hf.card) hroots
  refine ⟨_, foldl_shows (fun t ht m seen hs =>
    addState_shows hf.ready hf.within hclosed (re.heap.length + 1) (hroots t ht) hs) hs, ?_⟩
  intro q
  rw [hvisited.mem_iff]
  exact exists_congr fun r => and_congr_right fun hr => hf.reach (hroots r hr) hp

/-- The marks show what the runs from `i` reach at `p`. -/
def Follows (_ : Follower assertion bodies tests re text start final l S A U) (i p : ℕ)
    (generation : UInt32) (m : Marks) : Prop :=
  ∃ seen, Shows re U generation m seen ∧
    ∀ q, q ∈ seen ↔ Runs bodies re.flags.multiline text re.heap start i q p

theorem Follower.first (hi : i ≤ text.length) : Follows hf i i 1
    (addState assertion re text 1 i (re.heap.length + 1) (some start)
      ⟨List.replicate re.stateCount 0, []⟩) := by
  have hshows : Shows re U 1 ⟨List.replicate re.stateCount 0, []⟩ [] := by
    refine ⟨length_replicate, fun q hq => ?_, fun x hx => ?_, rfl⟩
    · have hlt := hf.ready.idOf_lt (hf.within q hq)
      rw [getD_replicate _ hlt]
      exact iff_of_false (by decide) not_mem_nil
    · rw [eq_of_mem_replicate hx]
      decide
  have hroots : ∀ t ∈ [start], t ∈ U := fun t ht => mem_singleton.mp ht ▸ hf.start_mem
  obtain ⟨seen, hs, hmem⟩ := hf.search hi hroots hshows
  refine ⟨seen, hs, fun q => ?_⟩
  rw [hmem, Runs, run_same]
  simp

theorem Follower.next {gen : UInt32} (h : Follows hf i p gen m) (hi : i ≤ p) (hp : p < text.length)
    (hgen : gen < gen + 1) : Follows hf i (p + 1) (gen + 1)
      (nextList assertion re text (gen + 1) (p + 1) text[p] m.list ⟨m.visited, []⟩) := by
  obtain ⟨seen, hs, hmem⟩ := h
  have hshows : Shows re U (gen + 1) ⟨m.visited, []⟩ [] := by
    refine ⟨hs.size, fun q hq => iff_of_false (fun hmark => ?_) not_mem_nil,
      fun x hx => UInt32.le_of_lt (UInt32.lt_of_le_of_lt (hs.bound x hx) hgen), rfl⟩
    have hlt := hf.ready.idOf_lt (hf.within q hq)
    rw [← hs.size] at hlt
    rw [getD_eq_getElem _ _ hlt] at hmark
    have hold := hs.bound _ (getElem_mem hlt)
    rw [hmark] at hold
    exact absurd hgen (UInt32.not_lt.mpr hold)
  -- the roots are where the runs move to
  have hroot (t : ℕ) : (t ∈ m.list.flatMap fun q =>
      if (re.heap.state q).type.reads re.flags.ignoreCase text[p] then
        (re.heap.state q).out1.toList else []) ↔
      ∃ r, Runs bodies re.flags.multiline text re.heap start i r p ∧
        Moves bodies text re.heap p r t := by
    have hmoves (r : ℕ) : Moves bodies text re.heap p r t ↔
        (re.heap.node r).type.reads false text[p] = true ∧ (re.heap.node r).out1 = some t := by
      simp [Moves, mem_step_some, NfaStateType.accepts, List.getElem?_eq_getElem hp]
    rw [mem_flatMap, hf.plain]
    refine exists_congr fun r => ?_
    rw [mem_list hs, hmem, hmoves]
    change _ ∧ (t ∈ if (re.heap.node r).type.reads false text[p] then
      (re.heap.node r).out1.toList else []) ↔ _
    by_cases hread : (re.heap.node r).type.reads false text[p] = true
    · rw [if_pos hread, Option.mem_toList]
      simp [hread, reads_listed hread]
    · simp [hread]
  rw [nextList_eq]
  obtain ⟨next, hnext, hreach⟩ := hf.search (p := p + 1) hp (fun t ht => by
    obtain ⟨r, hrun, hmove⟩ := (hroot t).mp ht
    exact hf.runs (hrun.move hmove)) hshows
  refine ⟨next, hnext, fun q => ?_⟩
  rw [hreach, Runs, run_succ hi]
  simp only [hroot]
  constructor
  · rintro ⟨t, ⟨r, hrun, hmove⟩, hq⟩
    exact ⟨r, t, hrun, hmove, hq⟩
  · rintro ⟨r, t, hrun, hmove, hq⟩
    exact ⟨t, ⟨r, hrun, hmove⟩, hq⟩

/-- A list has a match state when the runs reach the end of the machine. -/
theorem Follower.found (h : Follows hf i p generation m) : hasMatchState re m.list = true ↔
    Runs bodies re.flags.multiline text re.heap start i final p := by
  obtain ⟨seen, hs, hmem⟩ := h
  have hfinal := hf.machine.matched
  rw [← hmem, hasMatchState, any_eq_true]
  constructor
  · rintro ⟨q, hq, hmatch⟩
    obtain ⟨hseen, -⟩ := (mem_list hs).mp hq
    have hA := ((hf.states q).mp (hf.runs ((hmem q).mp hseen))).2
    have htype : (re.heap.node q).type = .matched := of_decide_eq_true hmatch
    by_contra hne
    rcases hf.machine.types q hA (fun heq => hne (heq ▸ hseen)) with hplain | ⟨-, hno⟩
    · rw [htype] at hplain
      exact hplain
    · exact hno htype
  · intro hseen
    refine ⟨final, (mem_list hs).mpr ⟨hseen, ?_⟩, decide_eq_true hfinal⟩
    rw [hfinal]
    rfl

theorem Follower.list_ne_nil (h : Follows hf i p generation m) (hi : i ≤ p)
    {j : ℕ} (hj : p < j) (hrun : Runs bodies re.flags.multiline text re.heap start i q j) :
    m.list ≠ [] := by
  obtain ⟨seen, hs, hmem⟩ := h
  obtain ⟨r, t, hr, c, -, hstep⟩ := hrun.moved hi hj
  exact ne_nil_of_mem ((mem_list hs).mpr
    ⟨(hmem r).mpr hr, reads_listed (mem_step_some.mp hstep).1⟩)

/-- The loop finds a match when the runs reach the end of the machine somewhere. -/
theorem Follower.matchLoop_isSome (full : Bool) (rest : Bytes) (p : ℕ) (gen : UInt32) (m : Marks)
    (best : Option ℕ) (hrest : text.drop p = rest) (hi : i ≤ p) (hp : p ≤ text.length)
    (hgen : gen.toNat + rest.length < 2 ^ 32) (h : Follows hf i p gen m) :
    (matchLoop assertion re text full rest p gen m best).isSome = true ↔
      best.isSome = true ∨ ∃ j, p ≤ j ∧ j ≤ text.length ∧ (full = true → j = text.length) ∧
        Runs bodies re.flags.multiline text re.heap start i final j := by
  have hfound := hf.found h
  induction rest generalizing p gen m best with
  | nil =>
    have hend : text.length ≤ p := drop_eq_nil_iff.mp hrest
    rw [matchLoop]
    by_cases hmatch : hasMatchState re m.list = true
    · have hrun := hfound.mp hmatch
      simp only [hmatch, implies_true, and_self, if_true, ite_self, Option.isSome_some, true_iff]
      exact .inr ⟨p, le_rfl, hp, fun _ => by omega, hrun⟩
    · simp only [hmatch, Bool.false_eq_true, false_and, if_false]
      refine ⟨.inl, fun hor => hor.resolve_right ?_⟩
      rintro ⟨j, hj, hle, -, hrun⟩
      obtain rfl : j = p := by omega
      exact hmatch (hfound.mpr hrun)
  | cons ch rest ih =>
    have hlt : p < text.length := by
      by_contra hnot
      rw [drop_eq_nil_of_le (Nat.not_lt.mp hnot)] at hrest
      cases hrest
    rw [drop_eq_getElem_cons hlt, List.cons.injEq] at hrest
    obtain ⟨hch, hrest⟩ := hrest
    rw [length_cons] at hgen
    have hnext : (gen + 1).toNat = gen.toNat + 1 := by
      rw [UInt32.toNat_add]
      exact Nat.mod_eq_of_lt (by simp; omega)
    have hgrow : gen < gen + 1 := UInt32.lt_iff_toNat_lt.mpr (by omega)
    -- what the loop finds behind this position
    have hrec (best : Option ℕ) : (if m.list = [] then best else
        matchLoop assertion re text full rest (p + 1) (gen + 1)
          (nextList assertion re text (gen + 1) (p + 1) ch m.list ⟨m.visited, []⟩) best).isSome =
            true ↔
        best.isSome = true ∨ ∃ j, p + 1 ≤ j ∧ j ≤ text.length ∧ (full = true → j = text.length) ∧
          Runs bodies re.flags.multiline text re.heap start i final j := by
      by_cases hnil : m.list = []
      · rw [if_pos hnil]
        refine ⟨.inl, fun hor => hor.resolve_right ?_⟩
        rintro ⟨j, hj, -, -, hrun⟩
        exact hf.list_ne_nil h hi hj hrun hnil
      · rw [if_neg hnil]
        have hfollows := hf.next h hi hlt hgrow
        rw [hch] at hfollows
        exact ih (p + 1) (gen + 1) _ best hrest (by omega) hlt (by omega) hfollows
          (hf.found hfollows)
    rw [matchLoop]
    simp only [reduceCtorEq, imp_false]
    cases full with
    | true =>
      simp only [not_true_eq_false, and_false, if_false, false_and, hrec]
      refine or_congr_right (exists_congr fun j => ?_)
      constructor
      · rintro ⟨hj, hle, hfull, hrun⟩
        exact ⟨by omega, hle, hfull, hrun⟩
      · rintro ⟨hj, hle, hfull, hrun⟩
        have hend := hfull trivial
        exact ⟨by omega, hle, hfull, hrun⟩
    | false =>
      by_cases hmatch : hasMatchState re m.list = true
      · have hrun := hfound.mp hmatch
        have hright : ∃ j, p ≤ j ∧ j ≤ text.length ∧ (false = true → j = text.length) ∧
            Runs bodies re.flags.multiline text re.heap start i final j :=
          ⟨p, le_rfl, hp, nofun, hrun⟩
        refine iff_of_true ?_ (.inr hright)
        simp only [hmatch, Bool.false_eq_true, not_false_eq_true, and_self, if_true, true_and]
        split
        · rfl
        · exact (hrec (some p)).mpr (.inl rfl)
      · simp only [hmatch, Bool.false_eq_true, false_and, if_false, hrec]
        refine or_congr_right (exists_congr fun j => ?_)
        constructor
        · rintro ⟨hj, hle, hfull, hrun⟩
          exact ⟨by omega, hle, hfull, hrun⟩
        · rintro ⟨hj, hle, hfull, hrun⟩
          have hne : j ≠ p := by
            rintro rfl
            exact hmatch (hfound.mpr hrun)
          exact ⟨by omega, hle, hfull, hrun⟩

theorem Follower.matchWith_isSome (hstart : re.start = start) (hi : i ≤ text.length)
    (hlen : text.length + 1 < 2 ^ 32) (full : Bool) :
    (matchWith assertion re text i full).isSome = true ↔
      ∃ j, i ≤ j ∧ j ≤ text.length ∧ (full = true → j = text.length) ∧
        ∃ w ∈ l, Reads re.flags.multiline text i w j := by
  have hloop := hf.matchLoop_isSome full (text.drop i) i 1 _ none rfl le_rfl hi
    (by rw [length_drop]; simp; omega) (hf.first hi)
  rw [matchWith, hstart, hloop]
  simp only [Runs, runs_iff, hf.machine.lang, Option.isSome_none, Bool.false_eq_true, false_or]

end Following

theorem Ready.follower (hr : Ready re S) (hs : start ∈ S)
    (hm : Machine bodies tests re.heap start final A l)
    (ha : Asserted assertion bodies re.heap text (S ∩ A)) (hplain : re.flags.ignoreCase = false) :
    ∃ U, Follower assertion bodies tests re text start final l S A U := by
  classical
  refine ⟨(Finset.range re.heap.length).filter fun q => q ∈ S ∧ q ∈ A, hr, hs, hm, ha, fun q => ?_,
    ?_, hplain⟩
  · rw [Finset.mem_filter, Finset.mem_range]
    exact and_iff_right_of_imp fun hq => hr.range q hq.1
  · exact (Finset.card_filter_le _ _).trans_eq (Finset.card_range _)

theorem Machine.asserted {h : Heap} (hm : Machine bodies false h start final A l)
    (assertion : ℕ → ℕ → Bool → Bool) (text : Bytes) (S : Set ℕ) :
    Asserted assertion bodies h text (S ∩ A) := by
  intro q hq s hs
  rw [hm.body_none q hq.2] at hs
  cases hs

theorem exists_spelled {body : Language UInt8} {P : List Letter → Prop} :
    (∃ w ∈ spelled body, P w) ↔ ∃ w ∈ body, P (w.map .read) := by
  constructor
  · rintro ⟨_, ⟨w, hw, rfl⟩, hp⟩
    exact ⟨w, hw, hp⟩
  · rintro ⟨w, hw, hp⟩
    exact ⟨_, ⟨w, hw, rfl⟩, hp⟩

/-- verify_assertion finds the words of the body behind the position, or in front of it. -/
theorem verifyAssertion_iff (hr : Ready re S) (hs : start ∈ S) {body : Language UInt8}
    (hm : Machine bodies false re.heap start final A (spelled body))
    (hplain : re.flags.ignoreCase = false) (n : ℕ) (hp : p ≤ text.length)
    (hlen : text.length + 1 < 2 ^ 32) (behind : Bool) :
    verifyAssertion re (n + 1) text start p behind = true ↔ BodyAt text p body behind := by
  have htmp : Ready { re with start := start, groupCount := 0, hasNonGreedy := true } S :=
    ⟨hs, hr.range, hr.closed, hr.numbered, hr.distinct, hr.marked⟩
  cases behind with
  | false =>
    obtain ⟨U, hf⟩ := htmp.follower hs hm (hm.asserted (verifyAssertion re n text) text S) hplain
    rw [verifyAssertion, if_neg Bool.false_ne_true, hf.matchWith_isSome rfl hp hlen]
    simp only [exists_spelled, reads_spelled, BodyAt, Bool.false_eq_true, if_false, false_imp_iff,
      true_and]
    constructor
    · rintro ⟨j, -, -, w, hw, hpre, -⟩
      exact ⟨w, hw, hpre⟩
    · rintro ⟨w, hw, hpre⟩
      have hle := hpre.length_le
      rw [length_drop] at hle
      exact ⟨p + w.length, by omega, by omega, w, hw, hpre, rfl⟩
  | true =>
    have htake : (text.take p).length = p := length_take_of_le hp
    obtain ⟨U, hf⟩ := htmp.follower hs hm
      (hm.asserted (verifyAssertion re n (text.take p)) (text.take p) S) hplain
    rw [verifyAssertion, if_pos rfl, any_eq_true]
    simp only [mem_reverse, mem_range]
    have hmatch (i : ℕ) (hi : i < p + 1) := hf.matchWith_isSome (i := i) rfl
      (by rw [htake]; omega) (by rw [htake]; omega) true
    simp only [exists_spelled, reads_spelled, htake, forall_const] at hmatch
    rw [BodyAt, if_pos rfl]
    have hpart (w : Bytes) (i : ℕ) (hi : i + w.length = p) :
        w <+: (text.take p).drop i ↔ w <+: text.drop i := by
      rw [drop_take, prefix_take_iff]
      exact and_iff_left (by omega)
    constructor
    · rintro ⟨i, hi, hsome⟩
      obtain ⟨j, -, -, hj, w, hw, hpre, hlast⟩ := (hmatch i hi).mp hsome
      exact ⟨w, hw, i, by omega, (hpart w i (by omega)).mp hpre⟩
    · rintro ⟨w, hw, i, hi, hpre⟩
      refine ⟨i, by omega, (hmatch i (by omega)).mpr ⟨p, by omega, le_rfl, rfl, w, hw, ?_⟩⟩
      exact ⟨(hpart w i hi).mpr hpre, hi.symm⟩

theorem regexMatch_iff (hr : Ready re S) (hw : Whole bodies tests re.heap re.start l)
    (hplain : re.flags.ignoreCase = false) (hlen : text.length + 1 < 2 ^ 32) :
    regexMatch re text = true ↔ ∃ w ∈ l, Reads re.flags.multiline text 0 w text.length := by
  obtain ⟨final, A, hm, hbodies⟩ := hw
  have hpos := hr.range re.start hr.start
  obtain ⟨n, hn⟩ := Nat.exists_eq_add_one_of_ne_zero (Nat.ne_of_gt (Nat.zero_lt_of_lt hpos))
  have hasserted : Asserted (verifyAssertion re re.heap.length text) bodies re.heap text
    (S ∩ A) := by
    intro q hq s hs p hp behind
    obtain ⟨final, B, hbody⟩ := hbodies q hq.2 s hs
    have hsS : s ∈ S := hr.closed q hq.1 s (mem_append_right _ (by rw [hs]; simp))
    rw [hn]
    exact verifyAssertion_iff hr hsS hbody hplain n hp hlen behind
  obtain ⟨U, hf⟩ := hr.follower hr.start hm hasserted hplain
  rw [regexMatch, hf.matchWith_isSome rfl (Nat.zero_le _) hlen]
  constructor
  · rintro ⟨j, -, -, hj, hw⟩
    rwa [hj rfl] at hw
  · intro hw
    exact ⟨text.length, Nat.zero_le _, le_rfl, fun _ => rfl, hw⟩

end Voxlib.Regex
