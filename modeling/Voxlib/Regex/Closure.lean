import Voxlib.Regex.Texts

/-!
# Closures

add_state is a depth-first search along the steps that read nothing.
-/

namespace Voxlib.Regex
open CStr Automaton Visit Layers List

def NfaStateType.listed : NfaStateType → Bool
  | .matched | .char _ | .charset _ => true
  | _ => false

section Steps

variable (assertion : ℕ → ℕ → Bool → Bool) (re : VoxRegex) (text : Bytes) (pos : ℕ)

/- A state through which add_state goes on. -/
def NfaStateType.allows : NfaStateType → Bool
  | .split => true
  | .anchorStart => pos = 0 ∨ (re.flags.multiline ∧ isEol (text.getD (pos - 1) 0))
  | .anchorEnd =>
    pos = text.length ∨ (re.flags.multiline ∧ pos < text.length ∧ isEol (text.getD pos 0))
  | .wordBoundary =>
    (pos > 0 && isWordChar (text.getD (pos - 1) 0)) ≠
      (pos < text.length && isWordChar (text.getD pos 0))
  | .lookahead negative start => assertion start pos false = !negative
  | .lookbehind negative start => assertion start pos true = !negative
  | _ => false

/- The states that add_state comes to from a state. -/
def nexts (q : ℕ) : List ℕ :=
  if (re.heap.node q).type.allows assertion re text pos then
    (re.heap.node q).out1.toList ++
      if (re.heap.node q).type = .split then (re.heap.node q).out2.toList else []
  else []

end Steps

variable {assertion : ℕ → ℕ → Bool → Bool} {re : VoxRegex} {text : Bytes} {pos n q : ℕ}
  {generation : UInt32} {m : Marks}

theorem addState_none (n : ℕ) (m : Marks) :
    addState assertion re text generation pos n none m = m := by
  cases n <;> rfl

theorem foldl_option (f : Option ℕ → Marks → Marks) (hf : ∀ m, f none m = m) (o : Option ℕ)
    (m : Marks) : o.toList.foldl (fun m t => f (some t) m) m = f o m := by
  cases o with
  | none => exact (hf m).symm
  | some t => rfl

theorem addState_marked (hmark : m.visited.getD ((re.heap.state q).id.getD 0) 0 = generation) :
    addState assertion re text generation pos n (some q) m = m := by
  cases n with
  | zero => rfl
  | succ n => exact if_pos hmark

/-- A state that is not marked is marked, and then it is put on the list, or the search goes on
behind it. -/
theorem addState_fresh (hm : Marked re.heap)
    (hmark : m.visited.getD ((re.heap.state q).id.getD 0) 0 ≠ generation) :
    addState assertion re text generation pos (n + 1) (some q) m =
      let visited := m.visited.set ((re.heap.state q).id.getD 0) generation
      if (re.heap.node q).type.listed then ⟨visited, m.list ++ [q]⟩
      else (nexts assertion re text pos q).foldl
        (fun m t => addState assertion re text generation pos n (some t) m) ⟨visited, m.list⟩ := by
  have hgo (m : Marks) (o : Option ℕ) :
      o.toList.foldl (fun m t => addState assertion re text generation pos n (some t) m) m =
        addState assertion re text generation pos n o m :=
    foldl_option (addState assertion re text generation pos n) (addState_none n) o m
  have hnode : (re.heap.node q).type = (re.heap.state q).type := rfl
  -- only choices are marked for groups
  have hgroup (hne : (re.heap.state q).type ≠ .split) : (re.heap.state q).groupId = none := by
    by_contra hid
    exact hne (hm q hid)
  rw [addState]
  dsimp only
  rw [if_neg hmark, nexts, hnode]
  cases htype : (re.heap.state q).type with
  | split =>
    simp only [NfaStateType.listed, NfaStateType.allows, if_true, foldl_append, hgo]
    rfl
  | matched | char | charset =>
    have hnone := hgroup (by rw [htype]; exact nofun)
    simp only [NfaStateType.listed, hnone, Option.isSome_none, Bool.false_eq_true, false_and,
      if_true, if_false]
  | _ =>
    have hnone := hgroup (by rw [htype]; exact nofun)
    simp only [NfaStateType.listed, NfaStateType.allows, hnone, Option.isSome_none,
      Bool.false_eq_true, false_and, if_false, reduceCtorEq, append_nil, decide_eq_true_eq,
      apply_ite (List.foldl _ _), foldl_nil, hgo]
    rfl

def VoxRegex.idOf (re : VoxRegex) (q : ℕ) : ℕ := (re.heap.state q).id.getD 0

variable {S : Set ℕ} {U : Finset ℕ} {seen : List ℕ}

theorem Ready.idOf_lt (hr : Ready re S) (hq : q ∈ S) : re.idOf q < re.stateCount := by
  obtain ⟨i, hi, hid⟩ := hr.numbered q hq
  rw [VoxRegex.idOf, hid]
  exact hi

theorem Ready.idOf_inj (hr : Ready re S) {p : ℕ} (hp : p ∈ S) (hq : q ∈ S)
    (heq : re.idOf p = re.idOf q) : p = q := by
  obtain ⟨i, -, hi⟩ := hr.numbered p hp
  obtain ⟨j, -, hj⟩ := hr.numbered q hq
  rw [VoxRegex.idOf, VoxRegex.idOf, hi, hj] at heq
  exact hr.distinct p hp q hq (by rw [hi, hj]; exact congrArg some heq)

/-- The states in `seen` are marked, and the list holds those of them that belong there. -/
structure Shows (re : VoxRegex) (U : Finset ℕ) (generation : UInt32) (m : Marks) (seen : List ℕ) :
    Prop where
  size : m.visited.length = re.stateCount
  marks : ∀ q ∈ U, m.visited.getD (re.idOf q) 0 = generation ↔ q ∈ seen
  bound : ∀ x ∈ m.visited, x ≤ generation
  list : m.list = seen.filter fun q => (re.heap.node q).type.listed

theorem Shows.mark (hs : Shows re U generation m seen) (hr : Ready re S) (hU : ∀ q ∈ U, q ∈ S)
    (hq : q ∈ U) : Shows re U generation ⟨m.visited.set (re.idOf q) generation,
        m.list ++ [q].filter fun q => (re.heap.node q).type.listed⟩ (seen ++ [q]) where
  size := (length_set ..).trans hs.size
  marks p hp := by
    dsimp only
    rw [mem_append, mem_singleton, getD_eq_getElem?_getD, List.getElem?_set]
    by_cases heq : p = q
    · have hlt := hr.idOf_lt (hU q hq)
      rw [← hs.size] at hlt
      simp [heq, hlt]
    · have hne : re.idOf q ≠ re.idOf p := fun h => heq (hr.idOf_inj (hU q hq) (hU p hp) h).symm
      rw [if_neg hne, ← getD_eq_getElem?_getD, hs.marks p hp]
      simp [heq]
  bound x hx := by
    rcases mem_or_eq_of_mem_set hx with hx | rfl
    · exact hs.bound x hx
    · exact UInt32.le_refl x
  list := by rw [filter_append, hs.list]

theorem foldl_shows {f : Marks → ℕ → Marks} {g : List ℕ → ℕ → List ℕ} {ts : List ℕ}
    (hf : ∀ t ∈ ts, ∀ m seen, Shows re U generation m seen →
      Shows re U generation (f m t) (g seen t)) (hs : Shows re U generation m seen) :
    Shows re U generation (ts.foldl f m) (ts.foldl g seen) := by
  induction ts generalizing m seen with
  | nil => exact hs
  | cons t ts ih =>
    exact ih (fun r hr => hf r (mem_cons_of_mem t hr)) (hf t (mem_cons_self ..) m seen hs)

theorem nexts_listed (h : (re.heap.node q).type.listed = true) :
    nexts assertion re text pos q = [] := by
  have hstop : (re.heap.node q).type.allows assertion re text pos = false := by
    cases htype : (re.heap.node q).type <;> rw [htype] at h <;> first | rfl | cases h
  rw [nexts, hstop]
  rfl

/-- add_state is a depth-first search. -/
theorem addState_shows (hr : Ready re S) (hU : ∀ q ∈ U, q ∈ S)
    (hclosed : ∀ q ∈ U, ∀ t ∈ nexts assertion re text pos q, t ∈ U) (n : ℕ) (hq : q ∈ U)
    (hs : Shows re U generation m seen) :
    Shows re U generation (addState assertion re text generation pos n (some q) m)
      (visit (nexts assertion re text pos) n q seen) := by
  induction n generalizing q m seen with
  | zero => exact hs
  | succ n ih =>
    by_cases hmem : q ∈ seen
    · rw [addState_marked ((hs.marks q hq).mpr hmem), visit, if_pos hmem]
      exact hs
    · have hmark := hs.mark hr hU hq
      rw [addState_fresh hr.marked fun h => hmem ((hs.marks q hq).mp h), visit, if_neg hmem]
      dsimp only
      by_cases hlisted : (re.heap.node q).type.listed = true
      · rw [if_pos hlisted, nexts_listed hlisted]
        rw [filter_singleton, hlisted] at hmark
        exact hmark
      · rw [if_neg hlisted]
        rw [filter_singleton, Bool.eq_false_iff.mpr hlisted, cond_false,
          append_nil] at hmark
        exact foldl_shows (fun t ht m seen hs => ih (hclosed q hq t ht) hs) hmark

variable {bodies : Bodies} {A : Set ℕ}

/-- verify_assertion finds the bodies of the assertions in `A`. -/
def Asserted (assertion : ℕ → ℕ → Bool → Bool) (bodies : Bodies) (h : Heap) (text : Bytes)
    (A : Set ℕ) : Prop :=
  ∀ q ∈ A, ∀ s, (h.node q).type.body = some s → ∀ pos ≤ text.length, ∀ behind,
    assertion s pos behind = true ↔ BodyAt text pos (bodies s) behind

theorem eolAt_iff {i : ℕ} (hi : i < text.length) : EolAt text i ↔ isEol (text.getD i 0) = true := by
  rw [EolAt, List.getElem?_eq_getElem hi, getD_eq_getElem text 0 hi]
  simp

theorem wordAt_iff {i : ℕ} (hi : i < text.length) :
    WordAt text i ↔ isWordChar (text.getD i 0) = true := by
  rw [WordAt, List.getElem?_eq_getElem hi, getD_eq_getElem text 0 hi]
  simp

theorem not_wordAt {i : ℕ} (hi : text.length ≤ i) : ¬ WordAt text i := by
  rw [WordAt, List.getElem?_eq_none hi]
  simp

theorem allows_iff (ha : Asserted assertion bodies re.heap text A) (hq : q ∈ A)
    (hpos : pos ≤ text.length) : (re.heap.node q).type.allows assertion re text pos = true ↔
      (re.heap.node q).type = .split ∨ ∃ t, (re.heap.node q).type.test bodies = some t ∧
        t.Holds re.flags.multiline text pos := by
  have hlook := ha q hq
  cases htype : (re.heap.node q).type with
  | split => simp [NfaStateType.allows]
  | matched | char | charset => simp [NfaStateType.allows, NfaStateType.test]
  | anchorStart =>
    simp only [NfaStateType.allows, NfaStateType.test, decide_eq_true_eq, reduceCtorEq, false_or,
      Option.some.injEq, exists_eq_left', Test.Holds]
    by_cases hzero : pos = 0
    · simp [hzero]
    · rw [eolAt_iff (by omega)]
  | anchorEnd =>
    simp only [NfaStateType.allows, NfaStateType.test, decide_eq_true_eq, reduceCtorEq, false_or,
      Option.some.injEq, exists_eq_left', Test.Holds]
    by_cases hend : pos = text.length
    · simp [hend]
    · have hlt : pos < text.length := by omega
      simp [hlt, eolAt_iff hlt]
  | wordBoundary =>
    simp only [NfaStateType.allows, NfaStateType.test, decide_eq_true_eq, reduceCtorEq, false_or,
      Option.some.injEq, exists_eq_left', Test.Holds]
    have hleft : (0 < pos ∧ WordAt text (pos - 1)) ↔
        (decide (pos > 0) && isWordChar (text.getD (pos - 1) 0)) = true := by
      by_cases hzero : 0 < pos
      · simp [hzero, wordAt_iff (show pos - 1 < text.length by omega)]
      · simp [hzero]
    have hright : WordAt text pos ↔
        (decide (pos < text.length) && isWordChar (text.getD pos 0)) = true := by
      by_cases hlt : pos < text.length
      · simp [hlt, wordAt_iff hlt]
      · simp [hlt, not_wordAt (Nat.not_lt.mp hlt)]
    rw [hleft, hright, ← Bool.eq_iff_iff]
  | lookahead negative s =>
    have hbody := hlook s (by rw [htype]; rfl) pos hpos false
    simp only [NfaStateType.allows, NfaStateType.test, decide_eq_true_eq, reduceCtorEq, false_or,
      Option.some.injEq, exists_eq_left', Test.Holds, ← hbody]
    cases assertion s pos false <;> cases negative <;> decide
  | lookbehind negative s =>
    have hbody := hlook s (by rw [htype]; rfl) pos hpos true
    simp only [NfaStateType.allows, NfaStateType.test, decide_eq_true_eq, reduceCtorEq, false_or,
      Option.some.injEq, exists_eq_left', Test.Holds, ← hbody]
    cases assertion s pos true <;> cases negative <;> decide

theorem mem_nexts (ha : Asserted assertion bodies re.heap text A) (hq : q ∈ A)
    (hpos : pos ≤ text.length) {r : ℕ} : r ∈ nexts assertion re text pos q ↔
      Stays bodies re.flags.multiline text re.heap pos q r := by
  have hallows := allows_iff ha hq hpos
  rw [Stays, mem_step_none]
  simp only [mem_step_some, NfaStateType.accepts]
  rw [nexts]
  by_cases hgo : (re.heap.node q).type.allows assertion re text pos = true
  · rw [if_pos hgo, mem_append, Option.mem_toList]
    rcases hallows.mp hgo with hsplit | ⟨t, htest, ht⟩
    · rw [hsplit]
      simp [NfaStateType.test]
    · have hne : (re.heap.node q).type ≠ .split := by
        intro h
        rw [h] at htest
        cases htest
      simp only [hne, if_false, not_mem_nil, or_false, false_and, false_or]
      constructor
      · intro hr
        exact ⟨t, ht, htest, hr⟩
      · intro h
        obtain ⟨_, _, _, hr⟩ := h
        exact hr
  · rw [if_neg hgo]
    refine iff_of_false not_mem_nil ?_
    rintro (⟨hsplit, -⟩ | ⟨t, ht, htest, -⟩)
    · exact hgo (hallows.mpr (.inl hsplit))
    · exact hgo (hallows.mpr (.inr ⟨t, htest, ht⟩))

end Voxlib.Regex
