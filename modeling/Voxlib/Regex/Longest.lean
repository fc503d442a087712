import Voxlib.Regex.Literal

/-!
# The end of a match (vox_regex.c)

The loop keeps the last end of a match, or the first where the scan saw a question mark behind a
quantifier, escaped or not.
-/

namespace Voxlib.Regex
open CStr

def NfaStateType.isTest : NfaStateType → Bool
  | .anchorStart | .anchorEnd | .wordBoundary | .lookahead .. | .lookbehind .. => true
  | _ => false

def NoTests (h : Heap) : Prop := ∀ s ∈ h, s.type.isTest = false

instance (h : Heap) : Decidable (NoTests h) := inferInstanceAs (Decidable (∀ s ∈ h, _))

/-- A match from `p` ends at `j`: the matcher accepts the text between them as a whole. -/
structure VoxRegex.Ends (re : VoxRegex) (text : Bytes) (p j : ℕ) : Prop where
  start_le : p ≤ j
  le_length : j ≤ text.length
  accepts : (matchWith (verifyAssertion re re.heap.length (text.take j)) re (text.take j) p
    true).isSome = true

section Lists

variable {assertion assertion' : ℕ → ℕ → Bool → Bool} {re : VoxRegex} {text text' : Bytes}
  {generation : UInt32} {pos p e k : ℕ} {m : Marks} {rest : Bytes} {best : Option ℕ}

theorem NoTests.state {h : Heap} (hh : NoTests h) (q : ℕ) : (h.state q).type.isTest = false := by
  by_cases hq : q < h.length
  · rw [Heap.state, List.getD_eq_getElem _ _ hq]
    exact hh _ (List.getElem_mem hq)
  · rw [Heap.state, List.getD_eq_default _ _ (Nat.not_lt.mp hq)]
    rfl

/-- Without tests, what add_state finds does not depend on the text. -/
theorem addState_congr (hh : NoTests re.heap) (n : ℕ) (o : Option ℕ) (m : Marks) :
    addState assertion re text generation pos n o m =
      addState assertion' re text' generation pos n o m := by
  induction n generalizing o m with
  | zero => rfl
  | succ n ih =>
    cases o with
    | none => rfl
    | some q =>
      have htest := hh.state q
      rw [addState, addState]
      dsimp only
      split
      · rfl
      · cases htype : (re.heap.state q).type with
        | split =>
          dsimp only
          rw [ih, ih]
        | matched | char | charset =>
          dsimp only
          rw [ih]
        | _ =>
          rw [htype] at htest
          cases htest

theorem nextList_congr (hh : NoTests re.heap) (ch : UInt8) (list : List ℕ) (m : Marks) :
    nextList assertion re text generation pos ch list m =
      nextList assertion' re text' generation pos ch list m := by
  unfold nextList
  congr
  funext m q
  split
  · exact addState_congr hh ..
  · rfl

theorem matchLoop_congr (hh : NoTests re.heap) (full : Bool) (rest : Bytes) (pos : ℕ)
    (gen : UInt32) (m : Marks) (best : Option ℕ) :
    matchLoop assertion re text full rest pos gen m best =
      matchLoop assertion' re text' full rest pos gen m best := by
  induction rest generalizing pos gen m best with
  | nil => rfl
  | cons ch rest ih =>
    rw [matchLoop, matchLoop, ih, nextList_congr hh]

/- The loop accepts the next `k` bytes as a whole. -/
def acceptsNext (assertion : ℕ → ℕ → Bool → Bool) (re : VoxRegex) (text rest : Bytes) (pos : ℕ)
    (gen : UInt32) (m : Marks) (k : ℕ) : Prop :=
  (matchLoop assertion re text true (rest.take k) pos gen m none).isSome = true

theorem acceptsNext_zero : acceptsNext assertion re text rest pos generation m 0 ↔
    hasMatchState re m.list = true := by
  rw [acceptsNext, List.take_zero, matchLoop]
  by_cases hfound : hasMatchState re m.list = true
  · simp [hfound]
  · simp [hfound]

theorem acceptsNext_succ (ch : UInt8) :
    acceptsNext assertion re text (ch :: rest) pos generation m (k + 1) ↔ m.list ≠ [] ∧
      acceptsNext assertion re text rest (pos + 1) (generation + 1)
        (nextList assertion re text (generation + 1) (pos + 1) ch m.list ⟨m.visited, []⟩) k := by
  rw [acceptsNext, List.take_succ_cons, matchLoop]
  by_cases hnil : m.list = []
  · simp [hnil]
  · simp [hnil, acceptsNext]

theorem not_acceptsNext_nil (hnil : m.list = []) (k : ℕ) :
    ¬ acceptsNext assertion re text rest pos generation m k := by
  rw [acceptsNext, matchLoop_nil hnil]
  exact nofun

/-- A loop that is not to stop early keeps the last end. -/
theorem matchLoop_last (hgreedy : re.hasNonGreedy = false)
    (h : matchLoop assertion re text false rest pos generation m best = some e) :
    (∃ k ≤ rest.length, e = pos + k ∧ acceptsNext assertion re text rest pos generation m k ∧
      ∀ j ≤ rest.length, acceptsNext assertion re text rest pos generation m j → j ≤ k) ∨
    best = some e ∧ ∀ j ≤ rest.length, ¬ acceptsNext assertion re text rest pos generation m j := by
  induction rest generalizing pos generation m best with
  | nil =>
    rw [matchLoop] at h
    by_cases hfound : hasMatchState re m.list = true
    · simp only [hfound, hgreedy, Bool.false_eq_true, false_imp_iff, and_self, and_false,
        if_true, if_false, Option.some.injEq] at h
      exact .inl ⟨0, le_rfl, h.symm, acceptsNext_zero.mpr hfound, fun j hj _ => hj⟩
    · simp only [hfound, Bool.false_eq_true, false_and, if_false] at h
      refine .inr ⟨h, fun j hj => ?_⟩
      obtain rfl := Nat.le_zero.mp hj
      rwa [acceptsNext_zero]
  | cons ch rest ih =>
    rw [matchLoop] at h
    simp only [hgreedy, Bool.false_eq_true, and_false, if_false, false_imp_iff, and_true] at h
    by_cases hnil : m.list = []
    · have hfound : ¬ hasMatchState re m.list = true := by
        rw [hnil]
        exact Bool.false_ne_true
      rw [if_pos hnil, if_neg hfound] at h
      exact .inr ⟨h, fun j _ => not_acceptsNext_nil hnil j⟩
    · rw [if_neg hnil] at h
      rcases ih h with ⟨k, hk, rfl, hacc, hmax⟩ | ⟨hbest, hnone⟩
      · refine .inl ⟨k + 1, Nat.succ_le_succ hk, by omega, (acceptsNext_succ ch).mpr ⟨hnil, hacc⟩,
          fun j hj hj' => ?_⟩
        rcases j with _ | j
        · exact Nat.zero_le _
        · exact Nat.succ_le_succ (hmax j (Nat.le_of_succ_le_succ hj)
            ((acceptsNext_succ ch).mp hj').2)
      · -- nothing is found behind this position
        have hlater (j : ℕ) (hj : j + 1 ≤ (ch :: rest).length) :
            ¬ acceptsNext assertion re text (ch :: rest) pos generation m (j + 1) := fun hacc =>
          hnone j (Nat.le_of_succ_le_succ hj) ((acceptsNext_succ ch).mp hacc).2
        by_cases hfound : hasMatchState re m.list = true
        · rw [if_pos hfound, Option.some.injEq] at hbest
          refine .inl ⟨0, Nat.zero_le _, hbest.symm, acceptsNext_zero.mpr hfound,
            fun j hj hacc => ?_⟩
          rcases j with _ | j
          · exact le_rfl
          · exact absurd hacc (hlater j hj)
        · rw [if_neg hfound] at hbest
          refine .inr ⟨hbest, fun j hj hacc => ?_⟩
          rcases j with _ | j
          · exact hfound (acceptsNext_zero.mp hacc)
          · exact hlater j hj hacc

/-- A loop that stops early returns the first end. -/
theorem matchLoop_first (hlazy : re.hasNonGreedy = true)
    (h : matchLoop assertion re text false rest pos generation m none = some e) :
    ∃ k ≤ rest.length, e = pos + k ∧ acceptsNext assertion re text rest pos generation m k ∧
      ∀ j < k, ¬ acceptsNext assertion re text rest pos generation m j := by
  induction rest generalizing pos generation m with
  | nil =>
    rw [matchLoop] at h
    by_cases hfound : hasMatchState re m.list = true
    · have he : pos = e := by simpa [hfound, hlazy] using h
      exact ⟨0, le_rfl, he.symm, acceptsNext_zero.mpr hfound, fun j hj => absurd hj
        (Nat.not_lt_zero j)⟩
    · simp [hfound] at h
  | cons ch rest ih =>
    rw [matchLoop] at h
    by_cases hfound : hasMatchState re m.list = true
    · have he : pos = e := by simpa [hfound, hlazy] using h
      exact ⟨0, Nat.zero_le _, he.symm, acceptsNext_zero.mpr hfound, fun j hj => absurd hj
        (Nat.not_lt_zero j)⟩
    · simp only [hfound, Bool.false_eq_true, false_and, if_false] at h
      by_cases hnil : m.list = []
      · rw [if_pos hnil] at h
        cases h
      · rw [if_neg hnil] at h
        obtain ⟨k, hk, rfl, hacc, hmin⟩ := ih h
        refine ⟨k + 1, Nat.succ_le_succ hk, by omega, (acceptsNext_succ ch).mpr ⟨hnil, hacc⟩,
          fun j hj hj' => ?_⟩
        rcases j with _ | j
        · exact hfound (acceptsNext_zero.mp hj')
        · exact hmin j (Nat.lt_of_succ_lt_succ hj) ((acceptsNext_succ ch).mp hj').2

theorem ends_iff (hh : NoTests re.heap) (k : ℕ) (hk : p + k ≤ text.length) :
    re.Ends text p (p + k) ↔ acceptsNext (verifyAssertion re re.heap.length text) re text
      (text.drop p) p 1 (addState (verifyAssertion re re.heap.length text) re text 1 p
        (re.heap.length + 1) (some re.start) ⟨List.replicate re.stateCount 0, []⟩) k := by
  have hdrop : (text.take (p + k)).drop p = (text.drop p).take k := by
    rw [List.drop_take, Nat.add_sub_cancel_left]
  have hmatch : matchWith (verifyAssertion re re.heap.length (text.take (p + k))) re
      (text.take (p + k)) p true = matchLoop (verifyAssertion re re.heap.length text) re text true
      ((text.drop p).take k) p 1 (addState (verifyAssertion re re.heap.length text) re text 1 p
        (re.heap.length + 1) (some re.start) ⟨List.replicate re.stateCount 0, []⟩) none := by
    rw [matchWith, hdrop, addState_congr hh, matchLoop_congr hh]
  rw [acceptsNext, ← hmatch]
  exact ⟨fun h => h.accepts, fun h => ⟨Nat.le_add_right p k, hk, h⟩⟩

theorem VoxRegex.Ends.exists_add {j : ℕ} (h : re.Ends text p j) :
    ∃ k, j = p + k ∧ k ≤ (text.drop p).length := by
  have := h.start_le
  have := h.le_length
  exact ⟨j - p, by omega, by rw [List.length_drop]; omega⟩

theorem matchAt_ends (hh : NoTests re.heap) (hp : p ≤ text.length)
    (h : re.matchAt text p = some e) : re.Ends text p e ∧
      ∀ j, re.Ends text p j → if re.hasNonGreedy then e ≤ j else j ≤ e := by
  have hlen : (text.drop p).length = text.length - p := List.length_drop
  cases hlazy : re.hasNonGreedy with
  | false =>
    rcases matchLoop_last hlazy h with ⟨k, hk, rfl, hacc, hmax⟩ | ⟨hnone, -⟩
    · refine ⟨(ends_iff hh k (by omega)).mpr hacc, fun j hj => ?_⟩
      obtain ⟨i, rfl, hi⟩ := hj.exists_add
      rw [if_neg Bool.false_ne_true]
      exact Nat.add_le_add_left (hmax i hi ((ends_iff hh i hj.le_length).mp hj)) p
    · cases hnone
  | true =>
    obtain ⟨k, hk, rfl, hacc, hmin⟩ := matchLoop_first hlazy h
    refine ⟨(ends_iff hh k (by omega)).mpr hacc, fun j hj => ?_⟩
    obtain ⟨i, rfl, hi⟩ := hj.exists_add
    rw [if_pos rfl]
    by_contra hlt
    exact hmin i (by omega) ((ends_iff hh i hj.le_length).mp hj)

end Lists

/-- The match from `p` ends as far behind as any match from there. -/
def Longest (re : VoxRegex) (text : Bytes) (p last : ℕ) : Prop :=
  re.Ends text p last ∧ ∀ j, re.Ends text p j → j ≤ last

theorem compile_nonGreedy {pattern : Bytes} {flags : Flags} {re : VoxRegex}
    (h : compile pattern flags = some (some re)) : re.hasNonGreedy = nonGreedyLoop 0 pattern := by
  rw [compile] at h
  obtain ⟨⟨frag, s⟩, -, h⟩ := Option.bind_eq_some_iff.mp h
  cases frag with
  | none => cases h
  | some frag =>
    dsimp only at h
    split at h
    · cases h
    · cases h
      rfl

/-- What vox_regex_search reports is the longest match from its start, if and only if the scan of
the pattern sees no question mark behind a quantifier character, or all matches from there have one
end. -/
theorem search_longest_iff (alloc : ℕ → Bool) (pattern : Bytes) (flags : Flags) (s : Searcher)
    (hs : compileSearcher alloc pattern flags = some (some s)) (htests : NoTests s.regex.heap)
    (text : Bytes) (start p last : ℕ) (hsearch : s.search text start = some (p, last)) :
    Longest s.regex text p last ↔ nonGreedyLoop 0 pattern = false ∨
      ∀ i j, s.regex.Ends text p i → s.regex.Ends text p j → i = j := by
  obtain ⟨hleft, -⟩ := (compileSearcher_sound hs text).searchLoop_some hsearch
  obtain ⟨hend, hother⟩ := matchAt_ends htests hleft.le_length hleft.found
  have hscan : s.regex.hasNonGreedy = nonGreedyLoop 0 pattern := by
    obtain ⟨out, hcompile, hs⟩ := Option.bind_eq_some_iff.mp hs
    rcases out with _ | re
    · cases hs
    obtain ⟨lead, -, hs⟩ := Option.bind_eq_some_iff.mp hs
    cases hs
    exact compile_nonGreedy hcompile
  rw [hscan] at hother
  cases hlazy : nonGreedyLoop 0 pattern with
  | false =>
    simp only [hlazy, Bool.false_eq_true, if_false] at hother
    exact iff_of_true ⟨hend, hother⟩ (.inl rfl)
  | true =>
    simp only [hlazy, if_true] at hother
    constructor
    · rintro ⟨-, hmax⟩
      have hone (j : ℕ) (hj : s.regex.Ends text p j) : j = last :=
        Nat.le_antisymm (hmax j hj) (hother j hj)
      exact .inr fun i j hi hj => (hone i hi).trans (hone j hj).symm
    · rintro (hfalse | hone)
      · cases hfalse
      · exact ⟨hend, fun j hj => (hone j last hj hend).le⟩

theorem star_searcher : ∃ s, compileSearcher (fun _ => true) [92, 42, 63] {} = some (some s) ∧
    NoTests s.regex.heap ∧ s.search [42] 0 = some (0, 0) ∧ s.regex.Ends [42] 0 1 := by
  have hrun : (compileSearcher (fun _ => true) [92, 42, 63] {}).join.map (fun s =>
      (decide (NoTests s.regex.heap), s.search [42] 0,
        (matchWith (verifyAssertion s.regex s.regex.heap.length [42]) s.regex [42] 0
          true).isSome)) = some (true, some (0, 0), true) := by decide +kernel
  obtain ⟨s, hs, hvalues⟩ := Option.map_eq_some_iff.mp hrun
  simp only [Prod.mk.injEq, decide_eq_true_eq] at hvalues
  obtain ⟨htests, hsearch, haccepts⟩ := hvalues
  exact ⟨s, Option.join_eq_some_iff.mp hs, htests, hsearch, by decide, by decide, haccepts⟩

theorem search_longest_star : ∃ s, compileSearcher (fun _ => true) [92, 42, 63] {} = some (some s) ∧
    (Longest s.regex [42] 0 0 ↔ nonGreedyLoop 0 [92, 42, 63] = false ∨
      ∀ i j, s.regex.Ends [42] 0 i → s.regex.Ends [42] 0 j → i = j) := by
  obtain ⟨s, hs, htests, hsearch, -⟩ := star_searcher
  exact ⟨s, hs, search_longest_iff (fun _ => true) [92, 42, 63] {} s hs htests [42] 0 0 0 hsearch⟩

/-- An escaped star with a question mark is taken for a lazy quantifier. -/
theorem search_shortens_star : ∃ s,
    compileSearcher (fun _ => true) [92, 42, 63] {} = some (some s) ∧ NoTests s.regex.heap ∧
      s.search [42] 0 = some (0, 0) ∧ ¬ Longest s.regex [42] 0 0 := by
  obtain ⟨s, hs, htests, hsearch, hends⟩ := star_searcher
  refine ⟨s, hs, htests, hsearch, ?_⟩
  rintro ⟨-, hmax⟩
  exact absurd (hmax 1 hends) (by decide)

end Voxlib.Regex
