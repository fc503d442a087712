import Mathlib.Data.List.TakeWhile
import Voxlib.Regex

/-!
# Searching (vox_regex.c)
-/

namespace Voxlib.Regex
open CStr List Option

def literalMax : ℕ := 255

/- The loop of vox_regex_compile that collects the literal prefix, behind `plen` characters. It
   comes to a state at most once with each length, or it does not end. -/
def literalLoop (h : Heap) : ℕ → ℕ → Option ℕ → Option Bytes
  | 0, _, _ => none
  | _ + 1, _, none => some []
  | n + 1, plen, some q =>
    if plen ≥ literalMax then some []
    else
      match (h.state q).type with
      | .char ch => (literalLoop h n (plen + 1) (h.state q).out1).map (ch :: ·)
      | .split =>
        if (h.state q).out1.isSome ∧ (h.state q).out2 = none then
          literalLoop h n plen (h.state q).out1
        else some []
      | _ => some []

theorem literalLoop_some (h : Heap) (n plen q : ℕ) : literalLoop h (n + 1) plen (some q) =
    if plen ≥ literalMax then some [] else match (h.state q).type with
      | .char ch => (literalLoop h n (plen + 1) (h.state q).out1).map (ch :: ·)
      | .split =>
        if (h.state q).out1.isSome ∧ (h.state q).out2 = none then
          literalLoop h n plen (h.state q).out1
        else some []
      | _ => some [] := rfl

/- struct vox_regex with its prefix; `none` is NULL. -/
structure Searcher where
  regex : VoxRegex
  literal : Option Bytes
  deriving DecidableEq, Repr

/- vox_regex_compile with the prefix, for which the pool may have no memory. -/
def compileSearcher (alloc : ℕ → Bool) (pattern : Bytes) (flags : Flags) :
    Option (Option Searcher) := do
  match ← compile pattern flags with
  | none => some none
  | some re =>
    let text ← literalLoop re.heap (256 * (re.heap.length + 1)) 0 (some re.start)
    some (some ⟨re, if 0 < text.length ∧ alloc (text.length + 1) then some text else none⟩)

/- strstr: where the C string `needle` begins first. -/
def strstr (haystack needle : Bytes) : Option ℕ :=
  (List.range ((cstr haystack).length + 1)).find? fun i =>
    (cstr needle).isPrefixOf ((cstr haystack).drop i)

def VoxRegex.matchAt (re : VoxRegex) (text : Bytes) (pos : ℕ) : Option ℕ :=
  matchWith (verifyAssertion re re.heap.length text) re text pos false

def Searcher.used (s : Searcher) : Option Bytes :=
  if s.regex.flags.ignoreCase then none else s.literal

/- The position from which the search tries to match, or `none` where it ends. -/
def Searcher.jump (s : Searcher) (text : Bytes) (pos : ℕ) : Option ℕ :=
  match s.used with
  | none => some pos
  | some literal =>
    if pos < text.length then (strstr (text.drop pos) literal).map (pos + ·) else some pos

def Searcher.isAnchorStart (s : Searcher) : Bool :=
  (s.regex.heap.state s.regex.start).type = .anchorStart

/- The loop of vox_regex_search_with_context from `pos` on; there are not more than `n` rounds. -/
def Searcher.searchLoop (s : Searcher) (text : Bytes) : ℕ → ℕ → Option (ℕ × ℕ)
  | 0, _ => none
  | n + 1, pos =>
    if text.length < pos then none
    else if s.isAnchorStart ∧ 0 < pos ∧ ¬ s.regex.flags.multiline then none
    else if s.isAnchorStart ∧ 0 < pos ∧ ¬ isEol (text.getD (pos - 1) 0) then
      s.searchLoop text n (pos + 1)
    else
      match s.jump text pos with
      | none => none
      | some pos =>
        match s.regex.matchAt text pos with
        | some last => some (pos, last)
        | none => if pos = text.length then none else s.searchLoop text n (pos + 1)

/- vox_regex_search: the start and the end of the match. -/
def Searcher.search (s : Searcher) (text : Bytes) (start : ℕ) : Option (ℕ × ℕ) :=
  s.searchLoop text (text.length + 1 - start) start

/- The loop of vox_regex_findall; `none` when it takes more than `n` rounds. The pool has memory for
   the array. -/
def Searcher.findallLoop (s : Searcher) (text : Bytes) : ℕ → ℕ → Option (List (ℕ × ℕ))
  | 0, _ => none
  | n + 1, pos =>
    if text.length < pos then some []
    else
      match s.search text pos with
      | none => some []
      | some (start, last) =>
        (s.findallLoop text n (if last > pos then last else pos + 1)).map ((start, last) :: ·)

/- vox_regex_findall -/
def Searcher.findall (s : Searcher) (text : Bytes) : Option (List (ℕ × ℕ)) :=
  s.findallLoop text (text.length + 2) 0

section Strstr

variable {hay w : Bytes} {i j : ℕ}

theorem cstr_cons {c : UInt8} (hc : c ≠ 0) (b : Bytes) : cstr (c :: b) = c :: cstr b :=
  takeWhile_cons_of_pos (decide_eq_true hc)

theorem cstr_append (hw : (0 : UInt8) ∉ w) (b : Bytes) : cstr (w ++ b) = w ++ cstr b :=
  takeWhile_append_of_pos fun c hc =>
    decide_eq_true (show c ≠ 0 from fun h0 => hw (h0 ▸ hc))

theorem cstr_plain (hw : (0 : UInt8) ∉ w) : cstr w = w := by
  have := cstr_append hw []
  rwa [append_nil, cstr, cstr, takeWhile_nil, append_nil] at this

theorem not_mem_cstr (b : Bytes) : (0 : UInt8) ∉ cstr b := by
  intro h
  have := mem_takeWhile_imp h
  simp at this

theorem drop_cstr (hw : (0 : UInt8) ∉ w) (hj : (0 : UInt8) ∉ hay.take j) :
    w <+: (cstr hay).drop j ↔ w <+: hay.drop j := by
  induction j generalizing hay with
  | zero =>
    constructor
    · exact fun h => h.trans (List.takeWhile_prefix _)
    · rintro ⟨t, ht⟩
      rw [drop_zero] at ht ⊢
      rw [← ht, cstr_append hw]
      exact prefix_append _ _
  | succ j ih =>
    cases hay with
    | nil => exact Iff.rfl
    | cons c hay =>
      rw [take_succ_cons, mem_cons, not_or] at hj
      rw [cstr_cons (Ne.symm hj.1), drop_succ_cons, drop_succ_cons]
      exact ih hj.2

theorem le_cstr (hj : (0 : UInt8) ∉ hay.take j) (hle : j ≤ hay.length) : j ≤ (cstr hay).length := by
  rw [← take_append_drop j hay, cstr_append hj, length_append,
    length_take_of_le hle]
  exact Nat.le_add_right _ _

theorem strstr_some (hw : (0 : UInt8) ∉ w) (hne : w ≠ []) (h : strstr hay w = some i) :
    w <+: hay.drop i ∧ (0 : UInt8) ∉ hay.take (i + 1) ∧ ∀ j < i, ¬ w <+: hay.drop j := by
  rw [strstr, List.find?_range_eq_some, cstr_plain hw] at h
  obtain ⟨hfound, -, hfirst⟩ := h
  have hpre := List.isPrefixOf_iff_prefix.mp hfound
  have hlt : i < (cstr hay).length := by
    by_contra hge
    rw [drop_eq_nil_of_le (Nat.not_lt.mp hge)] at hpre
    exact hne (prefix_nil.mp hpre)
  have hzero (j : ℕ) (hj : j ≤ i + 1) : (0 : UInt8) ∉ hay.take j := by
    have hle : hay.take j <+: cstr hay := by
      obtain ⟨t, ht⟩ : cstr hay <+: hay := List.takeWhile_prefix _
      conv_lhs => rw [← ht]
      rw [take_append_of_le_length (by omega)]
      exact List.take_prefix _ _
    exact fun hmem => not_mem_cstr hay (hle.subset hmem)
  refine ⟨(drop_cstr hw (hzero i (by omega))).mp hpre, hzero _ le_rfl, fun j hj hocc => ?_⟩
  have := hfirst j hj
  rw [List.isPrefixOf_iff_prefix.mpr ((drop_cstr hw (hzero j (by omega))).mpr hocc)] at this
  cases this

theorem strstr_none (hw : (0 : UInt8) ∉ w) (hne : w ≠ []) (h : strstr hay w = none)
    (hj : (0 : UInt8) ∉ hay.take j) : ¬ w <+: hay.drop j := by
  intro hocc
  rw [strstr, List.find?_range_eq_none, cstr_plain hw] at h
  have hlt : j < hay.length := by
    by_contra hge
    rw [drop_eq_nil_of_le (Nat.not_lt.mp hge)] at hocc
    exact hne (prefix_nil.mp hocc)
  have := h j (Nat.lt_succ_of_le (le_cstr hj hlt.le))
  rw [List.isPrefixOf_iff_prefix.mpr ((drop_cstr hw hj).mpr hocc)] at this
  cases this

end Strstr

section Ends

variable {assertion : ℕ → ℕ → Bool → Bool} {re : VoxRegex} {text : Bytes} {s : Searcher}
  {pos start last n p e : ℕ}

theorem matchLoop_bounds {full : Bool} {rest : Bytes} {gen : UInt32} {m : Marks}
    {best : Option ℕ} (h : matchLoop assertion re text full rest pos gen m best = some e) :
    best = some e ∨ pos ≤ e ∧ e ≤ pos + rest.length := by
  induction rest generalizing pos gen m best with
  | nil =>
    rw [matchLoop] at h
    simp only [ite_self] at h
    split_ifs at h
    · exact .inr ⟨(some.inj h).le, (some.inj h).ge⟩
    · exact .inl h
  | cons ch rest ih =>
    rw [matchLoop] at h
    generalize hnew : (if hasMatchState re m.list = true ∧ (full = true → ch :: rest = []) then
      some pos else best) = new at h
    have hbest : new = some e → best = some e ∨ pos ≤ e ∧ e ≤ pos + (ch :: rest).length := by
      intro hsome
      rw [← hnew] at hsome
      split at hsome
      · obtain rfl := some.inj hsome
        exact .inr ⟨le_rfl, Nat.le_add_right _ _⟩
      · exact .inl hsome
    split_ifs at h
    · exact hbest h
    · exact hbest h
    · rcases ih h with h | ⟨hlo, hhi⟩
      · exact hbest h
      · exact .inr ⟨by omega, by rw [length_cons]; omega⟩

theorem matchAt_bounds (hpos : pos ≤ text.length) (h : re.matchAt text pos = some e) :
    pos ≤ e ∧ e ≤ text.length := by
  rcases matchLoop_bounds h with h | ⟨hlo, hhi⟩
  · cases h
  · rw [length_drop] at hhi
    exact ⟨hlo, by omega⟩

end Ends

/-- From `start` on, the plain matcher succeeds first at `p`, and its match ends at `last`. -/
structure Leftmost (re : VoxRegex) (text : Bytes) (start p last : ℕ) : Prop where
  start_le : start ≤ p
  le_length : p ≤ text.length
  found : re.matchAt text p = some last
  first : ∀ q, start ≤ q → q < p → re.matchAt text q = none

/-- What the search relies on: the prefix is the front of every match, and no NUL is in it. -/
structure Searcher.Sound (s : Searcher) (text : Bytes) : Prop where
  ne_nil : ∀ w ∈ s.used, w ≠ []
  plain : ∀ w ∈ s.used, (0 : UInt8) ∉ w
  anchor : ∀ w ∈ s.used, s.isAnchorStart = false
  front : ∀ w ∈ s.used, ∀ p last, s.regex.matchAt text p = some last → w <+: text.drop p

section Leftmost

variable {s : Searcher} {text w : Bytes} {pos start last n p : ℕ}

theorem Leftmost.later {re : VoxRegex} (h : Leftmost re text start p last) (hpos : start ≤ pos)
    (hp : pos ≤ p) : Leftmost re text pos p last :=
  ⟨hp, h.le_length, h.found, fun q hq => h.first q (hpos.trans hq)⟩

theorem Leftmost.earlier {re : VoxRegex} (h : Leftmost re text pos p last) (hpos : start ≤ pos)
    (hmiss : ∀ q, start ≤ q → q < pos → re.matchAt text q = none) :
    Leftmost re text start p last := by
  refine ⟨hpos.trans h.start_le, h.le_length, h.found, fun q hq hlt => ?_⟩
  rcases Nat.lt_or_ge q pos with hbefore | hafter
  · exact hmiss q hq hbefore
  · exact h.first q hafter hlt

theorem matchLoop_nil {assertion : ℕ → ℕ → Bool → Bool} {re : VoxRegex} {full : Bool}
    {rest : Bytes} {gen : UInt32} {m : Marks} (h : m.list = []) :
    matchLoop assertion re text full rest pos gen m none = none := by
  cases rest <;> simp [matchLoop, hasMatchState, h]

theorem anchor_misses (ha : s.isAnchorStart = true)
    (hpos : ¬ (pos = 0 ∨ s.regex.flags.multiline ∧ isEol (text.getD (pos - 1) 0) = true)) :
    s.regex.matchAt text pos = none := by
  have htype : (s.regex.heap.state s.regex.start).type = .anchorStart := of_decide_eq_true ha
  rw [VoxRegex.matchAt, matchWith]
  refine matchLoop_nil ?_
  rw [addState]
  dsimp only
  rw [htype]
  dsimp only
  rw [if_neg hpos]
  split <;> rfl

/-- What is jumped over is no match, and no NUL is in it. -/
theorem Searcher.Sound.jump_some (hs : s.Sound text) {next : ℕ} (hpos : pos ≤ text.length)
    (h : s.jump text pos = some next) :
    pos ≤ next ∧ next ≤ text.length ∧ (∀ q, pos ≤ q → q < next → s.regex.matchAt text q = none) ∧
      ∀ w ∈ s.used, pos < text.length → (0 : UInt8) ∉ (text.drop pos).take (next + 1 - pos) := by
  rw [Searcher.jump] at h
  cases hused : s.used with
  | none =>
    rw [hused] at h
    obtain rfl := some.inj h
    exact ⟨le_rfl, hpos, fun q hq hlt => absurd hq (Nat.not_le.mpr hlt), nofun⟩
  | some w =>
    rw [hused] at h
    dsimp only at h
    split at h
    · next hlt =>
      obtain ⟨i, hi, rfl⟩ := map_eq_some_iff.mp h
      obtain ⟨hocc, hzero, hfirst⟩ := strstr_some (hs.plain w hused) (hs.ne_nil w hused) hi
      have hle := hocc.length_le
      have hw := length_pos_of_ne_nil (hs.ne_nil w hused)
      rw [drop_drop, length_drop] at hle
      refine ⟨Nat.le_add_right _ _, by omega, fun q hq hnext => ?_, fun _ _ _ => ?_⟩
      · by_contra hmatch
        obtain ⟨last, hlast⟩ := ne_none_iff_exists'.mp hmatch
        refine hfirst (q - pos) (by omega) ?_
        rw [drop_drop, Nat.add_sub_of_le hq]
        exact hs.front w hused q last hlast
      · rwa [show pos + i + 1 - pos = i + 1 by omega]
    · next hge =>
      obtain rfl := some.inj h
      exact ⟨le_rfl, hpos, fun q hq hlt => absurd hq (Nat.not_le.mpr hlt),
        fun _ _ hlt => absurd hlt hge⟩

theorem Searcher.Sound.jump_le (hs : s.Sound text) (hp : pos ≤ p)
    (hfound : s.regex.matchAt text p = some last)
    (hzero : ∀ w ∈ s.used, (0 : UInt8) ∉ (text.drop pos).take (p - pos)) :
    ∃ next, s.jump text pos = some next ∧ next ≤ p := by
  rw [Searcher.jump]
  cases hused : s.used with
  | none => exact ⟨pos, rfl, hp⟩
  | some w =>
    dsimp only
    have hocc : w <+: (text.drop pos).drop (p - pos) := by
      rw [drop_drop, Nat.add_sub_of_le hp]
      exact hs.front w hused p last hfound
    split
    · cases hi : strstr (text.drop pos) w with
      | none =>
        exact absurd hocc (strstr_none (hs.plain w hused) (hs.ne_nil w hused) hi (hzero w hused))
      | some i =>
        obtain ⟨-, -, hfirst⟩ := strstr_some (hs.plain w hused) (hs.ne_nil w hused) hi
        refine ⟨pos + i, rfl, ?_⟩
        by_contra hlt
        exact hfirst (p - pos) (by omega) hocc
    · exact ⟨pos, rfl, hp⟩

theorem Searcher.Sound.searchLoop_some (hs : s.Sound text)
    (h : s.searchLoop text n pos = some (p, last)) : Leftmost s.regex text pos p last ∧
      ∀ w ∈ s.used, (0 : UInt8) ∉ (text.drop pos).take (p - pos) := by
  induction n generalizing pos with
  | zero => cases h
  | succ n ih =>
    rw [searchLoop] at h
    split at h
    · cases h
    next hpos =>
    split at h
    · cases h
    split at h
    · next hanchor =>
      -- the anchor does not hold here
      obtain ⟨hleft, -⟩ := ih h
      refine ⟨hleft.earlier (Nat.le_succ pos) fun q hq hlt => ?_, fun w hw => ?_⟩
      · obtain rfl : q = pos := by omega
        exact anchor_misses hanchor.1 fun hor => hor.elim (by omega) fun hm => hanchor.2.2 hm.2
      · have := hs.anchor w hw
        rw [hanchor.1] at this
        cases this
    · cases hjump : s.jump text pos with
      | none =>
        rw [hjump] at h
        cases h
      | some next =>
        rw [hjump] at h
        dsimp only at h
        obtain ⟨hle, hlen, hmiss, hzero⟩ := hs.jump_some (Nat.not_lt.mp hpos) hjump
        cases hmatch : s.regex.matchAt text next with
        | some e =>
          rw [hmatch] at h
          cases h
          refine ⟨⟨hle, hlen, hmatch, hmiss⟩, fun w hw hmem => ?_⟩
          rcases Nat.lt_or_ge pos text.length with hlt | hge
          · exact hzero w hw hlt (take_subset_take_left _ (by omega) hmem)
          · rw [drop_eq_nil_of_le hge, take_nil] at hmem
            cases hmem
        | none =>
          rw [hmatch] at h
          dsimp only at h
          split at h
          · cases h
          next hend =>
          obtain ⟨hleft, hzero'⟩ := ih h
          refine ⟨hleft.earlier (by omega) fun q hq hlt => ?_, fun w hw hmem => ?_⟩
          · rcases Nat.lt_or_ge q next with hbefore | hafter
            · exact hmiss q hq hbefore
            · obtain rfl : q = next := by omega
              exact hmatch
          · have hp := hleft.start_le
            rw [show p - pos = (next + 1 - pos) + (p - (next + 1)) by omega, take_add,
              drop_drop, Nat.add_sub_of_le (by omega : pos ≤ next + 1)] at hmem
            rcases mem_append.mp hmem with hmem | hmem
            · exact hzero w hw (by omega) hmem
            · exact hzero' w hw hmem

theorem Searcher.Sound.searchLoop_of_leftmost (hs : s.Sound text)
    (h : Leftmost s.regex text pos p last) (hn : text.length + 1 ≤ pos + n)
    (hzero : ∀ w ∈ s.used, (0 : UInt8) ∉ (text.drop pos).take (p - pos)) :
    s.searchLoop text n pos = some (p, last) := by
  induction n generalizing pos with
  | zero =>
    have := h.start_le
    have := h.le_length
    omega
  | succ n ih =>
    have hstart := h.start_le
    have hlen := h.le_length
    -- in front of the match the zeros are still seen
    have hlater (next : ℕ) (hnext : pos ≤ next) (hp : next ≤ p) :
        ∀ w ∈ s.used, (0 : UInt8) ∉ (text.drop next).take (p - next) := by
      intro w hw hmem
      refine hzero w hw ?_
      rw [show p - pos = (next - pos) + (p - next) by omega, take_add, drop_drop,
        Nat.add_sub_of_le hnext]
      exact mem_append_right _ hmem
    rw [searchLoop, if_neg (by omega)]
    split
    · next hanchor =>
      have hmiss : s.regex.matchAt text p = none := anchor_misses hanchor.1
        fun hor => hor.elim (by omega) fun hm => hanchor.2.2 hm.1
      rw [h.found] at hmiss
      cases hmiss
    split
    · next hanchor =>
      have hne : p ≠ pos := by
        rintro rfl
        have := anchor_misses hanchor.1 fun hor =>
          hor.elim (by omega) fun hm => hanchor.2.2 hm.2
        rw [h.found] at this
        cases this
      exact ih (h.later (Nat.le_succ pos) (by omega)) (by omega) (hlater _ (by omega) (by omega))
    · obtain ⟨next, hjump, hnext⟩ := hs.jump_le hstart h.found hzero
      obtain ⟨hle, -, -, -⟩ := hs.jump_some (by omega) hjump
      rw [hjump]
      dsimp only
      rcases Nat.eq_or_lt_of_le hnext with rfl | hlt
      · rw [h.found]
      · rw [h.first next hle hlt]
        dsimp only
        rw [if_neg (by omega)]
        exact ih (h.later (by omega) hlt) (by omega) (hlater _ (by omega) hlt)

def Searcher.Right (s : Searcher) (text : Bytes) (start : ℕ) : Prop :=
  ∀ p last, s.search text start = some (p, last) ↔ Leftmost s.regex text start p last

/-- It does, if and only if strstr is not used, or no NUL is in front of that match. -/
theorem Searcher.Sound.right_iff (hs : s.Sound text) (start : ℕ) :
    s.Right text start ↔ s.used = none ∨ ∀ p last, Leftmost s.regex text start p last →
      (0 : UInt8) ∉ (text.drop start).take (p - start) := by
  constructor
  · intro hright
    cases hused : s.used with
    | none => exact .inl rfl
    | some w =>
      refine .inr fun p last h => ?_
      exact (hs.searchLoop_some ((hright p last).mpr h)).2 w hused
  · intro hcond p last
    refine ⟨fun h => (hs.searchLoop_some h).1, fun h => ?_⟩
    refine hs.searchLoop_of_leftmost h (by omega) fun w hw => ?_
    rcases hcond with hnone | hzero
    · rw [hnone] at hw
      cases hw
    · exact hzero p last h

end Leftmost

/-- From a position the next search starts at the end of the match, or one further when the match
is empty. -/
def NextSearch (search : ℕ → Option (ℕ × ℕ)) (pos next : ℕ) : Prop :=
  ∃ start last, search pos = some (start, last) ∧ next = if start < last then last else last + 1

/-- The matches that the searches find one after the other. -/
inductive Iterates (search : ℕ → Option (ℕ × ℕ)) : ℕ → List (ℕ × ℕ) → Prop
  | stop {pos : ℕ} : search pos = none → Iterates search pos []
  | found {pos start last : ℕ} {spans : List (ℕ × ℕ)} : search pos = some (start, last) →
      Iterates search (if start < last then last else last + 1) spans →
      Iterates search pos ((start, last) :: spans)

/-- One match begins behind the start of the other, and not in front of its end. -/
def Behind (a b : ℕ × ℕ) : Prop := a.1 < b.1 ∧ a.2 ≤ b.1

/-- vox_regex_findall ends with the matches of the iterated search, in order and each of them
once. -/
def Searcher.FindallRight (s : Searcher) (text : Bytes) : Prop :=
  ∃ spans, s.findall text = some spans ∧ Iterates (s.search text) 0 spans ∧ spans.Nodup ∧
    spans.Pairwise Behind

section Findall

variable {s : Searcher} {text : Bytes} {pos start last next n p : ℕ}

theorem Searcher.Sound.search_bounds (hs : s.Sound text)
    (h : s.search text pos = some (start, last)) :
    pos ≤ start ∧ start ≤ last ∧ last ≤ text.length := by
  obtain ⟨hleft, -⟩ := hs.searchLoop_some h
  obtain ⟨hlo, hhi⟩ := matchAt_bounds hleft.le_length hleft.found
  exact ⟨hleft.start_le, hlo, hhi⟩

theorem Searcher.Sound.search_again (hs : s.Sound text)
    (h : s.search text pos = some (start, last)) : s.search text start = some (start, last) := by
  obtain ⟨hleft, -⟩ := hs.searchLoop_some h
  refine hs.searchLoop_of_leftmost (hleft.later hleft.start_le le_rfl) (by omega) fun w _ => ?_
  rw [Nat.sub_self, take_zero]
  exact not_mem_nil

theorem findallLoop_succ (h : s.search text pos = some (start, last)) (hpos : pos ≤ text.length) :
    s.findallLoop text (n + 1) pos =
      (s.findallLoop text n (if last > pos then last else pos + 1)).map ((start, last) :: ·) := by
  rw [Searcher.findallLoop, if_neg (Nat.not_lt.mpr hpos), h]

theorem next_eq (hlo : pos ≤ start) (hlast : start ≤ last) (hempty : start = last → start = pos) :
    (if last > pos then last else pos + 1) = if start < last then last else last + 1 := by
  by_cases hlt : start < last
  · rw [if_pos hlt, if_pos (by omega)]
  · obtain rfl : start = last := by omega
    obtain rfl := hempty rfl
    simp only [hlt, if_false]

theorem Searcher.Sound.empty_here (hs : s.Sound text) {spans : List (ℕ × ℕ)}
    (h : s.findallLoop text n pos = some spans) (hnodup : spans.Nodup)
    (hfound : s.search text pos = some (p, p)) : p = pos := by
  obtain ⟨hlo, -, hlen⟩ := hs.search_bounds hfound
  by_contra hne
  rcases n with _ | _ | n
  · cases h
  · rw [findallLoop_succ hfound (by omega)] at h
    cases h
  · rw [findallLoop_succ hfound (by omega), if_pos (by omega),
      findallLoop_succ (hs.search_again hfound) hlen] at h
    obtain ⟨rest, hrest, rfl⟩ := map_eq_some_iff.mp h
    obtain ⟨rest, -, rfl⟩ := map_eq_some_iff.mp hrest
    exact (nodup_cons.mp hnodup).1 (mem_cons_self ..)

theorem Searcher.Sound.findallLoop_right (hs : s.Sound text)
    (hempty : ∀ q, Relation.ReflTransGen (NextSearch (s.search text)) pos q →
      ∀ p, s.search text q = some (p, p) → p = q)
    (hpos : pos ≤ text.length + 1) (hn : text.length + 1 < pos + n) :
    ∃ spans, s.findallLoop text n pos = some spans ∧ Iterates (s.search text) pos spans ∧
      (∀ a ∈ spans, pos ≤ a.1) ∧ spans.Pairwise Behind := by
  induction n generalizing pos with
  | zero => omega
  | succ n ih =>
    cases hfound : s.search text pos with
    | none =>
      refine ⟨[], ?_, .stop hfound, nofun, .nil⟩
      rw [Searcher.findallLoop, hfound]
      exact ite_self _
    | some span =>
      obtain ⟨start, last⟩ := span
      obtain ⟨hlo, hlast, hlen⟩ := hs.search_bounds hfound
      have hnext := next_eq hlo hlast fun heq => hempty pos .refl start (heq ▸ hfound)
      obtain ⟨next, hdef⟩ : ∃ next, next = if start < last then last else last + 1 := ⟨_, rfl⟩
      rw [← hdef] at hnext
      obtain ⟨spans, hspans, hiter, hlow, hpair⟩ :=
        ih (fun q hq => hempty q (hq.head ⟨start, last, hfound, hdef⟩))
          (by rw [hdef]; split <;> omega) (by rw [hdef]; split <;> omega)
      have hafter : start < next ∧ last ≤ next := by
        rw [hdef]
        split <;> omega
      have hbehind : ∀ a ∈ spans, Behind (start, last) a := fun a ha =>
        ⟨hafter.1.trans_le (hlow a ha), hafter.2.trans (hlow a ha)⟩
      refine ⟨(start, last) :: spans, ?_, .found hfound (hdef ▸ hiter), ?_, hpair.cons hbehind⟩
      · rw [findallLoop_succ hfound (by omega), hnext, hspans]
        rfl
      · rintro a (_ | ⟨_, ha⟩)
        · exact hlo
        · exact hlo.trans (hafter.1.le.trans (hlow a ha))

theorem Searcher.Sound.findallRight_iff (hs : s.Sound text) :
    s.FindallRight text ↔ ∀ pos, Relation.ReflTransGen (NextSearch (s.search text)) 0 pos →
      ∀ p, s.search text pos = some (p, p) → p = pos := by
  constructor
  · rintro ⟨spans, hspans, -, hnodup, -⟩ pos hreach
    suffices hrest : ∃ n rest, s.findallLoop text n pos = some rest ∧ rest.Nodup by
      obtain ⟨n, rest, hrest, hnodup⟩ := hrest
      exact fun p => hs.empty_here hrest hnodup
    induction hreach with
    | refl => exact ⟨_, spans, hspans, hnodup⟩
    | tail _ hstep ih =>
      obtain ⟨n, rest, hrest, hnodup⟩ := ih
      obtain ⟨start, last, hfound, rfl⟩ := hstep
      obtain ⟨hlo, hlast, hlen⟩ := hs.search_bounds hfound
      have hempty := hs.empty_here hrest hnodup (p := start)
      cases n with
      | zero => cases hrest
      | succ n =>
        rw [findallLoop_succ hfound (by omega),
          next_eq hlo hlast fun heq => hempty (heq ▸ hfound)] at hrest
        obtain ⟨more, hmore, rfl⟩ := map_eq_some_iff.mp hrest
        exact ⟨n, more, hmore, (nodup_cons.mp hnodup).2⟩
  · intro hempty
    obtain ⟨spans, hspans, hiter, -, hpair⟩ := hs.findallLoop_right (n := text.length + 2) hempty
      (Nat.zero_le _) (by omega)
    refine ⟨spans, hspans, hiter, hpair.imp ?_, hpair⟩
    rintro a b hab rfl
    exact Nat.lt_irrefl _ hab.1

end Findall

end Voxlib.Regex
