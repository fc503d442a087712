import Voxlib.Regex.Closure
import Voxlib.Regex.Invariant
import Voxlib.Regex.Search

/-!
# The literal prefix of a pattern (vox_regex.c)
-/

namespace Voxlib.Regex
open CStr List

variable {assertion : ℕ → ℕ → Bool → Bool} {re : VoxRegex} {text w : Bytes} {h : Heap}
  {o : Option ℕ} {n plen pos q : ℕ} {ch : UInt8}

/-- The states from `o` on read `w` first. -/
def Leads (h : Heap) (o : Option ℕ) (w : Bytes) : Prop :=
  ∃ n plen, literalLoop h n plen o = some w

/-- A state that reads the first byte of `w`, and leads to the other ones. -/
def Reader (h : Heap) (q : ℕ) : Bytes → Prop
  | [] => False
  | ch :: w => (h.state q).type = .char ch ∧ Leads h (h.state q).out1 w

/-- Behind a state that leads to a text, add_state finds readers of this text only. -/
theorem addState_reader (hm : Marked re.heap)
    (hlead : literalLoop re.heap n plen o = some (ch :: w))
    (generation : UInt32) (k : ℕ) (m : Marks) (hq : q ∈ (addState assertion re text generation pos k
      o m).list) : q ∈ m.list ∨ Reader re.heap q (ch :: w) := by
  induction n generalizing plen o k m with
  | zero => cases hlead
  | succ n ih =>
    rcases o with _ | t
    · cases hlead
    rcases k with _ | k
    · exact .inl hq
    by_cases hmark : m.visited.getD ((re.heap.state t).id.getD 0) 0 = generation
    · rw [addState_marked hmark] at hq
      exact .inl hq
    replace hlead := (literalLoop_some ..).symm.trans hlead
    by_cases hmax : plen ≥ literalMax
    · rw [if_pos hmax] at hlead
      cases hlead
    rw [if_neg hmax] at hlead
    rw [addState_fresh hm hmark] at hq
    have hnode : (re.heap.node t).type = (re.heap.state t).type := rfl
    cases htype : (re.heap.state t).type with
    | char c =>
      rw [htype] at hlead
      rw [hnode, htype] at hq
      obtain ⟨rest, hrest, heq⟩ := Option.map_eq_some_iff.mp hlead
      obtain ⟨rfl, rfl⟩ := List.cons.inj heq
      rcases mem_append.mp hq with hq | hq
      · exact .inl hq
      · obtain rfl := mem_singleton.mp hq
        exact .inr ⟨htype, _, _, hrest⟩
    | split =>
      rw [htype] at hlead
      dsimp only at hlead
      split at hlead
      · next hout =>
        -- the choice has one way only
        have hnexts : nexts assertion re text pos t = (re.heap.state t).out1.toList := by
          have hout2 : (re.heap.node t).out2 = none := hout.2
          rw [nexts, hnode, htype, hout2]
          exact append_nil _
        have hlisted : ¬ NfaStateType.split.listed = true := Bool.false_ne_true
        rw [hnode, htype, hnexts, if_neg hlisted,
          foldl_option (addState assertion re text generation pos k) (addState_none k)] at hq
        have hrest := ih hlead k _ hq
        exact hrest
      · cases hlead
    | _ =>
      rw [htype] at hlead
      cases hlead

theorem nextList_forall {P : ℕ → Prop} {generation : UInt32} {c : UInt8} (list : List ℕ)
    (hstep : ∀ q ∈ list, (re.heap.state q).type.reads re.flags.ignoreCase c = true → ∀ m,
      ∀ r ∈ (addState assertion re text generation pos (re.heap.length + 1)
        (re.heap.state q).out1 m).list, r ∈ m.list ∨ P r) (m : Marks) (hm : ∀ r ∈ m.list, P r) :
    ∀ r ∈ (nextList assertion re text generation pos c list m).list, P r := by
  induction list generalizing m with
  | nil => exact hm
  | cons q list ih =>
    rw [nextList, foldl_cons]
    refine ih (fun q hq => hstep q (mem_cons_of_mem _ hq)) _ fun r hr => ?_
    split at hr
    · next hread => exact (hstep q (mem_cons_self ..) hread m r hr).elim (hm r) id
    · exact hm r hr

/-- The lists hold readers of the text that is still to come. -/
theorem matchLoop_front (hm : Marked re.heap) (hcase : re.flags.ignoreCase = false) {full : Bool}
    {e : ℕ} {rest : Bytes} {gen : UInt32} {m : Marks} (hlist : ∀ q ∈ m.list, Reader re.heap q w)
    (h : matchLoop assertion re text full rest pos gen m none = some e) (hw : w ≠ []) :
    w <+: rest ∧ pos < e := by
  induction w generalizing rest pos gen m with
  | nil => exact absurd rfl hw
  | cons ch w ih =>
    have hfound : hasMatchState re m.list = false := by
      rw [hasMatchState, any_eq_false]
      intro q hq hmatch
      have htype := (hlist q hq).1
      rw [of_decide_eq_true hmatch] at htype
      cases htype
    rcases rest with _ | ⟨c, rest⟩
    · rw [matchLoop, hfound] at h
      simp at h
    rw [matchLoop, hfound] at h
    simp only [Bool.false_eq_true, false_and, if_false] at h
    split at h
    · cases h
    have hlt : pos < e := by
      rcases matchLoop_bounds h with hnone | ⟨hlo, -⟩
      · cases hnone
      · exact hlo
    have hreads (q : ℕ) (hq : q ∈ m.list)
        (hread : (re.heap.state q).type.reads re.flags.ignoreCase c = true) : c = ch := by
      rw [(hlist q hq).1, hcase] at hread
      simpa [NfaStateType.reads, toLowerIfNeeded] using hread
    by_cases hc : c = ch
    · subst hc
      rcases w with _ | ⟨d, w⟩
      · exact ⟨⟨rest, rfl⟩, hlt⟩
      refine ⟨cons_prefix_cons.mpr ⟨rfl, (ih ?_ h (cons_ne_nil _ _)).1⟩, hlt⟩
      refine nextList_forall m.list (fun q hq _ m r hr => ?_) _
        fun r hr => absurd hr not_mem_nil
      obtain ⟨-, n, plen, hlead⟩ := hlist q hq
      exact addState_reader hm hlead _ _ m hr
    · -- no state reads another byte
      have hnil : ∀ r ∈ (nextList assertion re text (gen + 1) (pos + 1) c m.list
          ⟨m.visited, []⟩).list, False :=
        nextList_forall m.list (fun q hq hread => absurd (hreads q hq hread) hc) _
          fun r hr => absurd hr not_mem_nil
      rw [matchLoop_nil (eq_nil_iff_forall_not_mem.mpr hnil)] at h
      cases h

theorem literalLoop_mem (hw : literalLoop h n plen o = some w) (hch : ch ∈ w) :
    ∃ q, (h.state q).type = .char ch := by
  induction n generalizing plen o w with
  | zero => cases hw
  | succ n ih =>
    rcases o with _ | t
    · cases hw
      cases hch
    replace hw := (literalLoop_some ..).symm.trans hw
    by_cases hmax : plen ≥ literalMax
    · rw [if_pos hmax] at hw
      cases hw
      cases hch
    rw [if_neg hmax] at hw
    cases htype : (h.state t).type with
    | char c =>
      rw [htype] at hw
      obtain ⟨rest, hrest, rfl⟩ := Option.map_eq_some_iff.mp hw
      rcases mem_cons.mp hch with rfl | hch
      · exact ⟨t, htype⟩
      · exact ih hrest hch
    | split =>
      rw [htype] at hw
      dsimp only at hw
      split at hw
      · exact ih hw hch
      · cases hw
        cases hch
    | _ =>
      rw [htype] at hw
      cases hw
      cases hch

theorem compileSearcher_used {alloc : ℕ → Bool} {pattern : Bytes} {flags : Flags} {s : Searcher}
    (hs : compileSearcher alloc pattern flags = some (some s)) {w : Bytes} (hw : w ∈ s.used) :
    w ≠ [] ∧ (0 : UInt8) ∉ w ∧ s.isAnchorStart = false ∧
      ∀ text p last, s.regex.matchAt text p = some last → w <+: text.drop p ∧ p < last := by
  obtain ⟨out, hcompile, hs⟩ := Option.bind_eq_some_iff.mp hs
  rcases out with _ | re
  · cases hs
  obtain ⟨lead, hlead, hs⟩ := Option.bind_eq_some_iff.mp hs
  obtain ⟨hmarked, hzero⟩ := compile_proper hcompile
  cases hs
  rw [Searcher.used] at hw
  dsimp only at hw
  split at hw
  · cases hw
  next hcase =>
  split at hw
  case isFalse => cases hw
  next hlen =>
  cases hw
  refine ⟨ne_nil_of_length_pos hlen.1, fun hmem => ?_, ?_, fun text p last hmatch => ?_⟩
  · obtain ⟨q, hq⟩ := literalLoop_mem hlead hmem
    exact hzero q hq
  · by_contra hanchor
    have htype : (re.heap.state re.start).type = .anchorStart := by
      simpa [Searcher.isAnchorStart] using hanchor
    rw [show 256 * (re.heap.length + 1) = 256 * re.heap.length + 255 + 1 by ring, literalLoop_some,
      htype] at hlead
    rw [if_neg (by decide)] at hlead
    cases hlead
    exact Nat.lt_irrefl _ hlen.1
  · refine matchLoop_front hmarked (by simpa using hcase) (fun q hq => ?_) hmatch
      (ne_nil_of_length_pos hlen.1)
    rcases w with _ | ⟨ch, w⟩
    · exact absurd hlen.1 (Nat.lt_irrefl _)
    · exact (addState_reader hmarked hlead 1 _ _ hq).resolve_left nofun

theorem compileSearcher_sound {alloc : ℕ → Bool} {pattern : Bytes} {flags : Flags} {s : Searcher}
    (hs : compileSearcher alloc pattern flags = some (some s)) (text : Bytes) : s.Sound text where
  ne_nil _ hw := (compileSearcher_used hs hw).1
  plain _ hw := (compileSearcher_used hs hw).2.1
  anchor _ hw := (compileSearcher_used hs hw).2.2.1
  front _ hw p last h := ((compileSearcher_used hs hw).2.2.2 text p last h).1

/-- The search finds the leftmost match of every text, if and only if it does not use strstr, or no
NUL is between its start and that match. -/
theorem search_right_iff (alloc : ℕ → Bool) (pattern : Bytes) (flags : Flags) (s : Searcher)
    (hs : compileSearcher alloc pattern flags = some (some s)) (text : Bytes) (start : ℕ) :
    s.Right text start ↔ s.used = none ∨ ∀ p last, Leftmost s.regex text start p last →
      (0 : UInt8) ∉ (text.drop start).take (p - start) :=
  (compileSearcher_sound hs text).right_iff start

theorem letter_searcher : ∃ s, compileSearcher (fun _ => true) [97] {} = some (some s) ∧
    s.search [0, 97] 0 = none ∧ s.regex.matchAt [0, 97] 0 = none ∧
    s.regex.matchAt [0, 97] 1 = some 2 := by
  have hrun : (compileSearcher (fun _ => true) [97] {}).join.map (fun s =>
      (s.search [0, 97] 0, s.regex.matchAt [0, 97] 0, s.regex.matchAt [0, 97] 1)) =
      some (none, none, some 2) := by decide +kernel
  obtain ⟨s, hs, hvalues⟩ := Option.map_eq_some_iff.mp hrun
  simp only [Prod.mk.injEq] at hvalues
  exact ⟨s, Option.join_eq_some_iff.mp hs, hvalues⟩

theorem search_right_letter : ∃ s, compileSearcher (fun _ => true) [97] {} = some (some s) ∧
    (s.Right [0, 97] 1 ↔ s.used = none ∨ ∀ p last, Leftmost s.regex [0, 97] 1 p last →
      (0 : UInt8) ∉ (([0, 97] : Bytes).drop 1).take (p - 1)) := by
  obtain ⟨s, hs, -⟩ := letter_searcher
  exact ⟨s, hs, search_right_iff (fun _ => true) [97] {} s hs [0, 97] 1⟩

/-- strstr does not see what is behind a NUL. -/
theorem search_misses_behind_nul : ¬ ∀ alloc pattern flags s,
    compileSearcher alloc pattern flags = some (some s) → ∀ text start, s.Right text start := by
  intro hall
  obtain ⟨s, hs, hsearch, hfirst, hfound⟩ := letter_searcher
  have hleft : Leftmost s.regex [0, 97] 0 1 2 := by
    refine ⟨by decide, by decide, hfound, fun q _ hq => ?_⟩
    obtain rfl : q = 0 := by omega
    exact hfirst
  have hright := (hall _ _ _ s hs [0, 97] 0 1 2).mpr hleft
  rw [hsearch] at hright
  cases hright

/-- vox_regex_findall is right about a text, if and only if each of its searches that finds an empty
match finds it where it starts. -/
theorem findall_right_iff (alloc : ℕ → Bool) (pattern : Bytes) (flags : Flags) (s : Searcher)
    (hs : compileSearcher alloc pattern flags = some (some s)) (text : Bytes) :
    s.FindallRight text ↔ ∀ pos, Relation.ReflTransGen (NextSearch (s.search text)) 0 pos →
      ∀ p, s.search text pos = some (p, p) → p = pos :=
  (compileSearcher_sound hs text).findallRight_iff

theorem end_searcher : ∃ s, compileSearcher (fun _ => true) [36] {} = some (some s) ∧
    s.findall [97] = some [(1, 1), (1, 1)] := by
  have hrun : (compileSearcher (fun _ => true) [36] {}).join.map (fun s => s.findall [97]) =
      some (some [(1, 1), (1, 1)]) := by decide +kernel
  obtain ⟨s, hs, hvalue⟩ := Option.map_eq_some_iff.mp hrun
  exact ⟨s, Option.join_eq_some_iff.mp hs, hvalue⟩

theorem findall_right_end : ∃ s, compileSearcher (fun _ => true) [36] {} = some (some s) ∧
    (s.FindallRight [97] ↔ ∀ pos, Relation.ReflTransGen (NextSearch (s.search [97])) 0 pos →
      ∀ p, s.search [97] pos = some (p, p) → p = pos) := by
  obtain ⟨s, hs, -⟩ := end_searcher
  exact ⟨s, hs, findall_right_iff (fun _ => true) [36] {} s hs [97]⟩

/-- The empty match at the end of the text is reported twice. -/
theorem findall_reports_twice : ¬ ∀ alloc pattern flags s,
    compileSearcher alloc pattern flags = some (some s) → ∀ text, s.FindallRight text := by
  intro hall
  obtain ⟨s, hs, hfindall⟩ := end_searcher
  obtain ⟨spans, hspans, -, hnodup, -⟩ := hall _ _ _ s hs [97]
  obtain rfl := Option.some.inj (hfindall.symm.trans hspans)
  exact absurd hnodup (by decide)

end Voxlib.Regex
