import Voxlib.Regex.Literal

/-!
# Replacement (vox_regex_replace)

A piece for which there is no room ends the call; the pieces do not depend on the size of the
output.
-/

namespace Voxlib.Regex
open CStr List

/- safe_copy_to_output; an error holds what has been written. -/
def safeCopyToOutput (outputSize : ℕ) (output src : Bytes) : Except Bytes Bytes :=
  if output.length + src.length ≥ outputSize then .error output else .ok (output ++ src)

def putChar (outputSize : ℕ) (output : Bytes) (c : UInt8) : Except Bytes Bytes :=
  if output.length ≥ outputSize then .error output else .ok (output ++ [c])

def replacementLoop (outputSize : ℕ) (matched : Bytes) : Bytes → Bytes → Except Bytes Bytes
  | [], output => .ok output
  | [c], output => putChar outputSize output c
  | c :: d :: rep, output =>
    if c = 36 ∧ 48 ≤ d ∧ d ≤ 57 then
      if d = 48 then do
        let output ← safeCopyToOutput outputSize output matched
        replacementLoop outputSize matched rep output
      else replacementLoop outputSize matched rep output
    else do
      let output ← putChar outputSize output c
      replacementLoop outputSize matched (d :: rep) output

def slice (text : Bytes) (a b : ℕ) : Bytes := (text.take b).drop a

/- The loop of vox_regex_replace; `none` when it takes more than `n` rounds. -/
def Searcher.replaceLoop (s : Searcher) (text replacement : Bytes) (outputSize : ℕ) :
    ℕ → ℕ → Bytes → Option (Except Bytes Bytes)
  | 0, _, _ => none
  | n + 1, textPos, output =>
    if text.length < textPos then some (.ok output)
    else
      match s.search text textPos with
      | none => some (safeCopyToOutput outputSize output (text.drop textPos))
      | some (start, last) =>
        match (do
          let output ← safeCopyToOutput outputSize output (slice text textPos start)
          replacementLoop outputSize (slice text start last) replacement output) with
        | .error output => some (.error output)
        | .ok output =>
          if start = last then
            if last < text.length then s.replaceLoop text replacement outputSize n (last + 1) output
            else some (.ok output)
          else s.replaceLoop text replacement outputSize n last output

/- vox_regex_replace: it returns -1 with an error, and else 0. The NUL is written behind the
   output. -/
def Searcher.replace (s : Searcher) (text replacement : Bytes) (outputSize : ℕ) :
    Option (Except Bytes Bytes) :=
  s.replaceLoop text (cstr replacement) outputSize (text.length + 2) 0 []

/-- How many bytes of the output a call writes, from its front on. -/
def written : Except Bytes Bytes → ℕ
  | .error output => output.length
  | .ok output => output.length + 1

/- Something that is written: a part of the text, or a character of the replacement. -/
inductive Emit where
  | copy (w : Bytes)
  | put (c : UInt8)

def Emit.bytes : Emit → Bytes
  | .copy w => w
  | .put c => [c]

def Emit.run (size : ℕ) (output : Bytes) : Emit → Except Bytes Bytes
  | .copy w => safeCopyToOutput size output w
  | .put c => putChar size output c

section Emits

variable {size : ℕ} {e : Emit} {es : List Emit} {output r : Bytes}

theorem Emit.run_ok (h : e.run size output = .ok r) : r = output ++ e.bytes ∧ r.length ≤ size := by
  cases e <;> simp only [run, safeCopyToOutput, putChar] at h <;> split at h <;> cases h
  all_goals simp only [bytes, length_append, length_singleton, true_and]; omega

theorem Emit.run_error (h : e.run size output = .error r) : r = output := by
  cases e <;> simp only [run, safeCopyToOutput, putChar] at h <;> split at h <;> cases h <;> rfl

theorem Emit.run_fits (h : output.length + e.bytes.length < size) :
    e.run size output = .ok (output ++ e.bytes) := by
  cases e <;> simp only [bytes, length_singleton] at h <;>
    exact if_neg (by omega)

theorem run_ok (h : es.foldlM (Emit.run size) output = .ok r) :
    r = output ++ es.flatMap Emit.bytes := by
  induction es generalizing output with
  | nil => simpa using (Except.ok.inj h).symm
  | cons e es ih =>
    rw [foldlM_cons] at h
    cases hrun : e.run size output with
    | error x => rw [hrun] at h; cases h
    | ok x =>
      rw [hrun] at h
      rw [ih h, (Emit.run_ok hrun).1, flatMap_cons, append_assoc]

theorem run_error (h : es.foldlM (Emit.run size) output = .error r) (hle : output.length ≤ size) :
    r.length ≤ size := by
  induction es generalizing output with
  | nil => cases h
  | cons e es ih =>
    rw [foldlM_cons] at h
    cases hrun : e.run size output with
    | error x =>
      rw [hrun] at h
      cases h
      rwa [Emit.run_error hrun]
    | ok x =>
      rw [hrun] at h
      exact ih h (Emit.run_ok hrun).2

theorem run_fits (h : output.length + (es.flatMap Emit.bytes).length < size) :
    es.foldlM (Emit.run size) output = .ok (output ++ es.flatMap Emit.bytes) := by
  induction es generalizing output with
  | nil => simp [pure, Except.pure]
  | cons e es ih =>
    rw [flatMap_cons, length_append] at h
    rw [foldlM_cons, Emit.run_fits (by omega)]
    refine (ih (by rw [length_append]; omega)).trans ?_
    rw [flatMap_cons, append_assoc]

/-- Pieces are written as they should for every size of the output, if and only if the last of them
is not a character and they make what they should. -/
theorem emits_right_iff (hne : es ≠ []) (right : Bytes) :
    (∀ size, written (es.foldlM (Emit.run size) []) ≤ size ∧
      ∀ r, es.foldlM (Emit.run size) [] = .ok r → r = right) ↔
    (∀ c, es.getLast? ≠ some (.put c)) ∧ es.flatMap Emit.bytes = right := by
  constructor
  · intro h
    refine ⟨fun c hc => ?_, (h _).2 _ (run_fits (Nat.lt_succ_self _))⟩
    -- the output is as long as all pieces, and the NUL is behind it
    obtain ⟨front, rfl⟩ := List.getLast?_eq_some_iff.mp hc
    have hrun : (front ++ [Emit.put c]).foldlM (Emit.run ((front.flatMap Emit.bytes).length + 1)) []
        = .ok (front.flatMap Emit.bytes ++ [c]) := by
      rw [foldlM_append, run_fits (by rw [length_nil]; omega)]
      show Emit.run _ (front.flatMap Emit.bytes) (.put c) >>= pure = _
      rw [bind_pure]
      exact if_neg (Nat.not_le.mpr (Nat.lt_succ_self _))
    have hle := (h ((front.flatMap Emit.bytes).length + 1)).1
    rw [hrun] at hle
    simp [written] at hle
  · rintro ⟨hlast, rfl⟩ size
    refine ⟨?_, fun r h => run_ok h⟩
    cases hrun : es.foldlM (Emit.run size) [] with
    | error r => exact run_error hrun (Nat.zero_le _)
    | ok r =>
      obtain ⟨front, e, rfl⟩ := (eq_nil_or_concat' es).resolve_left hne
      rw [foldlM_append] at hrun
      cases hfront : front.foldlM (Emit.run size) [] with
      | error x => rw [hfront] at hrun; cases hrun
      | ok x =>
        rw [hfront] at hrun
        cases e with
        | put c => exact absurd List.getLast?_concat (hlast c)
        | copy w =>
          have hcopy : safeCopyToOutput size x w >>= pure = .ok r := hrun
          rw [bind_pure, safeCopyToOutput] at hcopy
          split at hcopy
          · cases hcopy
          · cases hcopy
            rw [written, length_append]
            omega

end Emits

/- What a replacement consists of: characters, and the match (`none`). -/
def pieces : Bytes → List (Option UInt8)
  | [] => []
  | [c] => [some c]
  | c :: d :: rep =>
    if c = 36 ∧ 48 ≤ d ∧ d ≤ 57 then if d = 48 then none :: pieces rep else pieces rep
    else some c :: pieces (d :: rep)

def emit (matched : Bytes) : Option UInt8 → Emit
  | some c => .put c
  | none => .copy matched

theorem replacementLoop_eq (size : ℕ) (matched rep output : Bytes) :
    replacementLoop size matched rep output =
      ((pieces rep).map (emit matched)).foldlM (Emit.run size) output := by
  fun_induction pieces rep generalizing output with
  | case1 => rfl
  | case2 c =>
    simp only [replacementLoop, map_cons, map_nil, foldlM_cons, foldlM_nil,
      emit, Emit.run, bind_pure]
  | case3 c rep hc ih =>
    simp only [replacementLoop, if_pos hc, ih, map_cons, foldlM_cons, emit, Emit.run,
      if_true]
  | case4 c d rep hc hd ih => simp only [replacementLoop, if_pos hc, if_neg hd, ih]
  | case5 c d rep hc ih =>
    simp only [replacementLoop, if_neg hc, ih, map_cons, foldlM_cons, emit, Emit.run]

def expansion (rep matched : Bytes) : Bytes := ((pieces rep).map (emit matched)).flatMap Emit.bytes

/-- The text from `pos` on with these matches replaced. -/
def replaced (text rep : Bytes) : ℕ → List (ℕ × ℕ) → Bytes
  | pos, [] => text.drop pos
  | pos, (start, last) :: spans =>
    slice text pos start ++ (expansion rep (slice text start last) ++ replaced text rep last spans)

/- What the call writes from `pos` on when the searches find these matches. -/
def emits (text rep : Bytes) : ℕ → List (ℕ × ℕ) → List Emit
  | pos, [] => [.copy (text.drop pos)]
  | pos, (start, last) :: spans =>
    .copy (slice text pos start) :: ((pieces rep).map (emit (slice text start last)) ++
      if start = last then if last < text.length then emits text rep (last + 1) spans else []
      else emits text rep last spans)

def Bounded (text : Bytes) (search : ℕ → Option (ℕ × ℕ)) : Prop :=
  ∀ pos start last, search pos = some (start, last) →
    pos ≤ start ∧ start ≤ last ∧ last ≤ text.length

section Pieces

variable {s : Searcher} {text rep : Bytes} {search : ℕ → Option (ℕ × ℕ)} {pos n : ℕ}
  {spans others : List (ℕ × ℕ)}

theorem Iterates.unique (h : Iterates search pos spans) (h' : Iterates search pos others) :
    spans = others := by
  induction h generalizing others with
  | stop hnone =>
    cases h' with
    | stop => rfl
    | found hsome => rw [hnone] at hsome; cases hsome
  | found hsome _ ih =>
    cases h' with
    | stop hnone => rw [hnone] at hsome; cases hsome
    | found hsome' hrest =>
      cases hsome.symm.trans hsome'
      rw [ih hrest]

theorem Bounded.iterates (hb : Bounded text search) (pos : ℕ) : ∃ spans, Iterates search pos spans := by
  induction hk : text.length + 1 - pos using Nat.strong_induction_on generalizing pos with
  | _ k ih =>
    cases hsome : search pos with
    | none => exact ⟨[], .stop hsome⟩
    | some span =>
      obtain ⟨hlo, hlast, hlen⟩ := hb pos _ _ hsome
      obtain ⟨spans, hspans⟩ := ih _ (by split <;> omega)
        (if span.1 < span.2 then span.2 else span.2 + 1) rfl
      exact ⟨span :: spans, .found hsome hspans⟩

theorem Bounded.behind (hb : Bounded text search) (h : Iterates search pos spans)
    (hpos : text.length < pos) : spans = [] := by
  cases h with
  | stop => rfl
  | found hsome =>
    obtain ⟨hlo, hlast, hlen⟩ := hb _ _ _ hsome
    omega

theorem replaceLoop_eq (rep : Bytes) (size : ℕ) (hb : Bounded text (s.search text))
    (h : Iterates (s.search text) pos spans) (hpos : pos ≤ text.length)
    (hn : text.length < pos + n) (output : Bytes) : s.replaceLoop text rep size n pos output =
      some ((emits text rep pos spans).foldlM (Emit.run size) output) := by
  induction h generalizing n output with
  | stop hnone =>
    obtain ⟨n, rfl⟩ := Nat.exists_eq_add_one_of_ne_zero (n := n) (by omega)
    simp only [Searcher.replaceLoop, if_neg (Nat.not_lt.mpr hpos), hnone, emits, foldlM_cons,
      foldlM_nil, Emit.run, bind_pure]
  | @found pos start last spans hsome _ ih =>
    obtain ⟨n, rfl⟩ := Nat.exists_eq_add_one_of_ne_zero (n := n) (by omega)
    obtain ⟨hlo, hlast, hlen⟩ := hb _ _ _ hsome
    simp only [Searcher.replaceLoop, if_neg (Nat.not_lt.mpr hpos), hsome, replacementLoop_eq, emits,
      foldlM_cons, foldlM_append, Emit.run]
    rw [← bind_assoc]
    generalize hout : (do
      let output ← safeCopyToOutput size output (slice text pos start)
      ((pieces rep).map (emit (slice text start last))).foldlM (Emit.run size) output) = out
    cases out with
    | error r => rfl
    | ok r =>
      show (if start = last then _ else _) = some (List.foldlM (Emit.run size) r _)
      rcases Nat.eq_or_lt_of_le hlast with rfl | hlt
      · rw [if_pos rfl, if_pos rfl]
        rw [if_neg (Nat.lt_irrefl _)] at ih
        split
        · exact ih (by omega) (by omega) r
        · rfl
      · rw [if_neg hlt.ne, if_neg hlt.ne]
        rw [if_pos hlt] at ih
        exact ih hlen (by omega) r

theorem slice_succ {a b : ℕ} (ha : a < b) (hb : b ≤ text.length) :
    (slice text a b).length = (slice text (a + 1) b).length + 1 := by
  simp only [slice, length_drop, length_take]
  omega

theorem replaced_step (hb : Bounded text search) (h : Iterates search (pos + 1) spans)
    (hpos : pos < text.length) :
    (replaced text rep pos spans).length = (replaced text rep (pos + 1) spans).length + 1 := by
  cases h with
  | stop =>
    simp only [replaced, length_drop]
    omega
  | found hsome =>
    obtain ⟨hlo, hlast, hlen⟩ := hb _ _ _ hsome
    simp only [replaced, length_append, slice_succ hlo (hlast.trans hlen)]
    omega

theorem emits_length (rep : Bytes) (hb : Bounded text search) (h : Iterates search pos spans) :
    ((emits text rep pos spans).flatMap Emit.bytes).length +
      spans.countP (fun span => span.1 = span.2 ∧ span.2 < text.length) =
      (replaced text rep pos spans).length := by
  induction h with
  | stop => simp [emits, replaced, Emit.bytes]
  | @found pos start last spans hsome hrest ih =>
    obtain ⟨hlo, hlast, hlen⟩ := hb _ _ _ hsome
    simp only [emits, replaced, flatMap_cons, flatMap_append, length_append,
      Emit.bytes, ← expansion.eq_1, countP_cons]
    rcases Nat.eq_or_lt_of_le hlast with rfl | hlt
    · rw [if_neg (Nat.lt_irrefl _)] at ih hrest
      rcases Nat.eq_or_lt_of_le hlen with rfl | hin
      · obtain rfl := hb.behind hrest (Nat.lt_succ_self _)
        simp [replaced]
      · simp only [if_true, hin, and_true, decide_true]
        rw [replaced_step hb hrest hin]
        omega
    · rw [if_pos hlt] at ih
      simp only [hlt.ne, false_and, decide_false]
      simp only [Bool.false_eq_true, if_false, add_zero] at ih ⊢
      omega

theorem emits_bytes (hb : Bounded text search) (h : Iterates search pos spans)
    (hinner : ∀ p, (p, p) ∈ spans → text.length ≤ p) :
    (emits text rep pos spans).flatMap Emit.bytes = replaced text rep pos spans := by
  induction h with
  | stop => simp [emits, replaced, Emit.bytes]
  | @found pos start last spans hsome hrest ih =>
    obtain ⟨hlo, hlast, hlen⟩ := hb _ _ _ hsome
    have hrec := ih fun p hp => hinner p (mem_cons_of_mem _ hp)
    simp only [emits, replaced, flatMap_cons, flatMap_append, Emit.bytes,
      ← expansion.eq_1]
    rcases Nat.eq_or_lt_of_le hlast with rfl | hlt
    · obtain rfl := Nat.le_antisymm hlen (hinner start (mem_cons_self ..))
      rw [if_neg (Nat.lt_irrefl _)] at hrest
      obtain rfl := hb.behind hrest (Nat.lt_succ_self _)
      simp [replaced]
    · rw [if_pos hlt] at hrec
      rw [if_neg hlt.ne, hrec]

theorem emits_ne_nil : emits text rep pos spans ≠ [] := by
  rcases spans with _ | ⟨⟨start, last⟩, spans⟩ <;> exact cons_ne_nil _ _

/-- The last piece is a character exactly when the replacement ends with one and an empty match is
at the end. -/
theorem emits_last (hb : Bounded text search) (h : Iterates search pos spans) (c : UInt8) :
    (emits text rep pos spans).getLast? = some (.put c) ↔
      (text.length, text.length) ∈ spans ∧ (pieces rep).getLast? = some (some c) := by
  induction h with
  | stop => simp [emits]
  | @found pos start last spans hsome hrest ih =>
    obtain ⟨hlo, hlast, hlen⟩ := hb _ _ _ hsome
    have hput : (((pieces rep).map (emit (slice text start last))).getLast?.getD
        (.copy (slice text pos start))) = .put c ↔ (pieces rep).getLast? = some (some c) := by
      rw [List.getLast?_map]
      rcases (pieces rep).getLast? with _ | _ | d <;> simp [emit]
    rw [emits]
    by_cases hend : start = last ∧ ¬ last < text.length
    · obtain ⟨rfl, hin⟩ := hend
      obtain rfl : start = text.length := by omega
      rw [if_pos rfl, if_neg hin, append_nil, List.getLast?_cons, Option.some.injEq, hput]
      exact ⟨fun h => ⟨mem_cons_self .., h⟩, And.right⟩
    · have hne : (text.length, text.length) ≠ (start, last) := by
        rintro heq
        cases heq
        exact hend ⟨rfl, Nat.lt_irrefl _⟩
      have hmem : (text.length, text.length) ∈ (start, last) :: spans ↔
          (text.length, text.length) ∈ spans := by
        rw [mem_cons, or_iff_right hne]
      have htail : (if start = last then
          if last < text.length then emits text rep (last + 1) spans else []
          else emits text rep last spans) =
          emits text rep (if start < last then last else last + 1) spans := by
        split_ifs <;> first | rfl | omega
      rw [htail, List.getLast?_cons, List.getLast?_append_of_ne_nil _ emits_ne_nil, hmem, ← ih]
      cases hlast' : (emits text rep (if start < last then last else last + 1) spans).getLast? with
      | none => exact absurd (List.getLast?_eq_none_iff.mp hlast') emits_ne_nil
      | some e => rfl

end Pieces

def VoxRegex.leftmostFrom (re : VoxRegex) (text : Bytes) : ℕ → ℕ → Option (ℕ × ℕ)
  | 0, _ => none
  | n + 1, pos =>
    match re.matchAt text pos with
    | some last => some (pos, last)
    | none => re.leftmostFrom text n (pos + 1)

/-- The leftmost match of the plain matcher from a position on. -/
def VoxRegex.leftmost (re : VoxRegex) (text : Bytes) (start : ℕ) : Option (ℕ × ℕ) :=
  re.leftmostFrom text (text.length + 1 - start) start

theorem leftmost_iff {re : VoxRegex} {text : Bytes} {start p last : ℕ} :
    re.leftmost text start = some (p, last) ↔ Leftmost re text start p last := by
  rw [VoxRegex.leftmost]
  induction hn : text.length + 1 - start generalizing start with
  | zero =>
    refine ⟨nofun, fun h => ?_⟩
    have := h.start_le.trans h.le_length
    omega
  | succ n ih =>
    rw [VoxRegex.leftmostFrom]
    cases hfound : re.matchAt text start with
    | some other =>
      constructor
      · rintro ⟨⟩
        exact ⟨le_rfl, by omega, hfound, fun q hlo hhi => absurd hlo (Nat.not_le.mpr hhi)⟩
      · intro h
        rcases Nat.eq_or_lt_of_le h.start_le with rfl | hlt
        · cases hfound.symm.trans h.found
          rfl
        · cases hfound.symm.trans (h.first start le_rfl hlt)
    | none =>
      rw [ih (by omega)]
      constructor
      · intro h
        refine h.earlier (Nat.le_succ _) fun q hlo hhi => ?_
        rwa [show q = start by omega]
      · intro h
        refine h.later (Nat.le_succ _) (Nat.lt_of_le_of_ne h.start_le ?_)
        rintro rfl
        cases hfound.symm.trans h.found

theorem leftmost_bounded (re : VoxRegex) (text : Bytes) : Bounded text (re.leftmost text) := by
  intro pos start last h
  have hleft := leftmost_iff.mp h
  exact ⟨hleft.start_le, matchAt_bounds hleft.le_length hleft.found⟩

theorem Iterates.mem {search : ℕ → Option (ℕ × ℕ)} {pos : ℕ} {spans : List (ℕ × ℕ)}
    (h : Iterates search pos spans) {span : ℕ × ℕ} (hspan : span ∈ spans) :
    ∃ q, search q = some span := by
  induction h with
  | stop => cases hspan
  | found hsome _ ih =>
    rcases mem_cons.mp hspan with rfl | hspan
    · exact ⟨_, hsome⟩
    · exact ih hspan

/-- At every size of the output nothing is written behind it, and when the call returns 0 the
successive leftmost matches are replaced and all other bytes are kept. -/
def Searcher.ReplaceRight (s : Searcher) (text replacement : Bytes) : Prop :=
  ∃ spans, Iterates (s.regex.leftmost text) 0 spans ∧ ∀ outputSize, ∃ r,
    s.replace text replacement outputSize = some r ∧ written r ≤ outputSize ∧
    ∀ output, r = .ok output → output = replaced text (cstr replacement) 0 spans

/-- The replacement ends with a character that stands for itself. -/
def EndsWithChar (replacement : Bytes) : Prop :=
  ∃ c, (pieces (cstr replacement)).getLast? = some (some c)

/-- The matches that the searches find one after the other are not empty, unless at the end of the
text for a replacement that does not end with a character; and where a search misses a leftmost
match, replacing the missed ones changes nothing. -/
def Searcher.Replaceable (s : Searcher) (text replacement : Bytes) : Prop :=
  ∃ spans, Iterates (s.search text) 0 spans ∧ (∀ p, (p, p) ∈ spans → text.length ≤ p) ∧
    ((text.length, text.length) ∈ spans → ¬ EndsWithChar replacement) ∧
    ∀ others, Iterates (s.regex.leftmost text) 0 others →
      replaced text (cstr replacement) 0 spans = replaced text (cstr replacement) 0 others

/-- vox_regex_replace is right exactly then. -/
theorem replace_right_iff (alloc : ℕ → Bool) (pattern : Bytes) (flags : Flags) (s : Searcher)
    (hs : compileSearcher alloc pattern flags = some (some s)) (text replacement : Bytes) :
    s.ReplaceRight text replacement ↔ s.Replaceable text replacement := by
  have hsound := compileSearcher_sound hs text
  have hb : Bounded text (s.search text) := fun _ _ _ => hsound.search_bounds
  obtain ⟨spans, hspans⟩ := hb.iterates 0
  obtain ⟨others, hothers⟩ := (leftmost_bounded s.regex text).iterates 0
  have hemits : s.ReplaceRight text replacement ↔
      ((text.length, text.length) ∈ spans → ¬ EndsWithChar replacement) ∧
        (emits text (cstr replacement) 0 spans).flatMap Emit.bytes =
          replaced text (cstr replacement) 0 others := by
    have hlast : ((text.length, text.length) ∈ spans → ¬ EndsWithChar replacement) ↔
        ∀ c, (emits text (cstr replacement) 0 spans).getLast? ≠ some (.put c) := by
      simp only [EndsWithChar, ne_eq, emits_last hb hspans, not_and, not_exists]
      exact forall_comm
    rw [hlast, ← emits_right_iff emits_ne_nil]
    have hrun (size : ℕ) := replaceLoop_eq (s := s) (cstr replacement) size hb hspans
      (Nat.zero_le _) (n := text.length + 2) (by omega) []
    constructor
    · rintro ⟨spans', hspans', hright⟩ size
      obtain ⟨r, hr, hwritten, hout⟩ := hright size
      obtain rfl := Option.some.inj ((hrun size).symm.trans hr)
      rw [hothers.unique hspans']
      exact ⟨hwritten, hout⟩
    · exact fun h => ⟨others, hothers, fun size => ⟨_, hrun size, h size⟩⟩
  have hempty : (emits text (cstr replacement) 0 spans).flatMap Emit.bytes =
      replaced text (cstr replacement) 0 others → ∀ p, (p, p) ∈ spans → text.length ≤ p := by
    intro heq p hp
    cases hused : s.used with
    | some w =>
      -- every match begins with the prefix
      obtain ⟨q, hq⟩ := hspans.mem hp
      have hfound := (hsound.searchLoop_some hq).1.found
      exact absurd ((compileSearcher_used hs hused).2.2.2 text p p hfound).2 (Nat.lt_irrefl p)
    | none =>
      have hsearch : s.search text = s.regex.leftmost text := by
        funext start
        refine Option.ext fun span => ?_
        rw [leftmost_iff]
        exact (hsound.right_iff start).mpr (.inl hused) span.1 span.2
      have hcount := emits_length (cstr replacement) hb hspans
      rw [heq, hothers.unique (hsearch ▸ hspans)] at hcount
      have hnone := countP_eq_zero.mp (Nat.add_eq_left.mp hcount) _ hp
      simpa using hnone
  rw [hemits]
  constructor
  · rintro ⟨hlast, heq⟩
    have hinner := hempty heq
    refine ⟨spans, hspans, hinner, hlast, fun others' hothers' => ?_⟩
    rw [← emits_bytes hb hspans hinner, heq, hothers.unique hothers']
  · rintro ⟨spans', hspans', hinner, hlast, heq⟩
    obtain rfl := hspans.unique hspans'
    exact ⟨hlast, (emits_bytes hb hspans hinner).trans (heq others hothers)⟩

theorem starText_searcher : ∃ s, compileSearcher (fun _ => true) [120, 42] {} = some (some s) ∧
    (s.replace [97] [45] 8).bind Except.toOption = some [45, 45] ∧
    Iterates (s.regex.leftmost [97]) 0 [(0, 0), (1, 1)] := by
  have hrun : (compileSearcher (fun _ => true) [120, 42] {}).join.map (fun s =>
      ((s.replace [97] [45] 8).bind Except.toOption, [0, 1, 2].map (s.regex.leftmost [97]))) =
      some (some [45, 45], [some (0, 0), some (1, 1), none]) := by decide +kernel
  obtain ⟨s, hs, hvalues⟩ := Option.map_eq_some_iff.mp hrun
  simp only [Prod.mk.injEq, map_cons, List.cons.injEq] at hvalues
  obtain ⟨hout, hfirst, hsecond, hnone, -⟩ := hvalues
  exact ⟨s, Option.join_eq_some_iff.mp hs, hout, .found hfirst (.found hsecond (.stop hnone))⟩

theorem replace_right_star : ∃ s, compileSearcher (fun _ => true) [120, 42] {} = some (some s) ∧
    (s.ReplaceRight [97] [45] ↔ s.Replaceable [97] [45]) := by
  obtain ⟨s, hs, -⟩ := starText_searcher
  exact ⟨s, hs, replace_right_iff (fun _ => true) [120, 42] {} s hs [97] [45]⟩

/-- Replacing "x*" in "a" by "-" loses the letter: the output is "--". -/
theorem replace_loses_byte : ¬ ∀ alloc pattern flags s,
    compileSearcher alloc pattern flags = some (some s) → ∀ text replacement,
      s.ReplaceRight text replacement := by
  intro hall
  obtain ⟨s, hs, hout, hspans⟩ := starText_searcher
  obtain ⟨spans, hspans', hright⟩ := hall _ _ _ s hs [97] [45]
  obtain rfl := hspans.unique hspans'
  obtain ⟨r, hr, -, houtput⟩ := hright 8
  rw [hr] at hout
  cases r with
  | error output => cases hout
  | ok output =>
    obtain rfl := Option.some.inj hout
    exact absurd (houtput _ rfl) (by decide)

end Voxlib.Regex
