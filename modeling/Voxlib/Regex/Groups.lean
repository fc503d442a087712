import Voxlib.Regex.Patterns

/-!
# Captured groups

add_state sets a mark before it follows a state and takes it back, so no mark is left when the
spans are reported.
-/

namespace Voxlib.Regex
open CStr List

def npos : ℕ := 2 ^ 64 - 1

/- The arrays g_starts and g_ends of a match_context_t. -/
structure GroupMarks where
  starts : List ℕ
  ends : List ℕ
  deriving DecidableEq, Repr

def GroupMarks.read (g : GroupMarks) (groupStart : Bool) (groupId : ℕ) : ℕ :=
  if groupStart then g.starts.getD groupId 0 else g.ends.getD groupId 0

def GroupMarks.write (g : GroupMarks) (groupStart : Bool) (groupId pos : ℕ) : GroupMarks :=
  if groupStart then { g with starts := g.starts.set groupId pos }
  else { g with ends := g.ends.set groupId pos }

def GroupMarks.fresh (groupCount : ℕ) : GroupMarks :=
  ⟨List.replicate (groupCount + 1) npos, List.replicate (groupCount + 1) npos⟩

section Matching

variable (assertion : ℕ → ℕ → Bool → Bool) (re : VoxRegex) (text : Bytes)

/- add_state; there are arrays when there are groups. -/
def addStateMarked (generation : UInt32) (pos : ℕ) : ℕ → Option ℕ → Marks × GroupMarks →
    Marks × GroupMarks
  | 0, _, m => m
  | _ + 1, none, m => m
  | n + 1, some q, (m, g) =>
    let state := re.heap.state q
    let id := state.id.getD 0
    if m.visited.getD id 0 = generation then (m, g)
    else
      let m := { m with visited := m.visited.set id generation }
      let go := addStateMarked generation pos n state.out1 (m, g)
      match state.type with
      | .split => addStateMarked generation pos n state.out2 go
      | .anchorStart =>
        if pos = 0 ∨ (re.flags.multiline ∧ isEol (text.getD (pos - 1) 0)) then go else (m, g)
      | .anchorEnd =>
        if pos = text.length ∨ (re.flags.multiline ∧ pos < text.length ∧ isEol (text.getD pos 0))
        then go else (m, g)
      | type =>
        if state.groupId.isSome ∧ re.groupCount > 0 then
          let groupId := state.groupId.getD 0
          let oldVal := g.read state.groupStart groupId
          let (m, g) := addStateMarked generation pos n state.out1
            (m, g.write state.groupStart groupId pos)
          (m, g.write state.groupStart groupId oldVal)
        else
          match type with
          | .wordBoundary =>
            let left := pos > 0 && isWordChar (text.getD (pos - 1) 0)
            let right := pos < text.length && isWordChar (text.getD pos 0)
            if left ≠ right then go else (m, g)
          | .lookahead negative start =>
            if assertion start pos false = !negative then go else (m, g)
          | .lookbehind negative start =>
            if assertion start pos true = !negative then go else (m, g)
          | _ => ({ m with list := m.list ++ [q] }, g)

def nextListMarked (generation : UInt32) (pos : ℕ) (ch : UInt8) (list : List ℕ)
    (m : Marks × GroupMarks) : Marks × GroupMarks :=
  list.foldl (fun m q =>
    if (re.heap.state q).type.reads re.flags.ignoreCase ch then
      addStateMarked assertion re text generation pos (re.heap.length + 1) (re.heap.state q).out1 m
    else m) m

def matchLoopMarked (fullMatch : Bool) : Bytes → ℕ → UInt32 → Marks × GroupMarks → Option ℕ →
    Option ℕ × GroupMarks
  | rest, pos, generation, (m, g), best =>
    let found := hasMatchState re m.list
    let best := if found ∧ (fullMatch → rest = []) then some pos else best
    if found ∧ ¬ fullMatch ∧ re.hasNonGreedy then (best, g)
    else
      match rest with
      | [] => (best, g)
      | ch :: rest =>
        if m.list = [] then (best, g)
        else
          matchLoopMarked fullMatch rest (pos + 1) (generation + 1)
            (nextListMarked assertion re text (generation + 1) (pos + 1) ch m.list
              (⟨m.visited, []⟩, g)) best

/- The matches argument of match_internal, where the text is matched. -/
def matchesWith (start : ℕ) (fullMatch : Bool) : Option (List (ℕ × ℕ)) :=
  let m := addStateMarked assertion re text 1 start (re.heap.length + 1) (some re.start)
    (⟨List.replicate re.stateCount 0, []⟩, .fresh re.groupCount)
  let (best, g) := matchLoopMarked assertion re text fullMatch (text.drop start) start 1 m none
  best.map fun last => (start, last) ::
    (List.range re.groupCount).map fun i => (g.read true (i + 1), g.read false (i + 1))

end Matching

/- vox_regex_match with a matches argument: what is reported, where it returns true. -/
def regexMatches (re : VoxRegex) (text : Bytes) : Option (List (ℕ × ℕ)) :=
  matchesWith (verifyAssertion re re.heap.length text) re text 0 true

theorem GroupMarks.write_back (g : GroupMarks) (groupStart : Bool) (groupId pos : ℕ) :
    (g.write groupStart groupId pos).write groupStart groupId (g.read groupStart groupId) = g := by
  have hset (l : List ℕ) : l.set groupId (l.getD groupId 0) = l := by
    by_cases hlt : groupId < l.length
    · rw [getD_eq_getElem _ _ hlt, set_getElem_self]
    · exact set_eq_of_length_le (not_lt.mp hlt)
  obtain ⟨starts, ends⟩ := g
  cases groupStart <;> simp only [write, read, if_true, if_false, Bool.false_eq_true,
    set_set, hset]

section Matching

variable (assertion : ℕ → ℕ → Bool → Bool) (re : VoxRegex) (text : Bytes)

theorem addStateMarked_eq (generation : UInt32) (pos n : ℕ) (q : Option ℕ) (m : Marks)
    (g : GroupMarks) : addStateMarked assertion re text generation pos n q (m, g) =
      (addState assertion re text generation pos n q m, g) := by
  induction n generalizing q m g with
  | zero => rfl
  | succ n ih =>
    cases q with
    | none => rfl
    | some q =>
      simp only [addStateMarked, addState, ih, GroupMarks.write_back]
      split_ifs
      · rfl
      all_goals cases (re.heap.state q).type <;> dsimp only <;> split_ifs <;> rfl

theorem nextListMarked_eq (generation : UInt32) (pos : ℕ) (ch : UInt8) (list : List ℕ) (m : Marks)
    (g : GroupMarks) : nextListMarked assertion re text generation pos ch list (m, g) =
      (nextList assertion re text generation pos ch list m, g) := by
  induction list generalizing m with
  | nil => rfl
  | cons q list ih =>
    simp only [nextListMarked, nextList, foldl_cons, addStateMarked_eq] at ih ⊢
    split_ifs
    · exact ih _
    · exact ih m

theorem matchLoopMarked_eq (fullMatch : Bool) (rest : Bytes) (pos : ℕ) (generation : UInt32)
    (m : Marks) (g : GroupMarks) (best : Option ℕ) :
    matchLoopMarked assertion re text fullMatch rest pos generation (m, g) best =
      (matchLoop assertion re text fullMatch rest pos generation m best, g) := by
  induction rest generalizing pos generation m best with
  | nil =>
    rw [matchLoopMarked, matchLoop]
    split_ifs <;> rfl
  | cons ch rest ih =>
    rw [matchLoopMarked, matchLoop]
    simp only [nextListMarked_eq, ih]
    split_ifs <;> rfl

theorem fresh_read {groupCount i : ℕ} (hi : i < groupCount + 1) (groupStart : Bool) :
    (GroupMarks.fresh groupCount).read groupStart i = npos := by
  cases groupStart <;> simp [GroupMarks.fresh, GroupMarks.read, hi]

theorem matchesWith_eq (start : ℕ) (fullMatch : Bool) :
    matchesWith assertion re text start fullMatch =
      (matchWith assertion re text start fullMatch).map fun last =>
        (start, last) :: List.replicate re.groupCount (npos, npos) := by
  have hnone : (List.range re.groupCount).map (fun i =>
      ((GroupMarks.fresh re.groupCount).read true (i + 1),
        (GroupMarks.fresh re.groupCount).read false (i + 1))) =
      List.replicate re.groupCount (npos, npos) := by
    refine eq_replicate_iff.mpr ⟨by simp, fun x hx => ?_⟩
    obtain ⟨i, hi, rfl⟩ := mem_map.mp hx
    have hlt := Nat.succ_lt_succ (mem_range.mp hi)
    rw [fresh_read hlt, fresh_read hlt]
  simp only [matchesWith, matchWith, addStateMarked_eq, matchLoopMarked_eq, hnone]

end Matching

mutual

/- Literals, classes and capturing groups one behind the other. -/
def Atom.Fixed : Atom → Prop
  | .char _ | .dot | .charClass _ _ | .escape _ => True
  | .group capturing e => capturing = true ∧ e.Fixed
  | _ => False

def Factor.Fixed : Factor → Prop
  | .plain a => a.Fixed
  | .repeated _ _ _ => False

def Term.Fixed : Term → Prop
  | .one f => f.Fixed
  | .more f t => f.Fixed ∧ t.Fixed

def Expr.Fixed : Expr → Prop
  | .one t => t.Fixed
  | .more _ _ => False

end

mutual

def Atom.width : Atom → ℕ
  | .group _ e => e.width
  | _ => 1

def Factor.width : Factor → ℕ
  | .plain a => a.width
  | .repeated _ _ _ => 0

def Term.width : Term → ℕ
  | .one f => f.width
  | .more f t => f.width + t.width

def Expr.width : Expr → ℕ
  | .one t => t.width
  | .more _ _ => 0

end

mutual

/- What the groups read from position `p` on, in the order of their opening parentheses. -/
def Atom.spans (p : ℕ) : Atom → List (ℕ × ℕ)
  | .group true e => (p, p + e.width) :: e.spans p
  | .group false e => e.spans p
  | _ => []

def Factor.spans (p : ℕ) : Factor → List (ℕ × ℕ)
  | .plain a => a.spans p
  | .repeated _ _ _ => []

def Term.spans (p : ℕ) : Term → List (ℕ × ℕ)
  | .one f => f.spans p
  | .more f t => f.spans p ++ t.spans (p + f.width)

def Expr.spans (p : ℕ) : Expr → List (ℕ × ℕ)
  | .one t => t.spans p
  | .more _ _ => []

end

mutual

def Atom.Groupless : Atom → Prop
  | .group _ _ => False
  | _ => True

def Factor.Groupless : Factor → Prop
  | .plain a => a.Groupless
  | .repeated _ _ _ => True

def Term.Groupless : Term → Prop
  | .one f => f.Groupless
  | .more f t => f.Groupless ∧ t.Groupless

def Expr.Groupless : Expr → Prop
  | .one t => t.Groupless
  | .more _ _ => True

end

mutual

theorem Atom.length_of_mem {a : Atom} (h : a.Fixed) {w : Bytes} (hw : w ∈ a.lang) :
    w.length = a.width := by
  match a with
  | .char _ | .dot | .charClass _ _ | .escape _ =>
    obtain ⟨c, -, rfl⟩ := hw
    rfl
  | .group _ _ => exact Expr.length_of_mem h.2 hw

theorem Factor.length_of_mem {f : Factor} (h : f.Fixed) {w : Bytes} (hw : w ∈ f.lang) :
    w.length = f.width := by
  match f with
  | .plain _ => exact Atom.length_of_mem h hw

theorem Term.length_of_mem {t : Term} (h : t.Fixed) {w : Bytes} (hw : w ∈ t.lang) :
    w.length = t.width := by
  match t with
  | .one _ => exact Factor.length_of_mem h hw
  | .more f t =>
    obtain ⟨u, hu, v, hv, rfl⟩ := Language.mem_mul.mp hw
    rw [length_append, Factor.length_of_mem h.1 hu, Term.length_of_mem h.2 hv, Term.width]

theorem Expr.length_of_mem {e : Expr} (h : e.Fixed) {w : Bytes} (hw : w ∈ e.lang) :
    w.length = e.width := by
  match e with
  | .one _ => exact Term.length_of_mem h hw

end

mutual

theorem Atom.spans_spec {a : Atom} (h : a.Fixed) (p : ℕ) :
    0 < a.width ∧ (∀ span ∈ a.spans p, span.1 < span.2) ∧ (a.spans p = [] ↔ a.Groupless) := by
  match a with
  | .char _ | .dot | .charClass _ _ | .escape _ => exact ⟨one_pos, nofun, iff_of_true rfl trivial⟩
  | .group true e =>
    obtain ⟨hpos, hall, -⟩ := Expr.spans_spec h.2 p
    exact ⟨hpos, forall_mem_cons.mpr ⟨Nat.lt_add_of_pos_right hpos, hall⟩,
      iff_of_false (cons_ne_nil _ _) id⟩

theorem Factor.spans_spec {f : Factor} (h : f.Fixed) (p : ℕ) :
    0 < f.width ∧ (∀ span ∈ f.spans p, span.1 < span.2) ∧ (f.spans p = [] ↔ f.Groupless) := by
  match f with
  | .plain _ => exact Atom.spans_spec h p

theorem Term.spans_spec {t : Term} (h : t.Fixed) (p : ℕ) :
    0 < t.width ∧ (∀ span ∈ t.spans p, span.1 < span.2) ∧ (t.spans p = [] ↔ t.Groupless) := by
  match t with
  | .one _ => exact Factor.spans_spec h p
  | .more f t =>
    obtain ⟨hpos, hall, hnil⟩ := Factor.spans_spec h.1 p
    obtain ⟨-, hall', hnil'⟩ := Term.spans_spec h.2 (p + f.width)
    refine ⟨Nat.add_pos_left hpos _, forall_mem_append.mpr ⟨hall, hall'⟩, ?_⟩
    rw [Term.spans, append_eq_nil_iff, hnil, hnil', Term.Groupless]

theorem Expr.spans_spec {e : Expr} (h : e.Fixed) (p : ℕ) :
    0 < e.width ∧ (∀ span ∈ e.spans p, span.1 < span.2) ∧ (e.spans p = [] ↔ e.Groupless) := by
  match e with
  | .one _ => exact Term.spans_spec h p

end

def Reported (e : Expr) (flags : Flags) (text : Bytes) (found : List (ℕ × ℕ)) : Prop :=
  ∃ re, compile e.text flags = some (some re) ∧ regexMatches re text = some found

/- For every opening parenthesis what its group reads is reported. -/
def GroupsRight (e : Expr) (found : List (ℕ × ℕ)) : Prop :=
  ∀ i span, (e.spans 0)[i]? = some span → found[i + 1]? = some span

/-- The groups of a pattern are reported as they were read exactly when there are none. -/
theorem groups_right_iff (e : Expr) (hok : e.Ok ∧ e.Fixed) (flags : Flags) (text : Bytes)
    (found : List (ℕ × ℕ)) (h : Reported e flags text found) :
    GroupsRight e found ↔ e.Groupless := by
  obtain ⟨-, hall, hnil⟩ := Expr.spans_spec hok.2 0
  constructor
  · intro hright
    refine hnil.mp (eq_nil_iff_forall_not_mem.mpr fun span hspan => ?_)
    obtain ⟨i, hi⟩ := List.getElem?_of_mem hspan
    obtain ⟨re, -, hfound⟩ := h
    rw [regexMatches, matchesWith_eq] at hfound
    obtain ⟨last, -, rfl⟩ := Option.map_eq_some_iff.mp hfound
    have hunset := hright i span hi
    rw [List.getElem?_cons_succ] at hunset
    obtain rfl := eq_of_mem_replicate (mem_of_getElem? hunset)
    exact absurd (hall _ hspan) (lt_irrefl npos)
  · intro hless i span hi
    rw [hnil.mpr hless] at hi
    cases hi

def oneGroup : Expr :=
  .one (.one (.plain (.group true (.one (.one (.plain (.char 97)))))))

theorem one_group_reported : Reported oneGroup {} [97] [(0, 1), (npos, npos)] := by
  have hrun : (compile oneGroup.text {}).map (·.map (regexMatches · [97])) =
      some (some (some [(0, 1), (npos, npos)])) := by decide +kernel
  obtain ⟨found, hfound, hmap⟩ := Option.map_eq_some_iff.mp hrun
  obtain ⟨re, rfl, hmatch⟩ := Option.map_eq_some_iff.mp hmap
  exact ⟨re, hfound, hmatch⟩

theorem groups_right_one_group : ¬ GroupsRight oneGroup [(0, 1), (npos, npos)] :=
  fun h => (groups_right_iff oneGroup ⟨rfl, rfl, trivial⟩ {} [97] _ one_group_reported).mp h

/-- `(a)` matches `a`, and its group is reported at -1. -/
theorem one_group_unset : ¬ ∀ (e : Expr), e.Ok ∧ e.Fixed → ∀ (flags : Flags) (text : Bytes)
    (found : List (ℕ × ℕ)), Reported e flags text found → GroupsRight e found := by
  intro h
  have hspan := h oneGroup ⟨rfl, rfl, trivial⟩ {} [97] _ one_group_reported 0 (0, 1) rfl
  exact absurd hspan (by decide)

end Voxlib.Regex
