import Voxlib.Lib.Visit
import Voxlib.Regex.Parsing

/-!
# Compilation

The compiled states of a pattern are a machine that reads the words of the tree.
-/

namespace Voxlib.Regex
open CStr Automaton Visit List
open scoped Computability

def nextStates (h : Heap) (q : ℕ) : List ℕ :=
  (h.node q).out1.toList ++ (h.node q).out2.toList ++ (h.node q).type.body.toList

def NfaState.withId (s : NfaState) (id : Option ℕ) : NfaState := { s with id := id }

/- The states of `h`, numbered in the order in which they are in `seen`. -/
structure Numbered (h k : Heap) (seen : List ℕ) : Prop where
  length : k.length = h.length
  states : ∀ q, k.state q = (h.state q).withId (if q ∈ seen then some (seen.idxOf q) else none)

variable {h k r : Heap} {q : ℕ} {seen : List ℕ}

theorem Numbered.refl (hid : ∀ q, (h.state q).id = none) : Numbered h h [] where
  length := rfl
  states q := by
    rw [if_neg not_mem_nil, ← hid q]
    rfl

theorem Numbered.mark (hn : Numbered h k seen) (hq : q < h.length) (hnew : q ∉ seen) :
    Numbered h (k.update q ({ · with id := some seen.length })) (seen ++ [q]) where
  length := (length_update ..).trans hn.length
  states p := by
    by_cases hp : p = q
    · subst hp
      rw [state_update_same _ (hn.length ▸ hq), hn.states p, if_pos (show p ∈ seen ++ [p] by simp),
        idxOf_append_of_notMem hnew, idxOf_cons_self, Nat.add_zero]
      rfl
    · rw [state_update_ne _ hp, hn.states p]
      by_cases hmem : p ∈ seen
      · rw [if_pos hmem, if_pos (mem_append_left _ hmem), idxOf_append_of_mem hmem]
      · rw [if_neg hmem, if_neg (by simp [hmem, hp])]

theorem assignStateIds_none (n : ℕ) (h : Heap) (count : ℕ) :
    assignStateIds n h none count = (h, count) := by
  cases n <;> rfl

theorem assignStateIds_marked {n : ℕ} {count : ℕ} (hid : (h.state q).id ≠ none) :
    assignStateIds n h (some q) count = (h, count) := by
  cases n with
  | zero => rfl
  | succ n => rw [assignStateIds, if_pos hid]

theorem assignStateIds_fresh (n : ℕ) {count : ℕ} (hid : (h.state q).id = none) :
    assignStateIds (n + 1) h (some q) count =
      let marked := h.update q ({ · with id := some count })
      let first := assignStateIds n marked (marked.state q).out1 (count + 1)
      let second := assignStateIds n first.1 (first.1.state q).out2 first.2
      assignStateIds n second.1 (second.1.state q).type.body second.2 := by
  rw [assignStateIds, if_neg (not_not.mpr hid)]
  generalize h.update q ({ · with id := some count }) = marked
  dsimp only
  generalize assignStateIds n marked (marked.state q).out1 (count + 1) = first
  generalize assignStateIds n first.1 (first.1.state q).out2 first.2 = second
  cases (second.1.state q).type with
  | lookahead negative start => rfl
  | lookbehind negative start => rfl
  | _ => exact (assignStateIds_none n second.1 second.2).symm

theorem assignStateIds_visit (hrange : ∀ q < h.length, ∀ t ∈ nextStates h q, t < h.length)
    (n q : ℕ) (hq : q < h.length) (k : Heap) (seen : List ℕ) (hn : Numbered h k seen) :
    Numbered h (assignStateIds n k (some q) seen.length).1 (visit (nextStates h) n q seen) ∧
      (assignStateIds n k (some q) seen.length).2 = (visit (nextStates h) n q seen).length := by
  induction n generalizing q k seen with
  | zero => exact ⟨hn, rfl⟩
  | succ n ih =>
    have hid : (k.state q).id = if q ∈ seen then some (seen.idxOf q) else none :=
      congrArg NfaState.id (hn.states q)
    by_cases hmem : q ∈ seen
    · rw [if_pos hmem] at hid
      rw [assignStateIds_marked (by rw [hid]; exact Option.some_ne_none _), visit, if_pos hmem]
      exact ⟨hn, rfl⟩
    · rw [if_neg hmem] at hid
      have hopt : ∀ (o : Option ℕ), (∀ t ∈ o.toList, t < h.length) → ∀ (k : Heap) (seen : List ℕ),
          Numbered h k seen → Numbered h (assignStateIds n k o seen.length).1
            (o.toList.foldl (fun seen t => visit (nextStates h) n t seen) seen) ∧
          (assignStateIds n k o seen.length).2 =
            (o.toList.foldl (fun seen t => visit (nextStates h) n t seen) seen).length := by
        intro o ho k seen hn
        cases o with
        | none =>
          rw [assignStateIds_none]
          exact ⟨hn, rfl⟩
        | some t => exact ih t (ho t (by simp)) k seen hn
      have hmark := hn.mark hq hmem
      have hout (k : Heap) (seen : List ℕ) (hn : Numbered h k seen) :
          (k.state q).out1 = (h.node q).out1 ∧ (k.state q).out2 = (h.node q).out2 ∧
            (k.state q).type = (h.node q).type := by
        rw [hn.states q]
        exact ⟨rfl, rfl, rfl⟩
      have hlen : seen.length + 1 = (seen ++ [q]).length := by simp
      rw [visit, if_neg hmem, nextStates, foldl_append, foldl_append,
        assignStateIds_fresh n hid]
      dsimp only
      rw [(hout _ _ hmark).1, hlen]
      generalize k.update q ({ · with id := some seen.length }) = k₁ at hmark
      obtain ⟨hfirst, hcount⟩ := hopt (h.node q).out1 (fun t ht => hrange q hq t
        (mem_append_left _ (mem_append_left _ ht))) _ _ hmark
      generalize assignStateIds n k₁ (h.node q).out1 (seen ++ [q]).length = first at hfirst hcount ⊢
      rw [(hout _ _ hfirst).2.1, hcount]
      obtain ⟨hsecond, hcount⟩ := hopt (h.node q).out2 (fun t ht => hrange q hq t
        (mem_append_left _ (mem_append_right _ ht))) _ _ hfirst
      generalize assignStateIds n first.1 (h.node q).out2 _ = second at hsecond hcount ⊢
      rw [(hout _ _ hsecond).2.2, hcount]
      exact hopt (h.node q).type.body (fun t ht => hrange q hq t
        (mem_append_right _ ht)) _ _ hsecond

/-- The states in `S` have different numbers, and lead to each other. -/
structure Ready (re : VoxRegex) (S : Set ℕ) : Prop where
  start : re.start ∈ S
  range : ∀ q ∈ S, q < re.heap.length
  closed : ∀ q ∈ S, ∀ t ∈ nextStates re.heap q, t ∈ S
  numbered : ∀ q ∈ S, ∃ i < re.stateCount, (re.heap.state q).id = some i
  distinct : ∀ p ∈ S, ∀ q ∈ S, (re.heap.state p).id = (re.heap.state q).id → p = q
  marked : Marked re.heap

def Whole (bodies : Bodies) (tests : Bool) (h : Heap) (start : ℕ) (l : Language Letter) : Prop :=
  ∃ final A, Machine bodies tests h start final A l ∧ ∀ q ∈ A, ∀ s, (h.node q).type.body = some s →
    ∃ final B, Machine bodies false h s final B (spelled (bodies s))

theorem Numbered.node_eq (hn : Numbered h k seen) (q : ℕ) : (k.node q).type = (h.node q).type ∧
    (k.node q).out1 = (h.node q).out1 ∧ (k.node q).out2 = (h.node q).out2 := by
  rw [Heap.node, hn.states q]
  exact ⟨rfl, rfl, rfl⟩

theorem Numbered.nextStates_eq (hn : Numbered h k seen) (q : ℕ) :
    nextStates k q = nextStates h q := by
  obtain ⟨htype, hout1, hout2⟩ := hn.node_eq q
  rw [nextStates, htype, hout1, hout2]
  rfl

theorem Numbered.nfa_eq (hn : Numbered h k seen) (bodies : Bodies) :
    nfa bodies k = nfa bodies h := by
  simp only [nfa, hn.node_eq]

variable {bodies : Bodies}

theorem Numbered.machine (hn : Numbered h k seen) {tests : Bool} {start final : ℕ} {A : Set ℕ}
    {l : Language Letter} (hm : Machine bodies tests h start final A l) :
    Machine bodies tests k start final A l := by
  refine ⟨hm.start_mem, hm.final_mem, fun q hq t ht => ?_, fun q hq hne => ?_, ?_, ?_⟩
  · obtain ⟨-, hout1, hout2⟩ := hn.node_eq q
    rw [hout1, hout2] at ht
    exact hm.closed q hq t ht
  · rw [(hn.node_eq q).1]
    exact hm.types q hq hne
  · rw [(hn.node_eq final).1]
    exact hm.matched
  · rw [hn.nfa_eq, hm.lang]

theorem Numbered.marked (hn : Numbered h k seen) (hm : Marked h) : Marked k := by
  intro q hq
  rw [hn.states q] at hq
  rw [(hn.node_eq q).1]
  exact hm q hq

theorem marked_nil : Marked [] := fun _ hq => absurd rfl hq

theorem Finished.compiled {tests : Bool} {start final : ℕ} {l : Language Letter}
    (hf : Finished bodies tests [] h start final l) {re : VoxRegex} (hstart : re.start = start)
    (hheap : (re.heap, re.stateCount) = assignStateIds (h.length + 1) h (some start) 0) :
    (∃ S, Ready re S) ∧ Whole bodies tests re.heap re.start l := by
  obtain ⟨A, hm, hA, hbodies⟩ := hf.machine
  have hlt := (hA start hm.start_mem).2
  have hrange : ∀ q < h.length, ∀ t ∈ nextStates h q, t < h.length := by
    intro q hq t ht
    have hin := hf.inside q (Nat.zero_le q) hq
    simp only [nextStates, mem_append, Option.mem_toList] at ht
    rcases ht with ht | ht
    · exact (hin.outs t ht).2
    · exact (hin.body t ht).2
  have hid (q : ℕ) : (h.state q).id = none := by
    by_cases hq : q < h.length
    · exact (hf.inside q (Nat.zero_le q) hq).id
    · rw [Heap.state, getD_eq_default h _ (Nat.not_lt.mp hq)]
  obtain ⟨hn, hcount⟩ := assignStateIds_visit hrange (h.length + 1) start hlt h [] (.refl hid)
  have hvisit : Visited (nextStates h) (Finset.range h.length) [start] []
      (visit (nextStates h) (h.length + 1) start []) := by
    refine visit_visited (fun q hq t ht => ?_) (h.length + 1) start [] (Finset.mem_range.mpr hlt)
      nodup_nil (fun t ht => absurd ht not_mem_nil) (by simp)
    exact Finset.mem_range.mpr (hrange q (Finset.mem_range.mp hq) t ht)
  rw [length_nil, ← hheap] at hn hcount
  generalize visit (nextStates h) (h.length + 1) start [] = seen at hn hcount hvisit
  dsimp only at hn hcount
  have hids (q : ℕ) (hq : q ∈ seen) : (re.heap.state q).id = some (seen.idxOf q) := by
    rw [hn.states q, if_pos hq]
    rfl
  refine ⟨⟨{q | q ∈ seen}, ?_, fun q hq => ?_, fun q hq t ht => ?_, fun q hq => ?_,
    fun p hp q hq heq => ?_, hn.marked (hf.marked marked_nil)⟩, final, A, ?_, fun q hq s hs => ?_⟩
  · rw [hstart]
    exact hvisit.started start (mem_singleton_self start)
  · rw [hn.length]
    exact Finset.mem_range.mp (hvisit.within q hq)
  · rw [hn.nextStates_eq] at ht
    exact hvisit.closed q hq not_mem_nil t ht
  · exact ⟨seen.idxOf q, hcount ▸ idxOf_lt_length_of_mem hq, hids q hq⟩
  · rw [hids p hp, hids q hq, Option.some.injEq] at heq
    exact (idxOf_inj hp).mp heq
  · rw [hstart]
    exact hn.machine hm
  · rw [(hn.node_eq q).1] at hs
    obtain ⟨B, final, hbody, -, -⟩ := hbodies q hq s hs
    exact ⟨final, B, hn.machine hbody⟩

/-- A pattern that is parsed to its end is accepted, and its automaton reads what the fragment
means. -/
theorem compile_built {multiline : Bool} {p : Bytes} {frag : Fragment} {s : Parser} {m : Meaning}
    (hout : parseExpr (lineFlags multiline) (6 * p.length + 6) ⟨[], p, some 0⟩ =
      some (some frag, s)) (hs : s.pattern = []) (hb : Built bodies true [] s.heap frag m) :
    ∃ re S, compile p (lineFlags multiline) = some (some re) ∧ re.flags = lineFlags multiline ∧
      Ready re S ∧ Whole bodies true re.heap re.start m.lang := by
  have hsplit : ((createNfaState s.heap .matched).2.state frag.last).type = .split := by
    change ((createNfaState s.heap .matched).2.node frag.last).type = .split
    rw [node_create_old _ hb.last.2, hb.last_open]
    rfl
  have hfinished := hb.finished
  cases hassign : assignStateIds ((s.heap.withMatch frag.last).length + 1)
      (s.heap.withMatch frag.last) (some frag.start) 0 with
  | mk h count =>
    obtain ⟨re, hre⟩ : ∃ re : VoxRegex, re = ⟨h, frag.start, lineFlags multiline,
      s.groupId.getD 0, nonGreedyLoop 0 p, count⟩ := ⟨_, rfl⟩
    obtain ⟨⟨S, hready⟩, hwhole⟩ := @Finished.compiled _ bodies _ _ _ _ hfinished re (by rw [hre])
      (by rw [hre, hassign])
    subst hre
    refine ⟨_, S, ?_, rfl, hready, hwhole⟩
    have hhead : ¬ s.pattern.headD 0 ≠ 0 := by
      rw [hs]
      simp
    rw [compile, hout, Option.bind_eq_bind, Option.bind_some]
    dsimp only
    rw [if_neg hhead, if_pos hsplit]
    change some (some _) = _
    rw [Heap.withMatch] at hassign
    dsimp only [createNfaState] at hassign ⊢
    rw [hassign]

theorem compile_tree {e : Expr} (hok : e.Ok) (hfits : e.All Quantifier.Fits) (hflat : e.Flat)
    (hslash : e.SlashOk true) (multiline : Bool) :
    ∃ re bodies S, compile e.text (lineFlags multiline) = some (some re) ∧
      re.flags = lineFlags multiline ∧ Ready re S ∧
      Whole bodies true re.heap re.start (e.meaning true).lang := by
  obtain ⟨frag, s, hout, hs, -, bodies, -, hb⟩ := (@Expr.parsed multiline e true true hok hfits hflat
    nofun true hslash [] (fun _ => rfl) (.inl rfl) (6 * e.text.length + 6) (by omega) (fun _ => 0)
    ⟨[], e.text, some 0⟩ rfl).1 (append_nil _).symm
  obtain ⟨re, S, hcompile⟩ := compile_built hout hs hb
  exact ⟨re, bodies, S, hcompile⟩

end Voxlib.Regex
