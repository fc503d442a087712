import Voxlib.Http.Multipart.Rendered

/-!
# A body that arrives in pieces (vox_http_multipart_parser.c)

Each step parses what was withheld and a new piece. No delimiter is longer than
end_delim, so none starts in what is released.
-/

namespace Voxlib.Multipart
open CStr List Run
open HttpParser (crlf)
open InBuffer.Multipart (Core)

def lfForms (boundary : Bytes) : List Bytes :=
  [dashed boundary ++ crlf, dashed boundary ++ (lit "--" ++ crlf)]

def forms (boundary : Bytes) : List Bytes :=
  lfForms boundary ++ (lfForms boundary).map (13 :: ·)

def Leads (ds : List Bytes) (t : Bytes) : Prop := ∃ d ∈ ds, d <+: t

/-- A delimiter stands at position `k` of `t`. -/
def StandsAt (boundary t : Bytes) (k : ℕ) : Prop := Leads (forms boundary) (t.drop k)

/-- The parser within a body, what it withheld, and all that was fed and released so far. -/
structure Body where
  core : Core
  view : Bytes := []
  fed : Bytes := []
  released : Bytes := []

def Event.data : Event → Bytes
  | .partData data => data
  | _ => []

/-- A step that finds no complete delimiter and whose callback succeeds. -/
def bodyStep (cb : Event → ℤ) (cfg : Config) (boundary : Bytes) (s : Body) (piece : Bytes) :
    Option Body :=
  (doParse cb cfg boundary s.core (s.view ++ piece)).bind fun r =>
    if r.code = -2 ∧ .partComplete ∉ r.events then
      some ⟨r.core, (s.view ++ piece).drop r.consumed, s.fed ++ piece,
        s.released ++ r.events.flatMap Event.data⟩
    else none

/-- What is released and what is withheld are the bytes fed; whatever follows, no delimiter starts
among the released ones; few are withheld. -/
structure Inside (boundary : Bytes) (s : Body) : Prop where
  whole : s.released ++ s.view = s.fed
  clear : ∀ later, ∀ k < s.released.length, ¬ StandsAt boundary (s.fed ++ later) k
  held : s.view.length ≤ maxDelimLen boundary - 1

variable {cb : Event → ℤ} {cfg : Config} {boundary : Bytes}

theorem append_prefix {p x t : Bytes} :
    p ++ x <+: t ↔ t.take p.length = p ∧ (t.drop p.length).take x.length = x := by
  constructor
  · rintro ⟨u, rfl⟩
    simp
  · rintro ⟨hp, hx⟩
    refine ⟨(t.drop p.length).drop x.length, ?_⟩
    conv_rhs => rw [← take_append_drop p.length t, hp, ← take_append_drop x.length (t.drop _), hx]
    rw [append_assoc]

theorem lfForms_length {d : Bytes} (hd : d ∈ lfForms boundary) :
    1 + 2 + boundary.length + 2 ≤ d.length ∧ d.length < maxDelimLen boundary := by
  have hlong : maxDelimLen boundary = boundary.length + 8 := by
    simp [maxDelimLen, endDelim, crlf, lit]
  rcases mem_pair.mp hd with rfl | rfl
  all_goals
    simp [dashed, crlf, lit] at hlong ⊢
    omega

theorem leads_forms {t : Bytes} : Leads (forms boundary) t ↔
    Leads (lfForms boundary) t ∨ ∃ u, t = 13 :: u ∧ Leads (lfForms boundary) u := by
  constructor
  · rintro ⟨d, hd, hpre⟩
    rcases mem_append.mp hd with hd | hd
    · exact .inl ⟨d, hd, hpre⟩
    · obtain ⟨e, he, rfl⟩ := mem_map.mp hd
      obtain ⟨u, rfl⟩ := hpre
      exact .inr ⟨e ++ u, rfl, e, he, prefix_append _ _⟩
  · rintro (⟨d, hd, hpre⟩ | ⟨u, rfl, d, hd, hpre⟩)
    · exact ⟨d, mem_append_left _ hd, hpre⟩
    · exact ⟨13 :: d, mem_append_right _ (mem_map_of_mem hd), cons_prefix_cons.mpr ⟨rfl, hpre⟩⟩

theorem findBoundary_cons (prev : Option UInt8) (pos : ℕ) (b : UInt8) (rest : Bytes) :
    (Leads (lfForms boundary) (b :: rest) → ∃ skip isEnd,
      findBoundary boundary prev pos (b :: rest) =
        some (pos + 1 - (if prev = some 13 then 2 else 1), skip, isEnd)) ∧
    (¬ Leads (lfForms boundary) (b :: rest) → findBoundary boundary prev pos (b :: rest) =
      findBoundary boundary (some b) (pos + 1) rest) := by
  have hshort : (b :: rest).length < 1 + 2 + boundary.length + 2 →
      findBoundary boundary (some b) (pos + 1) rest = none := fun h => by
    cases rest with
    | nil => rfl
    | cons c rest => rw [findBoundary, if_pos (by rw [length_cons] at h; omega)]
  have hdash : (lit "--" ++ boundary).length = 2 + boundary.length := by
    rw [length_append]
    rfl
  have hleads : ∀ x, dashed boundary ++ x <+: b :: rest ↔ b = 10 ∧
      rest.take (2 + boundary.length) = lit "--" ++ boundary ∧
      (rest.drop (2 + boundary.length)).take x.length = x := fun x => by
    rw [dashed, cons_append, cons_prefix_cons, append_prefix, hdash]
    exact and_congr_left' eq_comm
  have hall : Leads (lfForms boundary) (b :: rest) ↔ b = 10 ∧
      rest.take (2 + boundary.length) = lit "--" ++ boundary ∧
      ((rest.drop (2 + boundary.length)).take 2 = crlf ∨
        (rest.drop (2 + boundary.length)).take 4 = lit "--" ++ crlf) := by
    constructor
    · rintro ⟨d, hd, hpre⟩
      rcases mem_pair.mp hd with rfl | rfl
      · obtain ⟨h1, h2, h3⟩ := (hleads _).mp hpre
        exact ⟨h1, h2, .inl h3⟩
      · obtain ⟨h1, h2, h3⟩ := (hleads _).mp hpre
        exact ⟨h1, h2, .inr h3⟩
    · rintro ⟨h1, h2, h3 | h3⟩
      · exact ⟨_, mem_cons_self, (hleads _).mpr ⟨h1, h2, h3⟩⟩
      · exact ⟨_, mem_cons_of_mem _ mem_cons_self, (hleads _).mpr ⟨h1, h2, h3⟩⟩
  rw [findBoundary]
  by_cases hlen : (b :: rest).length < 1 + 2 + boundary.length + 2
  · rw [if_pos hlen]
    refine ⟨?_, fun _ => (hshort hlen).symm⟩
    rintro ⟨d, hd, hpre⟩
    exact absurd ((lfForms_length hd).1.trans hpre.length_le) (by omega)
  · rw [if_neg hlen, hall]
    by_cases hmark : b ≠ 10 ∨ rest.take (2 + boundary.length) ≠ lit "--" ++ boundary
    · rw [if_pos hmark]
      exact ⟨fun h => absurd h.2.1 (hmark.resolve_left (not_not.mpr h.1)), fun _ => rfl⟩
    · rw [if_neg hmark]
      rw [not_or, not_not, not_not] at hmark
      dsimp only
      by_cases h2 : (rest.drop (2 + boundary.length)).take 2 = crlf
      · rw [if_pos h2]
        exact ⟨fun _ => ⟨_, _, rfl⟩, fun h => absurd ⟨hmark.1, hmark.2, .inl h2⟩ h⟩
      rw [if_neg h2]
      by_cases h4 : (rest.drop (2 + boundary.length)).take 4 = lit "--" ++ crlf
      · rw [if_pos h4]
        exact ⟨fun _ => ⟨_, _, rfl⟩, fun h => absurd ⟨hmark.1, hmark.2, .inr h4⟩ h⟩
      · rw [if_neg h4]
        exact ⟨fun h => absurd h.2.2 (not_or.mpr ⟨h2, h4⟩), fun _ => rfl⟩

def before (prev : Option UInt8) (v : Bytes) : ℕ → Option UInt8
  | 0 => prev
  | j + 1 => v[j]?

/-- The first LF of a delimiter decides; the body ends in front of a CR before it. -/
theorem findBoundary_spec (v : Bytes) (prev : Option UInt8) (pos : ℕ) :
    (findBoundary boundary prev pos v = none ∧ ∀ k, ¬ Leads (lfForms boundary) (v.drop k)) ∨
    ∃ j skip isEnd, Leads (lfForms boundary) (v.drop j) ∧
      (∀ k < j, ¬ Leads (lfForms boundary) (v.drop k)) ∧
      findBoundary boundary prev pos v = some (pos + j + 1 -
        (if before prev v j = some 13 then 2 else 1), skip, isEnd) := by
  induction v generalizing prev pos with
  | nil =>
    refine .inl ⟨rfl, fun k ⟨d, hd, hpre⟩ => ?_⟩
    rw [drop_nil, prefix_nil] at hpre
    exact absurd (lfForms_length hd).1 (by rw [hpre]; simp)
  | cons b rest ih =>
    obtain ⟨hhere, hpass⟩ := findBoundary_cons prev pos b rest
    by_cases hb : Leads (lfForms boundary) (b :: rest)
    · obtain ⟨skip, isEnd, heq⟩ := hhere hb
      exact .inr ⟨0, skip, isEnd, hb, fun k hk => absurd hk (Nat.not_lt_zero k), heq⟩
    · rw [hpass hb]
      rcases ih (some b) (pos + 1) with ⟨hnone, hall⟩ | ⟨j, skip, isEnd, hj, hmin, heq⟩
      · refine .inl ⟨hnone, fun k => ?_⟩
        cases k with
        | zero => exact hb
        | succ k => exact hall k
      · refine .inr ⟨j + 1, skip, isEnd, hj, fun k hk => ?_, ?_⟩
        · cases k with
          | zero => exact hb
          | succ k => exact hmin k (by omega)
        · have hbefore : before (some b) rest j = before prev (b :: rest) (j + 1) := by
            cases j <;> rfl
          rw [heq, hbefore, Nat.add_right_comm pos 1 j, Nat.add_assoc pos j 1]

theorem findBoundary_first {v : Bytes} {off skip : ℕ} {isEnd : Bool}
    (hfound : findBoundary boundary none 0 v = some (off, skip, isEnd)) :
    StandsAt boundary v off ∧ ∀ k < off, ¬ StandsAt boundary v k := by
  rcases findBoundary_spec v none 0 with ⟨hnone, -⟩ | ⟨j, _, _, hj, hmin, heq⟩
  · cases hfound.symm.trans hnone
  have hsplit : ∀ {k u}, v.drop k = 13 :: u → v[k]? = some 13 ∧ u = v.drop (k + 1) := fun h =>
    ⟨by rw [← head?_drop, h]; rfl, by rw [← tail_drop, h]; rfl⟩
  have hoff := congrArg Prod.fst (Option.some.inj (hfound.symm.trans heq))
  by_cases hcr : before none v j = some 13
  · cases j with
    | zero => cases hcr
    | succ i =>
      rw [if_pos hcr] at hoff
      have hoff : off = i := by simpa using hoff
      subst hoff
      obtain ⟨hlt, hget⟩ := List.getElem?_eq_some_iff.mp hcr
      refine ⟨leads_forms.mpr (.inr ⟨v.drop (off + 1), ?_, hj⟩), fun k hk hstands => ?_⟩
      · rw [← hget]
        exact drop_eq_getElem_cons hlt
      · rcases leads_forms.mp hstands with h | ⟨u, hu, h⟩
        · exact hmin k (by omega) h
        · exact hmin (k + 1) (by omega) ((hsplit hu).2 ▸ h)
  · rw [if_neg hcr] at hoff
    have hoff : off = j := by simpa using hoff
    subst hoff
    refine ⟨leads_forms.mpr (.inl hj), fun k hk hstands => ?_⟩
    rcases leads_forms.mp hstands with h | ⟨u, hu, h⟩
    · exact hmin k hk h
    · obtain ⟨hget, rfl⟩ := hsplit hu
      rcases Nat.lt_or_eq_of_le (Nat.succ_le_of_lt hk) with hlt | rfl
      · exact hmin (k + 1) hlt h
      · exact hcr hget

theorem leads_of_long {t d : Bytes} (later : Bytes) (hd : d <+: t ++ later)
    (hlen : d.length ≤ t.length) : d <+: t :=
  prefix_of_prefix_length_le hd (prefix_append t later) hlen

/-- Without a delimiter in the view none starts in what is released, whatever follows. -/
theorem released_clear {v : Bytes} (hall : ∀ k, ¬ Leads (lfForms boundary) (v.drop k))
    (later : Bytes) {k : ℕ} (hk : k < v.length - (maxDelimLen boundary - 1)) :
    ¬ Leads (forms boundary) (v.drop k ++ later) := by
  have hlong : maxDelimLen boundary ≤ (v.drop k).length := by
    rw [length_drop]
    omega
  rw [leads_forms]
  rintro (⟨d, hd, hpre⟩ | ⟨u, hu, d, hd, hpre⟩)
  · exact hall k ⟨d, hd, leads_of_long later hpre ((lfForms_length hd).2.le.trans hlong)⟩
  · have hshort := (lfForms_length hd).2
    refine hall (k + 1) ⟨d, hd, leads_of_long later ?_ (by rw [length_drop] at *; omega)⟩
    have htail := congrArg tail hu
    rw [tail_append_of_ne_nil (by rintro h; rw [h] at hlong; exact absurd hlong (by simp; omega)), tail_drop] at htail
    rw [htail]
    exact hpre

theorem calls_done {es es' : List Event} (h : calls cb es = (es', true)) : es' = es := by
  induction es generalizing es' with
  | nil => exact (congrArg Prod.fst h).symm
  | cons e es ih =>
    rw [calls] at h
    split_ifs at h
    · cases congrArg Prod.snd h
    · obtain ⟨rfl, hall⟩ := Prod.mk.inj h
      exact congrArg (e :: ·) (ih (Prod.ext rfl hall))

theorem bodyStep_spec {s t : Body} {piece : Bytes} (hphase : s.core.phase = .partBody)
    (hstep : bodyStep cb cfg boundary s piece = some t) :
    findBoundary boundary none 0 (s.view ++ piece) = none ∧
      ∃ safe, safe = (s.view ++ piece).length - (maxDelimLen boundary - 1) ∧
      t = ⟨s.core, (s.view ++ piece).drop safe, s.fed ++ piece,
        s.released ++ (s.view ++ piece).take safe⟩ := by
  unfold bodyStep at hstep
  generalize s.view ++ piece = v at hstep ⊢
  obtain ⟨r, hr, hrun⟩ := Option.bind_eq_some_iff.mp hstep
  split_ifs at hrun with hcode
  cases hrun
  rw [doParse] at hr
  split_ifs at hr with hempty
  · cases hr
    rw [length_eq_zero_iff] at hempty
    subst hempty
    exact ⟨rfl, 0, (Nat.zero_sub _).symm, rfl⟩
  · rw [passes, pass, hphase] at hr
    dsimp only at hr
    rw [passBody] at hr
    rcases hfind : findBoundary boundary none 0 v with _ | ⟨off, skip, isEnd⟩
    · refine ⟨rfl, _, rfl, ?_⟩
      rw [hfind] at hr
      dsimp only at hr
      split_ifs at hr with hsafe
      · cases hr
        exact absurd hcode.1 (show (-1 : ℤ) ≠ -2 by decide)
      · cases hr
        dsimp only
        rw [Nat.sub_sub_self (Nat.sub_le _ _), flatMap_singleton]
        rfl
      · cases hr
        rw [Nat.eq_zero_of_not_pos hsafe]
        simp
    · rw [hfind] at hr
      dsimp only at hr
      rcases hcalls : calls cb _ with ⟨es, done⟩
      rw [hcalls] at hr
      cases done with
      | false =>
        cases hr
        exact absurd hcode.1 (show (-1 : ℤ) ≠ -2 by decide)
      | true =>
        cases isEnd with
        | true =>
          cases hr
          exact absurd hcode.1 (show (0 : ℤ) ≠ -2 by decide)
        | false =>
          obtain ⟨r', -, rfl⟩ := Option.map_eq_some_iff.mp hr
          have hmem : Event.partComplete ∈ es := by
            rw [calls_done hcalls]
            simp
          exact absurd (mem_append_left _ hmem) hcode.2

theorem bodyStep_inside {s t : Body} {piece : Bytes}
    (h : s.core.phase = .partBody ∧ Inside boundary s)
    (hstep : bodyStep cb cfg boundary s piece = some t) :
    t.core.phase = .partBody ∧ Inside boundary t := by
  obtain ⟨hphase, hin⟩ := h
  obtain ⟨hnone, safe, rfl, rfl⟩ := bodyStep_spec hphase hstep
  have hall : ∀ k, ¬ Leads (lfForms boundary) ((s.view ++ piece).drop k) := by
    rcases findBoundary_spec (s.view ++ piece) none 0 with h | h
    · exact h.2
    · obtain ⟨j, skip, isEnd, -, -, hsome⟩ := h
      cases hnone.symm.trans hsome
  refine ⟨hphase, ?_, fun later k hk => ?_, ?_⟩
  · rw [append_assoc, take_append_drop, ← hin.whole, append_assoc]
  · dsimp only at hk ⊢
    rw [append_assoc]
    by_cases hold : k < s.released.length
    · exact hin.clear _ k hold
    · rw [length_append, length_take_of_le (Nat.sub_le _ _)] at hk
      obtain ⟨i, rfl⟩ := Nat.exists_eq_add_of_le (Nat.not_lt.mp hold)
      have hi : i < (s.view ++ piece).length - (maxDelimLen boundary - 1) := by omega
      have hclear := released_clear hall later hi
      rw [← drop_append_of_le_length (by omega)] at hclear
      rwa [← hin.whole, append_assoc, StandsAt, drop_length_add_append, ← append_assoc]
  · dsimp only
    rw [length_drop]
    omega

/-- In every run of steps within a body what is released and what is withheld are as they should
be, and the delimiter that a next step finds is the first one among all the bytes fed. -/
theorem bodyStream_inside (cb : Event → ℤ) (cfg : Config) (boundary : Bytes) (c : Core)
    (hc : c.phase = .partBody) (pieces : List Bytes) (s : Body)
    (hrun : exec (bodyStep cb cfg boundary) ⟨c, [], [], []⟩ pieces = some s) :
    Along (bodyStep cb cfg boundary) (Inside boundary) ⟨c, [], [], []⟩ pieces ∧
      ∀ piece off skip isEnd,
        findBoundary boundary none 0 (s.view ++ piece) = some (off, skip, isEnd) →
        StandsAt boundary (s.fed ++ piece) (s.released.length + off) ∧
          ∀ k < s.released.length + off, ¬ StandsAt boundary (s.fed ++ piece) k := by
  have hstart : c.phase = .partBody ∧ Inside boundary ⟨c, [], [], []⟩ :=
    ⟨hc, rfl, fun _ _ hk => absurd hk (Nat.not_lt_zero _), Nat.zero_le _⟩
  have hinv := along_of_exec (fun _ _ _ h hstep => bodyStep_inside h hstep) hstart hrun
  refine ⟨along_mono (fun _ h => h.2) hinv, fun piece off skip isEnd hfound => ?_⟩
  have hin := (along_last hinv hrun).2
  obtain ⟨hhere, hmin⟩ := findBoundary_first hfound
  have hshift : ∀ k, StandsAt boundary (s.fed ++ piece) (s.released.length + k) ↔
      StandsAt boundary (s.view ++ piece) k := fun k => by
    rw [← hin.whole, append_assoc, StandsAt, drop_length_add_append]
    rfl
  refine ⟨(hshift off).mpr hhere, fun k hk hstands => ?_⟩
  by_cases hold : k < s.released.length
  · exact hin.clear piece k hold hstands
  · obtain ⟨i, rfl⟩ := Nat.exists_eq_add_of_le (Nat.not_lt.mp hold)
    exact hmin i (by omega) ((hshift i).mp hstands)

theorem bodyStream_inside_split : Along (bodyStep (fun _ => 0) {} [98]) (Inside [98])
      ⟨{ phase := .partBody }, [], [], []⟩ [[97, 97, 13, 10], [45, 45, 99, 13, 10, 45, 45]] ∧
    ∀ piece off skip isEnd, findBoundary [98] none 0 ([10, 45, 45, 99, 13, 10, 45, 45] ++ piece) =
        some (off, skip, isEnd) →
      StandsAt [98] ([97, 97, 13, 10, 45, 45, 99, 13, 10, 45, 45] ++ piece) (3 + off) ∧
        ∀ k < 3 + off, ¬ StandsAt [98] ([97, 97, 13, 10, 45, 45, 99, 13, 10, 45, 45] ++ piece) k :=
  bodyStream_inside (fun _ => 0) {} [98] { phase := .partBody } rfl
    [[97, 97, 13, 10], [45, 45, 99, 13, 10, 45, 45]] ⟨{ phase := .partBody }, _, _, [97, 97, 13]⟩ rfl

end Voxlib.Multipart
