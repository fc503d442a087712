import Mathlib.Data.List.TakeWhile
import Voxlib.Mqtt.Server

/-!
# Topic filters level by level

The loop goes over bytes: past a `+` it does not see whether the topic goes on, and a topic that
ends early ends the comparison.
-/

namespace Voxlib.Mqtt
open CStr List

def levels : Bytes → List Bytes
  | [] => [[]]
  | c :: s => if c = slash then [] :: levels s else (levels s).modifyHead (c :: ·)

def join : List Bytes → Bytes
  | [] => []
  | [l] => l
  | l :: ls => l ++ slash :: join ls

/-- The levels of the filter match those of the topic one by one; a last `#` matches any number of
them. -/
def matchLevels : List Bytes → List Bytes → Bool
  | [], topic => topic = []
  | f :: filter, topic =>
    if f = [hash] ∧ filter = [] then true
    else
      match topic with
      | [] => false
      | t :: topic => (f = [plus] ∨ f = t) && matchLevels filter topic

def Literal (l : Bytes) : Prop := plus ∉ l ∧ hash ∉ l

/-- `+` only as a whole level, `#` only as the whole last level. -/
def ValidFilter : List Bytes → Prop
  | [] => True
  | f :: filter => (f = [hash] ∧ filter = [] ∨ f = [plus] ∨ Literal f) ∧ ValidFilter filter

def idle : List Bytes → Bool
  | [] => true
  | f :: filter =>
    if f = [plus] then idle filter else filter = [] ∧ (f = [] ∨ f = [hash])

/-- Filter and topic fit level by level up to where a topic ends in front of `/#`, a topic goes on
with an empty level behind the last `+`, or it ends with a `+` that is not the end of the filter. -/
inductive Misread : List Bytes → List Bytes → Prop
  | parent (g : Bytes) : Misread [g, [hash]] [g]
  | trailing (u : Bytes) : Misread [[plus]] [u, []]
  | exhausted (u : Bytes) {rest : List Bytes} (hne : rest ≠ []) (hhash : rest ≠ [[hash]])
    (hidle : idle rest = true) : Misread ([plus] :: rest) [u]
  | level {f t : Bytes} {filter topic : List Bytes} (hfits : f = [plus] ∨ f = t)
    (h : Misread filter topic) : Misread (f :: filter) (t :: topic)

/-- The first `+` of the filter, with `rest` behind it, is where the topic has its last level, which
is empty. -/
inductive PlusAtEnd (rest : List Bytes) : List Bytes → List Bytes → Prop
  | here : PlusAtEnd rest ([plus] :: rest) [[]]
  | level {filter topic : List Bytes} (l : Bytes) (h : PlusAtEnd rest filter topic) :
    PlusAtEnd rest (l :: filter) (l :: topic)

theorem levels_ne_nil (s : Bytes) : levels s ≠ [] := by
  cases s with
  | nil => simp [levels]
  | cons c s =>
    unfold levels
    split
    · simp
    · have hrest := levels_ne_nil s
      cases hs : levels s with
      | nil => exact absurd hs hrest
      | cons l ls => simp

variable {l : Bytes}

theorem join_cons {ls : List Bytes} (h : ls ≠ []) : join (l :: ls) = l ++ slash :: join ls := by
  cases ls with
  | nil => exact absurd rfl h
  | cons m ls => rfl

theorem join_levels (s : Bytes) : join (levels s) = s := by
  induction s with
  | nil => rfl
  | cons c s ih =>
    unfold levels
    split
    · next hc =>
      rw [join_cons (levels_ne_nil s), ih, hc]
      rfl
    · cases hs : levels s with
      | nil => exact absurd hs (levels_ne_nil s)
      | cons l ls =>
        rw [hs] at ih
        rw [modifyHead_cons, ← ih]
        cases ls with
        | nil => rfl
        | cons m ls => rfl

theorem slash_not_mem_levels (s : Bytes) : ∀ l ∈ levels s, slash ∉ l := by
  induction s with
  | nil => simp [levels]
  | cons c s ih =>
    unfold levels
    split
    · intro l hl
      rcases mem_cons.mp hl with rfl | hl
      · exact not_mem_nil
      · exact ih l hl
    · next hc =>
      cases hs : levels s with
      | nil => exact absurd hs (levels_ne_nil s)
      | cons m ms =>
        rw [hs] at ih
        intro l hl
        rw [modifyHead_cons] at hl
        rcases mem_cons.mp hl with rfl | hl
        · simp only [mem_cons, not_or]
          exact ⟨Ne.symm hc, ih m (mem_cons_self ..)⟩
        · exact ih l (mem_cons_of_mem m hl)

theorem mem_of_mem_levels {s : Bytes} {c : UInt8} (hl : l ∈ levels s) (hc : c ∈ l) : c ∈ s := by
  induction s generalizing l with
  | nil =>
    rw [levels, mem_singleton] at hl
    exact hl ▸ hc
  | cons d s ih =>
    unfold levels at hl
    split at hl
    · rcases mem_cons.mp hl with rfl | hl
      · cases hc
      · exact mem_cons_of_mem d (ih hl hc)
    · cases hs : levels s with
      | nil => exact absurd hs (levels_ne_nil s)
      | cons m ms =>
        rw [hs, modifyHead_cons] at hl
        rw [hs] at ih
        rcases mem_cons.mp hl with rfl | hl
        · rcases mem_cons.mp hc with rfl | hc
          · exact mem_cons_self ..
          · exact mem_cons_of_mem d (ih (mem_cons_self ..) hc)
        · exact mem_cons_of_mem d (ih (mem_cons_of_mem m hl) hc)

theorem append_slash_inj {m r r' : Bytes} (hl : slash ∉ l) (hm : slash ∉ m) :
    l ++ slash :: r = m ++ slash :: r' ↔ l = m ∧ r = r' := by
  constructor
  · intro h
    induction l generalizing m with
    | nil =>
      cases m with
      | nil => exact ⟨rfl, (List.cons.inj h).2⟩
      | cons d m => exact absurd ((List.cons.inj h).1 ▸ mem_cons_self ..) hm
    | cons c l ih =>
      cases m with
      | nil => exact absurd ((List.cons.inj h).1.symm ▸ mem_cons_self ..) hl
      | cons d m =>
        obtain ⟨rfl, hrest⟩ := List.cons.inj h
        obtain ⟨rfl, hr⟩ := ih (fun hin => hl (mem_cons_of_mem c hin))
          (fun hin => hm (mem_cons_of_mem c hin)) hrest
        exact ⟨rfl, hr⟩
  · rintro ⟨rfl, rfl⟩
    rfl

theorem join_eq_slash {s' : Bytes} {topic : List Bytes} (hl : slash ∉ l)
    (htopic : ∀ t ∈ topic, slash ∉ t) (h : join topic = l ++ slash :: s') :
    ∃ ts, topic = l :: ts ∧ ts ≠ [] ∧ join ts = s' := by
  have hin : slash ∈ join topic := h ▸ by simp
  match topic, htopic, h, hin with
  | [], _, _, hin => cases hin
  | [t], htopic, _, hin => exact absurd hin (htopic t (mem_cons_self ..))
  | t :: u :: ts, htopic, h, _ =>
    obtain ⟨rfl, hr⟩ := (append_slash_inj (htopic t (mem_cons_self ..)) hl).mp h
    exact ⟨u :: ts, rfl, cons_ne_nil u ts, hr⟩

theorem join_eq_level {topic : List Bytes} (hl : slash ∉ l) (h : join topic = l) :
    topic = [l] ∨ topic = [] ∧ l = [] := by
  match topic, h with
  | [], h => exact .inr ⟨rfl, h.symm⟩
  | [t], h => exact .inl (congrArg (fun x => [x]) h)
  | t :: u :: ts, h =>
    refine absurd ?_ hl
    rw [← h]
    simp [join]

/- The loop behind wildcard_path; no level and one empty level are the same to it. -/
def wildLevels : List Bytes → List Bytes → Bool
  | [], topic => topic = [] ∨ topic = [[]]
  | f :: filter, topic =>
    if f = [hash] then true
    else if f = [plus] then wildLevels filter topic.tail
    else if filter = [] then topic = [f] ∨ topic = [] ∧ f = []
    else
      match topic with
      | t :: u :: topic => f = t && wildLevels filter (u :: topic)
      | _ => false

def plainLevels : List Bytes → List Bytes → Bool
  | [], topic => topic = []
  | f :: filter, topic =>
    if f = [hash] then true
    else if f = [plus] then topic ≠ [[]] && wildLevels (f :: filter) topic
    else if filter = [] then topic = [f]
    else
      match topic with
      | t :: u :: topic => f = t && plainLevels filter (u :: topic)
      | _ => false

theorem Literal.ne (h : Literal l) : l ≠ [hash] ∧ l ≠ [plus] :=
  ⟨fun heq => h.2 (heq ▸ mem_cons_self ..), fun heq => h.1 (heq ▸ mem_cons_self ..)⟩

section
variable {f : Bytes} {filter topic : List Bytes}

theorem wildLevels_last (hf : Literal f) :
    wildLevels [f] topic = true ↔ topic = [f] ∨ topic = [] ∧ f = [] := by
  unfold wildLevels
  rw [if_neg hf.ne.1, if_neg hf.ne.2, if_pos rfl, decide_eq_true_iff]

theorem wildLevels_literal (hf : Literal f) (hmore : filter ≠ []) :
    wildLevels (f :: filter) topic = true ↔
      ∃ ts, topic = f :: ts ∧ ts ≠ [] ∧ wildLevels filter ts = true := by
  conv_lhs => unfold wildLevels
  rw [if_neg hf.ne.1, if_neg hf.ne.2, if_neg hmore]
  match topic with
  | [] => simp
  | [t] => simp
  | t :: u :: ts =>
    simp only [Bool.and_eq_true, decide_eq_true_eq, List.cons.injEq]
    constructor
    · rintro ⟨rfl, h⟩
      exact ⟨u :: ts, ⟨rfl, rfl⟩, cons_ne_nil u ts, h⟩
    · rintro ⟨_, ⟨rfl, rfl⟩, -, h⟩
      exact ⟨rfl, h⟩

theorem plainLevels_last (hf : Literal f) : plainLevels [f] topic = true ↔ topic = [f] := by
  unfold plainLevels
  rw [if_neg hf.ne.1, if_neg hf.ne.2, if_pos rfl, decide_eq_true_iff]

theorem plainLevels_literal (hf : Literal f) (hmore : filter ≠ []) :
    plainLevels (f :: filter) topic = true ↔
      ∃ ts, topic = f :: ts ∧ ts ≠ [] ∧ plainLevels filter ts = true := by
  conv_lhs => unfold plainLevels
  rw [if_neg hf.ne.1, if_neg hf.ne.2, if_neg hmore]
  match topic with
  | [] => simp
  | [t] => simp
  | t :: u :: ts =>
    simp only [Bool.and_eq_true, decide_eq_true_eq, List.cons.injEq]
    constructor
    · rintro ⟨rfl, h⟩
      exact ⟨u :: ts, ⟨rfl, rfl⟩, cons_ne_nil u ts, h⟩
    · rintro ⟨_, ⟨rfl, rfl⟩, -, h⟩
      exact ⟨rfl, h⟩

theorem level_cases {run next : List Bytes → Bool}
    (h : ∀ topic, run topic = true ↔ ∃ ts, topic = f :: ts ∧ ts ≠ [] ∧ next ts = true) :
    run [f] = false ∧ (∀ u ts, run (f :: u :: ts) = next (u :: ts)) ∧
      ∀ t ts, f ≠ t → run (t :: ts) = false := by
  refine ⟨?_, fun u ts => ?_, fun t ts hne => ?_⟩
  · rw [Bool.eq_false_iff, Ne, h]
    rintro ⟨ts, heq, hts, -⟩
    exact hts (List.cons.inj heq).2.symm
  · rw [Bool.eq_iff_iff, h]
    simp
  · rw [Bool.eq_false_iff, Ne, h]
    rintro ⟨ts, heq, -⟩
    exact hne (List.cons.inj heq).1.symm

end

variable {l : Bytes}

theorem Literal.cons {c : UInt8} (h : Literal (c :: l)) : c ≠ hash ∧ c ≠ plus ∧ Literal l :=
  ⟨fun heq => h.2 (heq ▸ mem_cons_self ..), fun heq => h.1 (heq ▸ mem_cons_self ..),
    fun hin => h.1 (mem_cons_of_mem c hin), fun hin => h.2 (mem_cons_of_mem c hin)⟩

theorem wildcardPath_byte {c : UInt8} (hhash : c ≠ hash) (hplus : c ≠ plus) (m : ℕ) (r s : Bytes) :
    wildcardPath (m + 1) (c :: r) s = true ↔ ∃ s', s = c :: s' ∧ wildcardPath m r s' = true := by
  cases s with
  | nil => simp [wildcardPath, hhash, hplus]
  | cons t s =>
    by_cases hc : c = t
    · subst hc
      simp [wildcardPath, hhash, hplus]
    · simp [wildcardPath, hhash, hplus, hc, Ne.symm hc]

theorem plainPath_byte {c : UInt8} (hhash : c ≠ hash) (hplus : c ≠ plus) (r s : Bytes) :
    plainPath (c :: r) s = true ↔ ∃ s', s = c :: s' ∧ plainPath r s' = true := by
  cases s with
  | nil => simp [plainPath, hhash]
  | cons t s =>
    by_cases hc : c = t
    · subst hc
      simp [plainPath, hhash, hplus]
    · simp [plainPath, hhash, hplus, hc, Ne.symm hc]

theorem passes_literal (go : ℕ → Bytes → Bytes → Bool)
    (hbyte : ∀ {c : UInt8}, c ≠ hash → c ≠ plus → ∀ m r s,
      go (m + 1) (c :: r) s = true ↔ ∃ s', s = c :: s' ∧ go m r s' = true) (hl : Literal l) (m : ℕ)
    (r s : Bytes) : go (m + l.length) (l ++ r) s = true ↔ ∃ s', s = l ++ s' ∧ go m r s' = true := by
  induction l generalizing s with
  | nil => simp
  | cons c l ih =>
    obtain ⟨hhash, hplus, hrest⟩ := hl.cons
    rw [length_cons, ← Nat.add_assoc, cons_append, hbyte hhash hplus]
    constructor
    · rintro ⟨s', rfl, hpath⟩
      obtain ⟨s'', rfl, hend⟩ := (ih hrest s').mp hpath
      exact ⟨s'', rfl, hend⟩
    · rintro ⟨s'', rfl, h⟩
      exact ⟨l ++ s'', rfl, (ih hrest _).mpr ⟨s'', rfl, h⟩⟩

theorem passes_level (go : ℕ → Bytes → Bytes → Bool)
    (hbyte : ∀ {c : UInt8}, c ≠ hash → c ≠ plus → ∀ m r s,
      go (m + 1) (c :: r) s = true ↔ ∃ s', s = c :: s' ∧ go m r s' = true) (hl : Literal l) (m : ℕ)
    (r s : Bytes) : go (m + 1 + l.length) (l ++ slash :: r) s = true ↔
      ∃ s', s = l ++ slash :: s' ∧ go m r s' = true := by
  rw [passes_literal go hbyte hl]
  constructor
  · rintro ⟨s', rfl, h⟩
    obtain ⟨s'', rfl, hend⟩ := (hbyte (by decide) (by decide) m r s').mp h
    exact ⟨s'', rfl, hend⟩
  · rintro ⟨s'', rfl, h⟩
    exact ⟨slash :: s'', rfl, (hbyte (by decide) (by decide) m r _).mpr ⟨s'', rfl, h⟩⟩

theorem wildcardPath_literal (hl : Literal l) (m : ℕ) (r s : Bytes) :
    wildcardPath (m + l.length) (l ++ r) s = true ↔
      ∃ s', s = l ++ s' ∧ wildcardPath m r s' = true :=
  passes_literal wildcardPath wildcardPath_byte hl m r s

theorem plainPath_literal (hl : Literal l) (r s : Bytes) :
    plainPath (l ++ r) s = true ↔ ∃ s', s = l ++ s' ∧ plainPath r s' = true :=
  passes_literal (fun _ => plainPath) (fun hhash hplus _ => plainPath_byte hhash hplus) hl 0 r s

theorem level_join {f : Bytes} {topic : List Bytes} (hf : slash ∉ f)
    (htopic : ∀ t ∈ topic, slash ∉ t) (P : Bytes → Prop) :
    (∃ s, join topic = f ++ slash :: s ∧ P s) ↔ ∃ ts, topic = f :: ts ∧ ts ≠ [] ∧ P (join ts) := by
  constructor
  · rintro ⟨s, heq, h⟩
    obtain ⟨ts, rfl, hts, rfl⟩ := join_eq_slash hf htopic heq
    exact ⟨ts, rfl, hts, h⟩
  · rintro ⟨ts, rfl, hts, h⟩
    exact ⟨join ts, join_cons hts, h⟩

theorem afterLevel_join {topic : List Bytes} (h : ∀ t ∈ topic, slash ∉ t) :
    afterLevel (join topic) = join topic.tail := by
  have hpass {t : Bytes} (ht : slash ∉ t) : ∀ c ∈ t, decide (c ≠ slash) = true := fun c hc =>
    decide_eq_true fun heq => ht (heq ▸ hc)
  unfold afterLevel
  match topic, h with
  | [], _ => rfl
  | [t], h =>
    have hall := hpass (h t (mem_cons_self ..))
    show (t.dropWhile _).drop 1 = []
    rw [dropWhile_eq_nil_iff.mpr hall]
    rfl
  | t :: u :: ts, h =>
    have hall := hpass (h t (mem_cons_self ..))
    show ((t ++ slash :: join (u :: ts)).dropWhile _).drop 1 = join (u :: ts)
    rw [dropWhile_append_of_pos hall]
    rfl

theorem afterLevel_plus (filter : List Bytes) :
    ∃ r, join ([plus] :: filter) = plus :: r ∧ afterLevel r = join filter := by
  cases filter with
  | nil => exact ⟨[], rfl, rfl⟩
  | cons f filter => exact ⟨slash :: join (f :: filter), rfl, rfl⟩

theorem wildcardPath_join {filter topic : List Bytes} {m : ℕ} (hvalid : ValidFilter filter)
    (hfilter : ∀ f ∈ filter, slash ∉ f) (htopic : ∀ t ∈ topic, slash ∉ t)
    (hm : (join filter).length ≤ m) :
    wildcardPath m (join filter) (join topic) = true ↔ wildLevels filter topic = true := by
  induction filter generalizing topic m with
  | nil =>
    have hempty : join topic = [] ↔ topic = [] ∨ topic = [[]] := by
      constructor
      · intro h
        rcases join_eq_level not_mem_nil h with h | h
        · exact .inr h
        · exact .inl h.1
      · rintro (rfl | rfl) <;> rfl
    show wildcardPath m [] (join topic) = true ↔ _
    rw [wildcardPath, wildLevels, decide_eq_true_iff, decide_eq_true_iff, hempty]
  | cons f filter ih =>
    obtain ⟨hf, hrest⟩ := hvalid
    have hslash := hfilter f (mem_cons_self ..)
    have hfilter' : ∀ g ∈ filter, slash ∉ g := fun g hg => hfilter g (mem_cons_of_mem f hg)
    rcases hf with ⟨rfl, rfl⟩ | rfl | hf
    · obtain ⟨k, rfl⟩ : ∃ k, m = k + 1 := ⟨m - 1, by simp [join] at hm; omega⟩
      exact iff_of_true rfl rfl
    · obtain ⟨r, hjoin, hafter⟩ := afterLevel_plus filter
      have hlen : (join filter).length ≤ r.length := by
        rw [← hafter]
        unfold afterLevel
        rw [length_drop]
        exact (Nat.sub_le _ _).trans (dropWhile_suffix _).length_le
      rw [hjoin] at hm ⊢
      rw [length_cons] at hm
      obtain ⟨k, rfl⟩ : ∃ k, m = k + 1 := ⟨m - 1, by omega⟩
      show wildcardPath k (afterLevel r) (afterLevel (join topic)) = true ↔
        wildLevels filter topic.tail = true
      rw [hafter, afterLevel_join htopic]
      exact ih hrest hfilter' (fun t ht => htopic t (mem_of_mem_tail ht)) (by omega)
    · by_cases hlast : filter = []
      · subst hlast
        obtain ⟨k, rfl⟩ : ∃ k, m = k + f.length := ⟨m - f.length, by simp [join] at hm; omega⟩
        have hpath := wildcardPath_literal hf k [] (join topic)
        rw [append_nil] at hpath
        show wildcardPath (k + f.length) f (join topic) = true ↔ _
        rw [hpath, wildLevels_last hf]
        constructor
        · rintro ⟨s', heq, hend⟩
          have hend' : s' = [] := by simpa [wildcardPath] using hend
          subst hend'
          rw [append_nil] at heq
          exact join_eq_level hslash heq
        · rintro (rfl | ⟨rfl, rfl⟩)
          · exact ⟨[], (append_nil f).symm, by simp [wildcardPath]⟩
          · exact ⟨[], rfl, by simp [wildcardPath]⟩
      · rw [wildLevels_literal hf hlast]
        rw [join_cons hlast] at hm ⊢
        rw [length_append, length_cons] at hm
        obtain ⟨k, rfl⟩ : ∃ k, m = k + 1 + f.length := ⟨m - f.length - 1, by omega⟩
        rw [passes_level wildcardPath wildcardPath_byte hf, level_join hslash htopic]
        refine exists_congr fun ts => and_congr_right ?_
        rintro rfl
        exact and_congr_right fun _ => ih hrest hfilter'
          (fun t ht => htopic t (mem_cons_of_mem f ht)) (by omega)

theorem plainPath_join {filter topic : List Bytes} (hvalid : ValidFilter filter)
    (hfilter : ∀ f ∈ filter, slash ∉ f) (htopic : ∀ t ∈ topic, slash ∉ t) (hne : filter ≠ [])
    (htne : topic ≠ []) :
    plainPath (join filter) (join topic) = true ↔ plainLevels filter topic = true := by
  induction filter generalizing topic with
  | nil => exact absurd rfl hne
  | cons f filter ih =>
    obtain ⟨hf, hrest⟩ := hvalid
    have hslash := hfilter f (mem_cons_self ..)
    have hfilter' : ∀ g ∈ filter, slash ∉ g := fun g hg => hfilter g (mem_cons_of_mem f hg)
    rcases hf with ⟨rfl, rfl⟩ | rfl | hf
    · refine iff_of_true ?_ rfl
      cases htail : join topic with
      | nil => rfl
      | cons t s => rfl
    · obtain ⟨r, hjoin, hafter⟩ := afterLevel_plus filter
      have hwild : wildcardPath (r.length + 1) (join ([plus] :: filter)) (join topic) = true ↔
          wildLevels ([plus] :: filter) topic = true :=
        wildcardPath_join ⟨.inr (.inl rfl), hrest⟩ hfilter htopic (by rw [hjoin]; rfl)
      have hlevels : plainLevels ([plus] :: filter) topic =
        (decide (topic ≠ [[]]) && wildLevels ([plus] :: filter) topic) := rfl
      rw [hjoin] at hwild ⊢
      rw [hlevels, Bool.and_eq_true, decide_eq_true_iff, ← hwild]
      cases htail : join topic with
      | nil =>
        refine iff_of_false (by simp [plainPath, plus, hash]) fun h => ?_
        rcases join_eq_level not_mem_nil htail with heq | heq
        · exact h.1 heq
        · exact htne heq.1
      | cons t s =>
        have hnot : topic ≠ [[]] := fun heq => by
          rw [heq] at htail
          cases htail
        rw [htail] at hwild
        show (if plus = hash ∨ plus = plus then wildcardPath (r.length + 1) (plus :: r) (t :: s)
          else _) = true ↔ _
        rw [if_pos (.inr rfl)]
        exact ⟨fun h => ⟨hnot, h⟩, fun h => h.2⟩
    · by_cases hlast : filter = []
      · subst hlast
        have hpath := plainPath_literal hf [] (join topic)
        rw [append_nil] at hpath
        show plainPath f (join topic) = true ↔ _
        rw [hpath, plainLevels_last hf]
        constructor
        · rintro ⟨s', heq, hend⟩
          have hend' : s' = [] := by
            cases s' with
            | nil => rfl
            | cons c s' => cases hend
          subst hend'
          rw [append_nil] at heq
          exact (join_eq_level hslash heq).resolve_right fun h => htne h.1
        · rintro rfl
          exact ⟨[], (append_nil f).symm, rfl⟩
      · have hlevel := passes_level (fun _ => plainPath)
          (fun hhash hplus _ => plainPath_byte hhash hplus) hf 0 (join filter) (join topic)
        rw [plainLevels_literal hf hlast, join_cons hlast, hlevel, level_join hslash htopic]
        refine exists_congr fun ts => and_congr_right ?_
        rintro rfl
        exact and_congr_right fun hts => ih hrest hfilter'
          (fun t ht => htopic t (mem_cons_of_mem f ht)) hlast hts

def Early (filter topic : List Bytes) : Prop :=
  filter = [] ∧ topic = [[]] ∨
    topic = [] ∧ filter ≠ [] ∧ filter ≠ [[hash]] ∧ idle filter = true

/-- The condition under which topic_match agrees with the standard. -/
def ReadRight (filter topic : List Bytes) : Prop :=
  (∀ rest, PlusAtEnd rest filter topic → rest ≠ [] ∧ rest ≠ [[hash]]) ∧
    ((∃ rest, PlusAtEnd rest filter topic) ∨ ¬ Misread filter topic)

section
variable {f t : Bytes} {filter topic rest : List Bytes}

theorem matchLevels_nil : matchLevels filter [] = true ↔ filter = [] ∨ filter = [[hash]] := by
  cases filter with
  | nil => simp [matchLevels]
  | cons f filter =>
    unfold matchLevels
    by_cases h : f = [hash] ∧ filter = []
    · simp [h]
    · rw [if_neg h]
      simpa using fun heq => fun hnil => h ⟨heq, hnil⟩

theorem matchLevels_plus : matchLevels ([plus] :: filter) (t :: topic) =
    matchLevels filter topic := by
  conv_lhs => unfold matchLevels
  rw [if_neg fun h => absurd h.1 (by decide)]
  simp

theorem matchLevels_literal (hf : Literal f) : matchLevels (f :: filter) (t :: topic) =
    (decide (f = t) && matchLevels filter topic) := by
  conv_lhs => unfold matchLevels
  rw [if_neg fun h => hf.ne.1 h.1]
  simp [hf.ne.2]

theorem idle_cons_literal (hf : Literal f) : idle (f :: filter) = true ↔ filter = [] ∧ f = [] := by
  unfold idle
  rw [if_neg hf.ne.2, decide_eq_true_iff]
  simp [hf.ne.1]

theorem wildLevels_nil (hvalid : ValidFilter filter) : wildLevels filter [] = idle filter := by
  induction filter with
  | nil => rfl
  | cons f filter ih =>
    obtain ⟨⟨rfl, rfl⟩ | rfl | hf, hrest⟩ := hvalid
    · rfl
    · exact ih hrest
    · rw [Bool.eq_iff_iff, idle_cons_literal hf]
      by_cases hlast : filter = []
      · subst hlast
        rw [wildLevels_last hf]
        simp
      · rw [wildLevels_literal hf hlast]
        simp [hlast]

theorem misread_nil : ¬ Misread filter [] := fun h => by cases h

theorem misread_empty : ¬ Misread [] topic := fun h => by cases h

theorem misread_plus (ht : Literal t) : Misread ([plus] :: filter) (t :: topic) ↔
    Early filter topic ∨ Misread filter topic := by
  constructor
  · intro h
    cases h with
    | parent => exact absurd rfl ht.ne.2
    | trailing => exact .inl (.inl ⟨rfl, rfl⟩)
    | exhausted _ hne hhash hidle => exact .inl (.inr ⟨rfl, hne, hhash, hidle⟩)
    | level _ h => exact .inr h
  · rintro ((⟨rfl, rfl⟩ | ⟨rfl, hne, hhash, hidle⟩) | h)
    · exact .trailing t
    · exact .exhausted t hne hhash hidle
    · exact .level (.inl rfl) h

theorem misread_literal (hf : Literal f) : Misread (f :: filter) (t :: topic) ↔
    f = t ∧ (filter = [[hash]] ∧ topic = [] ∨ Misread filter topic) := by
  constructor
  · intro h
    cases h with
    | parent => exact ⟨rfl, .inl ⟨rfl, rfl⟩⟩
    | trailing => exact absurd rfl hf.ne.2
    | exhausted => exact absurd rfl hf.ne.2
    | level hfits h => exact ⟨hfits.resolve_left hf.ne.2, .inr h⟩
  · rintro ⟨rfl, ⟨rfl, rfl⟩ | h⟩
    · exact .parent f
    · exact .level (.inr rfl) h

theorem misread_hash (htopic : ∀ t ∈ topic, Literal t) : ¬ Misread [[hash]] topic := by
  intro h
  cases h with
  | level hfits h => exact misread_empty h

theorem plusAtEnd_plus (ht : Literal t) : PlusAtEnd rest ([plus] :: filter) (t :: topic) ↔
    rest = filter ∧ t = [] ∧ topic = [] := by
  constructor
  · intro h
    cases h with
    | here => exact ⟨rfl, rfl, rfl⟩
    | level => exact absurd rfl ht.ne.2
  · rintro ⟨rfl, rfl, rfl⟩
    exact .here

theorem plusAtEnd_literal (hf : Literal f) : PlusAtEnd rest (f :: filter) (t :: topic) ↔
    f = t ∧ PlusAtEnd rest filter topic := by
  constructor
  · intro h
    cases h with
    | here => exact absurd rfl hf.ne.2
    | level _ h => exact ⟨rfl, h⟩
  · rintro ⟨rfl, h⟩
    exact .level f h

theorem plusAtEnd_nil : ¬ PlusAtEnd rest filter [] := fun h => by cases h

theorem plusAtEnd_empty : ¬ PlusAtEnd rest [] topic := fun h => by cases h

end

/-- Behind a `+` the loop is right unless one of the two has come to its end too early. -/
theorem wildLevels_right {filter topic : List Bytes} (hvalid : ValidFilter filter)
    (htopic : ∀ t ∈ topic, Literal t) : wildLevels filter topic = matchLevels filter topic ↔
      ¬ (Early filter topic ∨ Misread filter topic) := by
  induction filter generalizing topic with
  | nil =>
    have hmis : ¬ Misread [] topic := misread_empty
    rw [Bool.eq_iff_iff]
    simp only [wildLevels, matchLevels, decide_eq_true_eq, Early, hmis]
    by_cases h : topic = [[]] <;> simp [h]
  | cons f filter ih =>
    cases topic with
    | nil =>
      have hmis : ¬ Misread (f :: filter) [] := misread_nil
      rw [wildLevels_nil hvalid, Bool.eq_iff_iff, matchLevels_nil]
      by_cases hhash : f :: filter = [[hash]]
      · rw [hhash]
        refine iff_of_true (by decide) ?_
        rintro ((⟨h, -⟩ | ⟨-, -, h, -⟩) | h)
        · cases h
        · exact h rfl
        · exact misread_nil h
      · simp [Early, hmis, hhash]
    | cons t topic =>
      have ht := htopic t (mem_cons_self ..)
      have htopic' : ∀ u ∈ topic, Literal u := fun u hu => htopic u (mem_cons_of_mem t hu)
      have hearly : ¬ Early (f :: filter) (t :: topic) := by
        rintro (⟨h, -⟩ | ⟨h, -⟩) <;> cases h
      rw [or_iff_right hearly]
      obtain ⟨⟨rfl, rfl⟩ | rfl | hf, hrest⟩ := hvalid
      · exact iff_of_true rfl (misread_hash htopic)
      · rw [misread_plus ht, matchLevels_plus]
        exact ih hrest htopic'
      · rw [misread_literal hf, matchLevels_literal hf]
        by_cases hlast : filter = []
        · subst hlast
          refine iff_of_true ?_ ?_
          · rw [Bool.eq_iff_iff, wildLevels_last hf, Bool.and_eq_true, decide_eq_true_iff,
              matchLevels, decide_eq_true_iff, List.cons.injEq, eq_comm]
            simp
          · rintro ⟨-, ⟨h, -⟩ | h⟩
            · cases h
            · exact misread_empty h
        · obtain ⟨hend, hmore, hother⟩ :=
            level_cases fun topic => wildLevels_literal hf hlast
          by_cases heq : f = t
          · subst heq
            cases topic with
            | nil =>
              have hmis : ¬ Misread filter [] := misread_nil
              rw [hend, decide_eq_true rfl, Bool.true_and, Bool.eq_iff_iff, matchLevels_nil]
              simp [hlast, hmis]
            | cons u topic =>
              have hearly' : ¬ Early filter (u :: topic) := by
                rintro (⟨h, -⟩ | ⟨h, -⟩)
                · exact hlast h
                · cases h
              rw [hmore, decide_eq_true rfl, Bool.true_and, ih hrest htopic', or_iff_right hearly']
              simp
          · rw [hother t topic heq, decide_eq_false heq, Bool.false_and]
            exact iff_of_true rfl fun h => heq h.1

theorem plainLevels_right {filter topic : List Bytes} (hvalid : ValidFilter filter)
    (htopic : ∀ t ∈ topic, Literal t) (hne : filter ≠ []) (htne : topic ≠ []) :
    plainLevels filter topic = matchLevels filter topic ↔ ReadRight filter topic := by
  induction filter generalizing topic with
  | nil => exact absurd rfl hne
  | cons f filter ih =>
    cases topic with
    | nil => exact absurd rfl htne
    | cons t topic =>
      have ht := htopic t (mem_cons_self ..)
      have htopic' : ∀ u ∈ topic, Literal u := fun u hu => htopic u (mem_cons_of_mem t hu)
      unfold ReadRight
      rcases hvalid.1 with ⟨rfl, rfl⟩ | rfl | hf
      · refine iff_of_true rfl ⟨fun rest h => ?_, .inr (misread_hash htopic)⟩
        cases h with
        | level _ h => exact absurd h plusAtEnd_empty
      · have hplain : plainLevels ([plus] :: filter) (t :: topic) =
          (decide (t :: topic ≠ [[]]) && wildLevels ([plus] :: filter) (t :: topic)) := rfl
        rw [hplain]
        simp only [plusAtEnd_plus ht]
        by_cases hend : t = [] ∧ topic = []
        · obtain ⟨rfl, rfl⟩ := hend
          rw [matchLevels_plus, Bool.eq_iff_iff, matchLevels_nil]
          simp
        · have hmore : decide (t :: topic ≠ [[]]) = true := by
            simpa [imp_iff_not_or] using hend
          have hearly : ¬ Early ([plus] :: filter) (t :: topic) := by
            rintro (⟨h, -⟩ | ⟨h, -⟩) <;> cases h
          rw [hmore, Bool.true_and, wildLevels_right hvalid htopic, or_iff_right hearly]
          simp [hend]
      · simp only [plusAtEnd_literal hf]
        rw [misread_literal hf, matchLevels_literal hf]
        by_cases hlast : filter = []
        · subst hlast
          refine iff_of_true ?_ ⟨fun rest h => absurd h.2 plusAtEnd_empty, .inr ?_⟩
          · rw [Bool.eq_iff_iff, plainLevels_last hf, Bool.and_eq_true, decide_eq_true_iff,
              matchLevels, decide_eq_true_iff, List.cons.injEq, eq_comm]
          · rintro ⟨-, ⟨h, -⟩ | h⟩
            · cases h
            · exact misread_empty h
        · obtain ⟨hend, hmore, hother⟩ :=
            level_cases fun topic => plainLevels_literal hf hlast
          by_cases heq : f = t
          · subst heq
            cases topic with
            | nil =>
              have hmis : ¬ Misread filter [] := misread_nil
              have hplus (rest : List Bytes) : ¬ PlusAtEnd rest filter [] := plusAtEnd_nil
              rw [hend, decide_eq_true rfl, Bool.true_and, Bool.eq_iff_iff, matchLevels_nil]
              simp [hlast, hmis, hplus]
            | cons u topic =>
              rw [hmore, decide_eq_true rfl, Bool.true_and,
                ih hvalid.2 htopic' hlast (cons_ne_nil u topic)]
              simp [ReadRight]
          · rw [hother t topic heq, decide_eq_false heq, Bool.false_and]
            exact iff_of_true rfl ⟨fun rest h => absurd h.1 heq, .inr fun h => heq h.1⟩

theorem topicMatch_eq (filter topic : Bytes) :
    topicMatch filter topic = plainPath filter topic := by
  unfold topicMatch
  split
  · next h =>
    subst h
    cases topic <;> rfl
  · rfl

/-- For a valid filter and a topic without wildcards, topic_match gives what the standard says if
and only if the first `+` that meets an empty last level of the topic has more than `#` behind it,
and where there is no such `+`, the filter is not misread. -/
theorem topicMatch_right_iff (filter topic : Bytes) (hfilter : ValidFilter (levels filter))
    (htopic : Literal topic) :
    topicMatch filter topic = matchLevels (levels filter) (levels topic) ↔
      ReadRight (levels filter) (levels topic) := by
  have hliteral : ∀ t ∈ levels topic, Literal t := fun t ht =>
    ⟨fun h => htopic.1 (mem_of_mem_levels ht h), fun h => htopic.2 (mem_of_mem_levels ht h)⟩
  have hpath := plainPath_join hfilter (slash_not_mem_levels filter) (slash_not_mem_levels topic)
    (levels_ne_nil filter) (levels_ne_nil topic)
  rw [join_levels, join_levels, ← topicMatch_eq, ← Bool.eq_iff_iff] at hpath
  rw [hpath]
  exact plainLevels_right hfilter hliteral (levels_ne_nil filter) (levels_ne_nil topic)

theorem sensor_matched :
    topicMatch (lit "a/+/#") (lit "a/b/c") =
        matchLevels (levels (lit "a/+/#")) (levels (lit "a/b/c")) ↔
      ReadRight (levels (lit "a/+/#")) (levels (lit "a/b/c")) :=
  topicMatch_right_iff (lit "a/+/#") (lit "a/b/c")
    ⟨.inr (.inr ⟨by decide, by decide⟩), .inr (.inl (by decide)), .inl ⟨by decide, rfl⟩, trivial⟩
    ⟨by decide, by decide⟩

/-- A `+` matches one level, and here it is taken to match two. -/
theorem two_levels_matched :
    (ValidFilter (levels (lit "+")) ∧ Literal (lit "a/") ∧ lit "a/" ≠ []) ∧
      topicMatch (lit "+") (lit "a/") ≠ matchLevels (levels (lit "+")) (levels (lit "a/")) :=
  ⟨⟨⟨.inr (.inl (by decide)), trivial⟩, ⟨by decide, by decide⟩, by decide⟩, by decide⟩

example : topicMatch (lit "a/#") (lit "a") = false ∧
    matchLevels (levels (lit "a/#")) (levels (lit "a")) = true := by decide

end Voxlib.Mqtt
