import Voxlib.Regex.Parsing
import Voxlib.Regex.Search

/-!
# Letter case

Two runs side by side whose patterns, texts and automata differ in the case of letters only.
-/

namespace Voxlib.Regex
open CStr List

def lower (c : UInt8) : UInt8 := toLowerIfNeeded c true

theorem lower_lower : ∀ c : UInt8, lower (lower c) = lower c := forall_uint8 (by decide +kernel)

theorem isEol_lower : ∀ c : UInt8, isEol (lower c) = isEol c := forall_uint8 (by decide +kernel)

theorem isWordChar_lower : ∀ c : UInt8, isWordChar (lower c) = isWordChar c :=
  forall_uint8 (by decide +kernel)

theorem getD_lower (text : Bytes) (i : ℕ) : (text.map lower).getD i 0 = lower (text.getD i 0) := by
  rw [getD_eq_getElem?_getD, List.getElem?_map, getD_eq_getElem?_getD]
  cases text[i]? <;> rfl

def NfaStateType.lowered : NfaStateType → NfaStateType
  | .char c => .char (lower c)
  | type => type

def NfaState.lowered (s : NfaState) : NfaState := { s with type := s.type.lowered }

def Heap.lowered (h : Heap) : Heap := h.map NfaState.lowered

def Heap.types (h : Heap) : List NfaStateType := h.map NfaState.type

def Charset.Closed (t : Charset) : Prop := ∀ c, charInCharset t (lower c) = charInCharset t c

def Heap.Closed (h : Heap) : Prop := ∀ t, .charset t ∈ h.types → Charset.Closed t

section Heaps

variable (h : Heap) (q : ℕ)

@[simp] theorem length_lowered : h.lowered.length = h.length := length_map _

@[simp] theorem lowered_append (k : Heap) : Heap.lowered (h ++ k) = h.lowered ++ k.lowered :=
  map_append

@[simp] theorem lowered_cons (s : NfaState) : Heap.lowered (s :: h) = s.lowered :: h.lowered := rfl

@[simp] theorem types_cons (s : NfaState) : Heap.types (s :: h) = s.type :: h.types := rfl

@[simp] theorem nil_lowered : Heap.lowered [] = [] := rfl

@[simp] theorem nil_types : Heap.types [] = [] := rfl

@[simp] theorem types_append (k : Heap) : Heap.types (h ++ k) = h.types ++ k.types :=
  map_append

theorem state_lowered : h.lowered.state q = (h.state q).lowered := by
  rw [Heap.state, Heap.lowered, Heap.state, getD_eq_getElem?_getD, List.getElem?_map,
    getD_eq_getElem?_getD]
  cases h[q]? <;> rfl

theorem lowered_update {f : NfaState → NfaState} (hf : ∀ s, (f s).lowered = f s.lowered) :
    (h.update q f).lowered = h.lowered.update q f := by
  induction h generalizing q with
  | nil => cases q <;> rfl
  | cons s h ih =>
    cases q with
    | zero => exact congrArg (· :: h.map NfaState.lowered) (hf s)
    | succ q => exact congrArg (s.lowered :: ·) (ih q)

theorem types_update {f : NfaState → NfaState} (hf : ∀ s, (f s).type = s.type) :
    (h.update q f).types = h.types := by
  induction h generalizing q with
  | nil => cases q <;> rfl
  | cons s h ih =>
    cases q with
    | zero => exact congrArg (· :: h.map NfaState.type) (hf s)
    | succ q => exact congrArg (s.type :: ·) (ih q)

variable (a : Option ℕ)

@[simp] theorem lowered_setOut1 : (h.setOut1 q a).lowered = h.lowered.setOut1 q a :=
  lowered_update h q fun _ => rfl

@[simp] theorem lowered_setOut2 : (h.setOut2 q a).lowered = h.lowered.setOut2 q a :=
  lowered_update h q fun _ => rfl

@[simp] theorem lowered_setNonGreedy (b : Bool) :
    (h.setNonGreedy q b).lowered = h.lowered.setNonGreedy q b := lowered_update h q fun _ => rfl

@[simp] theorem lowered_setGroup (g : ℕ) (b : Bool) :
    (h.setGroup q g b).lowered = h.lowered.setGroup q g b := lowered_update h q fun _ => rfl

@[simp] theorem types_setOut1 : (h.setOut1 q a).types = h.types :=
  types_update h q fun _ => rfl

@[simp] theorem types_setOut2 : (h.setOut2 q a).types = h.types :=
  types_update h q fun _ => rfl

@[simp] theorem types_setNonGreedy (b : Bool) : (h.setNonGreedy q b).types = h.types :=
  types_update h q fun _ => rfl

@[simp] theorem types_setGroup (g : ℕ) (b : Bool) : (h.setGroup q g b).types = h.types :=
  types_update h q fun _ => rfl

theorem Heap.Closed.at {h : Heap} (hc : h.Closed) {q : ℕ} {t : Charset}
    (hq : (h.state q).type = .charset t) : Charset.Closed t := by
  refine hc t ?_
  by_cases hlt : q < h.length
  · rw [Heap.state, getD_eq_getElem _ _ hlt] at hq
    exact mem_map.mpr ⟨h[q], getElem_mem hlt, hq⟩
  · rw [Heap.state, getD_eq_default _ _ (not_lt.mp hlt)] at hq
    cases hq

theorem assignStateIds_lowered (n : ℕ) (h : Heap) (o : Option ℕ) (count : ℕ) :
    assignStateIds n h.lowered o count =
      ((assignStateIds n h o count).1.lowered, (assignStateIds n h o count).2) ∧
    (assignStateIds n h o count).1.types = h.types := by
  induction n generalizing h o count with
  | zero => exact ⟨rfl, rfl⟩
  | succ n ih =>
    cases o with
    | none => exact ⟨rfl, rfl⟩
    | some q =>
      have hid : (h.lowered.state q).id = (h.state q).id := by rw [state_lowered]; rfl
      rw [assignStateIds, assignStateIds, hid]
      split
      · exact ⟨rfl, rfl⟩
      · have hmark := lowered_update h q (f := ({ · with id := some count })) fun _ => rfl
        have htypes := types_update h q (f := ({ · with id := some count })) fun _ => rfl
        have hout (k : Heap) : (k.lowered.state q).out1 = (k.state q).out1 ∧
            (k.lowered.state q).out2 = (k.state q).out2 ∧
            (k.lowered.state q).type = (k.state q).type.lowered := by
          rw [state_lowered]
          exact ⟨rfl, rfl, rfl⟩
        simp only [← hmark, (ih _ _ _).1, hout]
        generalize hk : (assignStateIds n (assignStateIds n (h.update q _) _ _).1 _ _) = k
        have hkt : k.1.types = h.types := by rw [← hk, (ih _ _ _).2, (ih _ _ _).2, htypes]
        cases (k.1.state q).type <;> simp [NfaStateType.lowered, ih, hkt]

end Heaps

def VoxRegex.lowered (re : VoxRegex) : VoxRegex := { re with heap := re.heap.lowered }

section Matching

variable {assertion : ℕ → ℕ → Bool → Bool} {re : VoxRegex} (text : Bytes)

theorem addState_lowered (generation : UInt32) (pos n : ℕ) (o : Option ℕ) (m : Marks) :
    addState assertion re.lowered (text.map lower) generation pos n o m =
      addState assertion re text generation pos n o m := by
  induction n generalizing o m with
  | zero => rfl
  | succ n ih =>
    cases o with
    | none => rfl
    | some q =>
      have hq : re.lowered.heap.state q = (re.heap.state q).lowered := state_lowered re.heap q
      have hflags : re.lowered.flags = re.flags ∧ re.lowered.groupCount = re.groupCount := ⟨rfl, rfl⟩
      simp only [addState, hq, NfaState.lowered, ih, getD_lower, isEol_lower, isWordChar_lower,
        length_map, hflags]
      cases (re.heap.state q).type <;> rfl

theorem reads_lowered {type : NfaStateType} (hc : ∀ t, type = .charset t → Charset.Closed t)
    (ch : UInt8) : type.lowered.reads true (lower ch) = type.reads true ch := by
  cases type with
  | char c =>
    have hlower (d : UInt8) : toLowerIfNeeded (lower d) true = toLowerIfNeeded d true :=
      lower_lower d
    simp only [NfaStateType.lowered, NfaStateType.reads, hlower]
  | charset t => exact hc t rfl ch
  | _ => rfl

variable (hcase : re.flags.ignoreCase = true) (hclosed : re.heap.Closed)

include hcase hclosed

theorem nextList_lowered (generation : UInt32) (pos : ℕ) (ch : UInt8) (list : List ℕ) (m : Marks) :
    nextList assertion re.lowered (text.map lower) generation pos (lower ch) list m =
      nextList assertion re text generation pos ch list m := by
  have hstate (q : ℕ) : re.lowered.heap.state q = (re.heap.state q).lowered :=
    state_lowered re.heap q
  have hflags : re.lowered.flags.ignoreCase = true := hcase
  have hlen : re.lowered.heap.length = re.heap.length := length_lowered re.heap
  simp only [nextList, hstate, hflags, hlen, hcase, NfaState.lowered, addState_lowered,
    reads_lowered fun _ => hclosed.at]

theorem matchLoop_lowered (full : Bool) (rest : Bytes) (pos : ℕ) (generation : UInt32) (m : Marks)
    (best : Option ℕ) :
    matchLoop assertion re.lowered (text.map lower) full (rest.map lower) pos generation m best =
      matchLoop assertion re text full rest pos generation m best := by
  have hmatched (q : ℕ) : (re.lowered.heap.state q).type = .matched ↔
      (re.heap.state q).type = .matched := by
    rw [show re.lowered.heap.state q = _ from state_lowered re.heap q, NfaState.lowered]
    cases (re.heap.state q).type <;> simp [NfaStateType.lowered]
  have hfound (list : List ℕ) : hasMatchState re.lowered list = hasMatchState re list := by
    simp only [hasMatchState, hmatched]
  have hstop : re.lowered.hasNonGreedy = re.hasNonGreedy := rfl
  induction rest generalizing pos generation m best with
  | nil => simp only [map_nil, matchLoop, hfound, hstop]
  | cons ch rest ih =>
    simp only [map_cons, matchLoop, hfound, hstop, nextList_lowered text hcase hclosed,
      reduceCtorEq, ih]

theorem matchWith_lowered (start : ℕ) (full : Bool) :
    matchWith assertion re.lowered (text.map lower) start full =
      matchWith assertion re text start full := by
  have hlen : re.lowered.heap.length = re.heap.length := length_lowered re.heap
  rw [matchWith, matchWith, hlen, ← map_drop]
  simp only [addState_lowered, matchLoop_lowered text hcase hclosed]
  rfl

theorem verifyAssertion_lowered (n : ℕ) (text : Bytes) (start pos : ℕ) (lookbehind : Bool) :
    verifyAssertion re.lowered n (text.map lower) start pos lookbehind =
      verifyAssertion re n text start pos lookbehind := by
  induction n generalizing text start pos lookbehind with
  | zero => rfl
  | succ n ih =>
    have htmp (f : ℕ → ℕ → Bool → Bool) (text : Bytes) (i : ℕ) (full : Bool) :=
      @matchWith_lowered f { re with start := start, groupCount := 0, hasNonGreedy := true } text
        hcase hclosed i full
    have hih (text : Bytes) : verifyAssertion re.lowered n (text.map lower) =
        verifyAssertion re n text := by
      funext start pos lookbehind
      exact ih text start pos lookbehind
    simp only [verifyAssertion, ← map_take, hih]
    simp only [← htmp]
    rfl

/-- What an automaton with closed sets matches does not depend on case. -/
theorem match_lowered (start : ℕ) (full : Bool) :
    matchWith (verifyAssertion re.lowered re.lowered.heap.length (text.map lower)) re.lowered
      (text.map lower) start full =
      matchWith (verifyAssertion re re.heap.length text) re text start full := by
  have hlen : re.lowered.heap.length = re.heap.length := length_lowered re.heap
  have hassert : verifyAssertion re.lowered re.heap.length (text.map lower) =
      verifyAssertion re re.heap.length text := by
    funext start pos lookbehind
    exact verifyAssertion_lowered hcase hclosed _ text start pos lookbehind
  rw [hlen, hassert, matchWith_lowered text hcase hclosed]

end Matching

def ClassItem.Same : ClassItem → ClassItem → Prop
  | .single c, .single d => lower c = lower d
  | .range a b, .range c d => lower a = lower c ∧ lower b = lower d
  | .escape c, .escape d => c = d
  | _, _ => False

mutual

/- The trees differ in the case of characters and class members only. -/
def Atom.Same : Atom → Atom → Prop
  | .char c, .char d => lower c = lower d
  | .dot, .dot => True
  | .charClass negated items, .charClass negated' items' =>
    negated = negated' ∧ List.Forall₂ ClassItem.Same items items'
  | .escape c, .escape d => c = d
  | .group capturing e, .group capturing' e' => capturing = capturing' ∧ e.Same e'
  | _, _ => False
termination_by structural a => a

def Factor.Same : Factor → Factor → Prop
  | .plain a, .plain b => a.Same b
  | .repeated a q lazy, .repeated b r lazy' => a.Same b ∧ q = r ∧ lazy = lazy'
  | _, _ => False
termination_by structural a => a

def Term.Same : Term → Term → Prop
  | .one f, .one g => f.Same g
  | .more f t, .more g u => f.Same g ∧ t.Same u
  | _, _ => False
termination_by structural a => a

def Expr.Same : Expr → Expr → Prop
  | .one t, .one u => t.Same u
  | .more t e, .more u e' => t.Same u ∧ e.Same e'
  | _, _ => False
termination_by structural a => a

end

def isLetter (c : UInt8) : Bool := (65 ≤ c && c ≤ 90) || (97 ≤ c && c ≤ 122)

/- An escape that stands for a class, or for a character that is no letter. -/
def SteadyEscape (c : UInt8) : Prop :=
  c ∈ ([100, 68, 119, 87, 115, 83] : Bytes) ∨ isLetter c = false ∧ c ≠ 92

/- An item that is folded as it should: a range of letters of one case or of digits, or something
   without case. -/
def ClassItem.Steady : ClassItem → Prop
  | .single c => isLetter c = false
  | .range a b => (97 ≤ a ∧ a ≤ 122 ∧ 97 ≤ b ∧ b ≤ 122) ∨ (65 ≤ a ∧ a ≤ 90 ∧ 65 ≤ b ∧ b ≤ 90) ∨
    (48 ≤ a ∧ a ≤ 57 ∧ 48 ≤ b ∧ b ≤ 57)
  | .escape c => SteadyEscape c

mutual

/- No letter is escaped or a member of a class by itself; the quantifiers are not in braces. -/
def Atom.Steady : Atom → Prop
  | .charClass _ items => ∀ i ∈ items, i.Steady
  | .escape c => SteadyEscape c
  | .group _ e => e.Steady
  | _ => True

def Factor.Steady : Factor → Prop
  | .plain a => a.Steady
  | .repeated a q _ => a.Steady ∧ q.Braceless

def Term.Steady : Term → Prop
  | .one f => f.Steady
  | .more f t => f.Steady ∧ t.Steady

def Expr.Steady : Expr → Prop
  | .one t => t.Steady
  | .more t e => t.Steady ∧ e.Steady

end

theorem closed_empty : Charset.Closed 0 := fun c => by rw [charIn_empty, charIn_empty]

theorem Charset.Closed.or {s t : Charset} (hs : Charset.Closed s) (ht : Charset.Closed t) :
    Charset.Closed (s ||| t) := fun c => by rw [charIn_or, charIn_or, hs, ht]

theorem Charset.Closed.not {s : Charset} (hs : Charset.Closed s) : Charset.Closed (~~~s) :=
  fun c => by rw [charIn_not, charIn_not, hs]

theorem lower_plain {c : UInt8} (hc : isLetter c = false) (d : UInt8) : lower d = c ↔ d = c := by
  have hlower : ∀ d : UInt8, lower d = d ∨ isLetter (lower d) = true ∧ isLetter d = true :=
    forall_uint8 (by decide +kernel)
  rcases hlower d with hd | ⟨hd, hd'⟩
  · rw [hd]
  · refine iff_of_false ?_ ?_ <;> rintro rfl
    · rw [hc] at hd
      cases hd
    · rw [hc] at hd'
      cases hd'

theorem escape_closed {c : UInt8} (hc : SteadyEscape c) {t : Charset}
    (ht : ∀ d, charInCharset t d = escapeReads c d) : Charset.Closed t := by
  intro d
  rw [ht, ht]
  by_cases hclass : c ∈ ([100, 68, 119, 87, 115, 83] : Bytes)
  · have hall : ∀ c ∈ ([100, 68, 119, 87, 115, 83] : Bytes), ∀ n : Fin 256,
        escapeReads c (lower (UInt8.ofNat n)) = escapeReads c (UInt8.ofNat n) := by decide +kernel
    exact forall_uint8 (P := fun d => escapeReads c (lower d) = escapeReads c d) (hall c hclass) d
  · have hplain (x : UInt8) : escapeReads c x = decide (x = c) := by
      simp only [mem_cons, not_mem_nil, or_false, not_or] at hclass
      simp only [escapeReads, hclass, if_false]
    rw [hplain, hplain, Bool.eq_iff_iff, decide_eq_true_iff, decide_eq_true_iff,
      lower_plain (hc.resolve_left hclass).1]

theorem single_closed {c : UInt8} (hc : isLetter c = false) {s : Charset} (hs : Charset.Closed s) :
    Charset.Closed (addPlain true s c) := by
  have hsmall : ¬ (97 ≤ c ∧ c ≤ 122) := by
    simp only [isLetter, Bool.or_eq_false_iff, Bool.and_eq_false_iff, decide_eq_false_iff_not] at hc
    rintro ⟨hlo, hhi⟩
    exact hc.2.elim (· hlo) (· hhi)
  intro d
  rw [addPlain, if_neg fun h => hsmall h.2, charIn_add, charIn_add, hs]
  simp only [lower_plain hc]

theorem upper_lower : ∀ c : UInt8, upper true (lower c) = upper true c :=
  forall_uint8 (by decide +kernel)

theorem upper_congr {c d : UInt8} (h : lower c = lower d) : upper true c = upper true d := by
  rw [← upper_lower c, h, upper_lower]

theorem toNat_letter {a : UInt8} (ha : 65 ≤ a ∧ a ≤ 90) : (a - 65 + 97).toNat = a.toNat + 32 := by
  obtain ⟨hlo, hhi⟩ := ha
  rw [UInt8.le_iff_toNat_le] at hlo hhi
  simp only [UInt8.toNat_add, UInt8.toNat_sub, UInt8.reduceToNat] at hlo hhi ⊢
  omega

theorem toNat_lower (c : UInt8) :
    (lower c).toNat = if 65 ≤ c.toNat ∧ c.toNat ≤ 90 then c.toNat + 32 else c.toNat := by
  rw [lower, toLowerIfNeeded]
  split
  · next h =>
    rw [toNat_letter h.2, if_pos ⟨UInt8.le_iff_toNat_le.mp h.2.1, UInt8.le_iff_toNat_le.mp h.2.2⟩]
  · next h => exact (if_neg fun hc => h ⟨rfl, UInt8.le_iff_toNat_le.mpr hc.1,
      UInt8.le_iff_toNat_le.mpr hc.2⟩).symm

theorem mem_range_iff {a b c : UInt8} : (min a b ≤ c && c ≤ max a b) = true ↔
    min a.toNat b.toNat ≤ c.toNat ∧ c.toNat ≤ max a.toNat b.toNat := by
  have hmin : min a b = if a ≤ b then a else b := rfl
  have hmax : max a b = if a ≤ b then b else a := rfl
  rw [hmin, hmax, Bool.and_eq_true, decide_eq_true_iff, decide_eq_true_iff]
  split <;> simp only [UInt8.le_iff_toNat_le] at * <;> omega

theorem letters_closed {s t u : Charset} {a b : UInt8} (hs : Charset.Closed s)
    (ha : 65 ≤ a ∧ a ≤ 90) (hb : 65 ≤ b ∧ b ≤ 90)
    (ht : ∀ c, charInCharset t c = (charInCharset s c || (min a b ≤ c && c ≤ max a b)))
    (hu : ∀ c, charInCharset u c = (charInCharset t c ||
      (min (a - 65 + 97) (b - 65 + 97) ≤ c && c ≤ max (a - 65 + 97) (b - 65 + 97)))) :
    Charset.Closed u := by
  intro c
  rw [hu, hu, ht, ht, hs, Bool.or_assoc, Bool.or_assoc]
  congr 1
  rw [Bool.eq_iff_iff, Bool.or_eq_true, Bool.or_eq_true, mem_range_iff, mem_range_iff,
    mem_range_iff, mem_range_iff, toNat_letter ha, toNat_letter hb, toNat_lower]
  simp only [UInt8.le_iff_toNat_le, UInt8.reduceToNat] at ha hb
  split <;> omega

theorem addRange_closed {a b : UInt8} (h : (ClassItem.range a b).Steady) (s : Charset) : ∃ t,
    addRange true s a b = some t ∧ (Charset.Closed s → Charset.Closed t) := by
  have hcases : (65 ≤ upper true a ∧ upper true a ≤ 90) ∧ (65 ≤ upper true b ∧ upper true b ≤ 90) ∨
      ¬ (65 ≤ upper true a ∧ upper true a ≤ 90) ∧ (48 ≤ upper true a ∧ upper true a ≤ 57) ∧
        (48 ≤ upper true b ∧ upper true b ≤ 57) := by
    simp only [upper, true_and]
    simp only [ClassItem.Steady] at h
    grind
  have hbelow : upper true a < 255 ∧ upper true b < 255 := by grind
  obtain ⟨t, ht, hbits⟩ := addRange_spec s _ _ hbelow.1 hbelow.2
  rcases hcases with ⟨ha, hb⟩ | ⟨hnot, ha, hb⟩
  · have hbelow' : upper true a - 65 + 97 < 255 ∧ upper true b - 65 + 97 < 255 := by grind
    obtain ⟨u, hu, hubits⟩ := addRange_spec t _ _ hbelow'.1 hbelow'.2
    refine ⟨u, ?_, fun hs => letters_closed hs ha hb hbits hubits⟩
    simp only [addRange, ht, Option.bind_eq_bind, Option.bind_some, true_and, if_pos ha, hu]
  · refine ⟨t, ?_, fun hs c => ?_⟩
    · simp only [addRange, ht, Option.bind_eq_bind, Option.bind_some, true_and, if_neg hnot]
    · rw [hbits, hbits, hs]
      congr 1
      rw [Bool.eq_iff_iff, mem_range_iff, mem_range_iff, toNat_lower]
      simp only [UInt8.le_iff_toNat_le, UInt8.reduceToNat] at ha hb
      split <;> omega

/-- Two classes that differ in the case of their members make one set. -/
theorem loop_twins {items items' : List ClassItem} (hsame : List.Forall₂ ClassItem.Same items items')
    (hst : ∀ i ∈ items, i.Steady) (hok : ItemsOk items) (hok' : ItemsOk items') {s : Charset}
    (hs : Charset.Closed s) : ∃ t, Charset.Closed t ∧ (∀ n rest, items.length < n →
        charClassLoop true n (itemsText items ++ 93 :: rest) s = some (t, 93 :: rest)) ∧
      ∀ n rest, items'.length < n →
        charClassLoop true n (itemsText items' ++ 93 :: rest) s = some (t, 93 :: rest) := by
  have hsucc {n k : ℕ} (h : k < n) : ∃ i, n = i + 1 := Nat.exists_eq_add_one_of_ne_zero (by omega)
  induction hsame generalizing s with
  | nil =>
    have hend (n : ℕ) (rest : Bytes) (hn : 0 < n) :
        charClassLoop true n (93 :: rest) s = some (s, 93 :: rest) := by
      obtain ⟨n, rfl⟩ := hsucc hn
      exact charClassLoop_end true n rest s
    exact ⟨s, hs, hend, hend⟩
  | @cons i j items items' hij hrest ih =>
    rw [forall_mem_cons] at hst
    match i, j with
    | .single c, .single d =>
      obtain rfl : d = c := (lower_plain hst.1 d).mp (hij.symm.trans ((lower_plain hst.1 c).mpr rfl))
      obtain ⟨t, ht, hleft, hright⟩ := ih hst.2 hok.2.2 hok'.2.2 (single_closed hst.1 hs)
      refine ⟨t, ht, fun n rest hn => ?_, fun n rest hn => ?_⟩ <;> obtain ⟨n, rfl⟩ := hsucc hn
      · rw [charClassLoop_single true n items rest s hok.1 hok.2.1]
        exact hleft n rest (Nat.lt_of_succ_lt_succ hn)
      · rw [charClassLoop_single true n items' rest s hok'.1 hok'.2.1]
        exact hright n rest (Nat.lt_of_succ_lt_succ hn)
    | .range a b, .range c d =>
      obtain ⟨u, hu, hclosed⟩ := addRange_closed hst.1 s
      have hu' : addRange true s c d = some u := by
        rw [← hu, addRange, addRange, upper_congr hij.1, upper_congr hij.2]
      obtain ⟨t, ht, hleft, hright⟩ := ih hst.2 hok.2.2 hok'.2.2 (hclosed hs)
      refine ⟨t, ht, fun n rest hn => ?_, fun n rest hn => ?_⟩ <;> obtain ⟨n, rfl⟩ := hsucc hn
      · rw [charClassLoop_range true n items rest s hok.1.1 hok.2.1.1, hu]
        exact hleft n rest (Nat.lt_of_succ_lt_succ hn)
      · rw [charClassLoop_range true n items' rest s hok'.1.1 hok'.2.1.1, hu']
        exact hright n rest (Nat.lt_of_succ_lt_succ hn)
    | .escape c, .escape d =>
      obtain rfl : c = d := hij
      obtain ⟨u, hbits, hread⟩ := charClassLoop_escape hok.1
      obtain ⟨t, ht, hleft, hright⟩ := ih hst.2 hok.2 hok'.2 (hs.or (escape_closed hst.1 hbits))
      refine ⟨t, ht, fun n rest hn => ?_, fun n rest hn => ?_⟩ <;> obtain ⟨n, rfl⟩ := hsucc hn
      · exact (hread true n items rest s).trans (hleft n rest (Nat.lt_of_succ_lt_succ hn))
      · exact (hread true n items' rest s).trans (hright n rest (Nat.lt_of_succ_lt_succ hn))

structure Twin (s s' : Parser) (p p' : Bytes) : Prop where
  heap : s.heap.lowered = s'.heap.lowered
  closed : s.heap.Closed
  numbered : s.groupId.isSome = true
  group : s'.groupId = s.groupId
  front : s.pattern = p
  front' : s'.pattern = p'

def Twins (p p' : Bytes) (out out' : Option (Option Fragment × Parser)) : Prop :=
  ∃ frag t t', out = some (some frag, t) ∧ out' = some (some frag, t') ∧ Twin t t' p p'

def Even (F : Heap → Heap × Fragment) : Prop :=
  ∀ h, F h.lowered = ((F h).1.lowered, (F h).2) ∧ (h.Closed → (F h).1.Closed)

def Quantifier.build : Quantifier → Heap → Fragment → Bool → Heap × Fragment
  | .star => applyStar
  | .plus => applyPlus
  | _ => applyOptional

theorem applyQuantifier_build {q : Quantifier} (hq : q.Braceless) {rest : Bytes}
    (hrest : rest.headD 0 ≠ 63) (h : Heap) (frag : Fragment) (lazy : Bool) :
    applyQuantifier h frag (q.text ++ (lazyText lazy ++ rest)) =
      ((q.build h frag lazy).1, (q.build h frag lazy).2, rest) := by
  have hhead : rest.head?.getD 0 ≠ 63 := by rwa [← headD_eq_head?_getD]
  cases q <;> first | exact hq.elim | skip
  all_goals cases lazy <;> cases rest <;>
    simp_all [applyQuantifier, Quantifier.text, lazyText, Quantifier.build]

section Parsers

variable {flags : Flags} {F : Heap → Heap × Fragment} {s s' : Parser} {p p' : Bytes}
  {frag next : Fragment}

theorem build_even (q : Quantifier) (frag : Fragment) (lazy : Bool) :
    Even (q.build · frag lazy) := by
  intro h
  cases q <;> cases lazy <;>
    simp [Quantifier.build, applyStar, applyPlus, applyOptional, createNfaState, Heap.choose,
      Heap.setOuts, Heap.Closed, NfaState.lowered, NfaStateType.lowered]

theorem join_even (frag next : Fragment) : Even (joinBranches · frag next) := by
  intro h
  simp [joinBranches, createNfaState, Heap.setOuts, Heap.Closed, NfaState.lowered,
    NfaStateType.lowered]

theorem group_even (frag : Fragment) (g : ℕ) : Even (closeGroup · frag g) := by
  intro h
  simp [closeGroup, createNfaState, Heap.Closed, NfaState.lowered, NfaStateType.lowered]

theorem follow_even (frag next : Fragment) :
    Even fun h => (h.setOut1 frag.last (some next.start), ⟨frag.start, next.last⟩) := by
  intro h
  simp [Heap.Closed]

theorem Even.twin (hF : Even F) (h : Twin s s' p p') (q q' : Bytes) :
    (F s'.heap).2 = (F s.heap).2 ∧ Twin { s with heap := (F s.heap).1, pattern := q }
      { s' with heap := (F s'.heap).1, pattern := q' } q q' := by
  have heq := (hF s.heap).1
  rw [h.heap, (hF s'.heap).1] at heq
  obtain ⟨hheap, hfrag⟩ := Prod.mk.inj heq
  exact ⟨hfrag, hheap.symm, (hF s.heap).2 h.closed, h.numbered, h.group, rfl, rfl⟩

theorem single_twins (h : Twin s s' p p') {type type' : NfaStateType}
    (htype : type.lowered = type'.lowered) (hc : ∀ t, type = .charset t → Charset.Closed t)
    (rest rest' : Bytes) :
    Twins rest rest' (some (singleAtom s type rest)) (some (singleAtom s' type' rest')) := by
  have hlen : s.heap.length = s'.heap.length := by
    rw [← length_lowered, h.heap, length_lowered]
  have hout (s : Parser) (type : NfaStateType) (rest : Bytes) : singleAtom s type rest =
      (some ⟨s.heap.length, s.heap.length + 1⟩, (singleAtom s type rest).2) := by
    simp [singleAtom, singleState, createNfaState]
  refine ⟨_, (singleAtom s type rest).2, (singleAtom s' type' rest').2,
    congrArg some (hout s type rest), ?_, ?_, ?_, h.numbered, h.group, rfl, rfl⟩
  · rw [hlen]
    exact congrArg some (hout s' type' rest')
  · simp [singleAtom, singleState, createNfaState, hlen, h.heap, NfaState.lowered, htype]
  · have hold := h.closed
    simp only [Heap.Closed, singleAtom, singleState, createNfaState, types_setOut1, types_append,
      types_cons, nil_types, mem_append, mem_singleton] at hold ⊢
    rintro t ((ht | ht) | ht)
    · exact hold t ht
    · exact hc t ht.symm
    · cases ht

def Unquantified (p : Bytes) : Prop :=
  ¬ (p.headD 0 = 42 ∨ p.headD 0 = 43 ∨ p.headD 0 = 63 ∨ p.headD 0 = 123)

theorem parseFactor_plain {n : ℕ} {t : Parser}
    (hout : parseAtom flags n s = some (some frag, t)) (hend : Unquantified t.pattern) :
    parseFactor flags (n + 1) s = some (some frag, t) := by
  rw [parseFactor_some hout, applyQuantifier_none t.heap frag hend]

theorem parseFactor_build {q : Quantifier} (hq : q.Braceless) {lazy : Bool} {rest : Bytes} {n : ℕ}
    {t : Parser} (hout : parseAtom flags n s = some (some frag, t))
    (ht : t.pattern = q.text ++ (lazyText lazy ++ rest)) (hend : Unquantified rest) :
    parseFactor flags (n + 1) s = some (some (q.build t.heap frag lazy).2,
      { t with heap := (q.build t.heap frag lazy).1, pattern := rest }) := by
  rw [parseFactor_some hout, ht, applyQuantifier_build hq fun h => hend (.inr (.inr (.inl h)))]

section Leaves

variable {rest rest' : Bytes} {n k : ℕ}

theorem char_twins {c d : UInt8} (h : Twin s s' (c :: rest) (d :: rest'))
    (hzero : s.pattern.headD 0 ≠ 0) (hzero' : s'.pattern.headD 0 ≠ 0) (hsame : lower c = lower d)
    (hok : isLiteral c = true) (hok' : isLiteral d = true) :
    Twins rest rest' (parseAtom flags (n + 1) s) (parseAtom flags (k + 1) s') := by
  have hopen {c : UInt8} {s : Parser} {rest : Bytes} (hc : isLiteral c = true)
      (hs : s.pattern = c :: rest) : s.pattern.headD 0 ≠ 40 := by
    rw [hs]
    rintro (rfl : c = 40)
    exact absurd hc (by decide)
  have htype : (NfaStateType.char c).lowered = (NfaStateType.char d).lowered :=
    congrArg NfaStateType.char hsame
  rw [parseAtom_simple hzero (hopen hok h.front), parseAtom_simple hzero' (hopen hok' h.front'),
    parseSimple_char s hok rest h.front, parseSimple_char s' hok' rest' h.front']
  exact single_twins h htype (fun t ht => by cases ht) rest rest'

theorem dot_twins (h : Twin s s' (46 :: rest) (46 :: rest')) (hzero : s.pattern.headD 0 ≠ 0)
    (hzero' : s'.pattern.headD 0 ≠ 0) :
    Twins rest rest' (parseAtom flags (n + 1) s) (parseAtom flags (k + 1) s') := by
  rw [parseAtom_simple hzero (by simp [h.front]), parseAtom_simple hzero' (by simp [h.front']),
    parseSimple_dot s rest h.front, parseSimple_dot s' rest' h.front']
  refine single_twins h rfl (fun t ht c => ?_) rest rest'
  obtain rfl := NfaStateType.charset.inj ht
  have hdot : ∀ c : UInt8, ((lower c).toNat ≠ 10 && (lower c).toNat ≠ 13) =
      (c.toNat ≠ 10 && c.toNat ≠ 13) := forall_uint8 (by decide +kernel)
  rw [dotCharset]
  split
  · rw [charIn_setBits, charIn_setBits]
  · rw [charIn_setBits, charIn_setBits, hdot]

theorem class_twins (hcase : flags.ignoreCase = true) {negated : Bool} {items items' : List ClassItem}
    (h : Twin s s' ((Atom.charClass negated items).text ++ rest)
      ((Atom.charClass negated items').text ++ rest'))
    (hzero : s.pattern.headD 0 ≠ 0) (hzero' : s'.pattern.headD 0 ≠ 0)
    (hitems : List.Forall₂ ClassItem.Same items items') (hst : ∀ i ∈ items, i.Steady)
    (hok : (Atom.charClass negated items).Ok) (hok' : (Atom.charClass negated items').Ok) :
    Twins rest rest' (parseAtom flags (n + 1) s) (parseAtom flags (k + 1) s') := by
  obtain ⟨t, ht, hread, hread'⟩ := loop_twins hitems hst hok.1 hok'.1 closed_empty
  have hclass {items : List ClassItem} (rest : Bytes)
      (hfirst : negated = false → (itemsText items).headD 0 ≠ 94)
      (hread : ∀ n rest, items.length < n →
        charClassLoop true n (itemsText items ++ 93 :: rest) 0 = some (t, 93 :: rest)) :=
    parseCharClass_loop true negated items hfirst rest (hread _ rest (by
      have := length_le_itemsText items
      rw [length_append]
      omega))
  rw [parseAtom_simple hzero (by simp [h.front, Atom.text]),
    parseAtom_simple hzero' (by simp [h.front', Atom.text]),
    parseSimple_class s (by rw [hcase]; exact hclass rest hok.2 hread)
      (by rw [h.front]; simp [Atom.text]),
    parseSimple_class s' (by rw [hcase]; exact hclass rest' hok'.2 hread')
      (by rw [h.front']; simp [Atom.text])]
  refine single_twins h rfl (fun u hu => ?_) rest rest'
  obtain rfl := NfaStateType.charset.inj hu
  cases negated
  · exact ht
  · exact Charset.Closed.not ht

theorem escape_twins {c : UInt8} (h : Twin s s' (92 :: c :: rest) (92 :: c :: rest'))
    (hzero : s.pattern.headD 0 ≠ 0) (hzero' : s'.pattern.headD 0 ≠ 0) (hst : SteadyEscape c)
    (hok : c ≠ 0 ∧ c ≠ 98) :
    Twins rest rest' (parseAtom flags (n + 1) s) (parseAtom flags (k + 1) s') := by
  have hslash : c ≠ 92 := by
    rintro rfl
    exact hst.elim (by decide) (·.2 rfl)
  obtain ⟨t, ht, hbits⟩ := escapeCharset_spec c
  rw [parseAtom_simple hzero (by simp [h.front]), parseAtom_simple hzero' (by simp [h.front']),
    parseSimple_escape s hok hslash ht h.front, parseSimple_escape s' hok hslash ht h.front']
  refine single_twins h rfl (fun u hu => ?_) rest rest'
  obtain rfl := NfaStateType.charset.inj hu
  exact escape_closed hst hbits

end Leaves

variable (flags) in
def Atom.Paired (a b : Atom) : Prop := ∀ ⦃rest rest' n k s s'⦄, 6 * a.text.length ≤ n →
  6 * b.text.length ≤ k → Twin s s' (a.text ++ rest) (b.text ++ rest') →
  Twins rest rest' (parseAtom flags n s) (parseAtom flags k s')

variable (flags) in
def Factor.Paired (f g : Factor) : Prop := ∀ ⦃rest rest' n k s s'⦄, 6 * f.text.length + 1 ≤ n →
  6 * g.text.length + 1 ≤ k → Unquantified rest → Unquantified rest' →
  Twin s s' (f.text ++ rest) (g.text ++ rest') →
  Twins rest rest' (parseFactor flags n s) (parseFactor flags k s')

variable (flags) in
def Term.Paired (t u : Term) : Prop := ∀ ⦃rest rest' n k s s'⦄, 6 * t.text.length + 2 ≤ n →
  6 * u.text.length + 2 ≤ k → TermEnd rest → TermEnd rest' →
  Twin s s' (t.text ++ rest) (u.text ++ rest') →
  Twins rest rest' (parseTerm flags n s) (parseTerm flags k s') ∧
  ∀ frag, Twins rest rest' (termLoop flags n s frag) (termLoop flags k s' frag)

def ExprEnd (p : Bytes) : Prop := p.headD 0 = 0 ∨ p.headD 0 = 41

theorem ExprEnd.not_bar (h : ExprEnd p) : p.headD 0 ≠ 124 := by
  rcases h with h | h <;> rw [h] <;> decide

variable (flags) in
def Expr.Paired (e e' : Expr) : Prop := ∀ ⦃rest rest' n k s s'⦄, 6 * e.text.length + 3 ≤ n →
  6 * e'.text.length + 3 ≤ k → ExprEnd rest → ExprEnd rest' →
  (Twin s s' (e.text ++ rest) (e'.text ++ rest') →
    Twins rest rest' (parseExpr flags n s) (parseExpr flags k s')) ∧
  (Twin s s' (124 :: (e.text ++ rest)) (124 :: (e'.text ++ rest')) → ∀ frag,
    Twins rest rest' (exprLoop flags n s frag) (exprLoop flags k s' frag))

theorem positive {m n : ℕ} (h : m + 1 ≤ n) : ∃ i, n = i + 1 :=
  Nat.exists_eq_add_one_of_ne_zero (by omega)

theorem group_paired {e e' : Expr} (hok : e.Ok) (hok' : e'.Ok) (ih : e.Paired flags e')
    (capturing : Bool) : Atom.Paired flags (.group capturing e) (.group capturing e') := by
  intro rest rest' n k s s' hn hk h
  have hlen (e : Expr) : e.text.length + 2 ≤ (Atom.group capturing e).text.length := by
    simp [Atom.text]
  have hl := hlen e
  have hl' := hlen e'
  have hbody (e : Expr) (hok : e.Ok) (rest : Bytes) : (e.text ++ 41 :: rest).headD 0 ≠ 63 :=
    isStart_ne (text_headD (e.text_start hok)) rfl
  obtain ⟨n, rfl⟩ := positive (m := n - 1) (n := n) (by omega)
  obtain ⟨k, rfl⟩ := positive (m := k - 1) (n := k) (by omega)
  obtain ⟨g, hg⟩ := Option.isSome_iff_exists.mp h.numbered
  have hg' : s'.groupId = some g := h.group.trans hg
  have hinner (s s' : Parser) := (@ih (41 :: rest) (41 :: rest') n k s s' (by omega) (by omega)
    (.inr rfl) (.inr rfl)).1
  cases capturing with
  | false =>
    obtain ⟨frag, t, t', hout, hout', ht⟩ := hinner { s with pattern := e.text ++ 41 :: rest }
      { s' with pattern := e'.text ++ 41 :: rest' }
      ⟨h.heap, h.closed, h.numbered, h.group, rfl, rfl⟩
    exact ⟨frag, _, _, parseAtom_nonCapturing (by rw [h.front]; simp [Atom.text]) hout ht.front,
      parseAtom_nonCapturing (by rw [h.front']; simp [Atom.text]) hout' ht.front',
      ht.heap, ht.closed, ht.numbered, ht.group, rfl, rfl⟩
  | true =>
    obtain ⟨frag, t, t', hout, hout', ht⟩ := hinner
      { s with pattern := e.text ++ 41 :: rest, groupId := some (g + 1) }
      { s' with pattern := e'.text ++ 41 :: rest', groupId := some (g + 1) }
      ⟨h.heap, h.closed, rfl, rfl, rfl, rfl⟩
    obtain ⟨hfrag, hclosed⟩ := (group_even frag g).twin ht rest rest'
    refine ⟨_, _, _, parseAtom_capturing (by rw [h.front]; simp [Atom.text]) (hbody e hok rest) hg
      hout ht.front, ?_, hclosed⟩
    rw [parseAtom_capturing (by rw [h.front']; simp [Atom.text]) (hbody e' hok' rest') hg' hout'
      ht.front', hfrag]

theorem plain_paired {a b : Atom} (ih : a.Paired flags b) :
    Factor.Paired flags (.plain a) (.plain b) := by
  intro rest rest' n k s s' hn hk hend hend' h
  obtain ⟨n, rfl⟩ := positive hn
  obtain ⟨k, rfl⟩ := positive hk
  obtain ⟨frag, t, t', hout, hout', ht⟩ := ih (Nat.le_of_succ_le_succ hn)
    (Nat.le_of_succ_le_succ hk) h
  exact ⟨frag, t, t', parseFactor_plain hout (by rwa [ht.front]),
    parseFactor_plain hout' (by rwa [ht.front']), ht⟩

theorem repeated_paired {a b : Atom} (ih : a.Paired flags b) {q : Quantifier} (hq : q.Braceless)
    (lazy : Bool) : Factor.Paired flags (.repeated a q lazy) (.repeated b q lazy) := by
  intro rest rest' n k s s' hn hk hend hend' h
  obtain ⟨n, rfl⟩ := positive hn
  obtain ⟨k, rfl⟩ := positive hk
  simp only [Factor.text, length_append] at hn hk
  obtain ⟨frag, t, t', hout, hout', ht⟩ := @ih (q.text ++ (lazyText lazy ++ rest))
    (q.text ++ (lazyText lazy ++ rest')) n k s s' (by omega) (by omega)
    { h with front := by rw [h.front]; simp [Factor.text, lazyText]
             front' := by rw [h.front']; simp [Factor.text, lazyText] }
  obtain ⟨hfrag, hbuilt⟩ := (build_even q frag lazy).twin ht rest rest'
  refine ⟨_, _, _, parseFactor_build hq hout ht.front hend, ?_, hbuilt⟩
  rw [parseFactor_build hq hout' ht.front' hend', hfrag]

theorem one_paired {f g : Factor} (hok : f.Ok) (hok' : g.Ok) (ih : f.Paired flags g) :
    Term.Paired flags (.one f) (.one g) := by
  intro rest rest' n k s s' hn hk hend hend' h
  simp only [Term.text] at hn hk h
  have hstart : isStart (s.pattern.headD 0) = true := by
    rw [h.front]
    exact text_headD (f.text_start hok)
  have hstart' : isStart (s'.pattern.headD 0) = true := by
    rw [h.front']
    exact text_headD (g.text_start hok')
  obtain ⟨n, rfl⟩ := positive hn
  obtain ⟨k, rfl⟩ := positive hk
  obtain ⟨frag, t, t', hout, hout', ht⟩ := ih (Nat.le_of_succ_le_succ hn)
    (Nat.le_of_succ_le_succ hk) hend.not_quantifier hend'.not_quantifier h
  obtain ⟨n, rfl⟩ := positive (Nat.le_of_succ_le_succ hn)
  obtain ⟨k, rfl⟩ := positive (Nat.le_of_succ_le_succ hk)
  constructor
  · rw [parseTerm_some hout, parseTerm_some hout', termLoop_end (by rwa [ht.front]),
      termLoop_end (by rwa [ht.front'])]
    exact ⟨frag, t, t', rfl, rfl, ht⟩
  · intro before
    have hjoined := ((follow_even before frag).twin ht t.pattern t'.pattern).2
    rw [termLoop_some hstart hout, termLoop_some hstart' hout',
      termLoop_end (by dsimp only; rwa [ht.front]), termLoop_end (by dsimp only; rwa [ht.front'])]
    exact ⟨_, _, _, rfl, rfl, { hjoined with front := ht.front, front' := ht.front' }⟩

theorem more_paired {f g : Factor} {t u : Term} (hok : f.Ok ∧ t.Ok) (hok' : g.Ok ∧ u.Ok)
    (ih : f.Paired flags g) (ih' : t.Paired flags u) :
    Term.Paired flags (.more f t) (.more g u) := by
  intro rest rest' n k s s' hn hk hend hend' h
  have hpos := f.text_pos hok.1
  have hpos' := g.text_pos hok'.1
  simp only [Term.text, length_append, append_assoc] at hn hk h
  have hstart : isStart (s.pattern.headD 0) = true := by
    rw [h.front]
    exact text_headD (f.text_start hok.1)
  have hstart' : isStart (s'.pattern.headD 0) = true := by
    rw [h.front']
    exact text_headD (g.text_start hok'.1)
  obtain ⟨n, rfl⟩ := positive hn
  obtain ⟨k, rfl⟩ := positive hk
  obtain ⟨frag, v, v', hout, hout', hv⟩ := ih (n := n) (k := k) (by omega) (by omega)
    (isStart_not_quantifier (text_headD (t.text_start hok.2)))
    (isStart_not_quantifier (text_headD (u.text_start hok'.2))) h
  have hnext {s s' : Parser} (h : Twin s s' (t.text ++ rest) (u.text ++ rest')) :=
    (ih' (n := n) (k := k) (by omega) (by omega) hend hend' h).2
  constructor
  · rw [parseTerm_some hout, parseTerm_some hout']
    exact hnext hv frag
  · intro before
    have hjoined := ((follow_even before frag).twin hv v.pattern v'.pattern).2
    rw [termLoop_some hstart hout, termLoop_some hstart' hout']
    exact hnext { hjoined with front := hv.front, front' := hv.front' } _

theorem branch_paired {t u : Term} (ih : t.Paired flags u) :
    Expr.Paired flags (.one t) (.one u) := by
  intro rest rest' n k s s' hn hk hend hend'
  simp only [Expr.text] at hn hk
  obtain ⟨n, rfl⟩ := positive hn
  obtain ⟨k, rfl⟩ := positive hk
  have hbranch {s s' : Parser} (h : Twin s s' (t.text ++ rest) (u.text ++ rest')) :=
    (ih (Nat.le_of_succ_le_succ hn) (Nat.le_of_succ_le_succ hk) (hend.imp id Or.inr)
      (hend'.imp id Or.inr) h).1
  constructor
  · intro h
    obtain ⟨frag, v, v', hout, hout', hv⟩ := hbranch h
    obtain ⟨n, rfl⟩ := positive (Nat.le_of_succ_le_succ hn)
    obtain ⟨k, rfl⟩ := positive (Nat.le_of_succ_le_succ hk)
    rw [parseExpr_some hout, parseExpr_some hout',
      exprLoop_end (by rw [hv.front]; exact hend.not_bar),
      exprLoop_end (by rw [hv.front']; exact hend'.not_bar)]
    exact ⟨frag, v, v', rfl, rfl, hv⟩
  · intro h frag
    obtain ⟨next, v, v', hout, hout', hv⟩ := @hbranch { s with pattern := t.text ++ rest }
      { s' with pattern := u.text ++ rest' } { h with front := rfl, front' := rfl }
    obtain ⟨n, rfl⟩ := positive (Nat.le_of_succ_le_succ hn)
    obtain ⟨k, rfl⟩ := positive (Nat.le_of_succ_le_succ hk)
    obtain ⟨hfrag, hjoined⟩ := (join_even frag next).twin hv v.pattern v'.pattern
    rw [exprLoop_some h.front hout, exprLoop_some h.front' hout', hfrag,
      exprLoop_end (by dsimp only; rw [hv.front]; exact hend.not_bar),
      exprLoop_end (by dsimp only; rw [hv.front']; exact hend'.not_bar)]
    exact ⟨_, _, _, rfl, rfl, { hjoined with front := hv.front, front' := hv.front' }⟩

theorem branches_paired {t u : Term} {e e' : Expr} (ih : t.Paired flags u)
    (ih' : e.Paired flags e') : Expr.Paired flags (.more t e) (.more u e') := by
  intro rest rest' n k s s' hn hk hend hend'
  simp only [Expr.text, length_append, length_cons] at hn hk
  obtain ⟨n, rfl⟩ := positive hn
  obtain ⟨k, rfl⟩ := positive hk
  have hbranch {s s' : Parser} (h : Twin s s' (t.text ++ 124 :: (e.text ++ rest))
      (u.text ++ 124 :: (e'.text ++ rest'))) :=
    (ih (n := n) (k := k) (by omega) (by omega) (.inr (.inl rfl)) (.inr (.inl rfl)) h).1
  have hnext {s s' : Parser} (h : Twin s s' (124 :: (e.text ++ rest)) (124 :: (e'.text ++ rest'))) :=
    (ih' (n := n) (k := k) (by omega) (by omega) hend hend').2 h
  constructor
  · intro h
    obtain ⟨frag, v, v', hout, hout', hv⟩ := @hbranch s s'
      { h with front := by rw [h.front]; simp [Expr.text]
               front' := by rw [h.front']; simp [Expr.text] }
    rw [parseExpr_some hout, parseExpr_some hout']
    exact hnext hv frag
  · intro h frag
    obtain ⟨next, v, v', hout, hout', hv⟩ := @hbranch
      { s with pattern := t.text ++ 124 :: (e.text ++ rest) }
      { s' with pattern := u.text ++ 124 :: (e'.text ++ rest') } { h with front := rfl, front' := rfl }
    obtain ⟨hfrag, hjoined⟩ := (join_even frag next).twin hv v.pattern v'.pattern
    rw [exprLoop_some (by rw [h.front]; simp [Expr.text]) hout,
      exprLoop_some (by rw [h.front']; simp [Expr.text]) hout', hfrag]
    exact hnext { hjoined with front := hv.front, front' := hv.front' } _

theorem leaf_paired (hcase : flags.ignoreCase = true) {a b : Atom} (hsame : a.Same b)
    (hst : a.Steady) (hok : a.Ok) (hok' : b.Ok) (hleaf : ∀ capturing e, a ≠ .group capturing e) :
    a.Paired flags b := by
  intro rest rest' n k s s' hn hk h
  have hstart {a : Atom} {s : Parser} {rest : Bytes} (hok : a.Ok) (hs : s.pattern = a.text ++ rest) :
      s.pattern.headD 0 ≠ 0 := by
    rw [hs]
    exact isStart_ne (text_headD (a.text_start hok)) rfl
  have hzero := hstart hok h.front
  have hzero' := hstart hok' h.front'
  have hpos := a.text_pos hok
  have hpos' := b.text_pos hok'
  obtain ⟨n, rfl⟩ := positive (m := n - 1) (n := n) (by omega)
  obtain ⟨k, rfl⟩ := positive (m := k - 1) (n := k) (by omega)
  match a, b with
  | .char c, .char d => exact char_twins h hzero hzero' hsame hok hok'
  | .dot, .dot => exact dot_twins h hzero hzero'
  | .charClass negated items, .charClass negated' items' =>
    obtain ⟨rfl, hitems⟩ := hsame
    exact class_twins hcase h hzero hzero' hitems hst hok hok'
  | .escape c, .escape d =>
    obtain rfl : c = d := hsame
    exact escape_twins h hzero hzero' hst hok
  | .group capturing e, .group _ _ => exact absurd rfl (hleaf capturing e)

mutual

theorem Atom.paired (hcase : flags.ignoreCase = true) (a b : Atom) (hsame : a.Same b)
    (hst : a.Steady) (hok : a.Ok) (hok' : b.Ok) : a.Paired flags b := by
  match a, b with
  | .group capturing e, .group capturing' e' =>
    obtain ⟨rfl, hsame⟩ := hsame
    exact group_paired hok hok' (e.paired hcase e' hsame hst hok hok') capturing
  | .char _, b => exact leaf_paired hcase hsame hst hok hok' fun _ _ => nofun
  | .dot, b => exact leaf_paired hcase hsame hst hok hok' fun _ _ => nofun
  | .charClass _ _, b => exact leaf_paired hcase hsame hst hok hok' fun _ _ => nofun
  | .escape _, b => exact leaf_paired hcase hsame hst hok hok' fun _ _ => nofun

theorem Factor.paired (hcase : flags.ignoreCase = true) (f g : Factor) (hsame : f.Same g)
    (hst : f.Steady) (hok : f.Ok) (hok' : g.Ok) : f.Paired flags g := by
  match f, g with
  | .plain a, .plain b => exact plain_paired (a.paired hcase b hsame hst hok hok')
  | .repeated a q lazy, .repeated b q' lazy' =>
    obtain ⟨hsame, rfl, rfl⟩ := hsame
    exact repeated_paired (a.paired hcase b hsame hst.1 hok.1 hok'.1) hst.2 lazy

theorem Term.paired (hcase : flags.ignoreCase = true) (t u : Term) (hsame : t.Same u)
    (hst : t.Steady) (hok : t.Ok) (hok' : u.Ok) : t.Paired flags u := by
  match t, u with
  | .one f, .one g => exact one_paired hok hok' (f.paired hcase g hsame hst hok hok')
  | .more f t, .more g u =>
    exact more_paired hok hok' (f.paired hcase g hsame.1 hst.1 hok.1 hok'.1)
      (t.paired hcase u hsame.2 hst.2 hok.2 hok'.2)

theorem Expr.paired (hcase : flags.ignoreCase = true) (e e' : Expr) (hsame : e.Same e')
    (hst : e.Steady) (hok : e.Ok) (hok' : e'.Ok) : e.Paired flags e' := by
  match e, e' with
  | .one t, .one u => exact branch_paired (t.paired hcase u hsame hst hok hok')
  | .more t e, .more u e' =>
    exact branches_paired (t.paired hcase u hsame.1 hst.1 hok.1 hok'.1)
      (e.paired hcase e' hsame.2 hst.2 hok.2 hok'.2)

end

end Parsers

/- The part of vox_regex_compile that puts the last state behind the fragment of the parser. -/
def Heap.endAt (h : Heap) (last : ℕ) : Heap :=
  let (matchState, h) := createNfaState h .matched
  if (h.state last).type = .split then h.setOut1 last (some matchState)
  else
    let (split, h) := createNfaState h .split
    (h.setOut1 split (some matchState)).setOut1 last (some split)

theorem endAt_lowered (h : Heap) (last : ℕ) :
    (h.endAt last).lowered = h.lowered.endAt last ∧ (h.Closed → (h.endAt last).Closed) := by
  have hsplit (k : Heap) : (k.lowered.state last).type = .split ↔ (k.state last).type = .split := by
    rw [state_lowered, NfaState.lowered]
    cases (k.state last).type <;> simp [NfaStateType.lowered]
  have hend : (h ++ [({ type := .matched } : NfaState)]).lowered =
      h.lowered ++ [{ type := .matched }] := by simp [NfaState.lowered, NfaStateType.lowered]
  have htype := hsplit (h ++ [{ type := .matched }])
  rw [hend] at htype
  simp only [Heap.endAt, createNfaState, length_lowered, htype]
  by_cases hlast : (Heap.state (h ++ [{ type := .matched }]) last).type = .split <;>
    simp [hlast, Heap.Closed, NfaState.lowered, NfaStateType.lowered]

theorem compile_parsed {flags : Flags} {p : Bytes} {frag : Fragment} {s : Parser}
    (hout : parseExpr flags (6 * p.length + 6) ⟨[], p, some 0⟩ = some (some frag, s))
    (hs : s.pattern = []) {h : Heap} (hend : s.heap.endAt frag.last = h) {a : Heap × ℕ}
    (hassign : assignStateIds (h.length + 1) h (some frag.start) 0 = a) :
    compile p flags = some (some ⟨a.1, frag.start, flags, s.groupId.getD 0, nonGreedyLoop 0 p,
      a.2⟩) := by
  have hhead : ¬ s.pattern.headD 0 ≠ 0 := by
    rw [hs]
    simp
  subst hend
  rw [compile, hout, Option.bind_eq_bind, Option.bind_some]
  dsimp only
  rw [if_neg hhead]
  subst hassign
  rfl

theorem closed_of_lowered {h k : Heap} (heq : h.lowered = k.lowered) (hc : h.Closed) : k.Closed := by
  have htypes (h : Heap) : h.lowered.types = h.types.map NfaStateType.lowered := by
    simp [Heap.types, Heap.lowered, NfaState.lowered]
  have hsets (h : Heap) (t : Charset) : .charset t ∈ h.types ↔ .charset t ∈ h.lowered.types := by
    rw [htypes, mem_map]
    refine ⟨fun ht => ⟨_, ht, rfl⟩, ?_⟩
    rintro ⟨type, ht, heq⟩
    cases type <;> cases heq
    exact ht
  intro t ht
  exact hc t ((hsets h t).mpr (heq ▸ (hsets k t).mp ht))

theorem nonGreedyLoop_lower (prev : UInt8) (p : Bytes) :
    nonGreedyLoop (lower prev) (p.map lower) = nonGreedyLoop prev p := by
  have hsign {d : UInt8} (hd : isLetter d = false) (c : UInt8) :
      decide (lower c = d) = decide (c = d) := by
    rw [decide_eq_decide, lower_plain hd]
  induction p generalizing prev with
  | nil => rfl
  | cons c p ih =>
    rw [map_cons, nonGreedyLoop, nonGreedyLoop, ih, hsign rfl, hsign rfl, hsign rfl, hsign rfl,
      hsign rfl]

theorem items_text_lower {items items' : List ClassItem}
    (h : List.Forall₂ ClassItem.Same items items') :
    (itemsText items).map lower = (itemsText items').map lower := by
  induction h with
  | nil => rfl
  | @cons i j items items' hij _ ih =>
    have hitem : i.text.map lower = j.text.map lower := by
      cases i <;> cases j <;> simp_all [ClassItem.Same, ClassItem.text]
    rw [itemsText, itemsText, flatMap_cons, flatMap_cons, map_append, map_append,
      hitem]
    exact congrArg (_ ++ ·) ih

mutual

theorem Atom.text_lower (a b : Atom) (h : a.Same b) : a.text.map lower = b.text.map lower := by
  match a, b with
  | .char _, .char _ => exact congrArg ([·]) h
  | .dot, .dot => rfl
  | .charClass _ _, .charClass _ _ =>
    obtain ⟨rfl, hitems⟩ := h
    simp [Atom.text, items_text_lower hitems]
  | .escape _, .escape _ =>
    obtain rfl := h
    rfl
  | .group _ e, .group _ e' =>
    obtain ⟨rfl, h⟩ := h
    simp [Atom.text, e.text_lower e' h]

theorem Factor.text_lower (f g : Factor) (h : f.Same g) : f.text.map lower = g.text.map lower := by
  match f, g with
  | .plain a, .plain b => exact a.text_lower b h
  | .repeated a _ _, .repeated b _ _ =>
    obtain ⟨h, rfl, rfl⟩ := h
    simp [Factor.text, a.text_lower b h]

theorem Term.text_lower (t u : Term) (h : t.Same u) : t.text.map lower = u.text.map lower := by
  match t, u with
  | .one f, .one g => exact f.text_lower g h
  | .more f t, .more g u => simp [Term.text, f.text_lower g h.1, t.text_lower u h.2]

theorem Expr.text_lower (e e' : Expr) (h : e.Same e') : e.text.map lower = e'.text.map lower := by
  match e, e' with
  | .one t, .one u => exact t.text_lower u h
  | .more t e, .more u e' => simp [Expr.text, t.text_lower u h.1, e.text_lower e' h.2]

end

theorem compile_lowered {flags : Flags} (hcase : flags.ignoreCase = true) {e e' : Expr}
    (hsame : e.Same e') (hst : e.Steady) (hok : e.Ok) (hok' : e'.Ok) : ∃ re re' : VoxRegex,
    compile e.text flags = some (some re) ∧ compile e'.text flags = some (some re') ∧
      re.flags = flags ∧ re.heap.Closed ∧ re.lowered = re'.lowered := by
  obtain ⟨frag, s, s', hout, hout', h⟩ := (@Expr.paired flags hcase e e' hsame hst hok hok' [] []
    (6 * e.text.length + 6) (6 * e'.text.length + 6) ⟨[], e.text, some 0⟩ ⟨[], e'.text, some 0⟩
    (by omega) (by omega) (.inl rfl) (.inl rfl)).1 ⟨rfl, fun _ ht => absurd ht not_mem_nil, rfl, rfl, (append_nil _).symm,
      (append_nil _).symm⟩
  obtain ⟨hleft, hclosed⟩ := endAt_lowered s.heap frag.last
  have hends : (s'.heap.endAt frag.last).lowered = (s.heap.endAt frag.last).lowered := by
    rw [hleft, (endAt_lowered s'.heap frag.last).1, h.heap]
  generalize hk : s.heap.endAt frag.last = k at hends hclosed
  generalize hk' : s'.heap.endAt frag.last = k' at hends
  have hlen : k'.length = k.length := by rw [← length_lowered, hends, length_lowered]
  obtain ⟨heq, htypes⟩ := assignStateIds_lowered (k.length + 1) k (some frag.start) 0
  have heq' := (assignStateIds_lowered (k.length + 1) k' (some frag.start) 0).1
  rw [hends, heq] at heq'
  have hrun := compile_parsed hout h.front hk rfl
  have hrun' := compile_parsed hout' h.front' hk' (by rw [hlen])
  generalize assignStateIds (k.length + 1) k (some frag.start) 0 = a at heq' htypes hrun
  generalize assignStateIds (k.length + 1) k' (some frag.start) 0 = b at heq' hrun'
  obtain ⟨hheap, hcount⟩ := Prod.mk.inj heq'
  have hgreedy : nonGreedyLoop 0 e.text = nonGreedyLoop 0 e'.text := by
    rw [← nonGreedyLoop_lower, e.text_lower e' hsame, nonGreedyLoop_lower]
  refine ⟨_, _, hrun, hrun', rfl, ?_, ?_⟩
  · rw [Heap.Closed, htypes]
    exact hclosed h.closed
  · simp only [VoxRegex.lowered, hheap, hcount, h.group, hgreedy]

/- The pattern is accepted after every change of the case of its characters and of the members of
   its classes, and after every change of the case of a text it matches the same parts. -/
def CaseBlind (flags : Flags) (e : Expr) : Prop := ∀ e' : Expr, e.Same e' → e'.Ok →
  ∃ re re', compile e.text flags = some (some re) ∧ compile e'.text flags = some (some re') ∧
    ∀ text text' : Bytes, text.map lower = text'.map lower →
      regexMatch re text = regexMatch re' text' ∧
      ∀ pos, re.matchAt text pos = re'.matchAt text' pos

/-- Case is ignored where no letter is escaped or a member of a class by itself. -/
theorem caseBlind_of_steady (flags : Flags) (hcase : flags.ignoreCase = true) (e : Expr) (hok : e.Ok)
    (hsteady : e.Steady) : CaseBlind flags e := by
  intro e' hsame hok'
  obtain ⟨re, re', hre, hre', hflags, hclosed, heq⟩ := compile_lowered hcase hsame hsteady hok hok'
  have hflags' : re'.flags = flags := (congrArg VoxRegex.flags heq).symm.trans hflags
  have hclosed' := closed_of_lowered (congrArg VoxRegex.heap heq) hclosed
  refine ⟨re, re', hre, hre', fun text text' htext => ?_⟩
  have hmatch (start : ℕ) (full : Bool) :
      matchWith (verifyAssertion re re.heap.length text) re text start full =
        matchWith (verifyAssertion re' re'.heap.length text') re' text' start full := by
    rw [← match_lowered text (hflags ▸ hcase) hclosed, heq, htext,
      match_lowered text' (hflags' ▸ hcase) hclosed']
  exact ⟨congrArg Option.isSome (hmatch 0 true), fun pos => hmatch pos false⟩

/-- The pattern "(?:x[a-f])*" with the flag. -/
theorem caseBlind_steady_range : CaseBlind { ignoreCase := true }
    (.one (.one (.repeated (.group false (.one (.more (.plain (.char 120))
      (.one (.plain (.charClass false [.range 97 102])))))) .star false))) := by
  refine caseBlind_of_steady _ rfl _ ?_ ?_
  · simp [Expr.Ok, Term.Ok, Factor.Ok, Atom.Ok, ItemsOk, Quantifier.Ok]
    decide
  · simp [Expr.Steady, Term.Steady, Factor.Steady, Atom.Steady, ClassItem.Steady, Quantifier.Braceless]

def upperClass : Expr := .one (.one (.plain (.charClass false [.single 65])))

/-- "[A]" matches "A" and not "a". -/
theorem upper_member_not_folded : ¬ ∀ flags : Flags, flags.ignoreCase = true → ∀ e : Expr, e.Ok →
    e.Plain → e.All Quantifier.Braceless → CaseBlind flags e := by
  intro hall
  have hblind := hall { ignoreCase := true } rfl upperClass ⟨⟨rfl, nofun, trivial⟩, fun _ => nofun⟩
    trivial trivial upperClass ⟨rfl, .cons rfl .nil⟩ ⟨⟨rfl, nofun, trivial⟩, fun _ => nofun⟩
  obtain ⟨re, re', hre, hre', hmatch⟩ := hblind
  obtain rfl : re = re' := by
    rw [hre] at hre'
    simpa using hre'
  have hruns : (compile upperClass.text { ignoreCase := true }).map
      (·.map fun re => (regexMatch re [97], regexMatch re [65])) = some (some (false, true)) := by
    decide +kernel
  rw [hre, Option.map_some, Option.map_some, Option.some.injEq, Option.some.injEq,
    Prod.mk.injEq, (hmatch [97] [65] rfl).1] at hruns
  exact absurd (hruns.1.symm.trans hruns.2) (by decide)

end Voxlib.Regex
