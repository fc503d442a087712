import Voxlib.Regex.Patterns

/-!
# Character sets

What the sets of classes and escapes hold.
-/

namespace Voxlib.Regex
open CStr List

variable {cs : Charset} {c d : UInt8}

theorem charIn_empty (c : UInt8) : charInCharset 0 c = false := by
  simp [charInCharset, getCharsetBit]

theorem charIn_or (s t : Charset) (c : UInt8) :
    charInCharset (s ||| t) c = (charInCharset s c || charInCharset t c) := by
  simp [charInCharset, getCharsetBit]

theorem charIn_not (s : Charset) (c : UInt8) : charInCharset (~~~s) c = !charInCharset s c := by
  have hc := c.toNat_lt
  simp [charInCharset, getCharsetBit, hc]

theorem charIn_set (s : Charset) (i : ℕ) (c : UInt8) :
    charInCharset (setCharsetBit s i) c = (charInCharset s c || c.toNat = i) := by
  have hc := c.toNat_lt
  simp [charInCharset, getCharsetBit, setCharsetBit, hc]

theorem charIn_add (s : Charset) (d c : UInt8) :
    charInCharset (addCharToCharset s d) c = (charInCharset s c || c = d) := by
  simp only [addCharToCharset, charIn_set, UInt8.toNat_inj]

theorem rangeLoop_spec (n : ℕ) (ch e : UInt8) (s : Charset) (he : e.toNat < 255)
    (hch : ch.toNat ≤ e.toNat + 1) (hn : e.toNat + 1 < n + ch.toNat) :
    ∃ t, rangeLoop n ch e s = some t ∧
      ∀ c, charInCharset t c = (charInCharset s c || (ch ≤ c && c ≤ e)) := by
  induction n generalizing ch s with
  | zero => omega
  | succ n ih =>
    rw [rangeLoop]
    by_cases hle : ch ≤ e
    · have hle' : ch.toNat ≤ e.toNat := hle
      have hnext : (ch + 1).toNat = ch.toNat + 1 := by
        rw [UInt8.toNat_add]
        exact Nat.mod_eq_of_lt (by simp; omega)
      obtain ⟨t, ht, hbits⟩ := ih (ch + 1) (setCharsetBit s ch.toNat) (by omega) (by omega)
      refine ⟨t, by rw [if_pos hle, ht], fun c => ?_⟩
      rw [hbits, charIn_set, Bool.or_assoc]
      congr 1
      rw [Bool.eq_iff_iff]
      simp only [Bool.or_eq_true, Bool.and_eq_true, decide_eq_true_eq, UInt8.le_iff_toNat_le, hnext]
      omega
    · have hgt : ¬ ch.toNat ≤ e.toNat := hle
      refine ⟨s, if_neg hle, fun c => ?_⟩
      rw [Bool.eq_iff_iff]
      simp only [Bool.or_eq_true, Bool.and_eq_true, decide_eq_true_eq, UInt8.le_iff_toNat_le]
      constructor
      · exact Or.inl
      · rintro (hc | hc)
        · exact hc
        · omega

theorem addRange_spec (s : Charset) (a b : UInt8) (ha : a < 255) (hb : b < 255) :
    ∃ t, addRangeToCharset s a b = some t ∧
      ∀ c, charInCharset t c = (charInCharset s c || (min a b ≤ c && c ≤ max a b)) := by
  have ha' : a.toNat < 255 := ha
  have hb' : b.toNat < 255 := hb
  rw [addRangeToCharset]
  by_cases hgt : a > b
  · have hgt' : b.toNat < a.toNat := hgt
    have hmin : min a b = b := if_neg (UInt8.not_le.mpr hgt)
    have hmax : max a b = a := if_neg (UInt8.not_le.mpr hgt)
    rw [if_pos hgt, hmin, hmax]
    exact rangeLoop_spec 257 b a s ha' (by omega) (by omega)
  · have hle : a ≤ b := UInt8.not_lt.mp hgt
    have hle' : a.toNat ≤ b.toNat := hle
    have hmin : min a b = a := if_pos hle
    have hmax : max a b = b := if_pos hle
    rw [if_neg hgt, hmin, hmax]
    exact rangeLoop_spec 257 a b s hb' (by omega) (by omega)

theorem charIn_setBits (cond : ℕ → Bool) (c : UInt8) :
    charInCharset (setBits cond) c = cond c.toNat := by
  have hloop : ∀ (l : List ℕ) (s : Charset),
      charInCharset (l.foldl (fun bitmap i => if cond i then setCharsetBit bitmap i else bitmap) s)
        c = (charInCharset s c || (decide (c.toNat ∈ l) && cond c.toNat)) := by
    intro l
    induction l with
    | nil => simp
    | cons i l ih =>
      intro s
      rw [foldl_cons, ih]
      by_cases hi : cond i = true
      · rw [if_pos hi, charIn_set]
        by_cases hci : c.toNat = i
        · subst hci
          simp [hi]
        · simp [hci]
      · rw [if_neg hi]
        by_cases hci : c.toNat = i
        · subst hci
          simp [hi]
        · simp [hci]
  have hc : c.toNat ∈ List.range 256 := mem_range.mpr c.toNat_lt
  rw [setBits, hloop, charIn_empty, decide_eq_true hc]
  simp

theorem charIn_foldl_add (l : List UInt8) (s : Charset) (c : UInt8) :
    charInCharset (l.foldl addCharToCharset s) c = (charInCharset s c || l.contains c) := by
  induction l generalizing s with
  | nil => simp
  | cons d l ih =>
    rw [foldl_cons, ih, charIn_add, contains_cons, Bool.or_assoc]
    rfl

theorem escapeCharset_spec (e : UInt8) : ∃ t, escapeCharset e = some t ∧
    ∀ c, charInCharset t c = escapeReads e c := by
  rw [escapeCharset]
  by_cases hd : e = 100
  · obtain ⟨t, ht, hbits⟩ := addRange_spec 0 48 57 (by decide) (by decide)
    rw [if_pos hd, ht]
    refine ⟨t, rfl, fun c => ?_⟩
    rw [hbits, charIn_empty, Bool.false_or, escapeReads, if_pos hd, isDigit]
    rfl
  by_cases hD : e = 68
  · rw [if_neg hd, if_pos hD]
    refine ⟨_, rfl, fun c => ?_⟩
    rw [charIn_setBits, escapeReads, if_neg hd, if_pos hD, isDigit, Bool.eq_iff_iff]
    simp [UInt8.le_iff_toNat_le]
  by_cases hw : e = 119
  · obtain ⟨t, ht, hbits⟩ := addRange_spec 0 97 122 (by decide) (by decide)
    obtain ⟨u, hu, hubits⟩ := addRange_spec t 65 90 (by decide) (by decide)
    obtain ⟨v, hv, hvbits⟩ := addRange_spec u 48 57 (by decide) (by decide)
    rw [if_neg hd, if_neg hD, if_pos hw, ht, Option.bind_eq_bind, Option.bind_some, hu,
      Option.bind_some, hv]
    refine ⟨_, rfl, fun c => ?_⟩
    rw [charIn_add, hvbits, hubits, hbits, charIn_empty, escapeReads, if_neg hd, if_neg hD,
      if_pos hw, isWordChar, Bool.false_or]
    rfl
  by_cases hW : e = 87
  · rw [if_neg hd, if_neg hD, if_neg hw, if_pos hW]
    refine ⟨_, rfl, fun c => ?_⟩
    rw [charIn_setBits, escapeReads, if_neg hd, if_neg hD, if_neg hw, if_pos hW, isWordChar,
      Bool.eq_iff_iff]
    simp [UInt8.le_iff_toNat_le, ← UInt8.toNat_inj]
  by_cases hs : e = 115
  · rw [if_neg hd, if_neg hD, if_neg hw, if_neg hW, if_pos hs]
    refine ⟨_, rfl, fun c => ?_⟩
    rw [charIn_foldl_add, charIn_empty, escapeReads, if_neg hd, if_neg hD, if_neg hw, if_neg hW,
      if_pos hs, isSpace, Bool.false_or]
  by_cases hS : e = 83
  · rw [if_neg hd, if_neg hD, if_neg hw, if_neg hW, if_neg hs, if_pos hS]
    refine ⟨_, rfl, fun c => ?_⟩
    rw [charIn_setBits, escapeReads, if_neg hd, if_neg hD, if_neg hw, if_neg hW, if_neg hs,
      if_pos hS, isSpace, Bool.eq_iff_iff]
    simp [← UInt8.toNat_inj, and_assoc]
  · rw [if_neg hd, if_neg hD, if_neg hw, if_neg hW, if_neg hs, if_neg hS]
    refine ⟨_, rfl, fun c => ?_⟩
    rw [charIn_add, charIn_empty, Bool.false_or, escapeReads, if_neg hd, if_neg hD, if_neg hw,
      if_neg hW, if_neg hs, if_neg hS]

theorem ClassItem.text_ne_nil (i : ClassItem) : i.text ≠ [] := by
  cases i <;> simp [ClassItem.text]

theorem startsRange_append {p : Bytes} (rest : Bytes) (h : ¬ StartsRange (p ++ [93])) :
    ¬ ((p ++ 93 :: rest).headD 0 = 45 ∧ (p ++ 93 :: rest).getD 1 0 ≠ 0 ∧
      (p ++ 93 :: rest).getD 1 0 ≠ 93 ∧ (p ++ 93 :: rest).getD 1 0 ≠ 92) := by
  rintro ⟨hhead, hzero, hclose, hslash⟩
  match p with
  | [] => exact absurd hhead (by simp)
  | [a] => exact hclose rfl
  | a :: b :: p =>
    refine h ⟨hhead, ?_⟩
    simpa [isClassChar] using ⟨⟨hzero, hclose⟩, hslash⟩

section Items

variable (ic : Bool) (n : ℕ) (items : List ClassItem) (rest : Bytes) (s : Charset)

theorem charClassLoop_end : charClassLoop ic (n + 1) (93 :: rest) s = some (s, 93 :: rest) := by
  simp [charClassLoop]

theorem charClassLoop_single (hc : isClassChar c = true)
    (hrange : ¬ StartsRange (itemsText items ++ [93])) :
    charClassLoop ic (n + 1) (itemsText (.single c :: items) ++ 93 :: rest) s =
      charClassLoop ic n (itemsText items ++ 93 :: rest) (addPlain ic s c) := by
  have hplain : (c ≠ 0 ∧ c ≠ 93) ∧ c ≠ 92 := by simpa [isClassChar] using hc
  have htext : itemsText (.single c :: items) ++ 93 :: rest =
      c :: (itemsText items ++ 93 :: rest) := rfl
  rw [htext, charClassLoop, if_neg (by simp [hplain]), if_neg (by simp [hplain]), if_neg]
  · rfl
  · rw [getD_cons_succ, getD_cons_succ, ← headD_eq_getD]
    exact startsRange_append rest hrange

theorem charClassLoop_range {a b : UInt8} (ha : isClassChar a = true) (hb : isClassChar b = true) :
    charClassLoop ic (n + 1) (itemsText (.range a b :: items) ++ 93 :: rest) s =
      (addRange ic s a b).bind (charClassLoop ic n (itemsText items ++ 93 :: rest)) := by
  have hplain : (a ≠ 0 ∧ a ≠ 93) ∧ a ≠ 92 := by simpa [isClassChar] using ha
  have hlast : (b ≠ 0 ∧ b ≠ 93) ∧ b ≠ 92 := by simpa [isClassChar] using hb
  have htext : itemsText (.range a b :: items) ++ 93 :: rest =
      a :: 45 :: b :: (itemsText items ++ 93 :: rest) := rfl
  rw [htext, charClassLoop, if_neg (by simp [hplain]), if_neg (by simp [hplain]),
    if_pos (by simp [hlast])]
  rfl

end Items

theorem charClassLoop_escape (hc : c ≠ 0) : ∃ t, (∀ d, charInCharset t d = escapeReads c d) ∧
    ∀ ic n items rest s, charClassLoop ic (n + 1) (itemsText (.escape c :: items) ++ 93 :: rest) s =
        charClassLoop ic n (itemsText items ++ 93 :: rest) (s ||| t) := by
  obtain ⟨t, ht, hbits⟩ := escapeCharset_spec c
  refine ⟨t, hbits, fun ic n items rest s => ?_⟩
  have htext : itemsText (.escape c :: items) ++ 93 :: rest =
      92 :: c :: (itemsText items ++ 93 :: rest) := rfl
  rw [htext, charClassLoop, if_neg (by simp), if_pos (by simp [hc]), parseEscapeSequence,
    if_neg (by simp [hc])]
  simp [ht]

theorem charClassLoop_items (items : List ClassItem) (hok : ItemsOk items) (rest : Bytes) (n : ℕ)
    (hn : items.length < n) (s : Charset) : ∃ t,
    charClassLoop false n (itemsText items ++ 93 :: rest) s = some (t, 93 :: rest) ∧
      ∀ c, charInCharset t c = (charInCharset s c || items.any (ClassItem.reads c)) := by
  induction items generalizing n s with
  | nil =>
    obtain ⟨n, rfl⟩ := Nat.exists_eq_add_one_of_ne_zero (Nat.ne_of_gt hn)
    exact ⟨s, charClassLoop_end false n rest s, fun c => by simp⟩
  | cons i items ih =>
    obtain ⟨n, rfl⟩ := Nat.exists_eq_add_one_of_ne_zero (Nat.ne_of_gt (Nat.zero_lt_of_lt hn))
    have hn' : items.length < n := Nat.lt_of_succ_lt_succ hn
    cases i with
    | single c =>
      obtain ⟨hc, hrange, hok⟩ := hok
      obtain ⟨t, ht, hbits⟩ := ih hok n hn' (addCharToCharset s c)
      refine ⟨t, ?_, fun d => ?_⟩
      · rw [charClassLoop_single false n items rest s hc hrange]
        simpa [addPlain] using ht
      · rw [hbits, charIn_add, any_cons, Bool.or_assoc]
        rfl
    | range a b =>
      obtain ⟨⟨ha, ha'⟩, ⟨hb, hb'⟩, hok⟩ := hok
      obtain ⟨u, hu, hubits⟩ := addRange_spec s a b ha' hb'
      obtain ⟨t, ht, hbits⟩ := ih hok n hn' u
      refine ⟨t, ?_, fun d => ?_⟩
      · rw [charClassLoop_range false n items rest s ha hb]
        simpa [addRange, upper, hu] using ht
      · rw [hbits, hubits, any_cons, Bool.or_assoc]
        rfl
    | escape c =>
      obtain ⟨hc, hok⟩ := hok
      obtain ⟨u, hubits, hu⟩ := charClassLoop_escape hc
      obtain ⟨t, ht, hbits⟩ := ih hok n hn' (s ||| u)
      refine ⟨t, (hu false n items rest s).trans ht, fun d => ?_⟩
      rw [hbits, charIn_or, hubits, any_cons, Bool.or_assoc]
      rfl

theorem length_le_itemsText (items : List ClassItem) : items.length ≤ (itemsText items).length := by
  induction items with
  | nil => exact Nat.le_refl 0
  | cons i items ih =>
    have hpos := length_pos_iff.mpr i.text_ne_nil
    rw [itemsText, flatMap_cons, length_append, length_cons]
    rw [itemsText] at ih
    omega

theorem parseCharClass_body (ic negated : Bool) (items : List ClassItem)
    (hfirst : negated = false → (itemsText items).headD 0 ≠ 94) (rest : Bytes) :
    parseCharClass ic ((if negated then [94] else []) ++ (itemsText items ++ 93 :: rest)) =
      (charClassLoop ic ((itemsText items ++ 93 :: rest).length + 1)
        (itemsText items ++ 93 :: rest) 0).bind fun r => if r.2.headD 0 ≠ 93 then some none
        else some (some (if negated then ~~~r.1 else r.1, r.2.tail)) := by
  cases negated with
  | false =>
    have hhead : (itemsText items ++ 93 :: rest).headD 0 ≠ 94 := by
      cases htext : itemsText items with
      | nil => simp
      | cons a p =>
        rw [htext] at hfirst
        exact hfirst rfl
    simp only [Bool.false_eq_true, if_false, List.nil_append, parseCharClass,
      decide_eq_false hhead]
    rfl
  | true =>
    simp only [if_true, parseCharClass, List.cons_append, List.nil_append, List.headD_cons,
      decide_true, List.tail_cons]
    rfl

theorem parseCharClass_loop (ic negated : Bool) (items : List ClassItem)
    (hfirst : negated = false → (itemsText items).headD 0 ≠ 94) (rest : Bytes) {t : Charset}
    (ht : charClassLoop ic ((itemsText items ++ 93 :: rest).length + 1)
      (itemsText items ++ 93 :: rest) 0 = some (t, 93 :: rest)) :
    parseCharClass ic ((if negated then [94] else []) ++ (itemsText items ++ 93 :: rest)) =
      some (some (if negated then ~~~t else t, rest)) := by
  rw [parseCharClass_body ic negated items hfirst, ht]
  rfl

theorem charClass_spec (negated : Bool) (items : List ClassItem) (hok : ItemsOk items)
    (hfirst : negated = false → (itemsText items).headD 0 ≠ 94) (rest : Bytes) : ∃ t,
    parseCharClass false ((if negated then [94] else []) ++ (itemsText items ++ 93 :: rest)) =
      some (some (t, rest)) ∧
      ∀ c, charInCharset t c = (items.any (ClassItem.reads c) != negated) := by
  have hlen := length_le_itemsText items
  obtain ⟨t, ht, hbits⟩ := charClassLoop_items items hok rest
    ((itemsText items ++ 93 :: rest).length + 1) (by simp; omega) 0
  refine ⟨_, parseCharClass_loop false negated items hfirst rest ht, fun c => ?_⟩
  cases negated with
  | false => rw [if_neg Bool.false_ne_true, hbits, charIn_empty]; simp
  | true => rw [if_pos rfl, charIn_not, hbits, charIn_empty]; simp

/- The items are what stands in the class: as `ItemsOk`, for all ends of ranges. -/
def ItemsWritten : List ClassItem → Prop
  | [] => True
  | .single c :: items =>
    isClassChar c = true ∧ ¬ StartsRange (itemsText items ++ [93]) ∧ ItemsWritten items
  | .range first last :: items =>
    isClassChar first = true ∧ isClassChar last = true ∧ ItemsWritten items
  | .escape c :: items => c ≠ 0 ∧ ItemsWritten items

def ClassItem.Below : ClassItem → Prop
  | .range first last => first < 255 ∧ last < 255
  | _ => True

/-- The class that a pattern has behind its opening bracket, and what is behind the class. -/
structure ClassBody (p : Bytes) (negated : Bool) (items : List ClassItem) (rest : Bytes) : Prop where
  text : p = (if negated then [94] else []) ++ (itemsText items ++ 93 :: rest)
  plain : negated = false → (itemsText items).headD 0 ≠ 94
  written : ItemsWritten items

/-- The call ends, and the set holds what the items say. -/
def ClassRight (p : Bytes) (negated : Bool) (items : List ClassItem) (rest : Bytes) : Prop :=
  ∃ t, parseCharClass false p = some (some (t, rest)) ∧
    ∀ c, charInCharset t c = (items.any (ClassItem.reads c) != negated)

theorem itemsOk_iff (items : List ClassItem) :
    ItemsOk items ↔ ItemsWritten items ∧ ∀ i ∈ items, i.Below := by
  induction items with
  | nil => simp [ItemsOk, ItemsWritten]
  | cons i items ih =>
    rw [List.forall_mem_cons]
    cases i with
    | single c => simp [ItemsOk, ItemsWritten, ClassItem.Below, ih, and_assoc]
    | range a b =>
      simp only [ItemsOk, ItemsWritten, ClassItem.Below, ih]
      tauto
    | escape c => simp [ItemsOk, ItemsWritten, ClassItem.Below, ih, and_assoc]

/-- No byte is above 0xFF. -/
theorem rangeLoop_stuck (n : ℕ) (ch : UInt8) (s : Charset) : rangeLoop n ch 255 s = none := by
  induction n generalizing ch s with
  | zero => rfl
  | succ n ih =>
    have hle : ch ≤ 255 := UInt8.le_iff_toNat_le.mpr (Nat.le_of_lt_succ ch.toNat_lt)
    rw [rangeLoop, if_pos hle, ih]

theorem addRange_stuck (s : Charset) {a b : UInt8} (h : ¬ (a < 255 ∧ b < 255)) :
    addRange false s a b = none := by
  have hupper (c : UInt8) : upper false c = c := if_neg (by simp)
  have htop (c : UInt8) (hc : ¬ c < 255) : c = 255 := by
    rw [UInt8.lt_iff_toNat_lt] at hc
    have hlt := c.toNat_lt
    exact UInt8.toNat_inj.mp (Nat.le_antisymm (Nat.le_of_lt_succ hlt) (Nat.not_lt.mp hc))
  have hloop : addRangeToCharset s a b = none := by
    rw [addRangeToCharset]
    by_cases hb : b < 255
    · obtain rfl := htop a fun ha => h ⟨ha, hb⟩
      rw [if_pos hb, rangeLoop_stuck]
    · obtain rfl := htop b hb
      have hle : ¬ a > 255 :=
        UInt8.not_lt.mpr (UInt8.le_iff_toNat_le.mpr (Nat.le_of_lt_succ a.toNat_lt))
      rw [if_neg hle, rangeLoop_stuck]
  rw [addRange, hupper, hupper, hloop]
  rfl

theorem charClassLoop_stuck (items : List ClassItem) (hw : ItemsWritten items)
    (hbelow : ¬ ∀ i ∈ items, i.Below) (rest : Bytes) (n : ℕ) (s : Charset) :
    charClassLoop false n (itemsText items ++ 93 :: rest) s = none := by
  induction items generalizing n s with
  | nil => exact absurd (by simp) hbelow
  | cons i items ih =>
    rw [List.forall_mem_cons] at hbelow
    cases n with
    | zero => rfl
    | succ n =>
      cases i with
      | single c =>
        obtain ⟨hc, hrange, hw⟩ := hw
        rw [charClassLoop_single false n items rest s hc hrange]
        exact ih hw (fun h => hbelow ⟨trivial, h⟩) n _
      | range a b =>
        obtain ⟨ha, hb, hw⟩ := hw
        rw [charClassLoop_range false n items rest s ha hb]
        by_cases hends : a < 255 ∧ b < 255
        · cases addRange false s a b with
          | none => rfl
          | some u => exact ih hw (fun h => hbelow ⟨hends, h⟩) n u
        · rw [addRange_stuck s hends]
          rfl
      | escape c =>
        obtain ⟨hc, hw⟩ := hw
        obtain ⟨u, -, hu⟩ := charClassLoop_escape hc
        rw [hu false n items rest s]
        exact ih hw (fun h => hbelow ⟨trivial, h⟩) n _

/-- A class is compiled to its set when no range ends at 0xFF; otherwise the call does not end. -/
theorem charClass_right_iff (p : Bytes) (negated : Bool) (items : List ClassItem) (rest : Bytes)
    (h : ClassBody p negated items rest) :
    ClassRight p negated items rest ↔ ∀ i ∈ items, i.Below := by
  obtain ⟨rfl, hplain, hw⟩ := h
  constructor
  · rintro ⟨t, ht, -⟩
    by_contra hbelow
    have hstuck := charClassLoop_stuck items hw hbelow rest
    rw [parseCharClass_body false negated items hplain, hstuck] at ht
    cases ht
  · exact fun hbelow => charClass_spec negated items ((itemsOk_iff items).mpr ⟨hw, hbelow⟩) hplain rest

theorem charClass_right_dashes :
    ClassRight (lit "^a-z-\\d]x") true [.range 97 122, .single 45, .escape 100] (lit "x") ↔
      ∀ i ∈ [ClassItem.range 97 122, .single 45, .escape 100], i.Below :=
  charClass_right_iff _ _ _ _
    ⟨by decide, by decide, by decide, by decide, by decide, fun h => absurd h.1 (by decide),
      by decide, trivial⟩

/-- `[a-\xFF]` is never compiled. -/
theorem class_to_the_last_byte : ClassBody [97, 45, 255, 93] false [.range 97 255] [] ∧
    ¬ ClassRight [97, 45, 255, 93] false [.range 97 255] [] := by
  have hbody : ClassBody [97, 45, 255, 93] false [.range 97 255] [] :=
    ⟨by decide, by decide, by decide, by decide, trivial⟩
  refine ⟨hbody, fun hright => ?_⟩
  obtain ⟨t, ht, -⟩ := hright
  have hstuck := charClassLoop_stuck [.range 97 255] hbody.written
    (fun h => absurd (h _ List.mem_cons_self).2 (by decide)) []
  have hrun := parseCharClass_body false false [.range 97 255] hbody.plain []
  rw [hstuck] at hrun
  exact absurd (ht.symm.trans hrun) (by simp)

end Voxlib.Regex
