import Voxlib.Json.Accept

/-!
# The round trip

What is written of a tree is parsed to the same tree, with its strings as they are spelled
between the quotes.
-/

namespace Voxlib.Json
open CStr Decimal List

mutual

def Elem.All (number : Number → Prop) (text : Bytes → Prop) : Elem → Prop
  | .null => True
  | .boolean _ => True
  | .number value => number value
  | .string s => text s
  | .array items => items.All number text
  | .object members => members.All number text

def Items.All (number : Number → Prop) (text : Bytes → Prop) : Items → Prop
  | .nil => True
  | .cons item rest => item.All number text ∧ rest.All number text

def Members.All (number : Number → Prop) (text : Bytes → Prop) : Members → Prop
  | .nil => True
  | .cons name value rest => text name ∧ value.All number text ∧ rest.All number text

end

mutual

def Elem.mapText (f : Bytes → Bytes) : Elem → Elem
  | .null => .null
  | .boolean value => .boolean value
  | .number value => .number value
  | .string s => .string (f s)
  | .array items => .array (items.mapText f)
  | .object members => .object (members.mapText f)

def Items.mapText (f : Bytes → Bytes) : Items → Items
  | .nil => .nil
  | .cons item rest => .cons (item.mapText f) (rest.mapText f)

def Members.mapText (f : Bytes → Bytes) : Members → Members
  | .nil => .nil
  | .cons name value rest => .cons (f name) (value.mapText f) (rest.mapText f)

end

def IsInteger (value : Number) : Prop := ∃ n : ℤ, |n| ≤ 2 ^ 53 - 1 ∧ value = some (n : ℚ)

def spelling (s : Bytes) : Bytes := s.flatMap escapeByte

def Unindented (s : Bytes) : Prop := s.head? ≠ some 32

instance (s : Bytes) : Decidable (Unindented s) := inferInstanceAs (Decidable (_ ≠ _))

def Unescaped (s : Bytes) : Prop := ∀ c ∈ s, 32 ≤ c ∧ c ≠ 34 ∧ c ≠ 92

theorem spelling_unescaped {s : Bytes} (h : Unescaped s) : spelling s = s := by
  induction s with
  | nil => rfl
  | cons c s ih =>
    have hbyte : ∀ c : UInt8, 32 ≤ c ∧ c ≠ 34 ∧ c ≠ 92 → escapeByte c = [c] :=
      forall_uint8 (by decide +kernel)
    have hrest := ih fun d hd => h d (mem_cons_of_mem _ hd)
    rw [spelling] at hrest
    rw [spelling, flatMap_cons, hbyte c (h c (mem_cons_self ..)), hrest]
    rfl

mutual

theorem Elem.mapText_id {f : Bytes → Bytes} {number : Number → Prop} {text : Bytes → Prop}
    (hf : ∀ s, text s → f s = s) : (e : Elem) → e.All number text → e.mapText f = e
  | .null, _ => rfl
  | .boolean _, _ => rfl
  | .number _, _ => rfl
  | .string s, h => by rw [Elem.mapText, hf s h]
  | .array items, h => by rw [Elem.mapText, Items.mapText_id hf items h]
  | .object members, h => by rw [Elem.mapText, Members.mapText_id hf members h]

theorem Items.mapText_id {f : Bytes → Bytes} {number : Number → Prop} {text : Bytes → Prop}
    (hf : ∀ s, text s → f s = s) : (items : Items) → items.All number text → items.mapText f = items
  | .nil, _ => rfl
  | .cons item rest, h => by
    rw [Items.mapText, Elem.mapText_id hf item h.1, Items.mapText_id hf rest h.2]

theorem Members.mapText_id {f : Bytes → Bytes} {number : Number → Prop} {text : Bytes → Prop}
    (hf : ∀ s, text s → f s = s) : (members : Members) → members.All number text →
      members.mapText f = members
  | .nil, _ => rfl
  | .cons name value rest, h => by
    rw [Members.mapText, hf name h.1, Elem.mapText_id hf value h.2.1,
      Members.mapText_id hf rest h.2.2]

end

theorem isxdigit_hexDigit {n : ℕ} (h : n < 16) : isxdigit (hexDigit n) = true := by
  have hall : ∀ n < 16, isxdigit (hexDigit n) = true := by decide
  exact hall n h

/-- A byte is spelled as a backslash and a letter, as the number of a control character, or as it
is. -/
theorem escapeByte_cases (c : UInt8) : (∃ e, escapeByte c = [92, e] ∧ e ≠ 117) ∨
    escapeByte c = [92, 117, 48, 48, hexDigit (c.toNat / 16), hexDigit (c.toNat % 16)] ∨
    (escapeByte c = [c] ∧ 32 ≤ c ∧ c ≠ 34 ∧ c ≠ 92) := by
  by_cases hquote : c = 34
  · subst hquote
    exact .inl ⟨34, rfl, by decide⟩
  by_cases hescape : c = 92
  · subst hescape
    exact .inl ⟨92, rfl, by decide⟩
  by_cases hbs : c = 8
  · subst hbs
    exact .inl ⟨98, rfl, by decide⟩
  by_cases hff : c = 12
  · subst hff
    exact .inl ⟨102, rfl, by decide⟩
  by_cases hlf : c = 10
  · subst hlf
    exact .inl ⟨110, rfl, by decide⟩
  by_cases hcr : c = 13
  · subst hcr
    exact .inl ⟨114, rfl, by decide⟩
  by_cases htab : c = 9
  · subst htab
    exact .inl ⟨116, rfl, by decide⟩
  rw [escapeByte, if_neg hquote, if_neg hescape, if_neg hbs, if_neg hff, if_neg hlf, if_neg hcr,
    if_neg htab]
  by_cases hlow : c < 32
  · rw [if_pos hlow]
    exact .inr (.inl rfl)
  · rw [if_neg hlow]
    exact .inr (.inr ⟨rfl, UInt8.not_lt.mp hlow, hquote, hescape⟩)

theorem laxChars_escape (c : UInt8) {rest : Bytes} (h : LaxChars rest) :
    LaxChars (escapeByte c ++ rest) := by
  have hhigh : c.toNat / 16 < 16 := by
    have := c.toNat_lt
    omega
  have hlow : c.toNat % 16 < 16 := Nat.mod_lt _ (by decide)
  rcases escapeByte_cases c with ⟨e, hbytes, he⟩ | hbytes | ⟨hbytes, -, hquote, hescape⟩
  · rw [hbytes]
    exact .escape he h
  · rw [hbytes]
    exact .hex (by decide) (by decide) (isxdigit_hexDigit hhigh) (isxdigit_hexDigit hlow) h
  · rw [hbytes]
    exact .plain hquote hescape h

theorem laxChars_spelling (s : Bytes) : LaxChars (spelling s) := by
  induction s with
  | nil => exact .nil
  | cons c s ih =>
    rw [spelling, flatMap_cons]
    exact laxChars_escape c ih

theorem escapeByte_front {c : UInt8} (hc : c ≠ 32) :
    ∃ d rest, escapeByte c = d :: rest ∧ isWhitespace d = false := by
  rcases escapeByte_cases c with ⟨e, hbytes, -⟩ | hbytes | ⟨hbytes, hle, -, -⟩
  · exact ⟨92, _, hbytes, rfl⟩
  · exact ⟨92, _, hbytes, rfl⟩
  · have hne (x : UInt8) (hx : x < 32) : c ≠ x := by
      rintro rfl
      exact UInt8.not_lt.mpr hle hx
    refine ⟨c, [], hbytes, ?_⟩
    simp [isWhitespace, hc, hne 9 (by decide), hne 10 (by decide), hne 11 (by decide),
      hne 12 (by decide), hne 13 (by decide)]

theorem spelling_front {s : Bytes} (h : Unindented s) :
    (spelling s).dropWhile isWhitespace = spelling s := by
  cases s with
  | nil => rfl
  | cons c s =>
    have hne : c ≠ 32 := fun heq => h (congrArg some heq)
    obtain ⟨d, rest, hbytes, hd⟩ := escapeByte_front hne
    rw [spelling, flatMap_cons, hbytes]
    exact settled_cons hd _

theorem decimal_front {n : ℕ} (h : n ≠ 0) : (decimal n).head? ≠ some 48 := by
  induction n using decimal_induction with
  | digit n hn =>
    rw [decimal_last, if_pos hn]
    intro heq
    have hbyte := congrArg UInt8.toNat (Option.some.inj heq)
    rw [digit_toNat] at hbyte
    have hval : (48 : UInt8).toNat = 48 := by decide
    omega
  | more n hn ih =>
    have hrest := ih (by omega)
    rw [decimal_last, if_neg (Nat.not_lt.mpr hn), List.head?_append_of_ne_nil _ (decimal_ne_nil _)]
    exact hrest

theorem intText_decimal (n : ℕ) : IntText (decimal n) := by
  by_cases h : n = 0
  · exact .inl (by rw [h]; decide)
  · refine .inr ⟨⟨decimal_ne_nil n, fun c hc => ?_⟩, decimal_front h⟩
    have hdigit := decimal_digits n c hc
    simp only [isDigit, decide_eq_true_eq, UInt8.le_iff_toNat_le]
    exact hdigit

theorem numberText_decimalInt (n : ℤ) : NumberText (decimalInt n) := by
  unfold decimalInt
  split
  · exact ⟨[45], decimal n.natAbs, [], [], .inr rfl, intText_decimal _, .inl rfl, .inl rfl, by simp⟩
  · exact ⟨[], decimal n.natAbs, [], [], .inl rfl, intText_decimal _, .inl rfl, .inl rfl, by simp⟩

variable {env : Env}

theorem serializeNumber_integer {n : ℤ} (h : |n| ≤ 2 ^ 53 - 1) :
    serializeNumber env (some (n : ℚ)) = decimalInt n := by
  obtain ⟨hlow, hhigh⟩ := abs_le.mp h
  have hrange : -9007199254740991 ≤ (n : ℚ) ∧ (n : ℚ) ≤ 9007199254740991 ∧ (n : ℚ).den = 1 := by
    refine ⟨?_, ?_, Rat.den_intCast n⟩
    · exact_mod_cast (by norm_num at hlow; exact hlow)
    · exact_mod_cast (by norm_num at hhigh; exact hhigh)
  rw [serializeNumber]
  dsimp only
  rw [if_pos hrange, Rat.num_intCast]

theorem string_text (s : Bytes) : (serializeString s).flatten = 34 :: (spelling s ++ [34]) := by
  have hquote : lit "\"" = [34] := by decide
  simp [serializeString, spelling, hquote, List.flatMap]

theorem indent_blank (pretty : Bool) (indent : ℕ) : Blank (appendIndent pretty indent).flatten := by
  have hspace : Blank (lit "  ") := by simp [Blank, lit, isWhitespace]
  have hline : Blank (lit "\n") := by simp [Blank, lit, isWhitespace]
  intro c hc
  obtain ⟨part, hpart, hin⟩ := mem_flatten.mp hc
  cases pretty with
  | false => simp [appendIndent] at hpart
  | true =>
    rcases mem_cons.mp hpart with rfl | hspaces
    · exact hline c hin
    · rw [eq_of_mem_replicate hspaces] at hin
      exact hspace c hin

def valueText (env : Env) (pretty : Bool) (indent : ℕ) (e : Elem) : Bytes :=
  (serializeValue env pretty indent e).flatten

def itemsText (env : Env) (pretty : Bool) (indent : ℕ) (items : Items) : Bytes :=
  (serializeItems env pretty indent true items).flatten

def membersText (env : Env) (pretty : Bool) (indent : ℕ) (members : Members) : Bytes :=
  (serializeMembers env pretty indent true members).flatten

theorem itemsText_cons (pretty : Bool) (indent : ℕ) (item : Elem) (rest : Items) :
    itemsText env pretty indent (.cons item rest) =
      (appendIndent pretty indent).flatten ++ (valueText env pretty indent item ++ match rest with
        | .nil => []
        | .cons .. => 44 :: itemsText env pretty indent rest) := by
  have hcomma : lit "," = [44] := by decide
  cases rest <;> simp [itemsText, valueText, serializeItems, hcomma]

def colonBlank (pretty : Bool) : Bytes := if pretty then [32] else []

theorem membersText_cons (pretty : Bool) (indent : ℕ) (name : Bytes) (value : Elem)
    (rest : Members) : membersText env pretty indent (.cons name value rest) =
      (appendIndent pretty indent).flatten ++ 34 :: (spelling name ++ 34 :: 58 ::
        (colonBlank pretty ++ (valueText env pretty indent value ++ match rest with
        | .nil => []
        | .cons .. => 44 :: membersText env pretty indent rest))) := by
  have hcomma : lit "," = [44] := by decide
  have hcolon : (if pretty then lit ": " else lit ":") = 58 :: colonBlank pretty := by
    cases pretty <;> decide
  cases rest <;> simp [membersText, valueText, serializeMembers, hcomma, hcolon, string_text]

def closing (pretty : Bool) (indent : ℕ) : Bytes := (appendIndent pretty indent).flatten

theorem arrayText_cons (pretty : Bool) (indent : ℕ) (item : Elem) (rest : Items) :
    valueText env pretty indent (.array (.cons item rest)) =
      91 :: (itemsText env pretty (indent + if pretty then 1 else 0) (.cons item rest) ++
        (closing pretty indent ++ [93])) := by
  have hopen : lit "[" = [91] := by decide
  have hclose : lit "]" = [93] := by decide
  simp [valueText, itemsText, serializeValue, hopen, hclose, closing]

theorem objectText_cons (pretty : Bool) (indent : ℕ) (name : Bytes) (value : Elem)
    (rest : Members) : valueText env pretty indent (.object (.cons name value rest)) =
      123 :: (membersText env pretty (indent + if pretty then 1 else 0) (.cons name value rest) ++
        (closing pretty indent ++ [125])) := by
  have hopen : lit "\x7b" = [123] := by decide
  have hclose : lit "\x7d" = [125] := by decide
  simp [valueText, membersText, serializeValue, hopen, hclose, closing]

/- The C library that the integers need: strtod is exact on them. -/
structure Env.Exact (env : Env) : Prop where
  ample : env.Ample
  strtod : ∀ n : ℤ, |n| ≤ 2 ^ 53 - 1 → env.strtod (decimalInt n) = (some (n : ℚ), false)

def ValueTrip (env : Env) (pretty : Bool) (e : Elem) : Prop := ∀ indent,
  (∃ c rest, valueText env pretty indent e = c :: rest ∧ isWhitespace c = false ∧ c ≠ 93) ∧
  ∀ x n, Follows x → 2 * (valueText env pretty indent e).length + 1 ≤ n →
    parseValue env n (valueText env pretty indent e ++ x) =
      .ok (e.mapText spelling, autoSkip x)

def ItemsTrip (env : Env) (pretty : Bool) (items : Items) : Prop := ∀ indent w x n, Blank w →
  items ≠ .nil → 2 * (itemsText env pretty indent items).length + 2 ≤ n →
    (autoSkip (itemsText env pretty indent items ++ (w ++ 93 :: x))).head? ≠ some 93 ∧
    parseItems env n (autoSkip (itemsText env pretty indent items ++ (w ++ 93 :: x))) =
      .ok (items.mapText spelling, autoSkip x)

def MembersTrip (env : Env) (pretty : Bool) (members : Members) : Prop := ∀ indent w x n,
  Blank w → members ≠ .nil → 2 * (membersText env pretty indent members).length + 2 ≤ n →
    (autoSkip (membersText env pretty indent members ++ (w ++ 125 :: x))).head? ≠ some 125 ∧
    parseMembers env n (autoSkip (membersText env pretty indent members ++ (w ++ 125 :: x))) =
      .ok (members.mapText spelling, autoSkip x)

variable {pretty : Bool}

theorem items_trip_cons {item : Elem} {rest : Items}
    (hitem : ValueTrip env pretty item) (hrest : ItemsTrip env pretty rest) :
    ItemsTrip env pretty (.cons item rest) := by
  intro indent w x n hw _ hn
  obtain ⟨⟨c, v, htext, hc, hne⟩, hvalue⟩ := hitem indent
  have hindent := indent_blank pretty indent
  obtain ⟨m, rfl⟩ : ∃ m, n = m + 1 := ⟨n - 1, by omega⟩
  rw [itemsText_cons] at hn ⊢
  cases rest with
  | nil =>
    simp only [append_nil, length_append] at hn
    have hread := hvalue (w ++ 93 :: x) m (follows_blank hw (follows_cons (by decide) x)) (by omega)
    rw [skip_to hw (by decide)] at hread
    rw [append_nil, append_assoc]
    rw [htext, cons_append] at hread ⊢
    rw [skip_to hindent hc]
    exact ⟨by simpa using hne, parseItems_last hread⟩
  | cons item' rest' =>
    simp only [length_append, length_cons] at hn
    have hread := hvalue (44 :: (itemsText env pretty indent (.cons item' rest') ++
      (w ++ 93 :: x))) m (follows_cons (by decide) _) (by omega)
    rw [show autoSkip (44 :: _) = 44 :: _ from settled_cons (by decide) _] at hread
    obtain ⟨-, hmore⟩ := hrest indent w x m hw (by simp) (by omega)
    have hbytes : (appendIndent pretty indent).flatten ++ (valueText env pretty indent item ++
        44 :: itemsText env pretty indent (.cons item' rest')) ++ (w ++ 93 :: x) =
          (appendIndent pretty indent).flatten ++ (valueText env pretty indent item ++
            44 :: (itemsText env pretty indent (.cons item' rest') ++ (w ++ 93 :: x))) := by
      simp
    dsimp only
    rw [hbytes]
    rw [htext, cons_append] at hread ⊢
    rw [skip_to hindent hc]
    exact ⟨by simpa using hne, parseItems_more hread hmore⟩

theorem members_trip_cons (henv : env.Ample) {name : Bytes} {value : Elem} {rest : Members}
    (hname : Unindented name) (hvalue : ValueTrip env pretty value)
    (hrest : MembersTrip env pretty rest) : MembersTrip env pretty (.cons name value rest) := by
  intro indent w x n hw _ hn
  obtain ⟨⟨c, v, htext, hc, -⟩, hread⟩ := hvalue indent
  have hindent := indent_blank pretty indent
  have hcolon : Blank (colonBlank pretty) := by cases pretty <;> simp [colonBlank, Blank, isWhitespace]
  obtain ⟨m, rfl⟩ : ∃ m, n = m + 1 := ⟨n - 1, by omega⟩
  rw [membersText_cons] at hn ⊢
  simp only [length_append, length_cons] at hn
  have hstring (t : Bytes) := parseString_text henv.elem (laxChars_spelling name) (58 :: t)
  rw [spelling_front hname] at hstring
  cases rest with
  | nil =>
    have hlast := hread (w ++ 125 :: x) m (follows_blank hw (follows_cons (by decide) x)) (by omega)
    rw [skip_to hw (by decide)] at hlast
    have hbytes : (appendIndent pretty indent).flatten ++ 34 :: (spelling name ++ 34 :: 58 ::
        (colonBlank pretty ++ (valueText env pretty indent value ++ []))) ++ (w ++ 125 :: x) =
          (appendIndent pretty indent).flatten ++ 34 :: (spelling name ++ 34 :: 58 ::
            (colonBlank pretty ++ (valueText env pretty indent value ++ (w ++ 125 :: x)))) := by
      simp
    dsimp only
    rw [hbytes, skip_to hindent (by decide)]
    refine ⟨by simp, parseMembers_last henv (hstring _) ?_⟩
    rw [htext, cons_append] at hlast ⊢
    rw [skip_to hcolon hc]
    exact hlast
  | cons name' value' rest' =>
    simp only [length_cons] at hn
    have hmid := hread (44 :: (membersText env pretty indent (.cons name' value' rest') ++
      (w ++ 125 :: x))) m (follows_cons (by decide) _) (by omega)
    rw [show autoSkip (44 :: _) = 44 :: _ from settled_cons (by decide) _] at hmid
    obtain ⟨-, hmore⟩ := hrest indent w x m hw (by simp) (by omega)
    have hbytes : (appendIndent pretty indent).flatten ++ 34 :: (spelling name ++ 34 :: 58 ::
        (colonBlank pretty ++ (valueText env pretty indent value ++
          44 :: membersText env pretty indent (.cons name' value' rest')))) ++ (w ++ 125 :: x) =
        (appendIndent pretty indent).flatten ++ 34 :: (spelling name ++ 34 :: 58 ::
          (colonBlank pretty ++ (valueText env pretty indent value ++
            44 :: (membersText env pretty indent (.cons name' value' rest') ++
              (w ++ 125 :: x))))) := by
      simp
    dsimp only
    rw [hbytes, skip_to hindent (by decide)]
    refine ⟨by simp, parseMembers_more henv (hstring _) ?_ hmore⟩
    rw [htext, cons_append] at hmid ⊢
    rw [skip_to hcolon hc]
    exact hmid

theorem closing_blank (pretty : Bool) (indent : ℕ) : Blank (closing pretty indent) :=
  indent_blank pretty indent

theorem array_trip (henv : env.Ample) {items : Items} (h : ItemsTrip env pretty items) :
    ValueTrip env pretty (.array items) := by
  intro indent
  cases items with
  | nil =>
    have htext : valueText env pretty indent (.array .nil) = [91, 93] := by
      have hopen : lit "[" = [91] := by decide
      have hclose : lit "]" = [93] := by decide
      simp [valueText, serializeValue, serializeItems, hopen, hclose]
    rw [htext]
    refine ⟨⟨91, _, rfl, by decide, by decide⟩, fun x n _ hn => ?_⟩
    obtain ⟨m, rfl⟩ : ∃ m, n = m + 1 := ⟨n - 1, by omega⟩
    exact parseValue_emptyArray henv (settled_cons (by decide) x)
  | cons item rest =>
    rw [arrayText_cons]
    refine ⟨⟨91, _, rfl, by decide, by decide⟩, fun x n _ hn => ?_⟩
    obtain ⟨m, rfl⟩ : ∃ m, n = m + 1 := ⟨n - 1, by omega⟩
    simp only [length_cons, length_append] at hn
    obtain ⟨hhead, hread⟩ := h (indent + if pretty then 1 else 0) (closing pretty indent) x m
      (closing_blank pretty indent) (by simp) (by omega)
    have hbytes (t : Bytes) : 91 :: (t ++ (closing pretty indent ++ [93])) ++ x =
        91 :: (t ++ (closing pretty indent ++ 93 :: x)) := by
      simp
    rw [hbytes]
    exact parseValue_array henv hhead hread

theorem object_trip (henv : env.Ample) {members : Members} (h : MembersTrip env pretty members) :
    ValueTrip env pretty (.object members) := by
  intro indent
  cases members with
  | nil =>
    have htext : valueText env pretty indent (.object .nil) = [123, 125] := by
      have hopen : lit "\x7b" = [123] := by decide
      have hclose : lit "\x7d" = [125] := by decide
      simp [valueText, serializeValue, serializeMembers, hopen, hclose]
    rw [htext]
    refine ⟨⟨123, _, rfl, by decide, by decide⟩, fun x n _ hn => ?_⟩
    obtain ⟨m, rfl⟩ : ∃ m, n = m + 1 := ⟨n - 1, by omega⟩
    exact parseValue_emptyObject henv (settled_cons (by decide) x)
  | cons name value rest =>
    rw [objectText_cons]
    refine ⟨⟨123, _, rfl, by decide, by decide⟩, fun x n _ hn => ?_⟩
    obtain ⟨m, rfl⟩ : ∃ m, n = m + 1 := ⟨n - 1, by omega⟩
    simp only [length_cons, length_append] at hn
    obtain ⟨hhead, hread⟩ := h (indent + if pretty then 1 else 0) (closing pretty indent) x m
      (closing_blank pretty indent) (by simp) (by omega)
    have hbytes (t : Bytes) : 123 :: (t ++ (closing pretty indent ++ [125])) ++ x =
        123 :: (t ++ (closing pretty indent ++ 125 :: x)) := by
      simp
    rw [hbytes]
    exact parseValue_object henv hhead hread

theorem string_trip (henv : env.Ample) {s : Bytes} (h : Unindented s) :
    ValueTrip env pretty (.string s) := by
  intro indent
  have htext : valueText env pretty indent (.string s) = 34 :: (spelling s ++ [34]) := by
    rw [valueText, serializeValue, string_text]
  rw [htext]
  refine ⟨⟨34, _, rfl, by decide, by decide⟩, fun x n _ hn => ?_⟩
  obtain ⟨m, rfl⟩ : ∃ m, n = m + 1 := ⟨n - 1, by omega⟩
  have hread := parseString_text henv.elem (laxChars_spelling s) x
  rw [spelling_front h] at hread
  have hbytes : 34 :: (spelling s ++ [34]) ++ x = 34 :: (spelling s ++ 34 :: x) := by simp
  rw [hbytes]
  exact parseValue_string hread

theorem number_trip (henv : env.Exact) {value : Number} (h : IsInteger value) :
    ValueTrip env pretty (.number value) := by
  obtain ⟨k, hk, rfl⟩ := h
  intro indent
  have htext : valueText env pretty indent (.number (some (k : ℚ))) = decimalInt k := by
    rw [valueText, serializeValue, serializeNumber_integer hk, flatten_singleton]
  have hnumber := numberText_decimalInt k
  have hrange : InRange env.strtod (decimalInt k) := by
    rw [InRange, henv.strtod k hk]
    exact ⟨rfl, by simp⟩
  obtain ⟨c, rest, hfront, hc⟩ := number_front hnumber
  rw [htext]
  refine ⟨⟨c, rest, hfront, number_char c hc⟩, fun x n hx hn => ?_⟩
  obtain ⟨m, rfl⟩ : ∃ m, n = m + 1 := ⟨n - 1, by omega⟩
  have hread := parseNumber_text henv.ample hnumber hrange hx
  rw [henv.strtod k hk] at hread
  rw [hfront, cons_append] at hread ⊢
  rw [parseValue_number hc]
  exact hread

theorem null_trip (henv : env.Ample) : ValueTrip env pretty .null := by
  intro indent
  have htext : valueText env pretty indent .null = lit "null" := by
    rw [valueText, serializeValue, flatten_singleton]
  rw [htext]
  refine ⟨⟨110, _, rfl, by decide, by decide⟩, fun x n _ hn => ?_⟩
  obtain ⟨m, rfl⟩ : ∃ m, n = m + 1 := ⟨n - 1, by omega⟩
  exact (literal_parsed henv x m).1

theorem boolean_trip (henv : env.Ample) (value : Bool) : ValueTrip env pretty (.boolean value) := by
  intro indent
  have htext : valueText env pretty indent (.boolean value) =
      if value then lit "true" else lit "false" := by
    rw [valueText, serializeValue, flatten_singleton]
  rw [htext]
  cases value with
  | false =>
    refine ⟨⟨102, _, rfl, by decide, by decide⟩, fun x n _ hn => ?_⟩
    obtain ⟨m, rfl⟩ : ∃ m, n = m + 1 := ⟨n - 1, by omega⟩
    exact (literal_parsed henv x m).2.2
  | true =>
    refine ⟨⟨116, _, rfl, by decide, by decide⟩, fun x n _ hn => ?_⟩
    obtain ⟨m, rfl⟩ : ∃ m, n = m + 1 := ⟨n - 1, by omega⟩
    exact (literal_parsed henv x m).2.1

mutual

theorem value_trip (henv : env.Exact) : (e : Elem) → e.All IsInteger Unindented →
    ValueTrip env pretty e
  | .null, _ => null_trip henv.ample
  | .boolean value, _ => boolean_trip henv.ample value
  | .number _, h => number_trip henv h
  | .string _, h => string_trip henv.ample h
  | .array items, h => array_trip henv.ample (items_trip henv items h)
  | .object members, h => object_trip henv.ample (members_trip henv members h)

theorem items_trip (henv : env.Exact) : (items : Items) → items.All IsInteger Unindented →
    ItemsTrip env pretty items
  | .nil, _ => fun _ _ _ _ _ hne => absurd rfl hne
  | .cons item rest, h => items_trip_cons (value_trip henv item h.1) (items_trip henv rest h.2)

theorem members_trip (henv : env.Exact) : (members : Members) →
    members.All IsInteger Unindented → MembersTrip env pretty members
  | .nil, _ => fun _ _ _ _ _ hne => absurd rfl hne
  | .cons _ value rest, h =>
    members_trip_cons henv.ample h.1 (value_trip henv value h.2.1) (members_trip henv rest h.2.2)

end

/-- What is written of a tree is parsed to its end, and to the tree with its strings as they are
spelled; to the tree itself where nothing has to be escaped. -/
theorem parse_toString (henv : env.Exact) (hgrow : ∀ n, env.grow n = true) (pretty : Bool)
    (e : Elem) (h : e.All IsInteger Unindented) : jsonParse env (jsonToString env (some e) pretty) =
      (some (e.mapText spelling, (jsonToString env (some e) pretty).length), none) ∧
    (e.All (fun _ => True) Unescaped → e.mapText spelling = e) := by
  refine ⟨?_, Elem.mapText_id (fun s hs => spelling_unescaped hs) e⟩
  have hout : jsonToString env (some e) pretty = valueText env pretty 0 e := appendAll_eq hgrow _
  have htrip : ValueTrip env pretty e := value_trip henv e h
  obtain ⟨⟨c, rest, htext, hc, -⟩, hread⟩ := htrip 0
  have hwhole := hread [] (2 * (valueText env pretty 0 e).length + 2) (by simp [Follows]) (by omega)
  have hsettled : autoSkip (valueText env pretty 0 e) = valueText env pretty 0 e := by
    rw [htext]
    exact settled_cons hc rest
  rw [append_nil] at hwhole
  rw [hout, jsonParse, hsettled, hwhole]
  rfl

def readDigits (b : Bytes) : ℕ := b.foldl (fun v c => 10 * v + (c.toNat - 48)) 0

theorem readDigits_decimal (n : ℕ) : readDigits (decimal n) = n := by
  induction n using decimal_induction with
  | digit n h =>
    rw [decimal_last, if_pos h, nil_append, readDigits, foldl_cons, foldl_nil,
      digit_toNat]
    omega
  | more n h ih =>
    rw [readDigits] at ih
    rw [decimal_last, if_neg (Nat.not_lt.mpr h), readDigits, foldl_append, ih,
      foldl_cons, foldl_nil, digit_toNat]
    omega

def integerEnv : Env where
  elem := true
  member := true
  digits _ := true
  grow _ := true
  strtod b := (some ((if b.head? = some 45 then -(readDigits b.tail : ℤ) else readDigits b : ℤ) : ℚ),
    false)
  printG _ := []

theorem integerEnv_exact : integerEnv.Exact where
  ample := ⟨rfl, rfl, fun _ => rfl⟩
  strtod n _ := by
    unfold decimalInt
    split
    · next hneg =>
      have hread : -(readDigits (decimal n.natAbs) : ℤ) = n := by
        rw [readDigits_decimal]
        omega
      simp only [integerEnv, List.head?_cons, if_pos, tail_cons]
      exact_mod_cast congrArg (fun value : ℤ => (some (value : ℚ), false)) hread
    · next hpos =>
      have hfront : (decimal n.natAbs).head? ≠ some 45 := by
        obtain ⟨c, rest, hc, hdigit⟩ : ∃ c rest, decimal n.natAbs = c :: rest ∧ 48 ≤ c.toNat := by
          cases hbytes : decimal n.natAbs with
          | nil => exact absurd hbytes (decimal_ne_nil _)
          | cons c rest =>
            exact ⟨c, rest, rfl, (decimal_digits n.natAbs c (by rw [hbytes]; simp)).1⟩
        rw [hc]
        intro heq
        rw [Option.some.inj heq] at hdigit
        exact absurd hdigit (by decide)
      have hread : (readDigits (decimal n.natAbs) : ℤ) = n := by
        rw [readDigits_decimal]
        omega
      simp only [integerEnv, if_neg hfront]
      exact_mod_cast congrArg (fun value : ℤ => (some (value : ℚ), false)) hread

def sampleTree : Elem :=
  .object (.cons (lit "a") (.array (.cons (.number (some ((1 : ℤ) : ℚ)))
    (.cons (.string (lit "x y")) .nil))) .nil)

theorem sampleTree_round_trips :
    jsonParse integerEnv (jsonToString integerEnv (some sampleTree) true) =
      (some (sampleTree.mapText spelling, (jsonToString integerEnv (some sampleTree) true).length),
        none) ∧
    (sampleTree.All (fun _ => True) Unescaped → sampleTree.mapText spelling = sampleTree) :=
  parse_toString integerEnv_exact (fun _ => rfl) true sampleTree
    ⟨show Unindented (lit "a") by decide,
      ⟨⟨1, by decide, rfl⟩, show Unindented (lit "x y") by decide, trivial⟩, trivial⟩

/-- A line feed is written as an escape, and the escape is what is read. -/
theorem line_feed_read_as_escape :
    (∃ size, jsonParse integerEnv (jsonToString integerEnv (some (.string [10])) false) =
      (some (.string [92, 110], size), none)) ∧ Elem.string [92, 110] ≠ Elem.string [10] := by
  have hread := (parse_toString integerEnv_exact (fun _ => rfl) false (.string [10])
    (show Unindented [10] by decide)).1
  exact ⟨⟨_, hread⟩, by simp⟩

end Voxlib.Json
