import Voxlib.Regex.Charsets
import Voxlib.Regex.Machines
import Voxlib.Regex.Quantifiers

/-!
# Parsing

A pattern that is the text of a tree is read to its end, and what is built
has the meaning of the tree.
-/

namespace Voxlib.Regex
open CStr Decimal Automaton List
open scoped Computability

variable {bodies : Bodies} {tests numbered multiline : Bool} {h k : Heap} {frag : Fragment}
  {m : Meaning}

mutual

/- The groups have numbers if `numbered`. -/
def Atom.meaning (numbered : Bool) : Atom → Meaning
  | .char c => .atom (spelled (oneOf (· = c)))
  | .dot => .atom (spelled (oneOf fun c => c ≠ 10 && c ≠ 13))
  | .charClass negated items =>
    .atom (spelled (oneOf fun c => items.any (ClassItem.reads c) != negated))
  | .escape e => .atom (spelled (oneOf (escapeReads e)))
  | .group capturing e => (e.meaning numbered).group (capturing && numbered)
  | .anchorStart => .atom (asking .lineStart)
  | .anchorEnd => .atom (asking .lineEnd)
  | .wordBoundary => .atom (asking .wordBoundary)
  | .look behind negative e => .atom (asking (.look behind negative e.lang))

def Factor.meaning (numbered : Bool) : Factor → Meaning
  | .plain a => a.meaning numbered
  | .repeated a q nonGreedy => q.meaning nonGreedy (a.meaning numbered)

def Term.meaning (numbered : Bool) : Term → Meaning
  | .one f => f.meaning numbered
  | .more f t => t.follow numbered (f.meaning numbered)

def Term.follow (numbered : Bool) : Term → Meaning → Meaning
  | .one f, m => m.cat (f.meaning numbered)
  | .more f t, m => t.follow numbered (m.cat (f.meaning numbered))

def Expr.meaning (numbered : Bool) : Expr → Meaning
  | .one t => t.meaning numbered
  | .more t e => e.join numbered (t.meaning numbered)

def Expr.join (numbered : Bool) : Expr → Meaning → Meaning
  | .one t, m => m.alt (t.meaning numbered)
  | .more t e, m => e.join numbered (m.alt (t.meaning numbered))

end

mutual

def Atom.words : Atom → Language Letter
  | .char c => spelled (oneOf (· = c))
  | .dot => spelled (oneOf fun c => c ≠ 10 && c ≠ 13)
  | .charClass negated items => spelled (oneOf fun c => items.any (ClassItem.reads c) != negated)
  | .escape e => spelled (oneOf (escapeReads e))
  | .group _ e => e.words
  | .anchorStart => asking .lineStart
  | .anchorEnd => asking .lineEnd
  | .wordBoundary => asking .wordBoundary
  | .look behind negative e => asking (.look behind negative e.lang)

def Factor.words : Factor → Language Letter
  | .plain a => a.words
  | .repeated a q _ => q.lang a.words

def Term.words : Term → Language Letter
  | .one f => f.words
  | .more f t => f.words * t.words

def Expr.words : Expr → Language Letter
  | .one t => t.words
  | .more t e => t.words + e.words

end

theorem Quantifier.meaning_lang {q : Quantifier} (hq : q.Braceless) (nonGreedy : Bool)
    (m : Meaning) : (q.meaning nonGreedy m).lang = q.lang m.lang := by
  cases q with
  | star => rfl
  | plus => rfl
  | optional => rfl
  | _ => exact hq.elim

theorem Meaning.group_lang (capturing : Bool) (m : Meaning) : (m.group capturing).lang =
    m.lang := by
  cases capturing <;> rfl

mutual

theorem Atom.meaning_lang (a : Atom) (h : a.All Quantifier.Braceless) :
    (a.meaning numbered).lang = a.words := by
  match a with
  | .char c => rfl
  | .dot => rfl
  | .charClass negated items => rfl
  | .escape e => rfl
  | .group capturing e => exact (Meaning.group_lang ..).trans (e.meaning_lang h)
  | .anchorStart => rfl
  | .anchorEnd => rfl
  | .wordBoundary => rfl
  | .look behind negative e => rfl

theorem Factor.meaning_lang (f : Factor) (h : f.All Quantifier.Braceless) :
    (f.meaning numbered).lang = f.words := by
  match f with
  | .plain a => exact a.meaning_lang h
  | .repeated a q nonGreedy =>
    rw [Factor.meaning, Quantifier.meaning_lang h.2, a.meaning_lang h.1]
    rfl

theorem Term.meaning_lang (t : Term) (h : t.All Quantifier.Braceless) :
    (t.meaning numbered).lang = t.words := by
  match t with
  | .one f => exact f.meaning_lang h
  | .more f t =>
    rw [Term.meaning, t.follow_lang h.2, f.meaning_lang h.1]
    rfl

theorem Term.follow_lang (t : Term) (h : t.All Quantifier.Braceless) (m : Meaning) :
    (t.follow numbered m).lang = m.lang * t.words := by
  match t with
  | .one f =>
    rw [Term.words, ← f.meaning_lang h]
    rfl
  | .more f t =>
    rw [Term.follow, t.follow_lang h.2, Term.words, ← f.meaning_lang h.1,
      ← mul_assoc]
    rfl

theorem Expr.meaning_lang (e : Expr) (h : e.All Quantifier.Braceless) :
    (e.meaning numbered).lang = e.words := by
  match e with
  | .one t => exact t.meaning_lang h
  | .more t e =>
    rw [Expr.meaning, e.join_lang h.2, t.meaning_lang h.1]
    rfl

theorem Expr.join_lang (e : Expr) (h : e.All Quantifier.Braceless) (m : Meaning) :
    (e.join numbered m).lang = m.lang + e.words := by
  match e with
  | .one t =>
    rw [Expr.words, ← t.meaning_lang h]
    rfl
  | .more t e =>
    rw [Expr.join, e.join_lang h.2, Expr.words, ← t.meaning_lang h.1,
      ← add_assoc]
    rfl

end

theorem Quantifier.lang_spelled {q : Quantifier} (hq : q.Braceless) (l : Language UInt8) :
    q.lang (spelled l) = spelled (q.lang l) := by
  cases q with
  | star => exact (Language.map_kstar Letter.read l).symm
  | plus =>
    have hstar := Language.map_kstar Letter.read l
    simp only [Quantifier.lang, spelled, map_mul, hstar]
  | optional => simp only [Quantifier.lang, spelled, map_add, map_one]
  | _ => exact hq.elim

mutual

theorem Atom.words_plain (a : Atom) (h : a.Plain) (hq : a.All Quantifier.Braceless) :
    a.words = spelled a.lang := by
  match a with
  | .char c => rfl
  | .dot => rfl
  | .charClass negated items => rfl
  | .escape e => rfl
  | .group capturing e => exact e.words_plain h hq

theorem Factor.words_plain (f : Factor) (h : f.Plain) (hq : f.All Quantifier.Braceless) :
    f.words = spelled f.lang := by
  match f with
  | .plain a => exact a.words_plain h hq
  | .repeated a q nonGreedy =>
    rw [Factor.words, a.words_plain h hq.1, Quantifier.lang_spelled hq.2]
    rfl

theorem Term.words_plain (t : Term) (h : t.Plain) (hq : t.All Quantifier.Braceless) :
    t.words = spelled t.lang := by
  match t with
  | .one f => exact f.words_plain h hq
  | .more f t =>
    rw [Term.words, f.words_plain h.1 hq.1, t.words_plain h.2 hq.2]
    exact (map_mul (Language.map Letter.read) _ _).symm

theorem Expr.words_plain (e : Expr) (h : e.Plain) (hq : e.All Quantifier.Braceless) :
    e.words = spelled e.lang := by
  match e with
  | .one t => exact t.words_plain h hq
  | .more t e =>
    rw [Expr.words, t.words_plain h.1 hq.1, e.words_plain h.2 hq.2]
    exact (map_add (Language.map Letter.read) _ _).symm

end

def isStart (c : UInt8) : Bool := !([0, 41, 42, 43, 63, 123, 124].contains c)

theorem Atom.text_start (a : Atom) (hok : a.Ok) : ∃ c p, a.text = c :: p ∧ isStart c = true := by
  cases a with
  | char c =>
    refine ⟨c, [], rfl, ?_⟩
    have hlit : isLiteral c = true := hok
    simp [isLiteral, isStart] at hlit ⊢
    tauto
  | dot => exact ⟨46, [], rfl, rfl⟩
  | charClass negated items => exact ⟨91, _, rfl, rfl⟩
  | escape c => exact ⟨92, _, rfl, rfl⟩
  | group capturing e => exact ⟨40, _, rfl, rfl⟩
  | anchorStart => exact ⟨94, [], rfl, rfl⟩
  | anchorEnd => exact ⟨36, [], rfl, rfl⟩
  | wordBoundary => exact ⟨92, [98], rfl, rfl⟩
  | look behind negative e => exact ⟨40, _, rfl, rfl⟩

theorem Factor.text_start (f : Factor) (hok : f.Ok) :
    ∃ c p, f.text = c :: p ∧ isStart c = true := by
  cases f with
  | plain a => exact a.text_start hok
  | repeated a q nonGreedy =>
    obtain ⟨c, p, htext, hc⟩ := a.text_start hok.1
    exact ⟨c, _, by rw [Factor.text, htext]; rfl, hc⟩

theorem Term.text_start (t : Term) (hok : t.Ok) : ∃ c p, t.text = c :: p ∧ isStart c = true := by
  cases t with
  | one f => exact f.text_start hok
  | more f t =>
    obtain ⟨c, p, htext, hc⟩ := f.text_start hok.1
    exact ⟨c, _, by rw [Term.text, htext]; rfl, hc⟩

theorem Expr.text_start (e : Expr) (hok : e.Ok) : ∃ c p, e.text = c :: p ∧ isStart c = true := by
  cases e with
  | one t => exact t.text_start hok
  | more t e =>
    obtain ⟨c, p, htext, hc⟩ := t.text_start hok.1
    exact ⟨c, _, by rw [Expr.text, htext]; rfl, hc⟩

theorem text_headD {p rest : Bytes} (h : ∃ c q, p = c :: q ∧ isStart c = true) :
    isStart ((p ++ rest).headD 0) = true := by
  obtain ⟨c, q, rfl, hc⟩ := h
  exact hc

theorem isStart_ne {c d : UInt8} (hc : isStart c = true) (hd : isStart d = false) : c ≠ d := by
  rintro rfl
  rw [hc] at hd
  exact absurd hd (by decide)

def lineFlags (multiline : Bool) : Flags := { multiline := multiline }

/- Up to `rest` a fragment of a meaning has been read; the bodies that were known are kept. -/
def Parsed (bodies : Bodies) (tests numbered : Bool) (h : Heap) (rest : Bytes) (m : Meaning)
    (out : Option (Option Fragment × Parser)) : Prop :=
  ∃ frag t, out = some (some frag, t) ∧ t.pattern = rest ∧ t.groupId.isSome = numbered ∧
    ∃ other : Bodies, (∀ s < h.length, other s = bodies s) ∧ Built other tests h t.heap frag m

theorem single_parsed (s : Parser) (hg : s.groupId.isSome = numbered) (type : NfaStateType)
    (hfits : type.Fits tests) (htype : type ≠ .split) (hbody : type.body = none)
    {l : Language Letter} (hl : type.via bodies = l) (rest : Bytes) :
    Parsed bodies tests numbered s.heap rest (.atom l) (some (singleAtom s type rest)) := by
  have hgrown : Grown bodies tests s.heap s.heap ∅ s.heap.length := .refl s.heap
  have hb := atom_built hgrown hfits htype fun t ht => by rw [hbody] at ht; cases ht
  rw [hl] at hb
  exact ⟨_, _, rfl, rfl, hg, bodies, fun _ _ => rfl, hb⟩

variable {type : NfaStateType}

theorem via_letter (htype : type ≠ .split) : type.via bodies = oneLetter (type.accepts bodies) := by
  cases type <;> first | rfl | exact absurd rfl htype

theorem via_reads {p : UInt8 → Bool} (htype : type ≠ .split) (htest : type.test bodies = none)
    (h : ∀ c, type.reads false c = p c) : type.via bodies = spelled (oneOf p) := by
  rw [via_letter htype]
  ext w
  constructor
  · rintro ⟨a, ha, rfl⟩
    cases a with
    | read c => exact ⟨[c], ⟨c, (h c).symm.trans ha, rfl⟩, rfl⟩
    | pass t =>
      have hnone : type.test bodies = some t := ha
      rw [htest] at hnone
      cases hnone
  · rintro ⟨_, ⟨c, hc, rfl⟩, rfl⟩
    exact ⟨.read c, (h c).trans hc, rfl⟩

theorem via_test {t : Test} (htype : type ≠ .split) (htest : type.test bodies = some t)
    (h : ∀ c, type.reads false c = false) : type.via bodies = asking t := by
  have haccepts (a : Letter) : type.accepts bodies a ↔ a = .pass t := by
    cases a with
    | read c => simp [NfaStateType.accepts, h]
    | pass u => simp [NfaStateType.accepts, htest, eq_comm]
  rw [via_letter htype]
  exact congrArg oneLetter (funext fun a => propext (haccepts a))

theorem via_char (c : UInt8) : (NfaStateType.char c).via bodies = spelled (oneOf (· = c)) :=
  via_reads (by simp) rfl fun d => by simp [NfaStateType.reads, toLowerIfNeeded]

theorem via_charset {t : Charset} {p : UInt8 → Bool} (h : ∀ c, charInCharset t c = p c) :
    (NfaStateType.charset t).via bodies = spelled (oneOf p) := via_reads (by simp) rfl h

section Simple

variable {flags : Flags} (s : Parser)

variable {c : UInt8}

theorem parseSimple_char (hc : isLiteral c = true) (rest : Bytes) (hs : s.pattern = c :: rest) :
    parseSimple flags s = some (singleAtom s (.char c) rest) := by
  have hne (d : UInt8) (hd : isLiteral d = false) : c ≠ d := by
    rintro rfl
    rw [hc] at hd
    exact absurd hd (by decide)
  rw [parseSimple, hs, headD_cons, tail_cons, if_neg (hne 94 rfl), if_neg (hne 36 rfl),
    if_neg (hne 46 rfl), if_neg (hne 91 rfl), if_neg (hne 92 rfl)]

theorem parseSimple_dot (rest : Bytes) (hs : s.pattern = 46 :: rest) :
    parseSimple flags s = some (singleAtom s (.charset (dotCharset flags.dotall)) rest) := by
  rw [parseSimple, hs, headD_cons, tail_cons, if_neg (by decide), if_neg (by decide),
    if_pos rfl]

theorem parseSimple_class {p rest : Bytes} {t : Charset}
    (ht : parseCharClass flags.ignoreCase p = some (some (t, rest))) (hs : s.pattern = 91 :: p) :
    parseSimple flags s = some (singleAtom s (.charset t) rest) := by
  rw [parseSimple, hs, headD_cons, tail_cons, if_neg (by decide), if_neg (by decide),
    if_neg (by decide), if_pos rfl, ht]
  rfl

theorem parseSimple_escape {rest : Bytes} {t : Charset} (hc : c ≠ 0 ∧ c ≠ 98) (hslash : c ≠ 92)
    (ht : escapeCharset c = some t) (hs : s.pattern = 92 :: c :: rest) :
    parseSimple flags s = some (singleAtom s (.charset t) rest) := by
  have hzero : ¬ (92 :: c :: rest).getD 1 0 = 0 := hc.1
  have hb : ¬ (92 :: c :: rest).getD 1 0 = 98 := hc.2
  have hsome : parseEscapeSequence (c :: rest) = some (some (t, rest)) := by
    rw [parseEscapeSequence, headD_cons, if_neg (fun h => hslash h.1), if_neg hslash]
    dsimp only [headD_cons, tail_cons]
    rw [ht]
    rfl
  rw [parseSimple, hs, headD_cons, tail_cons, if_neg (by decide), if_neg (by decide),
    if_neg (by decide), if_neg (by decide), if_pos rfl, if_neg hzero, if_neg hb, hsome]
  rfl

variable (hg : s.groupId.isSome = numbered)

include hg

theorem char_parsed (hc : isLiteral c = true) (rest : Bytes) (hs : s.pattern = c :: rest) :
    Parsed bodies tests numbered s.heap rest (.atom (spelled (oneOf (· = c))))
      (parseSimple (lineFlags multiline) s) := by
  rw [parseSimple_char s hc rest hs]
  exact single_parsed s hg (.char c) (.inl trivial) (by simp) rfl (via_char c) rest

theorem dot_parsed (rest : Bytes) (hs : s.pattern = 46 :: rest) :
    Parsed bodies tests numbered s.heap rest (.atom (spelled (oneOf fun c => c ≠ 10 && c ≠ 13)))
        (parseSimple (lineFlags multiline) s) := by
  rw [parseSimple_dot s rest hs]
  refine single_parsed s hg (.charset (dotCharset false)) (.inl trivial) (by simp) rfl
    (via_charset fun c => ?_) rest
  rw [dotCharset, if_neg Bool.false_ne_true, charIn_setBits]
  simp [← UInt8.toNat_inj]

theorem class_parsed (negated : Bool) (items : List ClassItem) (hok : ItemsOk items)
    (hfirst : negated = false → (itemsText items).headD 0 ≠ 94) (rest : Bytes) (hs : s.pattern =
      91 :: ((if negated then [94] else []) ++ (itemsText items ++ 93 :: rest))) :
    Parsed bodies tests numbered s.heap rest
      (.atom (spelled (oneOf fun c => items.any (ClassItem.reads c) != negated)))
      (parseSimple (lineFlags multiline) s) := by
  obtain ⟨t, ht, hbits⟩ := charClass_spec negated items hok hfirst rest
  have hread : parseCharClass (lineFlags multiline).ignoreCase _ = _ := ht
  rw [parseSimple_class s hread hs]
  exact single_parsed s hg (.charset t) (.inl trivial) (by simp) rfl (via_charset hbits) rest

theorem escape_parsed (hc : c ≠ 0 ∧ c ≠ 98) (rest : Bytes) (hslash : c = 92 → rest.headD 0 = 0)
    (hs : s.pattern = 92 :: c :: rest) :
    Parsed bodies tests numbered s.heap rest (.atom (spelled (oneOf (escapeReads c))))
      (parseSimple (lineFlags multiline) s) := by
  by_cases h92 : c = 92
  · subst h92
    have hnone : parseEscapeSequence (92 :: rest) = some none := by
      refine if_pos ⟨rfl, ?_⟩
      cases rest with
      | nil => rfl
      | cons d p => exact hslash rfl
    have hzero : ¬ (92 :: 92 :: rest).getD 1 0 = 0 := hc.1
    have hb : ¬ (92 :: 92 :: rest).getD 1 0 = 98 := hc.2
    rw [parseSimple, hs, headD_cons, tail_cons, if_neg (by decide), if_neg (by decide),
      if_neg (by decide), if_neg (by decide), if_pos rfl, if_neg hzero, if_neg hb, hnone]
    exact single_parsed s hg (.char 92) (.inl trivial) (by simp) rfl (via_char 92) rest
  · obtain ⟨t, ht, hbits⟩ := escapeCharset_spec c
    rw [parseSimple_escape s hc h92 ht hs]
    exact single_parsed s hg (.charset t) (.inl trivial) (by simp) rfl (via_charset hbits) rest

theorem anchorStart_parsed (rest : Bytes) (hs : s.pattern = 94 :: rest) :
    Parsed bodies true numbered s.heap rest (.atom (asking .lineStart))
      (parseSimple (lineFlags multiline) s) := by
  rw [parseSimple, hs, headD_cons, tail_cons, if_pos rfl]
  exact single_parsed s hg .anchorStart (.inr ⟨rfl, nofun⟩) nofun rfl
    (via_test nofun rfl fun _ => rfl) rest

theorem anchorEnd_parsed (rest : Bytes) (hs : s.pattern = 36 :: rest) :
    Parsed bodies true numbered s.heap rest (.atom (asking .lineEnd))
      (parseSimple (lineFlags multiline) s) := by
  rw [parseSimple, hs, headD_cons, tail_cons, if_neg (by decide), if_pos rfl]
  exact single_parsed s hg .anchorEnd (.inr ⟨rfl, nofun⟩) nofun rfl
    (via_test nofun rfl fun _ => rfl) rest

theorem wordBoundary_parsed (rest : Bytes) (hs : s.pattern = 92 :: 98 :: rest) :
    Parsed bodies true numbered s.heap rest (.atom (asking .wordBoundary))
      (parseSimple (lineFlags multiline) s) := by
  rw [parseSimple, hs, headD_cons, if_neg (by decide), if_neg (by decide),
    if_neg (by decide), if_neg (by decide), if_pos rfl, getD_cons_succ, getD_cons_zero,
    if_neg (by decide), if_pos rfl]
  exact single_parsed s hg .wordBoundary (.inr ⟨rfl, nofun⟩) nofun rfl
    (via_test nofun rfl fun _ => rfl) rest

end Simple

section Calls

variable {flags : Flags} {s t : Parser} {n : ℕ} {rest : Bytes}

theorem parseAtom_simple (hzero : s.pattern.headD 0 ≠ 0) (hopen : s.pattern.headD 0 ≠ 40) :
    parseAtom flags (n + 1) s = parseSimple flags s := by
  rw [parseAtom, if_neg hzero, if_neg hopen]

variable {p : Bytes}

theorem parseAtom_capturing {g : ℕ} (hs : s.pattern = 40 :: p) (hp : p.headD 0 ≠ 63)
    (hg : s.groupId = some g)
    (hout : parseExpr flags n { s with pattern := p, groupId := some (g + 1) } =
    some (some frag, t)) (ht : t.pattern = 41 :: rest) :
    parseAtom flags (n + 1) s = some (some (closeGroup t.heap frag g).2,
      { t with heap := (closeGroup t.heap frag g).1, pattern := rest }) := by
  have hkind : groupKind p = (.capturing, p) := by
    simp only [groupKind, hp, false_and, if_false]
  rw [parseAtom, hs, headD_cons, tail_cons, if_neg (by decide), if_pos rfl, hkind, hg]
  dsimp only [Option.map_some]
  rw [hout]
  simp [ht]

theorem parseAtom_nonCapturing (hs : s.pattern = 40 :: 63 :: 58 :: p)
    (hout : parseExpr flags n { s with pattern := p } = some (some frag, t))
    (ht : t.pattern = 41 :: rest) :
    parseAtom flags (n + 1) s = some (some frag, { t with pattern := rest }) := by
  have hkind : groupKind (63 :: 58 :: p) = (.nonCapturing, p) := rfl
  rw [parseAtom, hs, headD_cons, tail_cons, if_neg (by decide), if_pos rfl, hkind]
  dsimp only
  rw [hout]
  simp [ht]

theorem parseAtom_look {behind negative : Bool} {q : Bytes} {sub : Fragment}
    (hs : s.pattern = 40 :: p) (hkind : groupKind p = (.assertion (lookType behind negative), q))
    (hout : parseExpr flags n { s with pattern := q, groupId := none } =
      some (some sub, t)) (ht : t.pattern = 41 :: rest) :
    parseAtom flags (n + 1) s =
      some (some (closeAssertion t.heap sub (lookType behind negative)).2,
        { s with
          heap := (closeAssertion t.heap sub (lookType behind negative)).1, pattern := rest }) := by
  rw [parseAtom, hs, headD_cons, tail_cons, if_neg (by decide), if_pos rfl, hkind]
  dsimp only
  rw [hout]
  simp [ht]

theorem parseAtom_unnumbered (hs : s.pattern = 40 :: p) (hp : p.headD 0 ≠ 63)
    (hg : s.groupId = none) (hout : parseExpr flags n { s with pattern := p } = some (some frag, t))
    (ht : t.pattern = 41 :: rest) :
    parseAtom flags (n + 1) s = some (some frag, { t with pattern := rest }) := by
  have hkind : groupKind p = (.capturing, p) := by
    simp only [groupKind, hp, false_and, if_false]
  have hsame : { s with pattern := p, groupId := none } = { s with pattern := p } := by
    rw [← hg]
  rw [parseAtom, hs, headD_cons, tail_cons, if_neg (by decide), if_pos rfl, hkind, hg]
  dsimp only [Option.map_none]
  rw [hsame, hout]
  simp [ht]

theorem parseFactor_some (hout : parseAtom flags n s = some (some frag, t)) :
    parseFactor flags (n + 1) s = some (some (applyQuantifier t.heap frag t.pattern).2.1, { t with
        heap := (applyQuantifier t.heap frag t.pattern).1
        pattern := (applyQuantifier t.heap frag t.pattern).2.2 }) := by
  rw [parseFactor, hout]
  rfl

theorem parseTerm_some (hout : parseFactor flags n s = some (some frag, t)) :
    parseTerm flags (n + 1) s = termLoop flags n t frag := by
  rw [parseTerm, hout]
  rfl

theorem termLoop_end (h : s.pattern.headD 0 = 0 ∨ s.pattern.headD 0 = 124 ∨ s.pattern.headD 0 = 41)
    : termLoop flags (n + 1) s frag = some (some frag, s) := by
  rw [termLoop, if_pos h]

theorem termLoop_some {next : Fragment} (hstart : isStart (s.pattern.headD 0) = true)
    (hout : parseFactor flags n s = some (some next, t)) : termLoop flags (n + 1) s frag =
      termLoop flags n { t with heap := t.heap.setOut1 frag.last (some next.start) }
        ⟨frag.start, next.last⟩ := by
  have hne : ¬ (s.pattern.headD 0 = 0 ∨ s.pattern.headD 0 = 124 ∨ s.pattern.headD 0 = 41) := by
    rintro (h | h | h) <;> exact isStart_ne hstart rfl h
  rw [termLoop, if_neg hne, hout]
  rfl

theorem parseExpr_some (hout : parseTerm flags n s = some (some frag, t)) :
    parseExpr flags (n + 1) s = exprLoop flags n t frag := by
  rw [parseExpr, hout]
  rfl

theorem exprLoop_end (h : s.pattern.headD 0 ≠ 124) :
    exprLoop flags (n + 1) s frag = some (some frag, s) := by
  rw [exprLoop, if_pos h]

theorem exprLoop_some {next : Fragment} (hs : s.pattern = 124 :: p)
    (hout : parseTerm flags n { s with pattern := p } = some (some next, t)) :
    exprLoop flags (n + 1) s frag =
      exprLoop flags n { t with heap := (joinBranches t.heap frag next).1 }
        (joinBranches t.heap frag next).2 := by
  rw [exprLoop, hs, headD_cons, if_neg (by decide), tail_cons, hout]
  rfl

end Calls

theorem applyQuantifier_none (h : Heap) (frag : Fragment) {p : Bytes}
    (hp : ¬ (p.headD 0 = 42 ∨ p.headD 0 = 43 ∨ p.headD 0 = 63 ∨ p.headD 0 = 123)) :
    applyQuantifier h frag p = (h, frag, p) := by
  simp only [not_or] at hp
  simp only [applyQuantifier, hp, if_false]

theorem Atom.text_pos (a : Atom) (hok : a.Ok) : 1 ≤ a.text.length := by
  obtain ⟨c, p, htext, -⟩ := a.text_start hok
  rw [htext]
  exact Nat.succ_pos p.length

theorem Factor.text_pos (f : Factor) (hok : f.Ok) : 1 ≤ f.text.length := by
  obtain ⟨c, p, htext, -⟩ := f.text_start hok
  rw [htext]
  exact Nat.succ_pos p.length

theorem isStart_not_quantifier {c : UInt8} (hc : isStart c = true) :
    ¬ (c = 42 ∨ c = 43 ∨ c = 63 ∨ c = 123) := by
  rintro (h | h | h | h) <;> exact isStart_ne hc rfl h

def TermEnd (rest : Bytes) : Prop := rest.headD 0 = 0 ∨ rest.headD 0 = 124 ∨ rest.headD 0 = 41

theorem TermEnd.not_quantifier {rest : Bytes} (h : TermEnd rest) :
    ¬ (rest.headD 0 = 42 ∨ rest.headD 0 = 43 ∨ rest.headD 0 = 63 ∨ rest.headD 0 = 123) := by
  rcases h with h | h | h <;> rw [h] <;> decide

theorem Parsed.kept {other : Bodies} {rest : Bytes} {out : Option (Option Fragment × Parser)}
    (hp : Parsed other tests numbered h rest m out) (hother : ∀ s < k.length, other s = bodies s)
    (hle : h.length ≤ k.length) : Parsed bodies tests numbered h rest m out := by
  obtain ⟨frag, t, hout, ht, hg, next, hnext, hb⟩ := hp
  exact ⟨frag, t, hout, ht, hg, next, fun s hs =>
    (hnext s hs).trans (hother s (hs.trans_le hle)), hb⟩

mutual

theorem Atom.Plain.flat : ∀ {a : Atom}, a.Plain → a.Flat
  | .char _, _ | .dot, _ | .charClass _ _, _ | .escape _, _ => trivial
  | .group _ _, h => Expr.Plain.flat h

theorem Factor.Plain.flat : ∀ {f : Factor}, f.Plain → f.Flat
  | .plain _, h => Atom.Plain.flat h
  | .repeated _ _ _, h => Atom.Plain.flat h

theorem Term.Plain.flat : ∀ {t : Term}, t.Plain → t.Flat
  | .one _, h => Factor.Plain.flat h
  | .more _ _, h => ⟨Factor.Plain.flat h.1, Term.Plain.flat h.2⟩

theorem Expr.Plain.flat : ∀ {e : Expr}, e.Plain → e.Flat
  | .one _, h => Term.Plain.flat h
  | .more _ _, h => ⟨Term.Plain.flat h.1, Expr.Plain.flat h.2⟩

end

theorem groupKind_look (behind negative : Bool) (p : Bytes) :
    groupKind (63 :: ((if behind then [60] else []) ++ (if negative then 33 else 61) :: p)) =
      (.assertion (lookType behind negative), p) := by
  cases behind <;> cases negative <;> rfl

mutual

theorem Atom.parsed (a : Atom) {tests numbered : Bool} (hok : a.Ok) (hfits : a.All Quantifier.Fits)
    (hflat : a.Flat)
    (hplain : tests = false → a.Plain) {last : Bool} (hslash : a.SlashOk last) (rest : Bytes)
    (hlast : last = true → rest.headD 0 = 0) {n : ℕ} (hn : 6 * a.text.length ≤ n) (bodies : Bodies)
    (s : Parser) (hg : s.groupId.isSome = numbered) (hs : s.pattern = a.text ++ rest) :
    Parsed bodies tests numbered s.heap rest (a.meaning numbered)
      (parseAtom (lineFlags multiline) n s) := by
  have hstart : isStart (s.pattern.headD 0) = true := by
    rw [hs]
    exact text_headD (a.text_start hok)
  have hzero := isStart_ne hstart (d := 0) rfl
  have hpos := a.text_pos hok
  have htests (h : ¬ a.Plain) : tests = true := by
    cases htest : tests with
    | false => exact absurd (hplain htest) h
    | true => rfl
  obtain ⟨n, rfl⟩ : ∃ i, n = i + 1 := Nat.exists_eq_add_one_of_ne_zero (by omega)
  match a with
  | .char c =>
    have hopen : s.pattern.headD 0 ≠ 40 := by
      rw [hs]
      rintro (rfl : c = 40)
      exact absurd (show isLiteral 40 = true from hok) (by decide)
    rw [parseAtom_simple hzero hopen]
    exact char_parsed s hg hok rest hs
  | .dot =>
    rw [parseAtom_simple hzero (by simp [hs, Atom.text])]
    exact dot_parsed s hg rest hs
  | .charClass negated items =>
    rw [parseAtom_simple hzero (by simp [hs, Atom.text])]
    exact class_parsed s hg negated items hok.1 hok.2 rest (by rw [hs]; simp [Atom.text])
  | .escape c =>
    rw [parseAtom_simple hzero (by simp [hs, Atom.text])]
    exact escape_parsed s hg hok rest (fun hc => hlast (hslash hc)) hs
  | .anchorStart =>
    obtain rfl := htests id
    rw [parseAtom_simple hzero (by simp [hs, Atom.text])]
    exact anchorStart_parsed s hg rest hs
  | .anchorEnd =>
    obtain rfl := htests id
    rw [parseAtom_simple hzero (by simp [hs, Atom.text])]
    exact anchorEnd_parsed s hg rest hs
  | .wordBoundary =>
    obtain rfl := htests id
    rw [parseAtom_simple hzero (by simp [hs, Atom.text])]
    exact wordBoundary_parsed s hg rest hs
  | .look behind negative e =>
    obtain rfl := htests id
    have hlen : e.text.length + 4 ≤ (Atom.look behind negative e).text.length := by
      simp [Atom.text]
    obtain ⟨sub, t, hout, ht, hgt, other, hother, hb⟩ := (@Expr.parsed e false false hok hfits
      (Expr.Plain.flat hflat.1) (fun _ => hflat.1) _ hslash (41 :: rest)
      (fun h => absurd h Bool.false_ne_true) (.inr rfl) n (by omega) bodies
      { s with pattern := e.text ++ 41 :: rest, groupId := none } rfl).1 rfl
    have hl : (e.meaning false).lang = spelled e.lang := by
      rw [e.meaning_lang hflat.2, e.words_plain hflat.1 hflat.2]
    refine ⟨_, _, parseAtom_look (by rw [hs]; simp only [Atom.text]; rfl) ?_ hout ht, rfl, hg, _,
      fun u hu => ?_, assertion_built hb hl behind negative⟩
    · rw [← groupKind_look behind negative (e.text ++ 41 :: rest)]
      simp
    · have hsub := hb.start.1
      rw [Function.update_of_ne (Nat.ne_of_lt (hu.trans_le hsub))]
      exact hother u hu
  | .group capturing e =>
    have hlen : e.text.length + 2 ≤ (Atom.group capturing e).text.length := by
      simp [Atom.text]
    have hp : (e.text ++ 41 :: rest).headD 0 ≠ 63 := isStart_ne (text_headD (e.text_start hok)) rfl
    have hbody (v : Parser) (hgv : v.groupId.isSome = numbered)
        (hv : v.pattern = e.text ++ 41 :: rest) :=
      (e.parsed hok hfits hflat hplain hslash (41 :: rest) (fun h => absurd h Bool.false_ne_true)
        (.inr rfl) (n := n) (by omega) bodies v hgv).1 hv
    cases capturing with
    | false =>
      obtain ⟨frag, t, hout, ht, hgt, hb⟩ := hbody { s with pattern := e.text ++ 41 :: rest } hg rfl
      exact ⟨_, _, parseAtom_nonCapturing (by rw [hs]; simp [Atom.text]) hout ht, rfl, hgt, hb⟩
    | true =>
      cases hid : s.groupId with
      | none =>
        obtain rfl : numbered = false := by rw [← hg, hid]; rfl
        obtain ⟨frag, t, hout, ht, hgt, hb⟩ := hbody { s with pattern := e.text ++ 41 :: rest } hg rfl
        exact ⟨_, _, parseAtom_unnumbered (by rw [hs]; simp [Atom.text]) hp hid hout ht, rfl, hgt,
          hb⟩
      | some g =>
        obtain rfl : numbered = true := by rw [← hg, hid]; rfl
        obtain ⟨frag, t, hout, ht, hgt, other, hother, hb⟩ := hbody
          { s with pattern := e.text ++ 41 :: rest, groupId := some (g + 1) } rfl rfl
        exact ⟨_, _, parseAtom_capturing (by rw [hs]; simp [Atom.text]) hp hid hout ht, rfl, hgt,
          other, hother, group_built hb g⟩

theorem Factor.parsed (f : Factor) {tests numbered : Bool} (hok : f.Ok)
    (hfits : f.All Quantifier.Fits) (hflat : f.Flat)
    (hplain : tests = false → f.Plain) {last : Bool} (hslash : f.SlashOk last) (rest : Bytes)
    (hlast : last = true → rest.headD 0 = 0)
    (hend : ¬ (rest.headD 0 = 42 ∨ rest.headD 0 = 43 ∨ rest.headD 0 = 63 ∨ rest.headD 0 = 123))
    {n : ℕ} (hn : 6 * f.text.length + 1 ≤ n) (bodies : Bodies) (s : Parser)
    (hg : s.groupId.isSome = numbered) (hs : s.pattern = f.text ++ rest) :
    Parsed bodies tests numbered s.heap rest (f.meaning numbered)
      (parseFactor (lineFlags multiline) n s) := by
  obtain ⟨n, rfl⟩ : ∃ i, n = i + 1 := Nat.exists_eq_add_one_of_ne_zero (by omega)
  match f with
  | .plain a =>
    obtain ⟨frag, t, hout, ht, hgt, hb⟩ := a.parsed hok hfits hflat hplain hslash rest hlast
      (Nat.le_of_succ_le_succ hn) bodies s hg hs
    have hnone : applyQuantifier t.heap frag t.pattern = (t.heap, frag, t.pattern) :=
      applyQuantifier_none t.heap frag (by rwa [ht])
    refine ⟨_, _, parseFactor_some hout, ?_, hgt, ?_⟩
    · rw [hnone]
      exact ht
    · rw [hnone]
      exact hb
  | .repeated a q nonGreedy =>
    obtain ⟨frag, t, hout, ht, hgt, other, hother, hb⟩ := a.parsed hok.1 hfits.1 hflat hplain hslash
      (q.text ++ (lazyText nonGreedy ++ rest)) (fun h => absurd h Bool.false_ne_true)
      (n := n) (by simp [Factor.text] at hn; omega) bodies s hg
      (by rw [hs]; simp [Factor.text, lazyText])
    have hbuilt := quantifier_built hb q nonGreedy hfits.2 (fun h : rest.headD 0 = 63 => hend (by
      rw [h]
      decide))
    rw [← ht] at hbuilt
    exact ⟨_, _, parseFactor_some hout, hbuilt.2, hgt, other, hother, hbuilt.1⟩

/-- A term by itself, and behind what has been read of it. -/
theorem Term.parsed (t : Term) {tests numbered : Bool} (hok : t.Ok) (hfits : t.All Quantifier.Fits)
    (hflat : t.Flat)
    (hplain : tests = false → t.Plain) {last : Bool} (hslash : t.SlashOk last) (rest : Bytes)
    (hlast : last = true → rest.headD 0 = 0) (hend : TermEnd rest) {n : ℕ}
    (hn : 6 * t.text.length + 2 ≤ n) (bodies : Bodies) (s : Parser)
    (hg : s.groupId.isSome = numbered) (hs : s.pattern = t.text ++ rest) :
    Parsed bodies tests numbered s.heap rest (t.meaning numbered)
      (parseTerm (lineFlags multiline) n s) ∧
    ∀ (h : Heap) (frag : Fragment) (m : Meaning), Built bodies tests h s.heap frag m →
      Parsed bodies tests numbered h rest (t.follow numbered m)
        (termLoop (lineFlags multiline) n s frag) := by
  obtain ⟨n, rfl⟩ : ∃ i, n = i + 1 := Nat.exists_eq_add_one_of_ne_zero (by omega)
  have hstart : isStart (s.pattern.headD 0) = true := by
    rw [hs]
    exact text_headD (t.text_start hok)
  match t with
  | .one f =>
    obtain ⟨next, t, hout, ht, hgt, other, hother, hb'⟩ := f.parsed hok hfits hflat hplain hslash
      rest hlast hend.not_quantifier (Nat.le_of_succ_le_succ hn) bodies s hg hs
    obtain ⟨n, rfl⟩ : ∃ i, n = i + 1 := Nat.exists_eq_add_one_of_ne_zero (by omega)
    constructor
    · rw [parseTerm_some hout, termLoop_end (by rwa [ht])]
      exact ⟨next, t, rfl, ht, hgt, other, hother, hb'⟩
    · intro h frag m hb
      have hle := hb.le
      rw [termLoop_some hstart hout, termLoop_end (by dsimp only; rwa [ht])]
      exact ⟨_, _, rfl, ht, hgt, other, fun q hq => hother q (hq.trans_le hle),
        cat_built (hb.rebody hother) hb'⟩
  | .more f u =>
    have hpos := f.text_pos hok.1
    simp only [Term.text, length_append] at hn
    obtain ⟨next, t, hout, ht, hgt, other, hother, hb'⟩ := f.parsed hok.1 hfits.1 hflat.1
      (fun h => (hplain h).1) hslash.1 (u.text ++ rest) (fun h => absurd h Bool.false_ne_true)
      (isStart_not_quantifier (text_headD (u.text_start hok.2))) (n := n) (by omega) bodies s hg
      (by rw [hs]; simp [Term.text])
    have hmore (v : Parser) (hgv : v.groupId.isSome = numbered) (hv : v.pattern = u.text ++ rest) :=
      (u.parsed hok.2 hfits.2 hflat.2 (fun h => (hplain h).2) hslash.2 rest hlast hend (n := n)
        (by omega) other v hgv hv).2
    constructor
    · rw [parseTerm_some hout]
      exact (hmore t hgt ht _ _ _ hb').kept hother le_rfl
    · intro h frag m hb
      rw [termLoop_some hstart hout]
      exact (hmore { t with heap := t.heap.setOut1 frag.last (some next.start) } hgt ht _ _ _
        (cat_built (hb.rebody hother) hb')).kept hother hb.le

/-- An alternation by itself, and behind the bar after what has been read of it. -/
theorem Expr.parsed (e : Expr) {tests numbered : Bool} (hok : e.Ok) (hfits : e.All Quantifier.Fits)
    (hflat : e.Flat)
    (hplain : tests = false → e.Plain) {last : Bool} (hslash : e.SlashOk last) (rest : Bytes)
    (hlast : last = true → rest.headD 0 = 0) (hend : rest.headD 0 = 0 ∨ rest.headD 0 = 41) {n : ℕ}
    (hn : 6 * e.text.length + 3 ≤ n) (bodies : Bodies) (s : Parser)
    (hg : s.groupId.isSome = numbered) :
    (s.pattern = e.text ++ rest → Parsed bodies tests numbered s.heap rest (e.meaning numbered)
      (parseExpr (lineFlags multiline) n s)) ∧
    (s.pattern = 124 :: (e.text ++ rest) → ∀ (h : Heap) (frag : Fragment) (m : Meaning),
      Built bodies tests h s.heap frag m → Parsed bodies tests numbered h rest (e.join numbered m)
        (exprLoop (lineFlags multiline) n s frag)) := by
  have hbar : rest.headD 0 ≠ 124 := by
    rcases hend with h | h <;> rw [h] <;> decide
  obtain ⟨n, rfl⟩ : ∃ i, n = i + 1 := Nat.exists_eq_add_one_of_ne_zero (by omega)
  match e with
  | .one t =>
    have hterm (v : Parser) (hgv : v.groupId.isSome = numbered) (hv : v.pattern = t.text ++ rest) :=
      (t.parsed hok hfits hflat hplain hslash rest hlast (hend.imp id Or.inr)
        (Nat.le_of_succ_le_succ hn) bodies v hgv hv).1
    constructor
    · intro hs
      obtain ⟨frag, u, hout, hu, hgu, hb⟩ := hterm s hg hs
      obtain ⟨n, rfl⟩ : ∃ i, n = i + 1 := Nat.exists_eq_add_one_of_ne_zero (by omega)
      rw [parseExpr_some hout, exprLoop_end (by rwa [hu])]
      exact ⟨frag, u, rfl, hu, hgu, hb⟩
    · intro hs h frag m hb
      have hle := hb.le
      obtain ⟨next, u, hout, hu, hgu, other, hother, hb'⟩ :=
        hterm { s with pattern := t.text ++ rest } hg rfl
      obtain ⟨n, rfl⟩ : ∃ i, n = i + 1 := Nat.exists_eq_add_one_of_ne_zero (by omega)
      rw [exprLoop_some hs hout, exprLoop_end (by dsimp only; rwa [hu])]
      exact ⟨_, _, rfl, hu, hgu, other, fun q hq => hother q (hq.trans_le hle),
        alt_built (hb.rebody hother) hb'⟩
  | .more t e =>
    simp only [Expr.text, length_append, length_cons] at hn
    have hterm (v : Parser) (hgv : v.groupId.isSome = numbered)
        (hv : v.pattern = t.text ++ 124 :: (e.text ++ rest)) :=
      (t.parsed hok.1 hfits.1 hflat.1 (fun h => (hplain h).1) hslash.1 (124 :: (e.text ++ rest))
        (fun h => absurd h Bool.false_ne_true) (.inr (.inl rfl)) (n := n) (by omega) bodies v hgv
        hv).1
    have hmore (other : Bodies) (v : Parser) (hgv : v.groupId.isSome = numbered)
        (hv : v.pattern = 124 :: (e.text ++ rest)) :=
      (e.parsed hok.2 hfits.2 hflat.2 (fun h => (hplain h).2) hslash.2 rest hlast hend (n := n)
        (by omega) other v hgv).2 hv
    constructor
    · intro hs
      obtain ⟨frag, u, hout, hu, hgu, other, hother, hb⟩ := hterm s hg (by
        rw [hs]
        simp [Expr.text])
      rw [parseExpr_some hout]
      exact (hmore other u hgu hu _ _ _ hb).kept hother le_rfl
    · intro hs h frag m hb
      obtain ⟨next, u, hout, hu, hgu, other, hother, hb'⟩ :=
        hterm { s with pattern := t.text ++ 124 :: (e.text ++ rest) } hg rfl
      rw [exprLoop_some (by rw [hs]; simp [Expr.text]) hout]
      exact (hmore other { u with heap := (joinBranches u.heap frag next).1 } hgu hu _ _
        _ (alt_built (hb.rebody hother) hb')).kept hother hb.le

end

end Voxlib.Regex
