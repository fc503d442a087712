import Voxlib.Lib.CStr

/-!
# The regular expression engine (vox_regex.c)

A pattern is compiled to an automaton by Thompson's construction, and a text
is read by following all of its states at once. The states are a list in the
order in which they were created, and a pointer to a state is its position.
The pool has memory for them. A function that gives `none` does not return.

What is left out: the captured groups, which no function reads, and the
literal prefix, which only the search reads.
-/

namespace Voxlib.Regex
open CStr

/- The options of vox_regex_compile. -/
structure Flags where
  ignoreCase : Bool := false
  multiline : Bool := false
  dotall : Bool := false
  deriving DecidableEq, Repr

abbrev Charset := BitVec 256

def setCharsetBit (bitmap : Charset) (bit : ℕ) : Charset := bitmap ||| BitVec.twoPow 256 bit

def getCharsetBit (bitmap : Charset) (bit : ℕ) : Bool := bitmap.getLsbD bit

def addCharToCharset (bitmap : Charset) (ch : UInt8) : Charset := setCharsetBit bitmap ch.toNat

def charInCharset (bitmap : Charset) (ch : UInt8) : Bool := getCharsetBit bitmap ch.toNat

/- The loop of add_range_to_charset. It runs at most 256 times, or for ever: no
   byte is greater than 0xFF. -/
def rangeLoop : ℕ → UInt8 → UInt8 → Charset → Option Charset
  | 0, _, _, _ => none
  | n + 1, ch, e, bitmap =>
    if ch ≤ e then rangeLoop n (ch + 1) e (setCharsetBit bitmap ch.toNat) else some bitmap

def addRangeToCharset (bitmap : Charset) (start last : UInt8) : Option Charset :=
  if start > last then rangeLoop 257 last start bitmap else rangeLoop 257 start last bitmap

def setBits (cond : ℕ → Bool) : Charset :=
  (List.range 256).foldl (fun bitmap i => if cond i then setCharsetBit bitmap i else bitmap) 0

def isWordChar (ch : UInt8) : Bool :=
  (97 ≤ ch && ch ≤ 122) || (65 ≤ ch && ch ≤ 90) || (48 ≤ ch && ch ≤ 57) || ch = 95

/- The switch of parse_escape_sequence. -/
def escapeCharset (c : UInt8) : Option Charset :=
  if c = 100 then addRangeToCharset 0 48 57
  else if c = 68 then some (setBits fun i => i < 48 || i > 57)
  else if c = 119 then do
    let charset ← addRangeToCharset 0 97 122
    let charset ← addRangeToCharset charset 65 90
    let charset ← addRangeToCharset charset 48 57
    some (addCharToCharset charset 95)
  else if c = 87 then
    some (setBits fun i => !((97 ≤ i && i ≤ 122) || (65 ≤ i && i ≤ 90) || (48 ≤ i && i ≤ 57) ||
      i = 95))
  else if c = 115 then
    some ([32, 9, 10, 13, 11, 12].foldl addCharToCharset 0)
  else if c = 83 then
    some (setBits fun i => i ≠ 32 && i ≠ 9 && i ≠ 10 && i ≠ 13 && i ≠ 11 && i ≠ 12)
  else some (addCharToCharset 0 c)

/- parse_escape_sequence: the set and what is behind the escape, when it returns true. A backslash
   at the front of `p` is skipped. -/
def parseEscapeSequence (p : Bytes) : Option (Option (Charset × Bytes)) :=
  if p.headD 0 = 92 ∧ p.getD 1 0 = 0 then some none
  else
    let p := if p.headD 0 = 92 then p.tail else p
    do
      let charset ← escapeCharset (p.headD 0)
      some (some (charset, p.tail))

def addPlain (ignoreCase : Bool) (charset : Charset) (ch : UInt8) : Charset :=
  if ignoreCase ∧ 97 ≤ ch ∧ ch ≤ 122 then
    addCharToCharset (addCharToCharset charset (ch - 97 + 65)) (ch - 97 + 65 - 65 + 97)
  else addCharToCharset charset ch

def upper (ignoreCase : Bool) (ch : UInt8) : UInt8 :=
  if ignoreCase ∧ 97 ≤ ch ∧ ch ≤ 122 then ch - 97 + 65 else ch

def addRange (ignoreCase : Bool) (charset : Charset) (start last : UInt8) : Option Charset := do
  let start := upper ignoreCase start
  let last := upper ignoreCase last
  let charset ← addRangeToCharset charset start last
  if ignoreCase ∧ 65 ≤ start ∧ start ≤ 90 then
    addRangeToCharset charset (start - 65 + 97) (last - 65 + 97)
  else some charset

def charClassLoop (ignoreCase : Bool) : ℕ → Bytes → Charset → Option (Charset × Bytes)
  | 0, _, _ => none
  | n + 1, p, charset =>
    if p.headD 0 = 0 ∨ p.headD 0 = 93 then some (charset, p)
    else if p.headD 0 = 92 ∧ p.getD 1 0 ≠ 0 then do
      match ← parseEscapeSequence p with
      | some (escape, rest) => charClassLoop ignoreCase n rest (charset ||| escape)
      | none =>
        if p.getD 1 0 = 0 then some (charset, p.tail)
        else charClassLoop ignoreCase n (p.drop 2) (addPlain ignoreCase charset (p.getD 1 0))
    else if p.getD 1 0 = 45 ∧ p.getD 2 0 ≠ 0 ∧ p.getD 2 0 ≠ 93 ∧ p.getD 2 0 ≠ 92 then do
      let charset ← addRange ignoreCase charset (p.headD 0) (p.getD 2 0)
      charClassLoop ignoreCase n (p.drop 3) charset
    else charClassLoop ignoreCase n p.tail (addPlain ignoreCase charset (p.headD 0))

/- parse_char_class: the set and what is behind the class, when it returns true. -/
def parseCharClass (ignoreCase : Bool) (p : Bytes) : Option (Option (Charset × Bytes)) := do
  let negated : Bool := p.headD 0 = 94
  let p := if negated then p.tail else p
  let (charset, p) ← charClassLoop ignoreCase (p.length + 1) p 0
  if p.headD 0 ≠ 93 then some none
  else some (some (if negated then ~~~charset else charset, p.tail))

/- nfa_state_type_t with the member of the union that belongs to it. -/
inductive NfaStateType where
  | matched
  | char (ch : UInt8)
  | split
  | charset (bitmap : Charset)
  | anchorStart
  | anchorEnd
  | wordBoundary
  | lookahead (negative : Bool) (start : ℕ)
  | lookbehind (negative : Bool) (start : ℕ)
  deriving DecidableEq, Repr

/- nfa_state_t; `none` is NULL for a pointer and -1 for a number. -/
structure NfaState where
  type : NfaStateType
  out1 : Option ℕ := none
  out2 : Option ℕ := none
  groupId : Option ℕ := none
  groupStart : Bool := false
  nonGreedy : Bool := false
  id : Option ℕ := none
  deriving DecidableEq, Repr

abbrev Heap := List NfaState

def Heap.state (h : Heap) (q : ℕ) : NfaState := h.getD q { type := .matched }

def Heap.update (h : Heap) (q : ℕ) (f : NfaState → NfaState) : Heap := h.modify q f

def Heap.setOut1 (h : Heap) (q : ℕ) (target : Option ℕ) : Heap :=
  h.update q ({ · with out1 := target })

def Heap.setOut2 (h : Heap) (q : ℕ) (target : Option ℕ) : Heap :=
  h.update q ({ · with out2 := target })

def Heap.setOuts (h : Heap) (q : ℕ) (out1 out2 : Option ℕ) : Heap :=
  (h.setOut1 q out1).setOut2 q out2

def Heap.setNonGreedy (h : Heap) (q : ℕ) (nonGreedy : Bool) : Heap :=
  h.update q ({ · with nonGreedy := nonGreedy })

def Heap.setGroup (h : Heap) (q : ℕ) (groupId : ℕ) (groupStart : Bool) : Heap :=
  h.update q ({ · with groupId := some groupId, groupStart := groupStart })

def createNfaState (h : Heap) (type : NfaStateType) : ℕ × Heap :=
  (h.length, h ++ [{ type := type }])

/- nfa_fragment_t; a fragment that is there has both of its states. -/
structure Fragment where
  start : ℕ
  last : ℕ
  deriving DecidableEq, Repr

/- clone_fragment: copies of the first and the last state. -/
def cloneFragment (h : Heap) (frag : Fragment) : Heap × Fragment :=
  let start := h.state frag.start
  let last := h.state frag.last
  let newStart := h.length
  let newLast := h.length + 1
  let out1 := if start.out1 = some frag.last then some newLast else start.out1
  (h ++ [{ start with out1 := out1, out2 := none }, { last with out1 := none, out2 := none }],
    ⟨newStart, newLast⟩)

/- Two new states, the first of which leads to the second: an atom that is not a group. -/
def singleState (h : Heap) (type : NfaStateType) : Heap × Fragment :=
  let (state, h) := createNfaState h type
  let (last, h) := createNfaState h .split
  (h.setOut1 state (some last), ⟨state, last⟩)

def Heap.choose (h : Heap) (q : ℕ) (nonGreedy : Bool) (more done : ℕ) : Heap :=
  if nonGreedy then h.setOuts q (some done) (some more) else h.setOuts q (some more) (some done)

def applyStar (h : Heap) (frag : Fragment) (nonGreedy : Bool) : Heap × Fragment :=
  let (split, h) := createNfaState h .split
  let (last, h) := createNfaState h .split
  let h := h.setNonGreedy split nonGreedy
  let h := h.choose split nonGreedy frag.start last
  (h.setOuts frag.last (some split) (some last), ⟨split, last⟩)

def applyPlus (h : Heap) (frag : Fragment) (nonGreedy : Bool) : Heap × Fragment :=
  let (split, h) := createNfaState h .split
  let (last, h) := createNfaState h .split
  let h := h.setNonGreedy split nonGreedy
  let h := h.setOut1 split (some frag.start)
  let h := h.setNonGreedy frag.last nonGreedy
  (h.choose frag.last nonGreedy split last, ⟨split, last⟩)

def applyOptional (h : Heap) (frag : Fragment) (nonGreedy : Bool) : Heap × Fragment :=
  let (split, h) := createNfaState h .split
  let (last, h) := createNfaState h .split
  let h := h.setNonGreedy split nonGreedy
  let h := h.choose split nonGreedy frag.start last
  (h.setOut1 frag.last (some last), ⟨split, last⟩)

def applyAny (h : Heap) (frag : Fragment) (nonGreedy : Bool) : Heap × Fragment :=
  let (split, h) := createNfaState h .split
  let (last, h) := createNfaState h .split
  let h := h.setNonGreedy split nonGreedy
  let h := h.choose split nonGreedy frag.start last
  let h := h.setNonGreedy frag.last nonGreedy
  (h.choose frag.last nonGreedy split last, ⟨split, last⟩)

def cloneFragments (h : Heap) (frag : Fragment) : ℕ → Heap × List Fragment
  | 0 => (h, [])
  | n + 1 =>
    let (h, clone) := cloneFragment h frag
    let (h, clones) := cloneFragments h frag n
    (h, clone :: clones)

/- The loop that links the copies behind `current`; the second component is the last state. -/
def linkClones (h : Heap) (current : ℕ) : List Fragment → Heap × ℕ
  | [] => (h, current)
  | clone :: clones => linkClones (h.setOuts current (some clone.start) none) clone.last clones

/- {n,} for n > 0; `none`: more than 128 copies, and the pattern is not gone on in. -/
def applyAtLeast (h : Heap) (frag : Fragment) (min : ℕ) (nonGreedy : Bool) :
    Heap × Fragment × Bool :=
  let (split, h) := createNfaState h .split
  let (last, h) := createNfaState h .split
  if min > 128 then (h, ⟨split, last⟩, false)
  else
    let (h, clones) := cloneFragments h frag min
    let (h, current) := linkClones h split clones
    let (loopSplit, h) := createNfaState h .split
    let h := h.setOuts current (some loopSplit) (some last)
    let h := h.setNonGreedy loopSplit nonGreedy
    let h := h.choose loopSplit nonGreedy frag.start last
    let h := h.setNonGreedy frag.last nonGreedy
    (h.choose frag.last nonGreedy frag.start last, ⟨split, last⟩, true)

/- The loop of {0,m}, for the values from 1 to m - 1. -/
def upToLoop (frag : Fragment) (quantEnd : ℕ) : ℕ → Heap → ℕ → Heap
  | 0, h, _ => h
  | n + 1, h, lastSplit =>
    let (newSplit, h) := createNfaState h .split
    let h := h.setOut2 lastSplit (some newSplit)
    let h := h.setOuts newSplit (some frag.start) (some quantEnd)
    let (newEnd, h) := createNfaState h .split
    upToLoop frag quantEnd n (h.setOut1 frag.last (some newEnd)) newEnd

def applyUpTo (h : Heap) (frag : Fragment) (max : ℕ) (nonGreedy : Bool) : Heap × Fragment :=
  let (quantEnd, h) := createNfaState h .split
  let (split, h) := createNfaState h .split
  let h := h.setOuts split (some frag.start) (some quantEnd)
  let h := upToLoop frag quantEnd (max - 1) h split
  let h := h.setNonGreedy split nonGreedy
  (h.choose split nonGreedy frag.start quantEnd, ⟨split, quantEnd⟩)

/- The loop that makes the copies that may be left out, each with its choice. -/
def optionFragments (h : Heap) (frag : Fragment) (finalEnd : ℕ) (nonGreedy : Bool) :
    ℕ → Heap × List (ℕ × Fragment)
  | 0 => (h, [])
  | n + 1 =>
    let (h, clone) := cloneFragment h frag
    let (split, h) := createNfaState h .split
    let h := h.setNonGreedy split nonGreedy
    let h := h.choose split nonGreedy clone.start finalEnd
    let (h, options) := optionFragments h frag finalEnd nonGreedy n
    (h, (split, clone) :: options)

def linkOptions (finalEnd : ℕ) (nonGreedy : Bool) (h : Heap) : List (ℕ × Fragment) → Heap
  | [] => h
  | [(_, clone)] => (h.setNonGreedy clone.last nonGreedy).setOuts clone.last (some finalEnd) none
  | (_, clone) :: (split, next) :: options =>
    let h := h.setNonGreedy clone.last nonGreedy
    let h := h.choose clone.last nonGreedy split finalEnd
    linkOptions finalEnd nonGreedy h ((split, next) :: options)

def applyBetween (h : Heap) (frag : Fragment) (min max : ℕ) (nonGreedy : Bool) :
    Heap × Fragment × Bool :=
  let (_, h) := createNfaState h .split
  let (finalEnd, h) := createNfaState h .split
  let (split, h) := createNfaState h .split
  if min > 128 then (h, ⟨split, finalEnd⟩, false)
  else
    let (h, clones) := cloneFragments h frag min
    let (h, current) := linkClones h split clones
    if max - min > 128 then (h, ⟨split, finalEnd⟩, false)
    else
      let (h, options) := optionFragments h frag finalEnd nonGreedy (max - min)
      let h := h.setNonGreedy current nonGreedy
      let h := h.choose current nonGreedy ((options.map Prod.fst).headD 0) finalEnd
      (linkOptions finalEnd nonGreedy h options, ⟨split, finalEnd⟩, true)

def applyExactly (h : Heap) (frag : Fragment) (min : ℕ) : Heap × Fragment :=
  let (split, h) := createNfaState h .split
  let (last, h) := createNfaState h .split
  if min > 128 then (h, ⟨split, last⟩)
  else
    let (h, clones) := cloneFragments h frag min
    let (h, current) := linkClones h split clones
    (h.setOuts current (some last) none, ⟨split, last⟩)

/- The digits of a count that fits an int. -/
def readCount : Bytes → ℕ → ℕ × Bytes
  | c :: p, value =>
    if 48 ≤ c ∧ c ≤ 57 then readCount p (value * 10 + (c.toNat - 48)) else (value, c :: p)
  | [], value => (value, [])

/- The part of apply_quantifier behind an opening brace; `pattern` is the pointer that the caller
   goes on with when the function returns early. -/
def applyCounted (h : Heap) (frag : Fragment) (pattern p : Bytes) (nonGreedy : Bool) :
    Heap × Fragment × Bytes :=
  let (min, p) := readCount p 0
  let (max, p) : Option ℕ × Bytes :=
    if p.headD 0 = 44 then
      if p.getD 1 0 = 125 then (none, p.tail)
      else
        let (max, p) := readCount p.tail 0
        (some max, p)
    else (some min, p)
  if p.headD 0 ≠ 125 then (h, frag, p)
  else
    let p := p.tail
    let nonGreedy := nonGreedy || p.headD 0 = 63
    let p := if p.headD 0 = 63 then p.tail else p
    match max with
    | none =>
      if min = 0 then
        let (h, result) := applyAny h frag nonGreedy
        (h, result, p)
      else
        let (h, result, done) := applyAtLeast h frag min nonGreedy
        (h, result, if done then p else pattern)
    | some max =>
      if max > min then
        if min = 0 then
          let (h, result) := applyUpTo h frag max nonGreedy
          (h, result, p)
        else
          let (h, result, done) := applyBetween h frag min max nonGreedy
          (h, result, if done then p else pattern)
      else if min = 0 then
        let (last, h) := createNfaState h .split
        (h, ⟨last, last⟩, p)
      else
        let (h, result) := applyExactly h frag min
        (h, result, p)

def applyQuantifier (h : Heap) (frag : Fragment) (p : Bytes) : Heap × Fragment × Bytes :=
  let nonGreedy : Bool := p.getD 1 0 = 63
  let rest := p.drop (if nonGreedy then 2 else 1)
  if p.headD 0 = 42 then
    let (h, frag) := applyStar h frag nonGreedy
    (h, frag, rest)
  else if p.headD 0 = 43 then
    let (h, frag) := applyPlus h frag nonGreedy
    (h, frag, rest)
  else if p.headD 0 = 63 then
    let (h, frag) := applyOptional h frag nonGreedy
    (h, frag, rest)
  else if p.headD 0 = 123 then applyCounted h frag p p.tail nonGreedy
  else (h, frag, p)

/- What the parsing functions change: the states, `*pattern`, and `*group_id` where it is not
   NULL. -/
structure Parser where
  heap : Heap
  pattern : Bytes
  groupId : Option ℕ
  deriving DecidableEq, Repr

inductive GroupKind where
  | capturing
  | nonCapturing
  | assertion (type : ℕ → NfaStateType)

def groupKind (p : Bytes) : GroupKind × Bytes :=
  if p.headD 0 = 63 ∧ p.getD 1 0 = 58 then (.nonCapturing, p.drop 2)
  else if p.headD 0 = 63 ∧ p.getD 1 0 = 61 then (.assertion (.lookahead false), p.drop 2)
  else if p.headD 0 = 63 ∧ p.getD 1 0 = 33 then (.assertion (.lookahead true), p.drop 2)
  else if p.headD 0 = 63 ∧ p.getD 1 0 = 60 ∧ p.getD 2 0 = 61 then
    (.assertion (.lookbehind false), p.drop 3)
  else if p.headD 0 = 63 ∧ p.getD 1 0 = 60 ∧ p.getD 2 0 = 33 then
    (.assertion (.lookbehind true), p.drop 3)
  else (.capturing, p)

def closeAssertion (h : Heap) (sub : Fragment) (type : ℕ → NfaStateType) : Heap × Fragment :=
  let (subMatch, h) := createNfaState h .matched
  let h :=
    if (h.state sub.last).type = .split then h.setOut1 sub.last (some subMatch)
    else
      let (split, h) := createNfaState h .split
      (h.setOut1 split (some subMatch)).setOut1 sub.last (some split)
  singleState h (type sub.start)

def closeGroup (h : Heap) (frag : Fragment) (groupId : ℕ) : Heap × Fragment :=
  let (marker, h) := createNfaState h .split
  let h := h.setGroup marker groupId true
  let h := h.setOut1 marker (some frag.start)
  (h.setGroup frag.last groupId false, ⟨marker, frag.last⟩)

def singleAtom (s : Parser) (type : NfaStateType) (rest : Bytes) : Option Fragment × Parser :=
  let (h, frag) := singleState s.heap type
  (some frag, { s with heap := h, pattern := rest })

def dotCharset (dotall : Bool) : Charset :=
  if dotall then setBits fun _ => true else setBits fun i => i ≠ 10 && i ≠ 13

def joinBranches (h : Heap) (frag next : Fragment) : Heap × Fragment :=
  let (split, h) := createNfaState h .split
  let (last, h) := createNfaState h .split
  let h := h.setOuts split (some frag.start) (some next.start)
  ((h.setOut1 frag.last (some last)).setOut1 next.last (some last), ⟨split, last⟩)

def parseSimple (flags : Flags) (s : Parser) : Option (Option Fragment × Parser) :=
  let p := s.pattern
  if p.headD 0 = 94 then some (singleAtom s .anchorStart p.tail)
  else if p.headD 0 = 36 then some (singleAtom s .anchorEnd p.tail)
  else if p.headD 0 = 46 then some (singleAtom s (.charset (dotCharset flags.dotall)) p.tail)
  else if p.headD 0 = 91 then do
    match ← parseCharClass flags.ignoreCase p.tail with
    | none => some (none, s)
    | some (charset, rest) => some (singleAtom s (.charset charset) rest)
  else if p.headD 0 = 92 then
    if p.getD 1 0 = 0 then some (none, s)
    else if p.getD 1 0 = 98 then some (singleAtom s .wordBoundary (p.drop 2))
    else do
      -- the escape is read from behind the backslash
      match ← parseEscapeSequence p.tail with
      | some (charset, rest) => some (singleAtom s (.charset charset) rest)
      | none => some (singleAtom s (.char (p.getD 1 0)) (p.drop 2))
  else some (singleAtom s (.char (p.headD 0)) p.tail)

mutual

def parseAtom (flags : Flags) : ℕ → Parser → Option (Option Fragment × Parser)
  | 0, _ => none
  | n + 1, s =>
    if s.pattern.headD 0 = 0 then some (none, s)
    else if s.pattern.headD 0 = 40 then
      let (kind, p) := groupKind s.pattern.tail
      match kind with
      | .assertion type => do
        let (sub, t) ← parseExpr flags n { s with pattern := p, groupId := none }
        match sub with
        | none => some (none, { s with heap := t.heap })
        | some sub =>
          if t.pattern.headD 0 ≠ 41 then some (none, { s with heap := t.heap })
          else
            let (h, frag) := closeAssertion t.heap sub type
            some (some frag, { s with heap := h, pattern := t.pattern.tail })
      | .nonCapturing => do
        let (group, t) ← parseExpr flags n { s with pattern := p }
        if group.isNone ∨ t.pattern.headD 0 ≠ 41 then some (none, { t with pattern := s.pattern })
        else some (group, { t with pattern := t.pattern.tail })
      | .capturing => do
        let (group, t) ← parseExpr flags n
          { s with pattern := p, groupId := s.groupId.map (· + 1) }
        match group with
        | none => some (none, { t with pattern := s.pattern })
        | some frag =>
          if t.pattern.headD 0 ≠ 41 then some (none, { t with pattern := s.pattern })
          else
            match s.groupId with
            | none => some (some frag, { t with pattern := t.pattern.tail })
            | some groupId =>
              let (h, frag) := closeGroup t.heap frag groupId
              some (some frag, { t with heap := h, pattern := t.pattern.tail })
    else parseSimple flags s

def parseFactor (flags : Flags) : ℕ → Parser → Option (Option Fragment × Parser)
  | 0, _ => none
  | n + 1, s => do
    let (atom, s) ← parseAtom flags n s
    match atom with
    | none => some (none, s)
    | some frag =>
      let (h, frag, p) := applyQuantifier s.heap frag s.pattern
      some (some frag, { s with heap := h, pattern := p })

def parseTerm (flags : Flags) : ℕ → Parser → Option (Option Fragment × Parser)
  | 0, _ => none
  | n + 1, s => do
    let (factor, s) ← parseFactor flags n s
    match factor with
    | none => some (none, s)
    | some frag => termLoop flags n s frag

def termLoop (flags : Flags) : ℕ → Parser → Fragment → Option (Option Fragment × Parser)
  | 0, _, _ => none
  | n + 1, s, frag =>
    if s.pattern.headD 0 = 0 ∨ s.pattern.headD 0 = 124 ∨ s.pattern.headD 0 = 41 then
      some (some frag, s)
    else do
      let (next, s) ← parseFactor flags n s
      match next with
      | none => some (some frag, s)
      | some next =>
        termLoop flags n { s with heap := s.heap.setOut1 frag.last (some next.start) }
          ⟨frag.start, next.last⟩

def parseExpr (flags : Flags) : ℕ → Parser → Option (Option Fragment × Parser)
  | 0, _ => none
  | n + 1, s => do
    let (term, s) ← parseTerm flags n s
    match term with
    | none => some (none, s)
    | some frag => exprLoop flags n s frag

def exprLoop (flags : Flags) : ℕ → Parser → Fragment → Option (Option Fragment × Parser)
  | 0, _, _ => none
  | n + 1, s, frag =>
    if s.pattern.headD 0 ≠ 124 then some (some frag, s)
    else do
      let (next, s) ← parseTerm flags n { s with pattern := s.pattern.tail }
      match next with
      | none => some (some frag, s)
      | some next =>
        let (h, frag) := joinBranches s.heap frag next
        exprLoop flags n { s with heap := h } frag

end

/- assign_state_ids: the states with their numbers, and how many there are. -/
def assignStateIds : ℕ → Heap → Option ℕ → ℕ → Heap × ℕ
  | 0, h, _, count => (h, count)
  | _ + 1, h, none, count => (h, count)
  | n + 1, h, some q, count =>
    if (h.state q).id ≠ none then (h, count)
    else
      let h := h.update q ({ · with id := some count })
      let (h, count) := assignStateIds n h (h.state q).out1 (count + 1)
      let (h, count) := assignStateIds n h (h.state q).out2 count
      match (h.state q).type with
      | .lookahead _ start => assignStateIds n h (some start) count
      | .lookbehind _ start => assignStateIds n h (some start) count
      | _ => (h, count)

/- struct vox_regex -/
structure VoxRegex where
  heap : Heap
  start : ℕ
  flags : Flags
  groupCount : ℕ
  hasNonGreedy : Bool
  stateCount : ℕ
  deriving DecidableEq, Repr

def nonGreedyLoop : UInt8 → Bytes → Bool
  | _, [] => false
  | prev, c :: p =>
    (c = 63 && (prev = 42 || prev = 43 || prev = 63 || prev = 125)) || nonGreedyLoop c p

/- vox_regex_compile; it gives `some none` where the source gives NULL. The calls of the parser
   go no deeper than six for each character. -/
def compile (pattern : Bytes) (flags : Flags) : Option (Option VoxRegex) := do
  let (frag, s) ← parseExpr flags (6 * pattern.length + 6) ⟨[], pattern, some 0⟩
  match frag with
  | none => some none
  | some frag =>
    if s.pattern.headD 0 ≠ 0 then some none
    else
      let (matchState, h) := createNfaState s.heap .matched
      let h :=
        if (h.state frag.last).type = .split then h.setOut1 frag.last (some matchState)
        else
          let (split, h) := createNfaState h .split
          (h.setOut1 split (some matchState)).setOut1 frag.last (some split)
      let (h, count) := assignStateIds (h.length + 1) h (some frag.start) 0
      some (some ⟨h, frag.start, flags, s.groupId.getD 0, nonGreedyLoop 0 pattern, count⟩)

structure Marks where
  visited : List UInt32
  list : List ℕ
  deriving DecidableEq, Repr

def isEol (ch : UInt8) : Bool := ch = 10 || ch = 13

def toLowerIfNeeded (ch : UInt8) (ignoreCase : Bool) : UInt8 :=
  if ignoreCase ∧ 65 ≤ ch ∧ ch ≤ 90 then ch - 65 + 97 else ch

def NfaStateType.reads (ignoreCase : Bool) (ch : UInt8) : NfaStateType → Bool
  | .char c => toLowerIfNeeded ch ignoreCase = toLowerIfNeeded c ignoreCase
  | .charset bitmap => charInCharset bitmap ch
  | _ => false

section Matching

/- `assertion start pos lookbehind` is what verify_assertion says. -/
variable (assertion : ℕ → ℕ → Bool → Bool) (re : VoxRegex) (text : Bytes)

def addState (generation : UInt32) (pos : ℕ) : ℕ → Option ℕ → Marks → Marks
  | 0, _, m => m
  | _ + 1, none, m => m
  | n + 1, some q, m =>
    let state := re.heap.state q
    let id := state.id.getD 0
    if m.visited.getD id 0 = generation then m
    else
      let m := { m with visited := m.visited.set id generation }
      let go := addState generation pos n state.out1 m
      match state.type with
      | .split => addState generation pos n state.out2 go
      | .anchorStart =>
        if pos = 0 ∨ (re.flags.multiline ∧ isEol (text.getD (pos - 1) 0)) then go else m
      | .anchorEnd =>
        if pos = text.length ∨ (re.flags.multiline ∧ pos < text.length ∧ isEol (text.getD pos 0))
        then go else m
      | type =>
        if state.groupId.isSome ∧ re.groupCount > 0 then go
        else
          match type with
          | .wordBoundary =>
            let left := pos > 0 && isWordChar (text.getD (pos - 1) 0)
            let right := pos < text.length && isWordChar (text.getD pos 0)
            if left ≠ right then go else m
          | .lookahead negative start => if assertion start pos false = !negative then go else m
          | .lookbehind negative start => if assertion start pos true = !negative then go else m
          | _ => { m with list := m.list ++ [q] }

def hasMatchState (list : List ℕ) : Bool := list.any fun q => (re.heap.state q).type = .matched

def nextList (generation : UInt32) (pos : ℕ) (ch : UInt8) (list : List ℕ) (m : Marks) : Marks :=
  list.foldl (fun m q =>
    if (re.heap.state q).type.reads re.flags.ignoreCase ch then
      addState assertion re text generation pos (re.heap.length + 1) (re.heap.state q).out1 m
    else m) m

/- The loop of match_internal_with_context over the rest of the text; the result is
   best_match_pos. -/
def matchLoop (fullMatch : Bool) : Bytes → ℕ → UInt32 → Marks → Option ℕ → Option ℕ
  | rest, pos, generation, m, best =>
    let found := hasMatchState re m.list
    let best := if found ∧ (fullMatch → rest = []) then some pos else best
    if found ∧ ¬ fullMatch ∧ re.hasNonGreedy then best
    else
      match rest with
      | [] => best
      | ch :: rest =>
        if m.list = [] then best
        else
          matchLoop fullMatch rest (pos + 1) (generation + 1)
            (nextList assertion re text (generation + 1) (pos + 1) ch m.list ⟨m.visited, []⟩) best

/- match_internal: where the match that begins at `start` ends. -/
def matchWith (start : ℕ) (fullMatch : Bool) : Option ℕ :=
  let m := addState assertion re text 1 start (re.heap.length + 1) (some re.start)
    ⟨List.replicate re.stateCount 0, []⟩
  matchLoop assertion re text fullMatch (text.drop start) start 1 m none

end Matching

/- verify_assertion; assertions are nested less deeply than there are states. -/
def verifyAssertion (re : VoxRegex) : ℕ → Bytes → ℕ → ℕ → Bool → Bool
  | 0, _, _, _, _ => false
  | n + 1, text, start, pos, lookbehind =>
    let tmp : VoxRegex := { re with start := start, groupCount := 0, hasNonGreedy := true }
    if lookbehind then
      (List.range (pos + 1)).reverse.any fun i =>
        (matchWith (verifyAssertion re n (text.take pos)) tmp (text.take pos) i true).isSome
    else (matchWith (verifyAssertion re n text) tmp text pos false).isSome

/- vox_regex_match -/
def regexMatch (re : VoxRegex) (text : Bytes) : Bool :=
  (matchWith (verifyAssertion re re.heap.length text) re text 0 true).isSome

end Voxlib.Regex
