import Mathlib
import Voxlib.Lib.Decimal
import Voxlib.Regex

/-!
# Patterns and their languages

An alternation of terms, which are rows of factors: atoms, possibly with a quantifier. Plain
patterns have a language.
-/

namespace Voxlib.Regex
open CStr Decimal
open scoped Computability

inductive ClassItem where
  | single (c : UInt8)
  | range (first last : UInt8)
  | escape (c : UInt8)
  deriving DecidableEq, Repr

inductive Quantifier where
  | star
  | plus
  | optional
  | exactly (n : ℕ)
  | atLeast (n : ℕ)
  | between (n m : ℕ)
  deriving DecidableEq, Repr

mutual

inductive Atom where
  | char (c : UInt8)
  | dot
  | charClass (negated : Bool) (items : List ClassItem)
  | escape (c : UInt8)
  | group (capturing : Bool) (e : Expr)
  | anchorStart
  | anchorEnd
  | wordBoundary
  | look (behind negative : Bool) (body : Expr)

inductive Factor where
  | plain (a : Atom)
  | repeated (a : Atom) (q : Quantifier) (nonGreedy : Bool)

inductive Term where
  | one (f : Factor)
  | more (f : Factor) (t : Term)

inductive Expr where
  | one (t : Term)
  | more (t : Term) (e : Expr)

end

def ClassItem.text : ClassItem → Bytes
  | .single c => [c]
  | .range first last => [first, 45, last]
  | .escape c => [92, c]

def itemsText (items : List ClassItem) : Bytes := items.flatMap ClassItem.text

def Quantifier.text : Quantifier → Bytes
  | .star => [42]
  | .plus => [43]
  | .optional => [63]
  | .exactly n => 123 :: (decimal n ++ [125])
  | .atLeast n => 123 :: (decimal n ++ [44, 125])
  | .between n m => 123 :: (decimal n ++ 44 :: (decimal m ++ [125]))

mutual

def Atom.text : Atom → Bytes
  | .char c => [c]
  | .dot => [46]
  | .charClass negated items => 91 :: ((if negated then [94] else []) ++ (itemsText items ++ [93]))
  | .escape c => [92, c]
  | .group capturing e => 40 :: ((if capturing then [] else [63, 58]) ++ (e.text ++ [41]))
  | .anchorStart => [94]
  | .anchorEnd => [36]
  | .wordBoundary => [92, 98]
  | .look behind negative e =>
    40 :: 63 :: ((if behind then [60] else []) ++ ((if negative then 33 else 61) ::
      (e.text ++ [41])))

def Factor.text : Factor → Bytes
  | .plain a => a.text
  | .repeated a q nonGreedy => a.text ++ (q.text ++ if nonGreedy then [63] else [])

def Term.text : Term → Bytes
  | .one f => f.text
  | .more f t => f.text ++ t.text

def Expr.text : Expr → Bytes
  | .one t => t.text
  | .more t e => t.text ++ 124 :: e.text

end

def isSpace (c : UInt8) : Bool := [32, 9, 10, 13, 11, 12].contains c

def isDigit (c : UInt8) : Bool := 48 ≤ c && c ≤ 57

def escapeReads (e c : UInt8) : Bool :=
  if e = 100 then isDigit c
  else if e = 68 then !isDigit c
  else if e = 119 then isWordChar c
  else if e = 87 then !isWordChar c
  else if e = 115 then isSpace c
  else if e = 83 then !isSpace c
  else c = e

def ClassItem.reads (c : UInt8) : ClassItem → Bool
  | .single d => c = d
  | .range first last => min first last ≤ c && c ≤ max first last
  | .escape e => escapeReads e c

def oneOf (p : UInt8 → Bool) : Language UInt8 := {w | ∃ c, p c = true ∧ w = [c]}

def Quantifier.lang {α : Type} (l : Language α) : Quantifier → Language α
  | .star => l∗
  | .plus => l * l∗
  | .optional => l + 1
  | .exactly n => l ^ n
  | .atLeast n => l ^ n * l∗
  | .between n m => {w | ∃ k, n ≤ k ∧ k ≤ m ∧ w ∈ l ^ k}

mutual

/- A test reads nothing; its place in a text is not part of a language. -/
def Atom.lang : Atom → Language UInt8
  | .char c => oneOf (· = c)
  | .dot => oneOf fun c => c ≠ 10 && c ≠ 13
  | .charClass negated items => oneOf fun c => items.any (ClassItem.reads c) != negated
  | .escape e => oneOf (escapeReads e)
  | .group _ e => e.lang
  | .anchorStart | .anchorEnd | .wordBoundary | .look _ _ _ => 1

def Factor.lang : Factor → Language UInt8
  | .plain a => a.lang
  | .repeated a q _ => q.lang a.lang

def Term.lang : Term → Language UInt8
  | .one f => f.lang
  | .more f t => f.lang * t.lang

def Expr.lang : Expr → Language UInt8
  | .one t => t.lang
  | .more t e => t.lang + e.lang

end

def isLiteral (c : UInt8) : Bool :=
  !([0, 36, 40, 41, 42, 43, 46, 63, 91, 92, 94, 123, 124].contains c)

def isClassChar (c : UInt8) : Bool := c ≠ 0 && c ≠ 93 && c ≠ 92

/- A hyphen here would make a range with the character in front of it. -/
def StartsRange (p : Bytes) : Prop :=
  p.headD 0 = 45 ∧ isClassChar (p.getD 1 0) = true

/- The items are read as they were written; the ends of a range are below 0xFF. -/
def ItemsOk : List ClassItem → Prop
  | [] => True
  | .single c :: items =>
    isClassChar c = true ∧ ¬ StartsRange (itemsText items ++ [93]) ∧ ItemsOk items
  | .range first last :: items =>
    (isClassChar first = true ∧ first < 255) ∧ (isClassChar last = true ∧ last < 255) ∧
      ItemsOk items
  | .escape c :: items => c ≠ 0 ∧ ItemsOk items

/- A count fits an int, and the lower one is not above the upper one. -/
def Quantifier.Ok : Quantifier → Prop
  | .star | .plus | .optional => True
  | .exactly n | .atLeast n => n < 2 ^ 31
  | .between n m => n ≤ m ∧ m < 2 ^ 31

mutual

/- The characters of the tree are what they stand for. -/
def Atom.Ok : Atom → Prop
  | .char c => isLiteral c = true
  | .dot => True
  | .charClass negated items =>
    ItemsOk items ∧ (negated = false → (itemsText items).headD 0 ≠ 94)
  | .escape c => c ≠ 0 ∧ c ≠ 98
  | .group _ e => e.Ok
  | .anchorStart | .anchorEnd | .wordBoundary => True
  | .look _ _ e => e.Ok

def Factor.Ok : Factor → Prop
  | .plain a => a.Ok
  | .repeated a q _ => a.Ok ∧ q.Ok

def Term.Ok : Term → Prop
  | .one f => f.Ok
  | .more f t => f.Ok ∧ t.Ok

def Expr.Ok : Expr → Prop
  | .one t => t.Ok
  | .more t e => t.Ok ∧ e.Ok

end

mutual

def Atom.All (P : Quantifier → Prop) : Atom → Prop
  | .group _ e => e.All P
  | .look _ _ e => e.All P
  | _ => True

def Factor.All (P : Quantifier → Prop) : Factor → Prop
  | .plain a => a.All P
  | .repeated a q _ => a.All P ∧ P q

def Term.All (P : Quantifier → Prop) : Term → Prop
  | .one f => f.All P
  | .more f t => f.All P ∧ t.All P

def Expr.All (P : Quantifier → Prop) : Expr → Prop
  | .one t => t.All P
  | .more t e => t.All P ∧ e.All P

end

def Quantifier.Braceless : Quantifier → Prop
  | .star | .plus | .optional => True
  | _ => False

mutual

/- No escaped backslash is followed by a character of the pattern; `last` says that nothing follows
   what is looked at. -/
def Atom.SlashOk (last : Bool) : Atom → Prop
  | .escape c => c = 92 → last = true
  | .group _ e => e.SlashOk false
  | .look _ _ e => e.SlashOk false
  | _ => True

def Factor.SlashOk (last : Bool) : Factor → Prop
  | .plain a => a.SlashOk last
  | .repeated a _ _ => a.SlashOk false

def Term.SlashOk (last : Bool) : Term → Prop
  | .one f => f.SlashOk last
  | .more f t => f.SlashOk false ∧ t.SlashOk last

def Expr.SlashOk (last : Bool) : Expr → Prop
  | .one t => t.SlashOk last
  | .more t e => t.SlashOk false ∧ e.SlashOk last

end

mutual

/- There are no anchors, word boundaries and assertions. -/
def Atom.Plain : Atom → Prop
  | .group _ e => e.Plain
  | .anchorStart | .anchorEnd | .wordBoundary | .look _ _ _ => False
  | _ => True

def Factor.Plain : Factor → Prop
  | .plain a => a.Plain
  | .repeated a _ _ => a.Plain

def Term.Plain : Term → Prop
  | .one f => f.Plain
  | .more f t => f.Plain ∧ t.Plain

def Expr.Plain : Expr → Prop
  | .one t => t.Plain
  | .more t e => t.Plain ∧ e.Plain

end

mutual

/- The bodies of assertions are plain and have no counts. -/
def Atom.Flat : Atom → Prop
  | .group _ e => e.Flat
  | .look _ _ e => e.Plain ∧ e.All Quantifier.Braceless
  | _ => True

def Factor.Flat : Factor → Prop
  | .plain a => a.Flat
  | .repeated a _ _ => a.Flat

def Term.Flat : Term → Prop
  | .one f => f.Flat
  | .more f t => f.Flat ∧ t.Flat

def Expr.Flat : Expr → Prop
  | .one t => t.Flat
  | .more t e => t.Flat ∧ e.Flat

end

end Voxlib.Regex
