import Voxlib.Json

/-!
# JSON texts

RFC 8259 over its lexical parts: `rfc8259` has them as the standard does, `relaxed` as the
parser does.
-/

namespace Voxlib.Json
open CStr

structure Lexicon where
  blank : UInt8 → Prop
  chars : Bytes → Prop
  number : Bytes → Prop

def Digits (b : Bytes) : Prop := b ≠ [] ∧ ∀ c ∈ b, isDigit c = true

/-- int = zero / ( digit1-9 *DIGIT ) -/
def IntText (b : Bytes) : Prop := b = [48] ∨ (Digits b ∧ b.head? ≠ some 48)

/-- frac = decimal-point 1*DIGIT, or nothing. -/
def FracText (b : Bytes) : Prop := b = [] ∨ ∃ ds, Digits ds ∧ b = 46 :: ds

/-- exp = e [ minus / plus ] 1*DIGIT, or nothing. -/
def ExpText (b : Bytes) : Prop :=
  b = [] ∨ ∃ e sign ds, (e = 101 ∨ e = 69) ∧ (sign = [] ∨ sign = [43] ∨ sign = [45]) ∧
    Digits ds ∧ b = e :: (sign ++ ds)

def NumberText (b : Bytes) : Prop :=
  ∃ sign int frac exp, (sign = [] ∨ sign = [45]) ∧ IntText int ∧ FracText frac ∧ ExpText exp ∧
    b = sign ++ (int ++ (frac ++ exp))

/-- *char of the standard: characters from %x20 on in UTF-8 but for the quotation mark and the
reverse solidus, and escapes. -/
inductive RfcChars : Bytes → Prop
  | nil : RfcChars []
  | ascii {c : UInt8} {rest : Bytes} (hlow : 32 ≤ c) (hhigh : c < 128) (hquote : c ≠ 34)
      (hescape : c ≠ 92) (h : RfcChars rest) : RfcChars (c :: rest)
  | unicode {c : Char} {rest : Bytes} (hc : 128 ≤ c.toNat) (h : RfcChars rest) :
      RfcChars (String.utf8EncodeChar c ++ rest)
  | escape {e : UInt8} {rest : Bytes} (he : e ∈ lit "\"\\/bfnrt") (h : RfcChars rest) :
      RfcChars (92 :: e :: rest)
  | hex {a b c d : UInt8} {rest : Bytes} (ha : isxdigit a = true) (hb : isxdigit b = true)
      (hc : isxdigit c = true) (hd : isxdigit d = true) (h : RfcChars rest) :
      RfcChars (92 :: 117 :: a :: b :: c :: d :: rest)

/-- What parse_string takes: any byte but the two, and a reverse solidus with any byte behind it,
which four hexadecimal digits must follow if it is a u. -/
inductive LaxChars : Bytes → Prop
  | nil : LaxChars []
  | plain {c : UInt8} {rest : Bytes} (hquote : c ≠ 34) (hescape : c ≠ 92) (h : LaxChars rest) :
      LaxChars (c :: rest)
  | escape {e : UInt8} {rest : Bytes} (he : e ≠ 117) (h : LaxChars rest) :
      LaxChars (92 :: e :: rest)
  | hex {a b c d : UInt8} {rest : Bytes} (ha : isxdigit a = true) (hb : isxdigit b = true)
      (hc : isxdigit c = true) (hd : isxdigit d = true) (h : LaxChars rest) :
      LaxChars (92 :: 117 :: a :: b :: c :: d :: rest)

/-- A number that strtod reads as a finite one without ERANGE. -/
def InRange (strtod : Bytes → Number × Bool) (b : Bytes) : Prop :=
  (strtod b).2 = false ∧ (strtod b).1 ≠ none

def rfc8259 : Lexicon where
  blank c := c = 32 ∨ c = 9 ∨ c = 10 ∨ c = 13
  chars := RfcChars
  number := NumberText

def relaxed : Lexicon where
  blank c := isWhitespace c = true
  chars := LaxChars
  number := NumberText

def Lexicon.within (g : Lexicon) (strtod : Bytes → Number × Bool) : Lexicon :=
  { g with number := fun b => g.number b ∧ InRange strtod b }

inductive Part
  | value
  | items
  | members

def Lexicon.Blanks (g : Lexicon) (w : Bytes) : Prop := ∀ c ∈ w, g.blank c

/-- A value, the elements of an array that is not empty, the members of an object that is not. -/
inductive Lexicon.Derives (g : Lexicon) : Part → Bytes → Prop
  | null : Derives g .value (lit "null")
  | true : Derives g .value (lit "true")
  | false : Derives g .value (lit "false")
  | number {b : Bytes} (h : g.number b) : Derives g .value b
  | string {b : Bytes} (h : g.chars b) : Derives g .value (34 :: (b ++ [34]))
  | emptyArray {w : Bytes} (hw : g.Blanks w) : Derives g .value (91 :: (w ++ [93]))
  | array {b : Bytes} (h : Derives g .items b) : Derives g .value (91 :: (b ++ [93]))
  | emptyObject {w : Bytes} (hw : g.Blanks w) : Derives g .value (123 :: (w ++ [125]))
  | object {b : Bytes} (h : Derives g .members b) : Derives g .value (123 :: (b ++ [125]))
  | item {w v x : Bytes} (hw : g.Blanks w) (hv : Derives g .value v) (hx : g.Blanks x) :
      Derives g .items (w ++ (v ++ x))
  | items {w v x b : Bytes} (hw : g.Blanks w) (hv : Derives g .value v) (hx : g.Blanks x)
      (h : Derives g .items b) : Derives g .items (w ++ (v ++ (x ++ 44 :: b)))
  | member {w name x y v z : Bytes} (hw : g.Blanks w) (hname : g.chars name) (hx : g.Blanks x)
      (hy : g.Blanks y) (hv : Derives g .value v) (hz : g.Blanks z) :
      Derives g .members (w ++ (34 :: (name ++ 34 :: (x ++ 58 :: (y ++ (v ++ z))))))
  | members {w name x y v z b : Bytes} (hw : g.Blanks w) (hname : g.chars name)
      (hx : g.Blanks x) (hy : g.Blanks y) (hv : Derives g .value v) (hz : g.Blanks z)
      (h : Derives g .members b) :
      Derives g .members (w ++ (34 :: (name ++ 34 :: (x ++ 58 :: (y ++ (v ++ (z ++ 44 :: b)))))))

def Lexicon.Text (g : Lexicon) (text : Bytes) : Prop :=
  ∃ w v x, g.Blanks w ∧ g.Derives .value v ∧ g.Blanks x ∧ text = w ++ (v ++ x)

structure Lexicon.Le (g h : Lexicon) : Prop where
  blank : ∀ c, g.blank c → h.blank c
  chars : ∀ b, g.chars b → h.chars b
  number : ∀ b, g.number b → h.number b

theorem Lexicon.Le.blanks {g h : Lexicon} (hle : g.Le h) {w : Bytes} (hw : g.Blanks w) :
    h.Blanks w := fun c hc => hle.blank c (hw c hc)

theorem Lexicon.Derives.mono {g h : Lexicon} (hle : g.Le h) {p : Part} {b : Bytes}
    (hb : g.Derives p b) : h.Derives p b := by
  induction hb with
  | null => exact .null
  | true => exact .true
  | false => exact .false
  | number hn => exact .number (hle.number _ hn)
  | string hs => exact .string (hle.chars _ hs)
  | emptyArray hw => exact .emptyArray (hle.blanks hw)
  | array _ ih => exact .array ih
  | emptyObject hw => exact .emptyObject (hle.blanks hw)
  | object _ ih => exact .object ih
  | item hw _ hx ih => exact .item (hle.blanks hw) ih (hle.blanks hx)
  | items hw _ hx _ ihv ih => exact .items (hle.blanks hw) ihv (hle.blanks hx) ih
  | member hw hname hx hy _ hz ih =>
    exact .member (hle.blanks hw) (hle.chars _ hname) (hle.blanks hx) (hle.blanks hy) ih
      (hle.blanks hz)
  | members hw hname hx hy _ hz _ ihv ih =>
    exact .members (hle.blanks hw) (hle.chars _ hname) (hle.blanks hx) (hle.blanks hy) ihv
      (hle.blanks hz) ih

theorem Lexicon.Text.mono {g h : Lexicon} (hle : g.Le h) {text : Bytes} (ht : g.Text text) :
    h.Text text := by
  obtain ⟨w, v, x, hw, hv, hx, rfl⟩ := ht
  exact ⟨w, v, x, hle.blanks hw, hv.mono hle, hle.blanks hx, rfl⟩

theorem utf8_high {c : Char} (h : 128 ≤ c.toNat) : ∀ b ∈ String.utf8EncodeChar c, 128 ≤ b := by
  have hhigh (n : ℕ) (hn : 128 ≤ n) (hlt : n < 256) : 128 ≤ UInt8.ofNat n := by
    rw [UInt8.le_iff_toNat_le, UInt8.toNat_ofNat']
    have hmod : n % 2 ^ 8 = n := Nat.mod_eq_of_lt hlt
    rw [hmod]
    exact hn
  have hval : c.val.toNat = c.toNat := rfl
  intro b hb
  unfold String.utf8EncodeChar at hb
  dsimp only at hb
  split at hb
  · next hle =>
    rw [hval] at hle
    omega
  split at hb
  · simp only [List.mem_cons, List.not_mem_nil, or_false] at hb
    rcases hb with rfl | rfl <;> exact hhigh _ (by omega) (by omega)
  split at hb
  · simp only [List.mem_cons, List.not_mem_nil, or_false] at hb
    rcases hb with rfl | rfl | rfl <;> exact hhigh _ (by omega) (by omega)
  · simp only [List.mem_cons, List.not_mem_nil, or_false] at hb
    rcases hb with rfl | rfl | rfl | rfl <;> exact hhigh _ (by omega) (by omega)

theorem LaxChars.plain_append {front rest : Bytes} (hfront : ∀ c ∈ front, c ≠ 34 ∧ c ≠ 92)
    (h : LaxChars rest) : LaxChars (front ++ rest) := by
  induction front with
  | nil => exact h
  | cons c front ih =>
    obtain ⟨hquote, hescape⟩ := hfront c (List.mem_cons_self ..)
    exact .plain hquote hescape (ih fun b hb => hfront b (List.mem_cons_of_mem _ hb))

theorem RfcChars.lax {b : Bytes} (h : RfcChars b) : LaxChars b := by
  induction h with
  | nil => exact .nil
  | ascii _ _ hquote hescape _ ih => exact .plain hquote hescape ih
  | unicode hc _ ih =>
    refine .plain_append (fun b hb => ?_) ih
    have hhigh := utf8_high hc b hb
    exact ⟨fun h => absurd (h ▸ hhigh) (by decide), fun h => absurd (h ▸ hhigh) (by decide)⟩
  | escape he _ ih => exact .escape (fun h => absurd (h ▸ he) (by decide)) ih
  | hex ha hb hc hd _ ih => exact .hex ha hb hc hd ih

theorem rfc8259_le (strtod : Bytes → Number × Bool) :
    (rfc8259.within strtod).Le (relaxed.within strtod) where
  blank c h := by
    rcases h with rfl | rfl | rfl | rfl <;> rfl
  chars _ h := h.lax
  number _ h := h

end Voxlib.Json
