import Voxlib.Regex.Counts

/-!
# Quantifiers

A quantifier is read to its end, and what it makes of a fragment has its
meaning.
-/

namespace Voxlib.Regex
open CStr Decimal Automaton List
open scoped Computability

variable {bodies : Bodies} {tests : Bool} {h k : Heap} {frag : Fragment} {m : Meaning}

def Quantifier.meaning (nonGreedy : Bool) (m : Meaning) : Quantifier → Meaning
  | .star => m.star nonGreedy
  | .plus => m.plus
  | .optional => m.optional nonGreedy
  | .exactly n => m.exactly n
  | .atLeast n => m.atLeast nonGreedy n
  | .between n k => m.between nonGreedy n k

def Quantifier.Fits : Quantifier → Prop
  | .star | .plus | .optional | .exactly _ => True
  | .atLeast n => n ≤ 128
  | .between n k => k ≤ n ∨ n = 0 ∨ n ≤ 128 ∧ k - n ≤ 128

theorem Quantifier.Braceless.fits {q : Quantifier} (h : q.Braceless) : q.Fits := by
  cases q with
  | star => trivial
  | plus => trivial
  | optional => trivial
  | _ => exact h.elim

theorem readCount_digit {c : UInt8} (hlo : 48 ≤ c.toNat) (hhi : c.toNat ≤ 57) (p : Bytes)
    (value : ℕ) : readCount (c :: p) value = readCount p (value * 10 + (c.toNat - 48)) := by
  rw [readCount, if_pos ⟨UInt8.le_iff_toNat_le.mpr hlo, UInt8.le_iff_toNat_le.mpr hhi⟩]

theorem readCount_decimal (n : ℕ) (rest : Bytes) :
    readCount (decimal n ++ rest) 0 = readCount rest n := by
  have hlast (n value : ℕ) (rest : Bytes) :
      readCount (UInt8.ofNat (48 + n % 10) :: rest) value =
        readCount rest (value * 10 + n % 10) := by
    have hd := digit_toNat n
    rw [readCount_digit (by omega) (by omega), hd, Nat.add_sub_cancel_left]
  induction n using decimal_induction generalizing rest with
  | digit n h =>
    rw [decimal_last, if_pos h, nil_append, singleton_append, hlast, Nat.mod_eq_of_lt h]
    simp
  | more n h ih =>
    rw [decimal_last, if_neg (Nat.not_lt.mpr h), append_assoc, ih,
      singleton_append, hlast]
    congr 1
    omega

theorem readCount_stop {rest : Bytes} (h : ¬ (48 ≤ rest.headD 0 ∧ rest.headD 0 ≤ 57)) (n : ℕ) :
    readCount rest n = (n, rest) := by
  cases rest with
  | nil => rfl
  | cons c p => exact if_neg h

def readMax (min : ℕ) (p : Bytes) : Option ℕ × Bytes :=
  if p.headD 0 = 44 then
    if p.getD 1 0 = 125 then (none, p.tail)
    else
      let (max, p) := readCount p.tail 0
      (some max, p)
  else (some min, p)

def buildCounted (h : Heap) (frag : Fragment) (pattern rest : Bytes) (nonGreedy : Bool) (min : ℕ) :
    Option ℕ → Heap × Fragment × Bytes
  | none =>
    if min = 0 then ((applyAny h frag nonGreedy).1, (applyAny h frag nonGreedy).2, rest)
    else ((applyAtLeast h frag min nonGreedy).1, (applyAtLeast h frag min nonGreedy).2.1,
      if (applyAtLeast h frag min nonGreedy).2.2 then rest else pattern)
  | some max =>
    if max > min then
      if min = 0 then ((applyUpTo h frag max nonGreedy).1, (applyUpTo h frag max nonGreedy).2, rest)
      else ((applyBetween h frag min max nonGreedy).1, (applyBetween h frag min max nonGreedy).2.1,
        if (applyBetween h frag min max nonGreedy).2.2 then rest else pattern)
    else if min = 0 then (h.addSplit, ⟨h.length, h.length⟩, rest)
    else ((applyExactly h frag min).1, (applyExactly h frag min).2, rest)

theorem applyCounted_eq (h : Heap) (frag : Fragment) (pattern p : Bytes) (nonGreedy : Bool) :
    applyCounted h frag pattern p nonGreedy =
      if (readMax (readCount p 0).1 (readCount p 0).2).2.headD 0 ≠ 125 then
        (h, frag, (readMax (readCount p 0).1 (readCount p 0).2).2) else buildCounted h frag pattern
          (if (readMax (readCount p 0).1 (readCount p 0).2).2.tail.headD 0 = 63 then
            (readMax (readCount p 0).1 (readCount p 0).2).2.tail.tail
            else (readMax (readCount p 0).1 (readCount p 0).2).2.tail)
          (nonGreedy || (readMax (readCount p 0).1 (readCount p 0).2).2.tail.headD 0 = 63)
          (readCount p 0).1 (readMax (readCount p 0).1 (readCount p 0).2).1 := rfl

def lazyText (nonGreedy : Bool) : Bytes := if nonGreedy then [63] else []

theorem decimal_digit (n : ℕ) (p : Bytes) : ∃ c q, decimal n ++ p = c :: q ∧ 48 ≤ c.toNat ∧
    c.toNat ≤ 57 := by
  have hdigits := decimal_digits n
  cases hn : decimal n with
  | nil => exact absurd hn (decimal_ne_nil n)
  | cons c q =>
    rw [hn] at hdigits
    exact ⟨c, q ++ p, rfl, hdigits c (mem_cons_self ..)⟩

section Lazy

variable {rest : Bytes} (hrest : rest.headD 0 ≠ 63) (nonGreedy : Bool)

include hrest

theorem lazy_head : decide ((lazyText nonGreedy ++ rest).headD 0 = 63) = nonGreedy := by
  cases nonGreedy with
  | false => exact decide_eq_false hrest
  | true => rfl

theorem lazy_rest : (if (lazyText nonGreedy ++ rest).headD 0 = 63 then
    (lazyText nonGreedy ++ rest).tail else lazyText nonGreedy ++ rest) = rest := by
  cases nonGreedy with
  | false => exact if_neg hrest
  | true => rfl

variable (pattern : Bytes)

theorem applyCounted_read {p p' : Bytes} {min : ℕ} {max : Option ℕ}
    (hcount : readCount p 0 = (min, p'))
    (hmax : readMax min p' = (max, 125 :: (lazyText nonGreedy ++ rest))) :
    applyCounted h frag pattern p false = buildCounted h frag pattern rest nonGreedy min max := by
  have hlazy := lazy_head hrest nonGreedy
  have hplain := lazy_rest hrest nonGreedy
  rw [applyCounted_eq, hcount, hmax, if_neg (by simp)]
  change buildCounted h frag pattern (if (lazyText nonGreedy ++ rest).headD 0 = 63 then
    (lazyText nonGreedy ++ rest).tail else lazyText nonGreedy ++ rest)
    (false || decide ((lazyText nonGreedy ++ rest).headD 0 = 63)) min max = _
  rw [hplain, hlazy, Bool.false_or]

theorem read_exactly (n : ℕ) :
    applyCounted h frag pattern (decimal n ++ 125 :: (lazyText nonGreedy ++ rest)) false =
      buildCounted h frag pattern rest nonGreedy n (some n) :=
  applyCounted_read hrest nonGreedy pattern
    (by rw [readCount_decimal, readCount_stop (by simp)]) rfl

theorem read_atLeast (n : ℕ) :
    applyCounted h frag pattern (decimal n ++ 44 :: 125 :: (lazyText nonGreedy ++ rest)) false =
      buildCounted h frag pattern rest nonGreedy n none :=
  applyCounted_read hrest nonGreedy pattern
    (by rw [readCount_decimal, readCount_stop (by simp)]) rfl

theorem read_between (n x : ℕ) : applyCounted h frag pattern
        (decimal n ++ 44 :: (decimal x ++ 125 :: (lazyText nonGreedy ++ rest))) false =
      buildCounted h frag pattern rest nonGreedy n (some x) := by
  refine applyCounted_read hrest nonGreedy pattern
    (by rw [readCount_decimal, readCount_stop (by simp)]) ?_
  · obtain ⟨c, q, hx, hlo, hhi⟩ := decimal_digit x (125 :: (lazyText nonGreedy ++ rest))
    have hread : readCount (decimal x ++ 125 :: (lazyText nonGreedy ++ rest)) 0 =
        (x, 125 :: (lazyText nonGreedy ++ rest)) := by
      rw [readCount_decimal, readCount_stop (by simp)]
    have hne : c ≠ 125 := by
      rintro rfl
      exact absurd hhi (by decide)
    rw [readMax, headD_cons, if_pos rfl, if_neg (by rw [hx]; exact hne), tail_cons, hread]

end Lazy

def BuiltTo (bodies : Bodies) (tests : Bool) (h : Heap) (out : Heap × Fragment × Bytes)
    (rest : Bytes) (m : Meaning) : Prop :=
  Built bodies tests h out.1 out.2.1 m ∧ out.2.2 = rest

section
variable (hb : Built bodies tests h k frag m)
include hb

theorem counted_exactly (pattern rest : Bytes) (nonGreedy : Bool) {n x : ℕ} (hx : x ≤ n) :
    BuiltTo bodies tests h (buildCounted k frag pattern rest nonGreedy n (some x)) rest
      (m.exactly n) := by
  obtain ⟨A, hg, -, -⟩ := hb.region
  rw [buildCounted, if_neg (Nat.not_lt.mpr hx), Meaning.exactly]
  by_cases hn : n = 0
  · rw [if_pos hn, if_pos hn]
    exact ⟨nothing_built hg, rfl⟩
  · rw [if_neg hn, if_neg hn]
    by_cases hlarge : n ≤ 128
    · rw [if_pos hlarge]
      exact ⟨exactly_built hb (Nat.pos_of_ne_zero hn) hlarge, rfl⟩
    · have hlost : applyExactly k frag n =
          (k.addSplit.addSplit, ⟨k.length, k.addSplit.length⟩) := if_pos (Nat.not_le.mp hlarge)
      rw [if_neg hlarge, hlost]
      exact ⟨lost_built hg, rfl⟩

theorem counted_atLeast (pattern rest : Bytes) (nonGreedy : Bool) {n : ℕ} (hn : n ≤ 128) :
    BuiltTo bodies tests h (buildCounted k frag pattern rest nonGreedy n none) rest
      (m.atLeast nonGreedy n) := by
  rw [buildCounted, Meaning.atLeast]
  by_cases hzero : n = 0
  · rw [if_pos hzero, if_pos hzero]
    exact ⟨any_built hb nonGreedy, rfl⟩
  · rw [if_neg hzero, if_neg hzero]
    refine ⟨atLeast_built hb nonGreedy (Nat.pos_of_ne_zero hzero) hn, ?_⟩
    rw [applyAtLeast_eq k frag nonGreedy hn]
    rfl

theorem counted_between (pattern rest : Bytes) (nonGreedy : Bool) {n x : ℕ}
    (hfits : x ≤ n ∨ n = 0 ∨ n ≤ 128 ∧ x - n ≤ 128) :
    BuiltTo bodies tests h (buildCounted k frag pattern rest nonGreedy n (some x)) rest
      (m.between nonGreedy n x) := by
  rw [Meaning.between]
  by_cases hx : x ≤ n
  · rw [if_pos hx]
    exact counted_exactly hb pattern rest nonGreedy hx
  · rw [if_neg hx, buildCounted, if_pos (Nat.not_le.mp hx)]
    by_cases hzero : n = 0
    · rw [if_pos hzero, if_pos hzero]
      exact ⟨upTo_built hb x nonGreedy, rfl⟩
    · obtain ⟨hn, hxn⟩ := (hfits.resolve_left hx).resolve_left hzero
      rw [if_neg hzero, if_neg hzero]
      refine ⟨between_built hb nonGreedy (Nat.pos_of_ne_zero hzero) hn (Nat.not_le.mp hx) hxn, ?_⟩
      rw [applyBetween_eq k frag nonGreedy hn hxn]
      rfl

end

theorem applyQuantifier_brace (n : ℕ) (p : Bytes) :
    applyQuantifier k frag (123 :: (decimal n ++ p)) =
      applyCounted k frag (123 :: (decimal n ++ p)) (decimal n ++ p) false := by
  obtain ⟨c, q, hn, hlo, hhi⟩ := decimal_digit n p
  have hne : c ≠ 63 := by
    rintro rfl
    exact absurd hhi (by decide)
  rw [applyQuantifier, hn]
  simp [hne]

theorem quantifier_built (hb : Built bodies tests h k frag m) (q : Quantifier) (nonGreedy : Bool)
    (hfits : q.Fits) {rest : Bytes} (hrest : rest.headD 0 ≠ 63) :
    BuiltTo bodies tests h (applyQuantifier k frag (q.text ++ (lazyText nonGreedy ++ rest))) rest
      (q.meaning nonGreedy m) := by
  have hlazy := lazy_head hrest nonGreedy
  have hone (c : UInt8) : (c :: (lazyText nonGreedy ++ rest)).getD 1 0 =
      (lazyText nonGreedy ++ rest).headD 0 := by
    cases lazyText nonGreedy ++ rest <;> rfl
  have hdrop (c : UInt8) : (c :: (lazyText nonGreedy ++ rest)).drop (if nonGreedy then 2 else 1) =
      rest := by
    cases nonGreedy <;> rfl
  cases q with
  | star =>
    have heq : applyQuantifier k frag (42 :: (lazyText nonGreedy ++ rest)) =
        ((applyStar k frag nonGreedy).1, (applyStar k frag nonGreedy).2, rest) := by
      simp only [applyQuantifier, hone, hlazy, hdrop, headD_cons, if_true]
    exact heq ▸ ⟨star_built hb nonGreedy, rfl⟩
  | plus =>
    have heq : applyQuantifier k frag (43 :: (lazyText nonGreedy ++ rest)) =
        ((applyPlus k frag nonGreedy).1, (applyPlus k frag nonGreedy).2, rest) := by
      simp only [applyQuantifier, hone, hlazy, hdrop, headD_cons, if_true]
      rfl
    exact heq ▸ ⟨plus_built hb nonGreedy, rfl⟩
  | optional =>
    have heq : applyQuantifier k frag (63 :: (lazyText nonGreedy ++ rest)) =
        ((applyOptional k frag nonGreedy).1, (applyOptional k frag nonGreedy).2, rest) := by
      simp only [applyQuantifier, hone, hlazy, hdrop, headD_cons, if_true]
      rfl
    exact heq ▸ ⟨optional_built hb nonGreedy, rfl⟩
  | exactly n =>
    simp only [Quantifier.text, cons_append, append_assoc, nil_append,
      applyQuantifier_brace]
    rw [read_exactly hrest nonGreedy]
    exact counted_exactly hb _ rest nonGreedy le_rfl
  | atLeast n =>
    simp only [Quantifier.text, cons_append, append_assoc, nil_append,
      applyQuantifier_brace]
    rw [read_atLeast hrest nonGreedy]
    exact counted_atLeast hb _ rest nonGreedy hfits
  | between n x =>
    simp only [Quantifier.text, cons_append, append_assoc, nil_append,
      applyQuantifier_brace]
    rw [read_between hrest nonGreedy]
    exact counted_between hb _ rest nonGreedy hfits

end Voxlib.Regex
