import Voxlib.Lib.Rows
import Voxlib.Regex.Recognition
import Voxlib.Regex.Excess

/-!
# Repetition

A count is right for an atom without inner states, and for others by accident.
-/

namespace Voxlib.Regex
open CStr Automaton Rows
open scoped Computability

variable {numbered : Bool} {m m' : Meaning} {a : Atom}

def IsSpelled (l : Language Letter) : Prop := ∃ x, l = spelled x

theorem isSpelled_zero : IsSpelled 0 := ⟨0, (map_zero (Language.map Letter.read)).symm⟩

theorem isSpelled_one : IsSpelled 1 := ⟨1, (map_one (Language.map Letter.read)).symm⟩

variable {l : Language Letter}

section
variable (h : IsSpelled l)
include h

theorem IsSpelled.add {l' : Language Letter} (h' : IsSpelled l') : IsSpelled (l + l') := by
  obtain ⟨x, rfl⟩ := h
  obtain ⟨y, rfl⟩ := h'
  exact ⟨x + y, (map_add (Language.map Letter.read) x y).symm⟩

theorem IsSpelled.mul {l' : Language Letter} (h' : IsSpelled l') : IsSpelled (l * l') := by
  obtain ⟨x, rfl⟩ := h
  obtain ⟨y, rfl⟩ := h'
  exact ⟨x * y, (map_mul (Language.map Letter.read) x y).symm⟩

theorem IsSpelled.pow (n : ℕ) : IsSpelled (l ^ n) := by
  obtain ⟨x, rfl⟩ := h
  exact ⟨x ^ n, (map_pow (Language.map Letter.read) x n).symm⟩

theorem IsSpelled.kstar : IsSpelled (l∗) := by
  obtain ⟨x, rfl⟩ := h
  exact ⟨x∗, (Language.map_kstar Letter.read x).symm⟩

theorem IsSpelled.powersTo (n : ℕ) : IsSpelled (powersTo l n) := by
  induction n with
  | zero => exact isSpelled_one
  | succ n ih => exact (h.mul ih).add isSpelled_one

end

structure Meaning.Plain (m : Meaning) : Prop where
  lang : IsSpelled m.lang
  front : IsSpelled m.front
  le : m.front ≤ m.lang
  direct : m.direct = true → m.front = m.lang ∨ m.front = 1 ∧ 1 ≤ m.lang
  touch : m.touch = true → m.lang = 1

theorem plain_atom (l : Language UInt8) : (Meaning.atom (spelled l)).Plain :=
  ⟨⟨l, rfl⟩, ⟨l, rfl⟩, le_rfl, fun _ => .inl rfl, fun h => (by cases h)⟩

section
variable (h : m.Plain)
include h

theorem Meaning.Plain.group (capturing : Bool) : (m.group capturing).Plain := by
  cases capturing with
  | false => exact h
  | true => exact ⟨h.lang, h.lang, le_rfl, fun _ => .inl rfl, fun ht => (by cases ht)⟩

theorem Meaning.Plain.cat (h' : m'.Plain) : (m.cat m').Plain := by
  by_cases ht : m.touch = true
  · have hone := h.touch ht
    have hfront : (m.cat m').front = m'.lang := if_pos ht
    have hlang : (m.cat m').lang = m'.lang := by
      rw [Meaning.cat, hone, one_mul]
    refine ⟨h.lang.mul h'.lang, ?_, ?_, fun _ => .inl (hfront.trans hlang.symm),
      fun hf => (by cases hf)⟩
    · rw [hfront]
      exact h'.lang
    · rw [hfront, hlang]
  · have hfront : (m.cat m').front = m.front * m'.lang := if_neg ht
    refine ⟨h.lang.mul h'.lang, ?_, ?_, fun hd => ?_, fun hf => (by cases hf)⟩
    · rw [hfront]
      exact h.front.mul h'.lang
    · rw [hfront]
      exact mul_le_mul_left h.le m'.lang
    · have hboth : (m.touch && m'.touch) = true := hd
      rw [Bool.and_eq_true] at hboth
      exact absurd hboth.1 ht

theorem Meaning.Plain.alt (h' : m'.Plain) : (m.alt m').Plain :=
  ⟨h.lang.add h'.lang, h.lang, le_self_add, fun hd => (by cases hd), fun ht => (by cases ht)⟩

theorem Meaning.Plain.star (nonGreedy : Bool) : (m.star nonGreedy).Plain := by
  have hone : (1 : Language Letter) ≤ m.lang∗ := one_le_kstar
  cases nonGreedy with
  | false =>
    exact ⟨h.lang.kstar, h.lang.mul h.lang.kstar, mul_kstar_le_kstar, fun hd => (by cases hd),
      fun ht => (by cases ht)⟩
  | true =>
    exact ⟨h.lang.kstar, isSpelled_one, hone, fun _ => .inr ⟨rfl, hone⟩, fun ht => (by cases ht)⟩

theorem Meaning.Plain.plus : m.plus.Plain :=
  ⟨h.lang.mul h.lang.kstar, h.lang.mul h.lang.kstar, le_rfl, fun hd => (by cases hd),
    fun ht => (by cases ht)⟩

theorem Meaning.Plain.optional (nonGreedy : Bool) : (m.optional nonGreedy).Plain := by
  cases nonGreedy with
  | false =>
    exact ⟨h.lang.add isSpelled_one, h.lang, le_self_add, fun hd => (by cases hd),
      fun ht => (by cases ht)⟩
  | true =>
    exact ⟨h.lang.add isSpelled_one, isSpelled_one, le_add_self, fun _ => .inr ⟨rfl, le_add_self⟩,
      fun ht => (by cases ht)⟩

theorem Meaning.Plain.row (n : ℕ) {behind : Language Letter} (hl : IsSpelled l)
    (hb : IsSpelled behind) : (m.row n l behind).Plain := by
  have hwords : IsSpelled (m.row n l behind).lang := by
    unfold Meaning.row
    dsimp only
    split
    · exact (h.front.pow n).mul hl
    · exact h.front.mul hb
  exact ⟨hwords, hwords, le_rfl, fun hd => (by cases hd), fun ht => (by cases ht)⟩

theorem Meaning.Plain.exactly (n : ℕ) : (m.exactly n).Plain := by
  unfold Meaning.exactly
  by_cases hn : n = 0
  · rw [if_pos hn]
    exact ⟨isSpelled_one, isSpelled_zero, zero_le, fun hd => (by cases hd), fun _ => rfl⟩
  · rw [if_neg hn]
    split
    · exact h.row n isSpelled_one isSpelled_zero
    · exact ⟨isSpelled_zero, isSpelled_zero, le_rfl, fun hd => (by cases hd),
        fun ht => (by cases ht)⟩

theorem Meaning.Plain.atLeast (nonGreedy : Bool) (n : ℕ) : (m.atLeast nonGreedy n).Plain := by
  unfold Meaning.atLeast
  split
  · exact h.star nonGreedy
  · exact h.row n h.lang.kstar h.lang.kstar

theorem Meaning.Plain.between (nonGreedy : Bool) (n k : ℕ) : (m.between nonGreedy n k).Plain := by
  unfold Meaning.between
  by_cases hk : k ≤ n
  · rw [if_pos hk]
    exact h.exactly n
  · rw [if_neg hk]
    by_cases hn : n = 0
    · rw [if_pos hn]
      cases nonGreedy with
      | false =>
        exact ⟨isSpelled_one, isSpelled_zero, zero_le, fun hd => (by cases hd),
          fun ht => (by cases ht)⟩
      | true =>
        exact ⟨isSpelled_one, isSpelled_one, le_rfl, fun _ => .inl rfl, fun ht => (by cases ht)⟩
    · rw [if_neg hn]
      exact h.row n (h.front.powersTo _) isSpelled_zero

theorem Meaning.Plain.quantified (q : Quantifier) (nonGreedy : Bool) :
    (q.meaning nonGreedy m).Plain := by
  cases q with
  | star => exact h.star nonGreedy
  | plus => exact h.plus
  | optional => exact h.optional nonGreedy
  | exactly n => exact h.exactly n
  | atLeast n => exact h.atLeast nonGreedy n
  | between n k => exact h.between nonGreedy n k

end

mutual

theorem Atom.meaning_plain (a : Atom) (h : a.Plain) : (a.meaning numbered).Plain := by
  match a with
  | .char c => exact plain_atom _
  | .dot => exact plain_atom _
  | .charClass negated items => exact plain_atom _
  | .escape e => exact plain_atom _
  | .group capturing e => exact (e.meaning_plain h).group _

theorem Factor.meaning_plain (f : Factor) (h : f.Plain) : (f.meaning numbered).Plain := by
  match f with
  | .plain a => exact a.meaning_plain h
  | .repeated a q nonGreedy => exact (a.meaning_plain h).quantified q nonGreedy

theorem Term.meaning_plain (t : Term) (h : t.Plain) : (t.meaning numbered).Plain := by
  match t with
  | .one f => exact f.meaning_plain h
  | .more f t => exact t.follow_plain h.2 (f.meaning_plain h.1)

theorem Term.follow_plain (t : Term) (h : t.Plain) {m : Meaning} (hm : m.Plain) :
    (t.follow numbered m).Plain := by
  match t with
  | .one f => exact hm.cat (f.meaning_plain h)
  | .more f t => exact t.follow_plain h.2 (hm.cat (f.meaning_plain h.1))

theorem Expr.meaning_plain (e : Expr) (h : e.Plain) : (e.meaning numbered).Plain := by
  match e with
  | .one t => exact t.meaning_plain h
  | .more t e => exact e.join_plain h.2 (t.meaning_plain h.1)

theorem Expr.join_plain (e : Expr) (h : e.Plain) {m : Meaning} (hm : m.Plain) :
    (e.join numbered m).Plain := by
  match e with
  | .one t => exact hm.alt (t.meaning_plain h)
  | .more t e => exact e.join_plain h.2 (hm.alt (t.meaning_plain h.1))

end

theorem mem_spelled {l : Language UInt8} {t : Bytes} : t.map Letter.read ∈ spelled l ↔ t ∈ l := by
  constructor
  · rintro ⟨u, hu, heq⟩
    have hinj : Function.Injective Letter.read := fun a b hab => Letter.read.inj hab
    exact List.map_injective_iff.mpr hinj heq ▸ hu
  · intro ht
    exact ⟨t, ht, rfl⟩

theorem powersTo_spelled (l : Language UInt8) (n : ℕ) :
    powersTo (spelled l) n = spelled (upTo l n) := by
  induction n with
  | zero => exact (map_one (Language.map Letter.read)).symm
  | succ n ih =>
    rw [powersTo, ih, upTo, spelled, spelled, spelled, map_add, map_mul, map_one]

/- The words of an atom, and those by way of the first pointer of its first state: of an
   alternation these are the words of the first alternative. -/
def Atom.reads (a : Atom) : Language UInt8 := {t | t.map Letter.read ∈ (a.meaning true).lang}

def Atom.first (a : Atom) : Language UInt8 := {t | t.map Letter.read ∈ (a.meaning true).front}

/- No state is between the two end states of the fragment, as for a character. -/
def Atom.Direct (a : Atom) : Prop := (a.meaning true).direct = true

def Short (t : Bytes) : Prop := t.length < 2 ^ 32 - 1

theorem Short.text_lt {t : Bytes} (h : Short t) : t.length + 1 < 2 ^ 32 := by
  unfold Short at h
  omega

def Atom.Single (a : Atom) : Prop := a.Direct ∧ ∀ t, Short t → t ∈ a.reads → t ∈ a.first

def Atom.FaithfulTimes (a : Atom) (n : ℕ) : Prop :=
  n = 0 ∨ (n ≤ 128 ∧ a.Single) ∨
    (¬ (n ≤ 128 ∧ a.Direct) ∧ ∀ t, Short t → t ∉ a.reads ^ n)

def Atom.Faithful (a : Atom) : Quantifier → Prop
  | .star | .plus | .optional => True
  | .exactly n => a.FaithfulTimes n
  | .atLeast n => n = 0 ∨ a.Direct ∨
    ∀ t, Short t → (t ∈ a.first * a.reads∗ ↔ t ∈ a.reads ^ n * a.reads∗)
  | .between n k =>
    if k ≤ n then a.FaithfulTimes n
    else if n = 0 then ∀ t, Short t → t ∈ a.reads → t = []
    else a.Single ∨ (¬ a.Direct ∧ ∀ t, Short t → ∀ j, n ≤ j → j ≤ k → t ∉ a.reads ^ j)

structure Atom.Known (a : Atom) : Prop where
  lang : (a.meaning true).lang = spelled a.reads
  front : (a.meaning true).front = spelled a.first
  le : a.first ≤ a.reads
  direct : a.Direct → a.first = a.reads ∨ a.first = 1 ∧ [] ∈ a.reads

theorem spelled_reads (h : IsSpelled l) : l = spelled {t : Bytes | t.map Letter.read ∈ l} := by
  obtain ⟨x, rfl⟩ := h
  congr 1
  ext t
  exact mem_spelled.symm

theorem Atom.known (a : Atom) (h : a.Plain) : a.Known := by
  have hm : (a.meaning true).Plain := a.meaning_plain h
  refine ⟨spelled_reads hm.lang, spelled_reads hm.front, fun t ht => hm.le ht, fun hd => ?_⟩
  cases hm.direct hd with
  | inl heq =>
    left
    ext t
    show t.map Letter.read ∈ (a.meaning true).front ↔ t.map Letter.read ∈ (a.meaning true).lang
    rw [heq]
  | inr hone =>
    right
    obtain ⟨hfront, hle⟩ := hone
    refine ⟨?_, hle (Language.nil_mem_one)⟩
    ext t
    show t.map Letter.read ∈ (a.meaning true).front ↔ t ∈ (1 : Language UInt8)
    rw [hfront, Language.mem_one, Language.mem_one, List.map_eq_nil_iff]

def Atom.row (a : Atom) (n : ℕ) (l behind : Language UInt8) : Language UInt8 :=
  if (a.meaning true).direct then a.first ^ n * l else a.first * behind

def Atom.copies (a : Atom) (n : ℕ) : Language UInt8 :=
  if n = 0 then 1 else if n ≤ 128 then a.row n 1 0 else 0

def Atom.counted (a : Atom) : Quantifier → Language UInt8
  | .star => a.reads∗
  | .plus => a.reads * a.reads∗
  | .optional => a.reads + 1
  | .exactly n => a.copies n
  | .atLeast n => if n = 0 then a.reads∗ else a.row n (a.reads∗) (a.reads∗)
  | .between n k =>
    if k ≤ n then a.copies n
    else if n = 0 then 1
    else a.row n (upTo a.first (k - n)) 0

theorem Atom.Known.row (h : a.Known) (n : ℕ) (l behind : Language UInt8) :
    ((a.meaning true).row n (spelled l) (spelled behind)).lang = spelled (a.row n l behind) := by
  unfold Meaning.row Atom.row
  dsimp only
  rw [h.front]
  by_cases hd : (a.meaning true).direct = true
  · rw [if_pos hd, if_pos hd, spelled, spelled, spelled, map_mul, map_pow]
  · rw [if_neg hd, if_neg hd, spelled, spelled, spelled, map_mul]

theorem Atom.Known.copies (h : a.Known) (n : ℕ) :
    ((a.meaning true).exactly n).lang = spelled (a.copies n) := by
  have hone : spelled 1 = 1 := map_one (Language.map Letter.read)
  have hzero : spelled 0 = 0 := map_zero (Language.map Letter.read)
  unfold Meaning.exactly Atom.copies
  by_cases hn : n = 0
  · rw [if_pos hn, if_pos hn, hone]
  · rw [if_neg hn, if_neg hn]
    by_cases hlarge : n ≤ 128
    · rw [if_pos hlarge, if_pos hlarge, ← h.row, hone, hzero]
    · rw [if_neg hlarge, if_neg hlarge, hzero]
      rfl

theorem Atom.Known.counted (h : a.Known) (q : Quantifier) (nonGreedy : Bool) :
    (q.meaning nonGreedy (a.meaning true)).lang = spelled (a.counted q) := by
  have hone : spelled 1 = 1 := map_one (Language.map Letter.read)
  have hzero : spelled 0 = 0 := map_zero (Language.map Letter.read)
  have hstar : spelled (a.reads∗) = (spelled a.reads)∗ := Language.map_kstar Letter.read a.reads
  cases q with
  | star =>
    show ((a.meaning true).lang)∗ = _
    rw [h.lang]
    exact hstar.symm
  | plus =>
    show (a.meaning true).lang * ((a.meaning true).lang)∗ = _
    rw [h.lang, ← hstar]
    exact (map_mul (Language.map Letter.read) _ _).symm
  | optional =>
    show (a.meaning true).lang + 1 = _
    rw [h.lang, ← hone]
    exact (map_add (Language.map Letter.read) _ _).symm
  | exactly n => exact h.copies n
  | atLeast n =>
    unfold Quantifier.meaning Meaning.atLeast Atom.counted
    dsimp only
    by_cases hn : n = 0
    · rw [if_pos hn, if_pos hn, hstar, ← h.lang]
      rfl
    · rw [if_neg hn, if_neg hn, ← h.row, hstar, h.lang]
  | between n k =>
    unfold Quantifier.meaning Meaning.between Atom.counted
    dsimp only
    by_cases hk : k ≤ n
    · rw [if_pos hk, if_pos hk]
      exact h.copies n
    · rw [if_neg hk, if_neg hk]
      by_cases hn : n = 0
      · rw [if_pos hn, if_pos hn, hone]
      · rw [if_neg hn, if_neg hn, ← h.row, hzero, ← powersTo_spelled, h.front]

theorem Atom.row_direct (h : a.Direct) (n : ℕ) (l behind : Language UInt8) :
    a.row n l behind = a.first ^ n * l := if_pos h

theorem Atom.row_inner (h : ¬ a.Direct) (n : ℕ) (l behind : Language UInt8) :
    a.row n l behind = a.first * behind := if_neg h

theorem Atom.Known.single_iff (h : a.Known) (hd : a.Direct) {n : ℕ} (hn : 0 < n) {P : ℕ → Prop}
    (hP : P n) :
    (∀ t, Short t → ((∃ j, P j ∧ t ∈ a.first ^ j) ↔ ∃ j, P j ∧ t ∈ a.reads ^ j)) ↔ a.Single := by
  constructor
  · intro hright
    refine ⟨hd, ?_⟩
    intro t hshort ht
    cases h.direct hd with
    | inl heq =>
      rw [heq]
      exact ht
    | inr hone =>
      obtain ⟨hfirst, hnil⟩ := hone
      obtain ⟨j, _, hj⟩ := (hright t hshort).mpr ⟨n, hP, mem_pow_of_nil hnil hn ht⟩
      rw [hfirst, one_pow] at hj
      rw [hfirst]
      exact hj
  · rintro ⟨_, hsame⟩ t hshort
    constructor
    · rintro ⟨j, hj, ht⟩
      exact ⟨j, hj, mem_pow_of_words (fun u _ hu => h.le hu) ht⟩
    · rintro ⟨j, hj, ht⟩
      refine ⟨j, hj, mem_pow_of_words (fun u hle hu => hsame u ?_ hu) ht⟩
      exact lt_of_le_of_lt hle hshort

theorem Atom.Known.times_iff (h : a.Known) (n : ℕ) :
    (∀ t, Short t → (t ∈ a.copies n ↔ t ∈ a.reads ^ n)) ↔ a.FaithfulTimes n := by
  unfold Atom.copies Atom.FaithfulTimes
  by_cases hn : n = 0
  · rw [if_pos hn, hn, pow_zero]
    exact iff_of_true (fun t _ => Iff.rfl) (.inl rfl)
  · rw [if_neg hn, or_iff_right hn]
    by_cases hdirect : n ≤ 128 ∧ a.Direct
    · obtain ⟨hlarge, hd⟩ := hdirect
      have hone := h.single_iff hd (Nat.pos_of_ne_zero hn) (P := fun j => j = n) rfl
      simp only [exists_eq_left] at hone
      rw [if_pos hlarge, Atom.row_direct hd, mul_one, hone]
      constructor
      · intro hs
        exact .inl ⟨hlarge, hs⟩
      · intro hcases
        exact (hcases.resolve_right fun hr => hr.1 ⟨hlarge, hd⟩).2
    · have hnone : (if n ≤ 128 then a.row n 1 0 else 0) = (0 : Language UInt8) := by
        split
        · rename_i hlarge
          rw [Atom.row_inner fun hd => hdirect ⟨hlarge, hd⟩, mul_zero]
        · rfl
      rw [hnone]
      constructor
      · intro hright
        refine .inr ⟨hdirect, ?_⟩
        intro t hshort ht
        exact (hright t hshort).mpr ht
      · intro hcases t hshort
        cases hcases with
        | inl hs => exact absurd ⟨hs.1, hs.2.1⟩ hdirect
        | inr hsilent => exact iff_of_false (Language.notMem_zero t) (hsilent.2 t hshort)

theorem Atom.Known.faithful_iff (h : a.Known) {q : Quantifier} (hq : q.Ok) :
    (∀ t, Short t → (t ∈ a.counted q ↔ t ∈ q.lang a.reads)) ↔ a.Faithful q := by
  cases q with
  | star => exact iff_of_true (fun t _ => Iff.rfl) trivial
  | plus => exact iff_of_true (fun t _ => Iff.rfl) trivial
  | optional => exact iff_of_true (fun t _ => Iff.rfl) trivial
  | exactly n => exact h.times_iff n
  | atLeast n =>
    unfold Atom.counted Atom.Faithful Quantifier.lang
    dsimp only
    by_cases hn : n = 0
    · rw [if_pos hn, hn, pow_zero, one_mul]
      exact iff_of_true (fun t _ => Iff.rfl) (.inl rfl)
    · rw [if_neg hn, or_iff_right hn]
      by_cases hd : a.Direct
      · rw [Atom.row_direct hd]
        refine iff_of_true ?_ (.inl hd)
        cases h.direct hd with
        | inl heq =>
          rw [heq]
          exact fun t _ => Iff.rfl
        | inr hone =>
          obtain ⟨hfirst, hnil⟩ := hone
          rw [hfirst, one_pow, one_mul, pow_mul_kstar_of_nil hnil]
          exact fun t _ => Iff.rfl
      · rw [Atom.row_inner hd, or_iff_right hd]
  | between n k =>
    unfold Atom.counted Atom.Faithful Quantifier.lang
    dsimp only
    by_cases hk : k ≤ n
    · obtain rfl : k = n := Nat.le_antisymm hk hq.1
      have hone : {w : Bytes | ∃ j, k ≤ j ∧ j ≤ k ∧ w ∈ a.reads ^ j} = a.reads ^ k := by
        ext t
        constructor
        · rintro ⟨j, hlo, hhi, ht⟩
          rw [Nat.le_antisymm hhi hlo] at ht
          exact ht
        · intro ht
          exact ⟨k, le_rfl, le_rfl, ht⟩
      rw [if_pos hk, if_pos hk, hone]
      exact h.times_iff k
    · rw [if_neg hk, if_neg hk]
      by_cases hn : n = 0
      · rw [if_pos hn, if_pos hn]
        constructor
        · intro hright t hshort ht
          rw [← pow_one a.reads] at ht
          exact (Language.mem_one t).mp ((hright t hshort).mpr ⟨1, by omega, by omega, ht⟩)
        · intro hempty t hshort
          constructor
          · intro ht
            exact ⟨0, by omega, by omega, ht⟩
          · rintro ⟨j, _, _, ht⟩
            rw [← one_pow j]
            apply mem_pow_of_words _ ht
            intro u hle hu
            exact (Language.mem_one u).mpr (hempty u (lt_of_le_of_lt hle hshort) hu)
      · rw [if_neg hn, if_neg hn]
        by_cases hd : a.Direct
        · have hrow := h.single_iff hd (Nat.pos_of_ne_zero hn) (P := fun j => n ≤ j ∧ j ≤ k)
            ⟨le_rfl, by omega⟩
          simp only [and_assoc] at hrow
          rw [Atom.row_direct hd, or_iff_left fun hr => hr.1 hd, ← hrow]
          simp only [mem_pow_mul_upTo (Nat.le_of_not_le hk)]
          exact Iff.rfl
        · rw [Atom.row_inner hd, mul_zero, or_iff_right fun hs => hd hs.1, and_iff_right hd]
          constructor
          · intro hright t hshort j hlo hhi ht
            exact (hright t hshort).mpr ⟨j, hlo, hhi, ht⟩
          · intro hsilent t hshort
            refine iff_of_false (Language.notMem_zero t) ?_
            rintro ⟨j, hlo, hhi, ht⟩
            exact hsilent t hshort j hlo hhi ht

def Factor.pattern (f : Factor) : Expr := .one (.one f)

theorem Atom.slashOk_end (a : Atom) (h : a.SlashOk false) : a.SlashOk true := by
  cases a with
  | escape c => exact fun _ => rfl
  | group capturing e => exact h
  | look behind negative e => exact h
  | _ => trivial

theorem Factor.compile_reads {f : Factor} (hok : f.Ok) (hfits : f.All Quantifier.Fits)
    (hplain : f.Plain) (hslash : f.SlashOk true) {l : Language UInt8}
    (hl : (f.meaning true).lang = spelled l) :
    ∃ re, compile f.text (lineFlags false) = some (some re) ∧
      ∀ t, Short t → (regexMatch re t = true ↔ t ∈ l) := by
  obtain ⟨re, bodies, S, hcompile, hflags, hready, hwhole⟩ := compile_tree (e := f.pattern) hok
    hfits (Factor.Plain.flat hplain) hslash false
  refine ⟨re, hcompile, ?_⟩
  intro t hshort
  have hlang : (f.pattern.meaning true).lang = spelled l := hl
  rw [hlang] at hwhole
  rw [regexMatch_iff hready hwhole (by rw [hflags]; rfl) hshort.text_lt, hflags]
  exact readsIn_whole

theorem Atom.reads_eq_lang (a : Atom) (hplain : a.Plain) (hbraceless : a.All Quantifier.Braceless) :
    a.reads = a.lang := by
  ext t
  show t.map Letter.read ∈ (a.meaning true).lang ↔ t ∈ a.lang
  rw [a.meaning_lang hbraceless, a.words_plain hplain hbraceless]
  exact mem_spelled

/- With the quantifier the atom matches what it should: copies are made and are faithful, or none
   are made and there is nothing to match. -/
def Atom.Repeats (a : Atom) (q : Quantifier) : Prop :=
  q.Fits ∧ a.Faithful q ∨ ¬ q.Fits ∧ ∀ t, Short t → t ∉ q.lang a.reads

theorem repeats_of_fits {q : Quantifier} (hq : q.Fits) : a.Repeats q ↔ a.Faithful q := by
  unfold Atom.Repeats
  rw [and_iff_right hq, or_iff_left fun h => h.1 hq]

theorem repeats_of_excess {q : Quantifier} (hq : ¬ q.Fits) :
    a.Repeats q ↔ ∀ t, Short t → t ∉ q.lang a.reads := by
  unfold Atom.Repeats
  rw [and_iff_right hq, or_iff_right fun h => hq h.1]

/-- A counted atom matches the rows of the words that the atom alone matches exactly when it
repeats them. -/
theorem counted_rows_iff (a : Atom) (q : Quantifier) (nonGreedy : Bool) (hok : a.Ok)
    (hplain : a.Plain) (hfits : a.All Quantifier.Fits) (hslash : a.SlashOk false) (hq : q.Ok) :
    ∃ atom re, compile a.text (lineFlags false) = some (some atom) ∧
      compile (countedText a q nonGreedy) (lineFlags false) = some (some re) ∧
      (∀ t, Short t → (regexMatch atom t = true ↔ t ∈ a.reads)) ∧
      ((∀ t, Short t → (regexMatch re t = true ↔ t ∈ q.lang a.reads)) ↔ a.Repeats q) := by
  have hknown := a.known hplain
  obtain ⟨atom, hatom, hreads⟩ := Factor.compile_reads (f := .plain a) hok hfits hplain
    (a.slashOk_end hslash) hknown.lang
  by_cases hcopies : q.Fits
  · obtain ⟨re, hre, hcounted⟩ := Factor.compile_reads (f := .repeated a q nonGreedy) ⟨hok, hq⟩
      ⟨hfits, hcopies⟩ hplain hslash (hknown.counted q nonGreedy)
    refine ⟨atom, re, hatom, hre, hreads, ?_⟩
    rw [repeats_of_fits hcopies, ← hknown.faithful_iff hq]
    constructor
    · intro hright t hshort
      rw [← hcounted t hshort]
      exact hright t hshort
    · intro hright t hshort
      rw [hcounted t hshort]
      exact hright t hshort
  · obtain ⟨re, hre, hnone⟩ := @excess_compile false a q hok hfits
      (Atom.Plain.flat hplain) hslash hcopies nonGreedy
    refine ⟨atom, re, hatom, hre, hreads, ?_⟩
    rw [repeats_of_excess hcopies]
    constructor
    · intro hright t hshort hrow
      have hmatch := (hright t hshort).mpr hrow
      rw [hnone t (hshort.text_lt)] at hmatch
      cases hmatch
    · intro hsilent t hshort
      rw [hnone t (hshort.text_lt)]
      exact iff_of_false Bool.false_ne_true (hsilent t hshort)

theorem a_twice_iff : ∃ atom re, compile [97] (lineFlags false) = some (some atom) ∧
    compile [97, 123, 50, 125] (lineFlags false) = some (some re) ∧
    (∀ t, Short t → (regexMatch atom t = true ↔ t ∈ (Atom.char 97).reads)) ∧
    ((∀ t, Short t → (regexMatch re t = true ↔ t ∈ (Atom.char 97).reads ^ 2)) ↔
      (Atom.char 97).Repeats (.exactly 2)) :=
  counted_rows_iff (.char 97) (.exactly 2) false rfl trivial trivial trivial
    (show 2 < 2 ^ 31 by decide)

def twoLetters : Atom := .group false (.one (.more (.plain (.char 97)) (.one (.plain (.char 98)))))

/-- `(?:ab){2}` does not match `abab`. -/
theorem letters_twice_missed : ¬ ∀ (a : Atom) (q : Quantifier) (nonGreedy : Bool), a.Ok → a.Plain →
      a.All Quantifier.Braceless → a.SlashOk false → q.Ok →
      ∀ re, compile (countedText a q nonGreedy) (lineFlags false) = some (some re) →
        ∀ t, Short t → (regexMatch re t = true ↔ t ∈ q.lang a.lang) := by
  intro h
  have hmissed : (compile (countedText twoLetters (.exactly 2) false) (lineFlags false)).map
      (·.map (regexMatch · [97, 98, 97, 98])) = some (some false) := by decide +kernel
  obtain ⟨found, hfound, hmap⟩ := Option.map_eq_some_iff.mp hmissed
  obtain ⟨re, rfl, hmatch⟩ := Option.map_eq_some_iff.mp hmap
  have hword : [97, 98] ∈ twoLetters.lang :=
    Language.mem_mul.mpr ⟨[97], ⟨97, rfl, rfl⟩, [98], ⟨98, rfl, rfl⟩, rfl⟩
  have hrow : [97, 98, 97, 98] ∈ twoLetters.lang ^ 2 := by
    rw [pow_two]
    exact Language.mem_mul.mpr ⟨[97, 98], hword, [97, 98], hword, rfl⟩
  have htrue := (h twoLetters (.exactly 2) false ⟨rfl, rfl⟩ ⟨trivial, trivial⟩ ⟨trivial, trivial⟩
    ⟨trivial, trivial⟩ (show 2 < 2 ^ 31 by decide) re hfound [97, 98, 97, 98]
    (show 4 < 2 ^ 32 - 1 by decide)).mpr hrow
  rw [hmatch] at htrue
  cases htrue

/- Nor does `a{0,1}` match `a`. -/
example : (compile [97, 123, 48, 44, 49, 125] (lineFlags false)).map (·.map (regexMatch · [97])) =
    some (some false) := by decide +kernel

end Voxlib.Regex
