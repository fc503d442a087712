import Mathlib
import Voxlib.Redis.Parser

/-!
# The numbers of the RESP parser (vox_redis_parser.c)
-/

namespace Voxlib.Redis
open CStr List Option

def int64Min : ℤ := -2 ^ 63

def InInt64 (n : ℤ) : Prop := int64Min ≤ n ∧ n ≤ int64Max

instance (n : ℤ) : Decidable (InInt64 n) :=
  inferInstanceAs (Decidable (int64Min ≤ n ∧ n ≤ int64Max))

def IsDigit (c : UInt8) : Prop := 48 ≤ c ∧ c ≤ 57

instance (c : UInt8) : Decidable (IsDigit c) := inferInstanceAs (Decidable (48 ≤ c ∧ c ≤ 57))

def digitValue (c : UInt8) : ℤ := c.toNat - 48

def valueFrom (value : ℤ) (digits : Bytes) : ℤ :=
  digits.foldl (fun value c => value * 10 + digitValue c) value

/-- At least one digit, with or without a sign in front; the value is of any size. -/
def IsInteger (data : Bytes) (n : ℤ) : Prop :=
  ∃ digits, digits ≠ [] ∧ (∀ c ∈ digits, IsDigit c) ∧
    ((data = 45 :: digits ∧ n = -valueFrom 0 digits) ∨
      ((data = 43 :: digits ∨ data = digits) ∧ n = valueFrom 0 digits))

/- The result of an operation on int64_t; a signed overflow has none. -/
def checked (n : ℤ) : Option ℤ := if InInt64 n then some n else none

variable {n : ℤ}

theorem checked_some (h : InInt64 n) : checked n = some n := if_pos h

def parseDigitsChecked : Bytes → ℤ → Option (Option ℤ)
  | [], value => some (some value)
  | c :: rest, value =>
    if ¬ IsDigit c then some none
    else do
      let digit ← checked (c.toNat - 48)
      let room ← checked (int64Max - digit)
      if value > room / 10 then some none
      else
        let tens ← checked (value * 10)
        let value ← checked (tens + digit)
        parseDigitsChecked rest value

def negateChecked : Option ℤ → Option (Option ℤ)
  | none => some none
  | some value => (checked (-value)).map some

/-- parse_integer (vox_redis_parser.c:88-116). -/
def parseIntegerChecked (data : Bytes) : Option (Option ℤ) :=
  match data with
  | [] => some none
  | c :: rest =>
    if c = 45 then
      (if rest = [] then some none else (parseDigitsChecked rest 0).bind negateChecked)
    else if c = 43 then (if rest = [] then some none else parseDigitsChecked rest 0)
    else parseDigitsChecked data 0

theorem digitValue_bounds {c : UInt8} (h : IsDigit c) : 0 ≤ digitValue c ∧ digitValue c ≤ 9 := by
  have hlow : 48 ≤ c.toNat := UInt8.le_iff_toNat_le.mp h.1
  have hhigh : c.toNat ≤ 57 := UInt8.le_iff_toNat_le.mp h.2
  unfold digitValue
  omega

@[simp]
theorem valueFrom_cons (value : ℤ) (c : UInt8) (digits : Bytes) :
    valueFrom value (c :: digits) = valueFrom (value * 10 + digitValue c) digits := rfl

variable {digits : Bytes}

theorem le_valueFrom {value : ℤ} (hvalue : 0 ≤ value) (hdigits : ∀ c ∈ digits, IsDigit c) :
    value ≤ valueFrom value digits := by
  induction digits generalizing value with
  | nil => exact le_refl value
  | cons c digits ih =>
    obtain ⟨hlow, -⟩ := digitValue_bounds (hdigits c (mem_cons_self ..))
    have hnext : 0 ≤ value * 10 + digitValue c := by omega
    have hrest := ih hnext fun d hd => hdigits d (mem_cons_of_mem c hd)
    rw [valueFrom_cons]
    omega

theorem parseDigits_round (value : ℤ) (c : UInt8) (rest : Bytes) : parseDigits (c :: rest) value =
      if IsDigit c then (if value > (int64Max - digitValue c) / 10 then none
        else parseDigits rest (value * 10 + digitValue c)) else none := by
  conv_lhs => unfold parseDigits
  by_cases hc : IsDigit c
  · rw [if_pos hc]
    exact if_neg (not_not.mpr hc)
  · rw [if_neg hc]
    exact if_pos hc

theorem parseDigits_eq {value : ℤ} (hvalue : 0 ≤ value) (hmax : value ≤ int64Max) :
    parseDigits digits value = if (∀ c ∈ digits, IsDigit c) ∧ valueFrom value digits ≤ int64Max then
        some (valueFrom value digits) else none := by
  induction digits generalizing value with
  | nil => rw [if_pos ⟨fun c hc => absurd hc not_mem_nil, hmax⟩]; rfl
  | cons c digits ih =>
    rw [parseDigits_round]
    by_cases hc : IsDigit c
    · obtain ⟨hlow, hhigh⟩ := digitValue_bounds hc
      have hnext : value > (int64Max - digitValue c) / 10 ↔
          int64Max < value * 10 + digitValue c := by
        unfold int64Max
        omega
      rw [if_pos hc]
      by_cases hlarge : int64Max < value * 10 + digitValue c
      · rw [if_pos (hnext.mpr hlarge), if_neg]
        rintro ⟨hdigits, hle⟩
        have hgrown : value * 10 + digitValue c ≤ valueFrom (value * 10 + digitValue c) digits :=
          le_valueFrom (by omega) fun d hd => hdigits d (mem_cons_of_mem c hd)
        rw [valueFrom_cons] at hle
        omega
      · rw [if_neg fun h => hlarge (hnext.mp h), ih (by omega) (by omega)]
        simp only [forall_mem_cons, hc, true_and, valueFrom_cons]
    · rw [if_neg hc, if_neg fun h => hc (h.1 c (mem_cons_self ..))]

theorem parseDigitsChecked_eq {value : ℤ} (hvalue : 0 ≤ value) (hmax : value ≤ int64Max) :
    parseDigitsChecked digits value = some (parseDigits digits value) := by
  induction digits generalizing value with
  | nil => rfl
  | cons c digits ih =>
    rw [parseDigits_round]
    unfold parseDigitsChecked
    by_cases hc : IsDigit c
    · obtain ⟨hlow, hhigh⟩ := digitValue_bounds hc
      have hdigit : InInt64 (digitValue c) := by
        unfold InInt64 int64Min int64Max
        omega
      have hroom : InInt64 (int64Max - digitValue c) := by
        unfold InInt64 int64Min int64Max
        omega
      rw [if_neg (not_not.mpr hc), if_pos hc]
      show (checked (digitValue c)).bind _ = _
      rw [checked_some hdigit, bind_some]
      show (checked (int64Max - digitValue c)).bind _ = _
      rw [checked_some hroom, bind_some]
      by_cases hlarge : value > (int64Max - digitValue c) / 10
      · rw [if_pos hlarge, if_pos hlarge]
      · have htens : InInt64 (value * 10) := by
          unfold InInt64 int64Min int64Max at *
          omega
        have hnext : InInt64 (value * 10 + digitValue c) := by
          unfold InInt64 int64Min int64Max at *
          omega
        rw [if_neg hlarge, if_neg hlarge]
        show (checked (value * 10)).bind _ = _
        rw [checked_some htens, bind_some]
        show (checked (value * 10 + digitValue c)).bind _ = _
        rw [checked_some hnext, bind_some, ih (by omega) hnext.2]
    · rw [if_pos hc, if_neg hc]

theorem parseIntegerChecked_eq (data : Bytes) :
    parseIntegerChecked data = some (parseInteger data) := by
  have hzero : (0 : ℤ) ≤ int64Max := by decide
  unfold parseIntegerChecked parseInteger
  match data with
  | [] => rfl
  | c :: rest =>
    dsimp only
    simp only [parseDigitsChecked_eq (le_refl 0) hzero, bind_some]
    split
    · split
      · rfl
      · rw [parseDigits_eq (le_refl 0) hzero]
        split
        · next hread =>
          have hlow := le_valueFrom (le_refl 0) hread.1
          have hnegated : InInt64 (-valueFrom 0 rest) := by
            unfold InInt64 int64Min int64Max at *
            omega
          show (checked (-valueFrom 0 rest)).map some = _
          rw [checked_some hnegated]
          rfl
        · rfl
    · split
      · split <;> rfl
      · rfl

/-- No operation overflows, and a number is read if and only if it stands there and is an
int64_t. -/
def ReadsIntegers (data : Bytes) : Prop :=
  ∃ answer, parseIntegerChecked data = some answer ∧
    ∀ n, answer = some n ↔ IsInteger data n ∧ InInt64 n

theorem isInteger_minus {rest : Bytes} : IsInteger (45 :: rest) n ↔
      rest ≠ [] ∧ (∀ c ∈ rest, IsDigit c) ∧ n = -valueFrom 0 rest := by
  constructor
  · rintro ⟨digits, hne, hdigits, ⟨heq, hn⟩ | ⟨heq | heq, hn⟩⟩
    · obtain ⟨-, rfl⟩ := List.cons.inj heq
      exact ⟨hne, hdigits, hn⟩
    · exact absurd (List.cons.inj heq).1 (by decide)
    · exact absurd (hdigits 45 (heq ▸ mem_cons_self ..)) (by decide)
  · rintro ⟨hne, hdigits, hn⟩
    exact ⟨rest, hne, hdigits, .inl ⟨rfl, hn⟩⟩

theorem isInteger_plus {rest : Bytes} :
    IsInteger (43 :: rest) n ↔ rest ≠ [] ∧ (∀ c ∈ rest, IsDigit c) ∧ n = valueFrom 0 rest := by
  constructor
  · rintro ⟨digits, hne, hdigits, ⟨heq, hn⟩ | ⟨heq | heq, hn⟩⟩
    · exact absurd (List.cons.inj heq).1 (by decide)
    · obtain ⟨-, rfl⟩ := List.cons.inj heq
      exact ⟨hne, hdigits, hn⟩
    · exact absurd (hdigits 43 (heq ▸ mem_cons_self ..)) (by decide)
  · rintro ⟨hne, hdigits, hn⟩
    exact ⟨rest, hne, hdigits, .inr ⟨.inl rfl, hn⟩⟩

theorem isInteger_unsigned {c : UInt8} {rest : Bytes} (hminus : c ≠ 45) (hplus : c ≠ 43) :
    IsInteger (c :: rest) n ↔ (∀ d ∈ c :: rest, IsDigit d) ∧ n = valueFrom 0 (c :: rest) := by
  constructor
  · rintro ⟨digits, hne, hdigits, ⟨heq, hn⟩ | ⟨heq | heq, hn⟩⟩
    · exact absurd (List.cons.inj heq).1 hminus
    · exact absurd (List.cons.inj heq).1 hplus
    · exact heq ▸ ⟨hdigits, hn⟩
  · rintro ⟨hdigits, hn⟩
    exact ⟨c :: rest, cons_ne_nil c rest, hdigits, .inr ⟨.inr rfl, hn⟩⟩

theorem parseDigits_some_iff (digits : Bytes) (n : ℤ) : parseDigits digits 0 = some n ↔
      ((∀ c ∈ digits, IsDigit c) ∧ n = valueFrom 0 digits) ∧ InInt64 n := by
  rw [parseDigits_eq (le_refl 0) (by decide)]
  constructor
  · intro h
    obtain ⟨⟨hdigits, hmax⟩, heq⟩ := ite_none_right_eq_some.mp h
    obtain rfl := some.inj heq
    have hlow := le_valueFrom (le_refl 0) hdigits
    exact ⟨⟨hdigits, rfl⟩, by unfold int64Min; omega, hmax⟩
  · rintro ⟨⟨hdigits, rfl⟩, -, hmax⟩
    exact if_pos ⟨hdigits, hmax⟩

theorem minus_some_iff (digits : Bytes) (n : ℤ) :
    (parseDigits digits 0).map (fun value => -value) = some n ↔
      ((∀ c ∈ digits, IsDigit c) ∧ n = -valueFrom 0 digits) ∧ InInt64 n ∧ n ≠ int64Min := by
  rw [map_eq_some_iff]
  constructor
  · rintro ⟨value, hvalue, rfl⟩
    obtain ⟨⟨hdigits, rfl⟩, hlow, hmax⟩ := (parseDigits_some_iff digits value).mp hvalue
    have hpos := le_valueFrom (le_refl 0) hdigits
    unfold InInt64 int64Min int64Max at *
    exact ⟨⟨hdigits, rfl⟩, ⟨by omega, by omega⟩, by omega⟩
  · rintro ⟨⟨hdigits, rfl⟩, ⟨hlow, hmax⟩, hmin⟩
    have hpos := le_valueFrom (le_refl 0) hdigits
    refine ⟨valueFrom 0 digits, (parseDigits_some_iff digits _).mpr ⟨⟨hdigits, rfl⟩, ?_, ?_⟩, rfl⟩
    · unfold int64Min
      omega
    · unfold int64Min int64Max at *
      omega

theorem valueFrom_ne_min (hdigits : ∀ c ∈ digits, IsDigit c) (hn : n = valueFrom 0 digits) :
    n ≠ int64Min := by
  have hlow := le_valueFrom (le_refl 0) hdigits
  unfold int64Min
  omega

theorem parseInteger_some_iff (data : Bytes) (n : ℤ) :
    parseInteger data = some n ↔ IsInteger data n ∧ InInt64 n ∧ n ≠ int64Min := by
  unfold parseInteger
  match data with
  | [] =>
    refine iff_of_false (fun h => by cases h) ?_
    rintro ⟨⟨digits, hne, -, ⟨heq, -⟩ | ⟨heq | heq, -⟩⟩, -⟩
    · cases heq
    · cases heq
    · exact hne heq.symm
  | c :: rest =>
    dsimp only
    by_cases hminus : c = 45
    · subst hminus
      rw [if_pos rfl, isInteger_minus]
      by_cases hrest : rest = []
      · rw [if_pos hrest]
        exact iff_of_false (fun h => by cases h) fun h => h.1.1 hrest
      · rw [if_neg hrest, minus_some_iff]
        exact and_congr_left fun _ => ⟨fun h => ⟨hrest, h⟩, fun h => h.2⟩
    · rw [if_neg hminus]
      by_cases hplus : c = 43
      · subst hplus
        rw [if_pos rfl, isInteger_plus]
        by_cases hrest : rest = []
        · rw [if_pos hrest]
          exact iff_of_false (fun h => by cases h) fun h => h.1.1 hrest
        · rw [if_neg hrest, parseDigits_some_iff]
          exact ⟨fun h => ⟨⟨hrest, h.1⟩, h.2, valueFrom_ne_min h.1.1 h.1.2⟩,
            fun h => ⟨h.1.2, h.2.1⟩⟩
      · rw [if_neg hplus, isInteger_unsigned hminus hplus, parseDigits_some_iff]
        exact ⟨fun h => ⟨h.1, h.2, valueFrom_ne_min h.1.1 h.1.2⟩, fun h => ⟨h.1, h.2.1⟩⟩

/-- parse_integer does what it is for unless the number is the least int64_t. -/
theorem readsIntegers_iff (data : Bytes) : ReadsIntegers data ↔ ¬ IsInteger data int64Min := by
  constructor
  · rintro ⟨answer, hanswer, hreads⟩ hmin
    rw [parseIntegerChecked_eq] at hanswer
    have hread := (hreads int64Min).mpr ⟨hmin, by decide⟩
    rw [← some.inj hanswer, parseInteger_some_iff] at hread
    exact hread.2.2 rfl
  · intro hmin
    refine ⟨parseInteger data, parseIntegerChecked_eq data, fun n => ?_⟩
    rw [parseInteger_some_iff]
    exact ⟨fun h => ⟨h.1, h.2.1⟩, fun h => ⟨h.1, h.2, fun hn => hmin (hn ▸ h.1)⟩⟩

/-- The least int64_t is refused. -/
theorem least_integer_refused : ¬ ReadsIntegers (lit "-9223372036854775808") := by
  rintro ⟨answer, hanswer, hreads⟩
  have hnone : parseIntegerChecked (lit "-9223372036854775808") = some none := by decide +kernel
  rw [hnone] at hanswer
  have hread := (hreads int64Min).mpr ⟨⟨lit "9223372036854775808", by decide +kernel,
    by decide +kernel, .inl ⟨by decide +kernel, by decide +kernel⟩⟩, by decide⟩
  rw [← some.inj hanswer] at hread
  cases hread

end Voxlib.Redis
