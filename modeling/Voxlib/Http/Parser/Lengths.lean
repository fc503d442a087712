import Voxlib.Http.Parser

/-!
# The numbers in an HTTP message (vox_http_parser.c)

Numerals counted without a bound, against what is returned in a uint64_t.
-/

namespace Voxlib.HttpParser
open CStr List Option

def valueFrom (base : ℕ) (digit : UInt8 → Option ℕ) (n : ℕ) : Bytes → Option ℕ
  | [] => some n
  | b :: rest => (digit b).bind fun d => valueFrom base digit (n * base + d) rest

def numeral (base : ℕ) (digit : UInt8 → Option ℕ) (v : Bytes) : Option ℕ :=
  if v.length = 0 then none else valueFrom base digit 0 v

def decimalDigit (b : UInt8) : Option ℕ := if isDigit b then some (b.toNat - 48) else none

/-- With one digit more, the value modulo 2^64 gets smaller. -/
def Drops (n : ℕ) (v : Bytes) : Prop :=
  ∃ front x a b, front ++ [x] <+: v ∧ valueFrom 10 decimalDigit n front = some a ∧
    valueFrom 10 decimalDigit n (front ++ [x]) = some b ∧ b % 2 ^ 64 < a % 2 ^ 64

variable {v : Bytes} {n : ℕ}

theorem valueFrom_le {base : ℕ} {digit : UInt8 → Option ℕ} (hbase : 0 < base) {m : ℕ}
    (h : valueFrom base digit n v = some m) : n ≤ m := by
  induction v generalizing n with
  | nil => exact (some.inj h).le
  | cons b rest ih =>
    obtain ⟨d, -, h⟩ := bind_eq_some_iff.mp h
    calc n ≤ n * base := Nat.le_mul_of_pos_right n hbase
      _ ≤ n * base + d := Nat.le_add_right _ _
      _ ≤ m := ih h

theorem hexDigit_lt {b : UInt8} {d : ℕ} (h : hexDigit b = some d) : d < 16 := by
  unfold hexDigit at h
  split_ifs at h with h1 h2 h3 <;> cases h
  · have : b.toNat ≤ 57 := UInt8.le_iff_toNat_le.mp h1.2
    omega
  · have : b.toNat ≤ 102 := UInt8.le_iff_toNat_le.mp h2.2
    omega
  · have : b.toNat ≤ 70 := UInt8.le_iff_toNat_le.mp h3.2
    omega

theorem hexLoop_iff {out : ℕ} (hout : out < 2 ^ 64) :
    hexLoop v out = some n ↔ valueFrom 16 hexDigit out v = some n ∧ n < 2 ^ 64 := by
  induction v generalizing out with
  | nil =>
    simp only [hexLoop, valueFrom, Option.some.injEq]
    exact ⟨fun h => ⟨h, h ▸ hout⟩, And.left⟩
  | cons b rest ih =>
    rw [hexLoop, valueFrom]
    cases hd : hexDigit b with
    | none => simp
    | some d =>
      have hlt := hexDigit_lt hd
      simp only [bind_some, Nat.shiftRight_eq_div_pow, Nat.shiftLeft_eq]
      split_ifs with hbig hwrap
      · refine iff_of_false (by simp) ?_
        rintro ⟨h, hn⟩
        have := valueFrom_le (by omega) h
        omega
      · omega
      · have hnext : (out * 2 ^ 4 % 2 ^ 64 + d) % 2 ^ 64 = out * 16 + d := by omega
        rw [hnext]
        exact ih (by omega)

theorem parseChunkSize_iff {line : Bytes} :
    parseChunkSize line = some n ↔ numeral 16 hexDigit (skipBlanks line) = some n ∧ n < 2 ^ 64 := by
  unfold parseChunkSize numeral
  dsimp only
  split
  · simp
  · exact hexLoop_iff (by omega)

theorem valueFrom_cons {base d : ℕ} {digit : UInt8 → Option ℕ} {c : UInt8} (hd : digit c = some d) :
    valueFrom base digit n (c :: v) = valueFrom base digit (n * base + d) v := by
  rw [valueFrom, hd, bind_some]

theorem drops_cons {d : ℕ} {c : UInt8} (hd : decimalDigit c = some d) :
    Drops n (c :: v) ↔ (n * 10 + d) % 2 ^ 64 < n % 2 ^ 64 ∨ Drops (n * 10 + d) v := by
  constructor
  · rintro ⟨_ | ⟨y, front⟩, x, a, b, hpre, ha, hb, hlt⟩
    · obtain ⟨rfl, -⟩ := cons_prefix_cons.mp hpre
      rw [nil_append, valueFrom_cons hd] at hb
      obtain rfl := some.inj ha
      obtain rfl := some.inj hb
      exact .inl hlt
    · obtain ⟨rfl, hrest⟩ := cons_prefix_cons.mp hpre
      rw [valueFrom_cons hd] at ha
      rw [cons_append, valueFrom_cons hd] at hb
      exact .inr ⟨front, x, a, b, hrest, ha, hb, hlt⟩
  · rintro (hlt | ⟨front, x, a, b, hpre, ha, hb, hlt⟩)
    · refine ⟨[], c, n, n * 10 + d, ?_, rfl, ?_, hlt⟩
      · exact cons_prefix_cons.mpr ⟨rfl, List.nil_prefix⟩
      · rw [nil_append, valueFrom_cons hd, valueFrom]
    · refine ⟨c :: front, x, a, b, ?_, ?_, ?_, hlt⟩
      · exact cons_prefix_cons.mpr ⟨rfl, hpre⟩
      · rw [valueFrom_cons hd, ha]
      · rw [cons_append, valueFrom_cons hd, hb]

theorem decimalLoop_iff {out : ℕ} : decimalLoop v (n % 2 ^ 64) = some out ↔
      ¬ Drops n v ∧ ∃ m, valueFrom 10 decimalDigit n v = some m ∧ out = m % 2 ^ 64 := by
  induction v generalizing n with
  | nil =>
    have hdrop : ¬ Drops n [] := by
      rintro ⟨front, x, _, _, hpre, -⟩
      simp at hpre
    simp only [decimalLoop, valueFrom, hdrop, not_false_eq_true, true_and, Option.some.injEq,
      exists_eq_left']
    exact eq_comm
  | cons c rest ih =>
    rw [decimalLoop]
    by_cases hc : isDigit c
    · have hd : decimalDigit c = some (c.toNat - 48) := if_pos hc
      have hnext : (n % 2 ^ 64 * 10 + (c.toNat - 48)) % 2 ^ 64 =
          (n * 10 + (c.toNat - 48)) % 2 ^ 64 := by omega
      rw [if_pos hc, drops_cons hd, valueFrom_cons hd]
      dsimp only
      rw [hnext]
      split_ifs with hlt
      · exact iff_of_false (by simp) fun h => h.1 (.inl hlt)
      · rw [ih, or_iff_right hlt]
    · have hd : decimalDigit c = none := if_neg hc
      rw [if_neg hc, valueFrom, hd]
      simp

theorem parseContentLength_iff {value : Bytes} :
    parseContentLength value = some n ↔ ¬ Drops 0 (skipBlanks value) ∧
      ∃ m, numeral 10 decimalDigit (skipBlanks value) = some m ∧ n = m % 2 ^ 64 := by
  unfold parseContentLength numeral
  dsimp only
  split
  · simp
  · exact decimalLoop_iff (n := 0)

/-- What the two functions return for a string is its value, and below 2^64. -/
def LengthsRight (s : Bytes) : Prop :=
  (∀ n, parseContentLength s = some n →
    numeral 10 decimalDigit (skipBlanks s) = some n ∧ n < 2 ^ 64) ∧
  ∀ n, parseChunkSize s = some n → numeral 16 hexDigit (skipBlanks s) = some n ∧ n < 2 ^ 64

/-- They are right about a string if and only if its decimal value is below 2^64, or it gets
smaller modulo 2^64 with one of the digits. -/
theorem lengths_right_iff (s : Bytes) :
    LengthsRight s ↔ ∀ m, numeral 10 decimalDigit (skipBlanks s) = some m →
      m < 2 ^ 64 ∨ Drops 0 (skipBlanks s) := by
  constructor
  · intro h m hm
    by_contra hbad
    obtain ⟨hm', hdrop⟩ := not_or.mp hbad
    have hval := (h.1 _ (parseContentLength_iff.mpr ⟨hdrop, m, hm, rfl⟩)).1
    have : m = m % 2 ^ 64 := some.inj (hm.symm.trans hval)
    omega
  · intro h
    refine ⟨fun n hn => ?_, fun n => parseChunkSize_iff.mp⟩
    obtain ⟨hdrop, m, hm, rfl⟩ := parseContentLength_iff.mp hn
    have hlt := (h m hm).resolve_right hdrop
    rw [Nat.mod_eq_of_lt hlt]
    exact ⟨hm, hlt⟩

/-- 3·10^19 wraps once, to more than 3·10^18. -/
theorem contentLength_wraps : ¬ LengthsRight (lit "30000000000000000000") := by
  rintro ⟨h, -⟩
  have hread : parseContentLength (lit "30000000000000000000") = some 11553255926290448384 := by
    decide +kernel
  have hvalue : numeral 10 decimalDigit (skipBlanks (lit "30000000000000000000")) =
      some 30000000000000000000 := by decide +kernel
  exact absurd ((h _ hread).1.symm.trans hvalue) (by decide)

end Voxlib.HttpParser
