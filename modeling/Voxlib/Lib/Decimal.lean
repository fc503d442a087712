import Voxlib.Lib.CStr

/-!
# Decimal numbers as bytes

The digits of a number, the highest first, as ASCII bytes.
-/

namespace Voxlib.Decimal
open CStr

def decimal (n : ℕ) : Bytes := (Nat.toDigits 10 n).map fun c => UInt8.ofNat c.toNat

theorem digitChar_byte {d : ℕ} (h : d < 10) :
    UInt8.ofNat (Nat.digitChar d).toNat = UInt8.ofNat (48 + d) := by
  rw [Nat.toNat_digitChar_of_lt_ten h]

theorem decimal_last (n : ℕ) :
    decimal n = (if n < 10 then [] else decimal (n / 10)) ++ [UInt8.ofNat (48 + n % 10)] := by
  unfold decimal
  rw [Nat.toDigits_eq_if (by omega)]
  split
  · next h =>
    rw [Nat.mod_eq_of_lt h, List.map_singleton, digitChar_byte h]
    rfl
  · rw [List.map_append, List.map_singleton, digitChar_byte (Nat.mod_lt n (by omega))]

theorem decimal_induction {P : ℕ → Prop} (digit : ∀ n < 10, P n)
    (more : ∀ n, 10 ≤ n → P (n / 10) → P n) (n : ℕ) : P n := by
  induction n using Nat.strong_induction_on with
  | _ n ih =>
    by_cases h : n < 10
    · exact digit n h
    · exact more n (Nat.not_lt.mp h) (ih (n / 10) (by omega))

theorem decimal_ne_nil (n : ℕ) : decimal n ≠ [] := by
  rw [decimal_last]
  simp

theorem digit_toNat (n : ℕ) : (UInt8.ofNat (48 + n % 10)).toNat = 48 + n % 10 := by
  rw [UInt8.toNat_ofNat']
  omega

theorem decimal_digits (n : ℕ) : ∀ c ∈ decimal n, 48 ≤ c.toNat ∧ c.toNat ≤ 57 := by
  have hlast (n : ℕ) (c : UInt8) (hc : c ∈ [UInt8.ofNat (48 + n % 10)]) :
      48 ≤ c.toNat ∧ c.toNat ≤ 57 := by
    rw [List.mem_singleton.mp hc, digit_toNat]
    omega
  induction n using decimal_induction with
  | digit n h =>
    intro c hc
    rw [decimal_last, if_pos h] at hc
    exact hlast n c hc
  | more n h ih =>
    intro c hc
    rw [decimal_last, if_neg (Nat.not_lt.mpr h)] at hc
    rcases List.mem_append.mp hc with hc | hc
    · exact ih c hc
    · exact hlast n c hc

end Voxlib.Decimal
