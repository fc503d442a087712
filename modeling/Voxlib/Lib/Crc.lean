import Mathlib.Tactic

/-!
# Cyclic redundancy checks

A reflected remainder takes in bits, the lowest first. This is linear, so a table can hold what
the low bits give.
-/

namespace Voxlib.Crc

variable {w : ℕ} (poly : BitVec w)

/-- The remainder moves down; where a one falls out the polynomial is added. -/
def step (x : BitVec w) : BitVec w := if x.getLsbD 0 then (x >>> 1) ^^^ poly else x >>> 1

def steps : ℕ → BitVec w → BitVec w
  | 0, x => x
  | n + 1, x => steps n (step poly x)

def bitStep (x : BitVec w) (bit : Bool) : BitVec w :=
  if x.getLsbD 0 ^^ bit then (x >>> 1) ^^^ poly else x >>> 1

def serial (x : BitVec w) (bits : List Bool) : BitVec w := bits.foldl (bitStep poly) x

/-- The low `n` bits of a number, the lowest first. -/
def lowBits (n v : ℕ) : List Bool := (List.range n).map v.testBit

theorem steps_add (m n : ℕ) (x : BitVec w) : steps poly (m + n) x = steps poly n (steps poly m x) := by
  induction m generalizing x with
  | zero => rw [Nat.zero_add, steps]
  | succ m ih => rw [Nat.add_right_comm, steps, ih, steps]

theorem step_xor (x y : BitVec w) : step poly (x ^^^ y) = step poly x ^^^ step poly y := by
  have hcancel : (x >>> 1 ^^^ poly) ^^^ (y >>> 1 ^^^ poly) = x >>> 1 ^^^ y >>> 1 := by
    rw [BitVec.xor_comm (y >>> 1), BitVec.xor_assoc, ← BitVec.xor_assoc poly, BitVec.xor_self,
      BitVec.zero_xor]
  simp only [step, BitVec.getLsbD_xor, BitVec.ushiftRight_xor_distrib]
  cases x.getLsbD 0 <;> cases y.getLsbD 0
  · rfl
  · exact BitVec.xor_assoc _ _ _
  · show x >>> 1 ^^^ y >>> 1 ^^^ poly = x >>> 1 ^^^ poly ^^^ y >>> 1
    rw [BitVec.xor_assoc, BitVec.xor_comm (y >>> 1), BitVec.xor_assoc]
  · exact hcancel.symm

theorem steps_xor (n : ℕ) (x y : BitVec w) :
    steps poly n (x ^^^ y) = steps poly n x ^^^ steps poly n y := by
  induction n generalizing x y with
  | zero => rfl
  | succ n ih => rw [steps, step_xor, ih, steps, steps]

/-- Where the low bits are clear, the remainder only moves down. -/
theorem steps_clear {n : ℕ} {x : BitVec w} (h : ∀ i < n, x.getLsbD i = false) :
    steps poly n x = x >>> n := by
  induction n generalizing x with
  | zero => exact (BitVec.ushiftRight_zero x).symm
  | succ n ih =>
    have hstep : step poly x = x >>> 1 := by
      rw [step, h 0 (Nat.succ_pos n)]
      rfl
    have hrest : ∀ i < n, (x >>> 1).getLsbD i = false := by
      intro i hi
      rw [BitVec.getLsbD_ushiftRight]
      exact h (1 + i) (by omega)
    rw [steps, hstep, ih hrest, Nat.add_comm n 1, BitVec.shiftRight_add]

def low (w n : ℕ) : BitVec w := BitVec.ofNat w (2 ^ n - 1)

theorem low_getLsbD (n i : ℕ) : (low w n).getLsbD i = decide (i < w ∧ i < n) := by
  rw [low, BitVec.getLsbD_ofNat, Nat.testBit_two_pow_sub_one, Bool.decide_and]

/-- Taking in `n` bits: what is above them moves down, the rest comes from the low bits alone. -/
theorem steps_split (n : ℕ) (x : BitVec w) :
    steps poly n x = x >>> n ^^^ steps poly n (x &&& low w n) := by
  have hsplit : x = (x &&& ~~~low w n) ^^^ (x &&& low w n) := by
    refine BitVec.eq_of_getLsbD_eq fun i hi => ?_
    simp only [BitVec.getLsbD_xor, BitVec.getLsbD_and, BitVec.getLsbD_not, hi, decide_true,
      Bool.true_and]
    cases x.getLsbD i <;> cases (low w n).getLsbD i <;> rfl
  have hclear : ∀ i < n, (x &&& ~~~low w n).getLsbD i = false := by
    intro i hi
    rw [BitVec.getLsbD_and, BitVec.getLsbD_not, low_getLsbD]
    by_cases hw : i < w <;> simp [hw, hi]
  have hmoved : (x &&& ~~~low w n) >>> n = x >>> n := by
    refine BitVec.eq_of_getLsbD_eq fun i hi => ?_
    rw [BitVec.getLsbD_ushiftRight, BitVec.getLsbD_ushiftRight, BitVec.getLsbD_and,
      BitVec.getLsbD_not, low_getLsbD]
    by_cases hw : n + i < w
    · simp [hw]
    · simp [hw, BitVec.getLsbD_of_ge x (n + i) (by omega)]
  conv_lhs => rw [hsplit]
  rw [steps_xor, steps_clear poly hclear, hmoved]

theorem lowBits_succ (n v : ℕ) : lowBits (n + 1) v = v.testBit 0 :: lowBits n (v / 2) := by
  rw [lowBits, List.range_succ_eq_map, List.map_cons, List.map_map, lowBits]
  congr 1
  exact List.map_congr_left fun i _ => Nat.testBit_succ v i

theorem lowBits_add {m n low high : ℕ} (h : low < 2 ^ m) :
    lowBits (m + n) (low + 2 ^ m * high) = lowBits m low ++ lowBits n high := by
  induction m generalizing low with
  | zero =>
    obtain rfl : low = 0 := by omega
    rw [Nat.pow_zero, Nat.one_mul, Nat.zero_add, Nat.zero_add]
    rfl
  | succ m ih =>
    have hhalf : (low + 2 ^ (m + 1) * high) / 2 = low / 2 + 2 ^ m * high := by
      rw [Nat.pow_succ, Nat.mul_comm (2 ^ m) 2, Nat.mul_assoc]
      omega
    have hbit : (low + 2 ^ (m + 1) * high).testBit 0 = low.testBit 0 := by
      rw [Nat.pow_succ, Nat.mul_comm (2 ^ m) 2, Nat.mul_assoc, Nat.testBit_zero, Nat.testBit_zero,
        Nat.add_mul_mod_self_left]
    rw [Nat.pow_succ] at h
    rw [Nat.add_right_comm, lowBits_succ, lowBits_succ, hhalf, hbit, ih (by omega),
      List.cons_append]

theorem serial_lowBits {n v : ℕ} (x : BitVec w) (hv : v < 2 ^ n) (hn : n ≤ w) :
    serial poly x (lowBits n v) = steps poly n (x ^^^ BitVec.ofNat w v) := by
  induction n generalizing x v with
  | zero =>
    obtain rfl : v = 0 := by omega
    exact (BitVec.xor_zero).symm
  | succ n ih =>
    have hhalf : (BitVec.ofNat w v) >>> 1 = BitVec.ofNat w (v / 2) := by
      have hpow : 2 ^ (n + 1) ≤ 2 ^ w := Nat.pow_le_pow_right (by decide) hn
      refine BitVec.eq_of_toNat_eq ?_
      rw [BitVec.toNat_ushiftRight, BitVec.toNat_ofNat, BitVec.toNat_ofNat,
        Nat.mod_eq_of_lt (by omega), Nat.mod_eq_of_lt (by omega), Nat.shiftRight_eq_div_pow,
        Nat.pow_one]
    have hbit : (BitVec.ofNat w v).getLsbD 0 = v.testBit 0 := by
      rw [BitVec.getLsbD_ofNat, decide_eq_true (by omega : 0 < w), Bool.true_and]
    have hstep : step poly (x ^^^ BitVec.ofNat w v) =
        bitStep poly x (v.testBit 0) ^^^ BitVec.ofNat w (v / 2) := by
      rw [step, bitStep, BitVec.getLsbD_xor, hbit, BitVec.ushiftRight_xor_distrib, hhalf]
      cases x.getLsbD 0 ^^ v.testBit 0
      · rfl
      · show x >>> 1 ^^^ BitVec.ofNat w (v / 2) ^^^ poly = x >>> 1 ^^^ poly ^^^ _
        rw [BitVec.xor_assoc, BitVec.xor_comm _ poly, ← BitVec.xor_assoc]
    have hrest : v / 2 < 2 ^ n := by
      rw [Nat.pow_succ] at hv
      omega
    rw [lowBits_succ, steps, hstep, ← ih _ hrest (by omega)]
    rfl

theorem serial_append (x : BitVec w) (a b : List Bool) :
    serial poly x (a ++ b) = serial poly (serial poly x a) b := List.foldl_append

theorem lowBits_bit (b : Bool) : lowBits 1 b.toNat = [b] := by cases b <;> rfl

theorem exists_lowBits (bits : List Bool) : ∃ v < 2 ^ bits.length, bits = lowBits bits.length v := by
  induction bits with
  | nil => exact ⟨0, Nat.one_pos, rfl⟩
  | cons b bits ih =>
    obtain ⟨v, hv, hbits⟩ := ih
    have hb : b.toNat < 2 ^ 1 := b.toNat_lt
    refine ⟨b.toNat + 2 ^ 1 * v, ?_, ?_⟩
    · rw [List.length_cons, Nat.pow_succ]
      omega
    · rw [List.length_cons, Nat.add_comm, lowBits_add hb, lowBits_bit, ← hbits]
      rfl

section Detection
variable {poly} (hpoly : poly.getLsbD (w - 1) = true)
include hpoly

/-- With the top bit in the polynomial, what falls out can be told from the top bit. -/
theorem step_eq_zero {x : BitVec w} (h : step poly x = 0) : x = 0 := by
  unfold step at h
  cases hx : x.getLsbD 0 with
  | true =>
    rw [hx, if_pos rfl] at h
    have htop := congrArg (·.getLsbD (w - 1)) h
    have hout : x.getLsbD (1 + (w - 1)) = false := BitVec.getLsbD_of_ge x _ (by omega)
    simp [hout, hpoly] at htop
  | false =>
    rw [hx, if_neg Bool.false_ne_true] at h
    refine BitVec.eq_of_getLsbD_eq fun i _ => ?_
    cases i with
    | zero => simpa using hx
    | succ i =>
      have hi := congrArg (·.getLsbD i) h
      simpa [Nat.add_comm 1 i] using hi

theorem steps_inj (n : ℕ) {x y : BitVec w} (h : steps poly n x = steps poly n y) : x = y := by
  induction n generalizing x y with
  | zero => exact h
  | succ n ih =>
    have hstep : step poly (x ^^^ y) = 0 := by rw [step_xor, ih h, BitVec.xor_self]; rfl
    exact BitVec.xor_eq_zero_iff.mp (step_eq_zero hpoly hstep)

theorem serial_inj (bits : List Bool) (hw : 0 < w) {x y : BitVec w}
    (h : serial poly x bits = serial poly y bits) : x = y := by
  induction bits generalizing x y with
  | nil => exact h
  | cons b bits ih =>
    have hstep : serial poly x [b] = serial poly y [b] := ih h
    rw [← lowBits_bit, serial_lowBits poly x b.toNat_lt hw, serial_lowBits poly y b.toNat_lt hw]
      at hstep
    exact (BitVec.xor_left_inj _).mp (steps_inj hpoly 1 hstep)

/-- A burst no longer than the register changes the remainder. -/
theorem serial_burst {b b' : List Bool} (hlen : b.length = b'.length) (hle : b.length ≤ w)
    {x : BitVec w} (h : serial poly x b = serial poly x b') : b = b' := by
  obtain ⟨v, hv, hb⟩ := exists_lowBits b
  obtain ⟨v', hv', hb'⟩ := exists_lowBits b'
  rw [← hlen] at hv' hb'
  rw [hb, hb', serial_lowBits poly x hv hle, serial_lowBits poly x hv' hle] at h
  have hvec := congrArg BitVec.toNat ((BitVec.xor_right_inj x).mp (steps_inj hpoly _ h))
  have hpow : 2 ^ b.length ≤ 2 ^ w := Nat.pow_le_pow_right (by decide) hle
  rw [BitVec.toNat_ofNat, BitVec.toNat_ofNat, Nat.mod_eq_of_lt (by omega),
    Nat.mod_eq_of_lt (by omega)] at hvec
  rw [hb, hb', hvec]

end Detection

end Voxlib.Crc
