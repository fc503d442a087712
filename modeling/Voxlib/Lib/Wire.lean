import Voxlib.Lib.CStr

/-!
# Numbers and strings on the wire

Big-endian numbers, strings behind a 16 bit length, and base 128 numbers of at most `k` bytes.
-/

namespace Voxlib.Wire
open CStr List Option

def u16 (n : ℕ) : Bytes := [UInt8.ofNat (n / 256), UInt8.ofNat n]

def u32 (n : ℕ) : Bytes :=
  [UInt8.ofNat (n / 2 ^ 24), UInt8.ofNat (n / 2 ^ 16), UInt8.ofNat (n / 2 ^ 8), UInt8.ofNat n]

def u64 (n : ℕ) : Bytes := u32 (n / 2 ^ 32) ++ u32 n

def ofU16 (a b : UInt8) : ℕ := a.toNat * 256 + b.toNat

def ofU32 (a b c d : UInt8) : ℕ :=
  a.toNat * 2 ^ 24 + b.toNat * 2 ^ 16 + c.toNat * 2 ^ 8 + d.toNat

def ofU64 (a b c d e f g h : UInt8) : ℕ := ofU32 a b c d * 2 ^ 32 + ofU32 e f g h

theorem ofU16_lt (a b : UInt8) : ofU16 a b < 65536 := by
  have ha := a.toNat_lt
  have hb := b.toNat_lt
  unfold ofU16
  omega

theorem ofU16_ofNat {n : ℕ} (h : n < 65536) :
    ofU16 (UInt8.ofNat (n / 256)) (UInt8.ofNat n) = n := by
  simp only [ofU16, UInt8.toNat_ofNat']
  omega

theorem ofU32_ofNat {n : ℕ} (h : n < 2 ^ 32) :
    ofU32 (UInt8.ofNat (n / 2 ^ 24)) (UInt8.ofNat (n / 2 ^ 16)) (UInt8.ofNat (n / 2 ^ 8))
      (UInt8.ofNat n) = n := by
  simp only [ofU32, UInt8.toNat_ofNat']
  omega

theorem ofU64_ofNat {n : ℕ} (h : n < 2 ^ 64) :
    ofU64 (UInt8.ofNat (n / 2 ^ 32 / 2 ^ 24)) (UInt8.ofNat (n / 2 ^ 32 / 2 ^ 16))
      (UInt8.ofNat (n / 2 ^ 32 / 2 ^ 8)) (UInt8.ofNat (n / 2 ^ 32)) (UInt8.ofNat (n / 2 ^ 24))
      (UInt8.ofNat (n / 2 ^ 16)) (UInt8.ofNat (n / 2 ^ 8)) (UInt8.ofNat n) = n := by
  have hhigh := ofU32_ofNat (n := n / 2 ^ 32) (by omega)
  unfold ofU64
  rw [hhigh]
  simp only [ofU32, UInt8.toNat_ofNat']
  omega

@[simp]
theorem u16_length (n : ℕ) : (u16 n).length = 2 := rfl

@[simp]
theorem u32_length (n : ℕ) : (u32 n).length = 4 := rfl

@[simp]
theorem u64_length (n : ℕ) : (u64 n).length = 8 := rfl

def takeU16 : Bytes → Option (ℕ × Bytes)
  | a :: b :: rest => some (ofU16 a b, rest)
  | _ => none

/- The string at the start and the bytes behind it; none when it does not end in `d`. -/
def takeString (d : Bytes) : Option (Bytes × Bytes) :=
  (takeU16 d).bind fun p =>
    if p.2.length < p.1 then none else some (p.2.take p.1, p.2.drop p.1)

def putString (s : Bytes) : Bytes := u16 s.length ++ s

@[simp]
theorem putString_length (s : Bytes) : (putString s).length = 2 + s.length := by
  simp [putString]

theorem takeU16_u16 {n : ℕ} (h : n < 65536) (rest : Bytes) :
    takeU16 (u16 n ++ rest) = some (n, rest) := by
  simp only [u16, cons_append, nil_append, takeU16, ofU16_ofNat h]

theorem takeString_putString {s : Bytes} (h : s.length < 65536) (rest : Bytes) :
    takeString (putString s ++ rest) = some (s, rest) := by
  unfold takeString putString
  rw [append_assoc, takeU16_u16 h]
  simp

variable {d : Bytes}

theorem takeString_some {s rest : Bytes} (h : takeString d = some (s, rest)) :
    s.length < 65536 ∧ d.length = 2 + s.length + rest.length := by
  match d, h with
  | a :: b :: tail, h =>
    simp only [takeString, takeU16, bind_some] at h
    split at h
    · simp at h
    · have hlt := ofU16_lt a b
      obtain ⟨rfl, rfl⟩ : tail.take (ofU16 a b) = s ∧ tail.drop (ofU16 a b) = rest := by
        simpa using h
      simp only [length_take, length_drop, length_cons]
      omega
  | [_], h => simp [takeString, takeU16] at h
  | [], h => simp [takeString, takeU16] at h

inductive Read where
  | more
  | bad
  | ok (value size : ℕ)
  deriving DecidableEq, Repr

/- `v` is the value so far, `mult` the weight of the next byte, `i` its index. -/
def readVarint : (left v mult i : ℕ) → Bytes → Read
  | 0, _, _, _, _ => .bad
  | _ + 1, _, _, _, [] => .more
  | left + 1, v, mult, i, b :: rest =>
    let v' := v + b.toNat % 128 * mult
    if b.toNat < 128 then .ok v' (i + 1) else readVarint left v' (mult * 128) (i + 1) rest

def putVarint : ℕ → ℕ → Option Bytes
  | 0, _ => none
  | left + 1, value =>
    if value / 128 = 0 then some [UInt8.ofNat (value % 128)]
    else (putVarint left (value / 128)).map (UInt8.ofNat (value % 128 + 128) :: ·)

theorem readVarint_ok_append {left v mult i value size : ℕ}
    (h : readVarint left v mult i d = .ok value size) (x : Bytes) :
    readVarint left v mult i (d ++ x) = .ok value size := by
  induction left generalizing v mult i d with
  | zero => simp [readVarint] at h
  | succ left ih =>
    cases d with
    | nil => simp [readVarint] at h
    | cons b rest =>
      simp only [cons_append, readVarint] at h ⊢
      split
      · rwa [if_pos (by assumption)] at h
      · rw [if_neg (by assumption)] at h
        exact ih h

theorem readVarint_bad_append {left v mult i : ℕ} (h : readVarint left v mult i d = .bad)
    (x : Bytes) : readVarint left v mult i (d ++ x) = .bad := by
  induction left generalizing v mult i d with
  | zero => rfl
  | succ left ih =>
    cases d with
    | nil => simp [readVarint] at h
    | cons b rest =>
      simp only [cons_append, readVarint] at h ⊢
      split
      · rw [if_pos (by assumption)] at h
        simp at h
      · rw [if_neg (by assumption)] at h
        exact ih h

theorem readVarint_size {left v mult i value size : ℕ}
    (h : readVarint left v mult i d = .ok value size) : i < size ∧ size ≤ i + d.length := by
  induction left generalizing v mult i d with
  | zero => simp [readVarint] at h
  | succ left ih =>
    cases d with
    | nil => simp [readVarint] at h
    | cons b rest =>
      simp only [readVarint] at h
      rw [length_cons]
      split at h
      · have hsize : i + 1 = size := (Read.ok.inj h).2
        omega
      · have := ih h
        omega

theorem putVarint_isSome (left value : ℕ) :
    (putVarint left value).isSome ↔ value < 128 ^ left ∧ 0 < left := by
  induction left generalizing value with
  | zero => simp [putVarint]
  | succ left ih =>
    have hpow : 1 ≤ 128 ^ left := Nat.one_le_pow _ _ (by norm_num)
    simp only [putVarint]
    split
    · simp only [isSome_some, true_iff, Nat.pow_succ]
      constructor
      · omega
      · omega
    · rw [isSome_map, ih, Nat.div_lt_iff_lt_mul (by norm_num), Nat.pow_succ]
      constructor
      · rintro ⟨h, -⟩
        exact ⟨h, Nat.succ_pos _⟩
      · rintro ⟨h, -⟩
        refine ⟨h, ?_⟩
        by_contra hl
        have hl0 : left = 0 := by omega
        subst hl0
        simp at h
        omega

theorem putVarint_succ {left value : ℕ} {bs : Bytes} (h : putVarint left value = some bs) :
    putVarint (left + 1) value = some bs := by
  induction left generalizing value bs with
  | zero => simp [putVarint] at h
  | succ left ih =>
    rw [putVarint] at h ⊢
    split at h
    · next h0 =>
      rw [if_pos h0]
      exact h
    · next h0 =>
      obtain ⟨tail, ht, rfl⟩ := map_eq_some_iff.mp h
      rw [if_neg h0, ih ht]
      rfl

theorem low_toNat (value : ℕ) : (UInt8.ofNat (value % 128)).toNat = value % 128 := by
  rw [UInt8.toNat_ofNat']
  omega

theorem high_toNat (value : ℕ) : (UInt8.ofNat (value % 128 + 128)).toNat = value % 128 + 128 := by
  rw [UInt8.toNat_ofNat']
  omega

theorem readVarint_putVarint {left v mult i value : ℕ} {bs : Bytes}
    (h : putVarint left value = some bs) (rest : Bytes) :
    readVarint left v mult i (bs ++ rest) = .ok (v + value * mult) (i + bs.length) := by
  induction left generalizing v mult i value bs with
  | zero => simp [putVarint] at h
  | succ left ih =>
    simp only [putVarint] at h
    split at h
    · obtain rfl := some.inj h
      have hval : value % 128 = value := by omega
      simp only [cons_append, nil_append, readVarint, low_toNat]
      rw [if_pos (by omega), Nat.mod_mod, hval]
      rfl
    · obtain ⟨tail, ht, rfl⟩ := map_eq_some_iff.mp h
      simp only [cons_append, readVarint, high_toNat]
      rw [if_neg (by omega), ih ht, length_cons]
      have hlow : (value % 128 + 128) % 128 = value % 128 := by omega
      have hval : value = value % 128 + 128 * (value / 128) := (Nat.mod_add_div value 128).symm
      rw [hlow]
      congr 1
      · calc v + value % 128 * mult + value / 128 * (mult * 128)
            = v + (value % 128 + 128 * (value / 128)) * mult := by ring
          _ = v + value * mult := by rw [← hval]
      · omega

theorem readVarint_cut {left v mult i value n : ℕ}
    (h : readVarint left v mult i d = .ok value (i + d.length)) (hn : n < d.length) :
    readVarint left v mult i (d.take n) = .more := by
  induction left generalizing v mult i n d with
  | zero => simp [readVarint] at h
  | succ left ih =>
    cases d with
    | nil => simp at hn
    | cons b rest =>
      cases n with
      | zero => rfl
      | succ n =>
        rw [length_cons] at h hn
        simp only [take_succ_cons, readVarint] at h ⊢
        split
        · rw [if_pos (by assumption)] at h
          have hsize : i + 1 = i + (rest.length + 1) := (Read.ok.inj h).2
          omega
        · rw [if_neg (by assumption)] at h
          refine ih ?_ (by omega)
          rw [h, show i + (rest.length + 1) = i + 1 + rest.length by omega]

end Voxlib.Wire
