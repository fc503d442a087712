import Voxlib.Crypto.Base64

/-!
# Base64 there and back (vox_crypto.c:751-789, 843-906)
-/

namespace Voxlib.Crypto
open CStr List

/- vox_base64_encode with its terminator (vox_crypto.c:787-788). -/
def encodeCall (data : Bytes) (outputSize : ℕ) : Written :=
  match base64Encode data outputSize with
  | some out => ⟨toInt out.length, out ++ [0]⟩
  | none => ⟨-1, []⟩

/- vox_base64_decode of the C string in a buffer (vox_crypto.c:844, 905). -/
def decodeCall (buffer : Bytes) (outputSize : ℕ) : Written :=
  match base64Decode (cstr buffer) outputSize with
  | some out => ⟨toInt out.length, out⟩
  | none => ⟨-1, []⟩

theorem sextet_base64Char {v : ℕ} (h : v < 64) : sextet (base64Char v) = some v := by
  have hall : ∀ n : Fin 64, sextet (base64Char n) = some n.val := by decide
  exact hall ⟨v, h⟩

theorem base64Char_ne_pad {v : ℕ} (h : v < 64) : base64Char v ≠ 61 := by
  have hall : ∀ n : Fin 64, base64Char n ≠ 61 := by decide
  exact hall ⟨v, h⟩

/-- A character that neither ends a C string nor is cut off as blank. -/
def Visible (c : UInt8) : Prop := c ≠ 0 ∧ isBlank c = false

theorem visible_base64Char {v : ℕ} (h : v < 64) : Visible (base64Char v) := by
  have hall : ∀ n : Fin 64, base64Char n ≠ 0 ∧ isBlank (base64Char n) = false := by decide
  exact hall ⟨v, h⟩

theorem visible_pad : Visible 61 := ⟨by decide, by decide⟩

variable (n : ℕ)

theorem and_63_lt : n &&& 0x3F < 64 := Nat.and_lt_two_pow (n := 6) n (by decide)

theorem and_63 : n &&& 0x3F = n % 64 := Nat.and_two_pow_sub_one_eq_mod n 6

theorem and_15 : n &&& 0xF = n % 16 := Nat.and_two_pow_sub_one_eq_mod n 4

theorem and_3 : n &&& 0x3 = n % 4 := Nat.and_two_pow_sub_one_eq_mod n 2

theorem shiftLeft_or {a b k : ℕ} (h : b < 2 ^ k) : a <<< k ||| b = a * 2 ^ k + b := by
  rw [← Nat.shiftLeft_add_eq_or_of_lt h, Nat.shiftLeft_eq]

/-- The high half of a byte, cut out in place. -/
theorem and_240 (b : UInt8) : (b.toNat &&& 0xF0) >>> 4 = b.toNat / 16 := by
  have hb : b.toNat < 256 := b.toNat_lt
  have hmask : 0xF0 >>> 4 = 0xF := rfl
  rw [Nat.shiftRight_and_distrib, hmask, and_15, Nat.shiftRight_eq_div_pow]
  omega

theorem firstByte_eq {v1 v2 : ℕ} (h : v2 < 64) :
    firstByte v1 v2 = UInt8.ofNat (v1 * 4 + v2 / 16) := by
  have hlow : v2 >>> 4 < 2 ^ 2 := by
    rw [Nat.shiftRight_eq_div_pow]
    omega
  rw [firstByte, shiftLeft_or hlow, Nat.shiftRight_eq_div_pow]
  rfl

theorem secondByte_eq {v2 v3 : ℕ} (h : v3 < 64) :
    secondByte v2 v3 = UInt8.ofNat (v2 % 16 * 16 + v3 / 4) := by
  have hlow : v3 >>> 2 < 2 ^ 4 := by
    rw [Nat.shiftRight_eq_div_pow]
    omega
  rw [secondByte, shiftLeft_or hlow, Nat.shiftRight_eq_div_pow, and_15]
  rfl

theorem thirdByte_eq {v3 v4 : ℕ} (h : v4 < 64) :
    thirdByte v3 v4 = UInt8.ofNat (v3 % 4 * 64 + v4) := by
  have hlow : v4 < 2 ^ 6 := h
  rw [thirdByte, shiftLeft_or hlow, and_3]
  rfl

theorem triple_eq (a b c : UInt8) :
    a.toNat <<< 16 ||| b.toNat <<< 8 ||| c.toNat = a.toNat * 65536 + b.toNat * 256 + c.toNat := by
  have hb : b.toNat < 256 := b.toNat_lt
  have hc : c.toNat < 2 ^ 8 := c.toNat_lt
  have hhigh : a.toNat <<< 16 ||| b.toNat <<< 8 = (a.toNat * 256 + b.toNat) <<< 8 := by
    rw [Nat.shiftLeft_eq (b.toNat), shiftLeft_or (by omega), Nat.shiftLeft_eq]
    omega
  rw [hhigh, shiftLeft_or hc]
  omega

theorem ofNat_of_eq {n : ℕ} {b : UInt8} (h : n = b.toNat) : UInt8.ofNat n = b := by
  rw [h, UInt8.ofNat_toNat]

def groupValues (a b c : UInt8) : ℕ × ℕ × ℕ × ℕ :=
  let triple := a.toNat <<< 16 ||| b.toNat <<< 8 ||| c.toNat
  (triple >>> 18 &&& 0x3F, triple >>> 12 &&& 0x3F, triple >>> 6 &&& 0x3F, triple &&& 0x3F)

theorem group_bytes (a b c : UInt8) :
    let v := groupValues a b c
    firstByte v.1 v.2.1 = a ∧ secondByte v.2.1 v.2.2.1 = b ∧
      thirdByte v.2.2.1 v.2.2.2 = c := by
  have ha : a.toNat < 256 := a.toNat_lt
  have hb : b.toNat < 256 := b.toNat_lt
  have hc : c.toNat < 256 := c.toNat_lt
  simp only [groupValues]
  rw [firstByte_eq (and_63_lt _), secondByte_eq (and_63_lt _), thirdByte_eq (and_63_lt _)]
  simp only [and_63, triple_eq, Nat.shiftRight_eq_div_pow]
  refine ⟨ofNat_of_eq ?_, ofNat_of_eq ?_, ofNat_of_eq ?_⟩ <;> omega

theorem decodeGroups_group (a b c : UInt8) (l : Bytes) :
    decodeGroups (encodeGroups [a, b, c] ++ l) =
      (decodeGroups l).map fun r => (r.1, a :: b :: c :: r.2) := by
  obtain ⟨h1, h2, h3⟩ := group_bytes a b c
  simp only [groupValues] at h1 h2 h3
  simp only [encodeGroups, cons_append, nil_append, decodeGroups,
    sextet_base64Char (and_63_lt _), Option.bind_eq_bind, Option.bind_some, h1, h2, h3]
  cases decodeGroups l with
  | none => rfl
  | some r => rfl

theorem decodeGroups_short {l : Bytes} (h : l.length < 4) : decodeGroups l = some (l, []) := by
  match l, h with
  | [], _ => rfl
  | [_], _ => rfl
  | [_, _], _ => rfl
  | [_, _, _], _ => rfl

/-- A text is whole groups and a rest of at most two bytes, encoded one behind the other; the
decoder gives the groups back and stops at a rest of less than four characters. -/
theorem exists_groups (x : Bytes) : ∃ whole rest : Bytes, x = whole ++ rest ∧
    whole.length % 3 = 0 ∧ rest.length < 3 ∧
    encodeGroups x = encodeGroups whole ++ encodeGroups rest ∧
    (∀ c ∈ encodeGroups whole, ∃ v < 64, c = base64Char v) ∧
    (encodeGroups whole).length = whole.length / 3 * 4 ∧
    ∀ l : Bytes, l.length < 4 → decodeGroups (encodeGroups whole ++ l) = some (l, whole) := by
  induction x using encodeGroups.induct with
  | case1 a b c x ih =>
    obtain ⟨whole, rest, rfl, hmod, hrest, henc, hchars, hlen, hdec⟩ := ih
    have hcons (y : Bytes) :
        encodeGroups (a :: b :: c :: y) = encodeGroups [a, b, c] ++ encodeGroups y := by
      simp only [encodeGroups, cons_append, nil_append]
    refine ⟨a :: b :: c :: whole, rest, rfl, by simp; omega, hrest, ?_, ?_, ?_, ?_⟩
    · rw [hcons (whole ++ rest), hcons whole, henc, append_assoc]
    · intro d hd
      rw [hcons, mem_append] at hd
      rcases hd with hd | hd
      · simp only [encodeGroups, mem_cons, not_mem_nil, or_false] at hd
        rcases hd with rfl | rfl | rfl | rfl
        · exact ⟨_, and_63_lt _, rfl⟩
        · exact ⟨_, and_63_lt _, rfl⟩
        · exact ⟨_, and_63_lt _, rfl⟩
        · exact ⟨_, and_63_lt _, rfl⟩
      · exact hchars d hd
    · rw [hcons, length_append, hlen]
      simp only [encodeGroups, length_cons, length_nil]
      omega
    · intro l hl
      rw [hcons, append_assoc, decodeGroups_group, hdec l hl]
      rfl
  | case2 a b => exact ⟨[], [a, b], rfl, rfl, Nat.lt_succ_self 2, rfl,
      by simp [encodeGroups], rfl,
      fun l hl => decodeGroups_short hl⟩
  | case3 a => exact ⟨[], [a], rfl, rfl, Nat.succ_lt_succ Nat.zero_lt_two, rfl,
      by simp [encodeGroups], rfl,
      fun l hl => decodeGroups_short hl⟩
  | case4 => exact ⟨[], [], rfl, rfl, by decide, rfl, by simp [encodeGroups], rfl,
      fun l hl => decodeGroups_short hl⟩

theorem oneByte_read (a : UInt8) :
    ∃ v1 < 64, ∃ v2 < 64, encodeGroups [a] = [base64Char v1, base64Char v2, 61, 61] ∧
      firstByte v1 v2 = a := by
  have ha : a.toNat < 256 := a.toNat_lt
  have h2 : (a.toNat &&& 0x3) <<< 4 < 64 := by
    rw [and_3, Nat.shiftLeft_eq]
    omega
  refine ⟨_, and_63_lt _, _, h2, rfl, ?_⟩
  rw [firstByte_eq h2]
  refine ofNat_of_eq ?_
  simp only [and_63, and_3, Nat.shiftLeft_eq, Nat.shiftRight_eq_div_pow]
  omega

theorem twoBytes_read (a b : UInt8) : ∃ v1 < 64, ∃ v2 < 64, ∃ v3 < 64,
      encodeGroups [a, b] = [base64Char v1, base64Char v2, base64Char v3, 61] ∧
      firstByte v1 v2 = a ∧ secondByte v2 v3 = b := by
  have ha : a.toNat < 256 := a.toNat_lt
  have hb : b.toNat < 256 := b.toNat_lt
  have hmid : (a.toNat &&& 0x3) <<< 4 ||| (b.toNat &&& 0xF0) >>> 4 =
      a.toNat % 4 * 16 + b.toNat / 16 := by
    rw [and_240, shiftLeft_or (by omega), and_3]
    rfl
  have h2 : (a.toNat &&& 0x3) <<< 4 ||| (b.toNat &&& 0xF0) >>> 4 < 64 := by
    rw [hmid]
    omega
  have h3 : (b.toNat &&& 0xF) <<< 2 < 64 := by
    rw [and_15, Nat.shiftLeft_eq]
    omega
  refine ⟨_, and_63_lt _, _, h2, _, h3, rfl, ?_, ?_⟩
  · rw [firstByte_eq h2, hmid, and_63, Nat.shiftRight_eq_div_pow]
    exact ofNat_of_eq (by omega)
  · rw [secondByte_eq h3, hmid, and_15, Nat.shiftLeft_eq]
    exact ofNat_of_eq (by omega)

theorem encodeGroups_visible (x : Bytes) : ∀ c ∈ encodeGroups x, Visible c := by
  obtain ⟨whole, rest, -, -, hrest, henc, hchars, -, -⟩ := exists_groups x
  intro c hc
  rw [henc, mem_append] at hc
  rcases hc with hc | hc
  · obtain ⟨v, hv, rfl⟩ := hchars c hc
    exact visible_base64Char hv
  · match rest, hrest with
    | [], _ => simp [encodeGroups] at hc
    | [a], _ =>
      obtain ⟨v1, h1, v2, h2, htext, -⟩ := oneByte_read a
      simp only [htext, mem_cons, not_mem_nil, or_false] at hc
      rcases hc with rfl | rfl | rfl | rfl
      · exact visible_base64Char h1
      · exact visible_base64Char h2
      · exact visible_pad
      · exact visible_pad
    | [a, b], _ =>
      obtain ⟨v1, h1, v2, h2, v3, h3, htext, -⟩ := twoBytes_read a b
      simp only [htext, mem_cons, not_mem_nil, or_false] at hc
      rcases hc with rfl | rfl | rfl | rfl
      · exact visible_base64Char h1
      · exact visible_base64Char h2
      · exact visible_base64Char h3
      · exact visible_pad

theorem encodeGroups_length (x : Bytes) : (encodeGroups x).length = (x.length + 2) / 3 * 4 := by
  induction x using encodeGroups.induct with
  | case1 a b c x ih =>
    simp only [encodeGroups, length_cons, ih]
    omega
  | case2 a b => simp [encodeGroups]
  | case3 a => simp [encodeGroups]
  | case4 => rfl

theorem cstr_terminated {b : Bytes} (h : ∀ c ∈ b, c ≠ 0) : cstr (b ++ [0]) = b := by
  have hb : ∀ c ∈ b, (decide (c ≠ 0)) = true := fun c hc => decide_eq_true (h c hc)
  rw [cstr, takeWhile_append_of_pos hb]
  simp

theorem trimmed_self {b : Bytes} (h : ∀ c ∈ b, isBlank c = false) :
    (b.reverse.dropWhile isBlank).reverse = b := by
  have hself : b.reverse.dropWhile isBlank = b.reverse := by
    cases hrev : b.reverse with
    | nil => rfl
    | cons c l =>
      have hc : c ∈ b := mem_reverse.mp (hrev ▸ mem_cons_self ..)
      rw [dropWhile_cons_of_neg (by rw [h c hc]; decide)]
  rw [hself, reverse_reverse]

theorem padded_cut (groups left pads : Bytes) :
    (groups ++ (left ++ pads)).take ((groups ++ (left ++ pads)).length - pads.length) =
        groups ++ left ∧
      (groups ++ (left ++ pads)).drop ((groups ++ (left ++ pads)).length - pads.length) = pads := by
  have hlen : (groups ++ (left ++ pads)).length - pads.length = (groups ++ left).length := by
    simp only [length_append]
    omega
  rw [hlen, ← append_assoc]
  exact ⟨take_left, drop_left⟩

theorem padded_last (groups : Bytes) (c1 c2 c3 c4 : UInt8) :
    (groups ++ [c1, c2, c3, c4])[(groups ++ [c1, c2, c3, c4]).length - 1]? = some c4 ∧
      (groups ++ [c1, c2, c3, c4])[(groups ++ [c1, c2, c3, c4]).length - 2]? = some c3 := by
  constructor
  · rw [List.getElem?_append_right (by simp)]
    simp
  · rw [List.getElem?_append_right (by simp)]
    simp

/-- Decoding what was encoded, for every output buffer that holds the text. -/
theorem base64Decode_encodeGroups {x : Bytes} {outputSize : ℕ} (hlen : x.length < 2 ^ 62)
    (hsize : x.length ≤ outputSize) : base64Decode (encodeGroups x) outputSize = some x := by
  have hblank : ∀ c ∈ encodeGroups x, isBlank c = false := fun c hc =>
    (encodeGroups_visible x c hc).2
  by_cases hx : x = []
  · rw [hx]
    rfl
  have htotal := encodeGroups_length x
  have hpos : 0 < x.length := length_pos_iff.mpr hx
  have hne : (encodeGroups x).length ≠ 0 := by omega
  simp only [base64Decode, trimmed_self hblank, if_neg hne]
  obtain ⟨whole, rest, rfl, hmod, hrest, henc, hchars, hwhole, hdec⟩ := exists_groups x
  simp only [length_append] at hlen hsize
  match rest, hrest with
  | [], _ =>
    -- no padding: the text is whole groups
    have hnopad (i : ℕ) : (encodeGroups whole)[i]? ≠ some 61 := by
      intro hi
      obtain ⟨v, hv, hc⟩ := hchars 61 (mem_of_getElem? hi)
      exact base64Char_ne_pad hv hc.symm
    have hall := hdec [] (by decide)
    simp only [append_nil] at hall ⊢
    have hout : (encodeGroups whole).length * 3 / 4 = whole.length := by omega
    simp only [hnopad, and_false, if_false, Nat.add_zero, Nat.sub_zero, hout, take_length,
      hall, Nat.add_mod_right, Nat.mod_eq_of_lt (show whole.length < 2 ^ 64 by omega)]
    rw [if_neg (by simpa using hsize)]
    simp
  | [a], _ =>
    obtain ⟨v1, h1, v2, h2, htext, hfirst⟩ := oneByte_read a
    rw [htext] at henc
    have hleft := hdec [base64Char v1, base64Char v2] (by simp)
    obtain ⟨hcut, hpads⟩ :=
      padded_cut (encodeGroups whole) [base64Char v1, base64Char v2] [61, 61]
    have hlast := padded_last (encodeGroups whole) (base64Char v1) (base64Char v2) 61 61
    have hlong : 1 < (encodeGroups whole).length + 4 := by omega
    have hout : (((encodeGroups whole).length + 4) * 3 / 4 + 2 ^ 64 - (1 + 1)) % 2 ^ 64 =
        whole.length + 1 := by omega
    have hroom : ¬ outputSize < whole.length + 1 := by simpa using hsize
    simp only [cons_append, nil_append, length_append, length_cons,
      length_nil] at hcut hpads hlast
    simp only [henc, length_append, length_cons, length_nil, hlast, hlong, and_self,
      if_true, hcut, hpads, hout, hleft, if_neg hroom]
    simp [sextet_base64Char h1, sextet_base64Char h2, hfirst]
  | [a, b], _ =>
    obtain ⟨v1, h1, v2, h2, v3, h3, htext, hfirst, hsecond⟩ := twoBytes_read a b
    rw [htext] at henc
    have hleft := hdec [base64Char v1, base64Char v2, base64Char v3] (by simp)
    obtain ⟨hcut, hpads⟩ :=
      padded_cut (encodeGroups whole) [base64Char v1, base64Char v2, base64Char v3] [61]
    have hlast := padded_last (encodeGroups whole) (base64Char v1) (base64Char v2)
      (base64Char v3) 61
    have hone : ¬ (1 < (encodeGroups whole).length + 4 ∧ some (base64Char v3) = some 61) :=
      fun h => base64Char_ne_pad h3 (Option.some.inj h.2)
    have hout : (((encodeGroups whole).length + 4) * 3 / 4 + 2 ^ 64 - (1 + 0)) % 2 ^ 64 =
        whole.length + 2 := by omega
    have hroom : ¬ outputSize < whole.length + 2 := by simpa using hsize
    simp only [cons_append, nil_append, length_append, length_cons,
      length_nil] at hcut hpads hlast
    simp only [henc, length_append, length_cons, length_nil, hlast, hone,
      if_true, if_false, hcut, hpads, hout, hleft, if_neg hroom]
    simp [sextet_base64Char h1, sextet_base64Char h2, sextet_base64Char h3, hfirst, hsecond]

theorem ceil_third : ⌈(n : ℚ) / 3⌉ = ((n + 2) / 3 : ℕ) := by
  have hle : n ≤ 3 * ((n + 2) / 3) := by omega
  have hlt : 3 * ((n + 2) / 3) < n + 3 := by omega
  have hleq : (n : ℚ) ≤ 3 * ((n + 2) / 3 : ℕ) := by exact_mod_cast hle
  have hltq : 3 * ((n + 2) / 3 : ℕ) < (n : ℚ) + 3 := by exact_mod_cast hlt
  rw [Int.ceil_eq_iff, Int.cast_natCast]
  constructor <;> linarith

/-- Encoding into a buffer of the documented size and decoding the C string in it gives the bytes
back; the encoder returns four characters for each three bytes begun. -/
theorem base64_round_trip (x : Bytes) (encodedSize outputSize : ℕ)
    (hint : (x.length + 2) / 3 * 4 ≤ 2 ^ 31 - 1)
    (hencoded : (x.length + 2) / 3 * 4 + 1 ≤ encodedSize) (houtput : x.length ≤ outputSize) :
    (encodeCall x encodedSize).ret = 4 * ⌈(x.length : ℚ) / 3⌉ ∧
      decodeCall (encodeCall x encodedSize).output outputSize = ⟨x.length, x⟩ := by
  have hcall : encodeCall x encodedSize =
      ⟨toInt (encodeGroups x).length, encodeGroups x ++ [0]⟩ := by
    rw [encodeCall, base64Encode, if_neg (by omega)]
  have hceil := ceil_third x.length
  constructor
  · rw [hcall]
    show toInt _ = _
    rw [encodeGroups_length, toInt_of_le hint, hceil]
    push_cast
    ring
  · have hcstr : cstr (encodeGroups x ++ [0]) = encodeGroups x :=
      cstr_terminated fun c hc => (encodeGroups_visible x c hc).1
    have hdecode := base64Decode_encodeGroups (x := x) (by omega) houtput
    rw [hcall, decodeCall, hcstr, hdecode]
    show (⟨toInt x.length, x⟩ : Written) = _
    rw [toInt_of_le (by omega)]

theorem base64_round_trip_user :
    (encodeCall (lit "user") 9).ret = 4 * ⌈((lit "user").length : ℚ) / 3⌉ ∧
      decodeCall (encodeCall (lit "user") 9).output 4 = ⟨(lit "user").length, lit "user"⟩ :=
  base64_round_trip (lit "user") 9 4 (by decide) (by decide) (by decide)

end Voxlib.Crypto
