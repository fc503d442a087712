import Voxlib.Lib.CStr

/-!
# UTF-8

A group is a lead byte with as many tail bytes as it says; not every group encodes a character.
-/

namespace Voxlib.Utf8
open CStr List

def WellFormed (data : Bytes) : Prop := ∃ cs : List Char, data = cs.flatMap String.utf8EncodeChar

def Tail (b : UInt8) : Prop := 0x80 ≤ b.toNat ∧ b.toNat < 0xC0

/-- A lead byte and the tail bytes that it asks for. -/
inductive Shaped : Bytes → Prop
  | one {a : UInt8} : a.toNat < 0x80 → Shaped [a]
  | two {a b : UInt8} : 0xC0 ≤ a.toNat → a.toNat < 0xE0 → Tail b → Shaped [a, b]
  | three {a b c : UInt8} : 0xE0 ≤ a.toNat → a.toNat < 0xF0 → Tail b → Tail c → Shaped [a, b, c]
  | four {a b c d : UInt8} : 0xF0 ≤ a.toNat → a.toNat < 0xF8 → Tail b → Tail c → Tail d →
      Shaped [a, b, c, d]

def number : Bytes → ℕ
  | [] => 0
  | [a] => a.toNat
  | [a, b] => a.toNat % 0x20 * 0x40 + b.toNat % 0x40
  | [a, b, c] => a.toNat % 0x10 * 0x1000 + b.toNat % 0x40 * 0x40 + c.toNat % 0x40
  | a :: b :: c :: d :: _ =>
    a.toNat % 0x08 * 0x40000 + b.toNat % 0x40 * 0x1000 + c.toNat % 0x40 * 0x40 + d.toNat % 0x40

/- The least number that takes a group of `n` bytes. -/
def least : ℕ → ℕ
  | 2 => 0x80
  | 3 => 0x800
  | 4 => 0x10000
  | _ => 0

/-- An overlong form, a surrogate or a number above U+10FFFF. -/
def Faulty (g : Bytes) : Prop :=
  number g < least g.length ∨ 0xD800 ≤ number g ∧ number g < 0xE000 ∨ 0x10FFFF < number g

/-- The bytes divide into these groups. -/
structure Divides (data : Bytes) (gs : List Bytes) : Prop where
  flatten : gs.flatten = data
  shaped : ∀ g ∈ gs, Shaped g

theorem tail_ofNat {n : ℕ} (h : n < 0x40) : Tail (UInt8.ofNat (n + 0x80)) := by
  have hmod : (n + 0x80) % 256 = n + 0x80 := Nat.mod_eq_of_lt (by omega)
  simp only [Tail, UInt8.toNat_ofNat', Nat.reducePow, hmod]
  omega

theorem toNat_ofNat_add {n k : ℕ} (h : n + k < 256) : (UInt8.ofNat (n + k)).toNat = n + k := by
  rw [UInt8.toNat_ofNat']
  exact Nat.mod_eq_of_lt h

theorem shaped_encode (c : Char) : Shaped (String.utf8EncodeChar c) := by
  have hmod : ∀ n k : ℕ, 0 < k → n % k < k := fun n k h => Nat.mod_lt n h
  unfold String.utf8EncodeChar
  dsimp only
  split
  · next h =>
    refine .one ?_
    rw [UInt8.toNat_ofNat', Nat.mod_eq_of_lt (by omega)]
    omega
  split
  · next h =>
    have hlead := hmod (c.val.toNat / 64) 0x20 (by omega)
    refine .two ?_ ?_ (tail_ofNat (hmod _ _ (by omega))) <;>
      rw [toNat_ofNat_add (by omega)] <;> omega
  split
  · next h =>
    have hlead := hmod (c.val.toNat / 4096) 0x10 (by omega)
    refine .three ?_ ?_ (tail_ofNat (hmod _ _ (by omega))) (tail_ofNat (hmod _ _ (by omega))) <;>
      rw [toNat_ofNat_add (by omega)] <;> omega
  · have hlead := hmod (c.val.toNat / 262144) 0x08 (by omega)
    refine .four ?_ ?_ (tail_ofNat (hmod _ _ (by omega))) (tail_ofNat (hmod _ _ (by omega)))
      (tail_ofNat (hmod _ _ (by omega))) <;>
      rw [toNat_ofNat_add (by omega)] <;> omega

theorem number_encode (c : Char) : number (String.utf8EncodeChar c) = c.val.toNat := by
  have hmax : c.val.toNat < 0x110000 := by
    rcases c.valid with h | h <;> omega
  have hmod : ∀ n k : ℕ, 0 < k → n % k < k := fun n k h => Nat.mod_lt n h
  have hlow := hmod c.val.toNat 0x40 (by omega)
  have hmid := hmod (c.val.toNat / 64) 0x40 (by omega)
  have htop := hmod (c.val.toNat / 4096) 0x40 (by omega)
  unfold String.utf8EncodeChar
  dsimp only
  split
  · next h => exact Nat.mod_eq_of_lt (by omega)
  split
  · next h =>
    have hlead := hmod (c.val.toNat / 64) 0x20 (by omega)
    simp only [number, toNat_ofNat_add (show c.val.toNat / 64 % 0x20 + 0xc0 < 256 by omega),
      toNat_ofNat_add (show c.val.toNat % 0x40 + 0x80 < 256 by omega)]
    omega
  split
  · next h =>
    have hlead := hmod (c.val.toNat / 4096) 0x10 (by omega)
    simp only [number, toNat_ofNat_add (show c.val.toNat / 4096 % 0x10 + 0xe0 < 256 by omega),
      toNat_ofNat_add (show c.val.toNat / 64 % 0x40 + 0x80 < 256 by omega),
      toNat_ofNat_add (show c.val.toNat % 0x40 + 0x80 < 256 by omega)]
    omega
  · have hlead := hmod (c.val.toNat / 262144) 0x08 (by omega)
    simp only [number, toNat_ofNat_add (show c.val.toNat / 262144 % 0x08 + 0xf0 < 256 by omega),
      toNat_ofNat_add (show c.val.toNat / 4096 % 0x40 + 0x80 < 256 by omega),
      toNat_ofNat_add (show c.val.toNat / 64 % 0x40 + 0x80 < 256 by omega),
      toNat_ofNat_add (show c.val.toNat % 0x40 + 0x80 < 256 by omega)]
    omega

theorem least_encode (c : Char) : least (String.utf8EncodeChar c).length ≤ c.val.toNat := by
  unfold String.utf8EncodeChar
  dsimp only
  split
  · exact Nat.zero_le _
  split
  · next h _ => simp only [length_cons, length_nil, least]; omega
  split
  · next h _ => simp only [length_cons, length_nil, least]; omega
  · next h => simp only [length_cons, length_nil, least]; omega

theorem not_faulty_encode (c : Char) : ¬ Faulty (String.utf8EncodeChar c) := by
  have hleast := least_encode c
  have hvalid := c.valid
  rintro (h | h | h) <;> rw [number_encode] at h
  · omega
  · rcases hvalid with hc | hc <;> simp only [UInt32.toNat] at * <;> omega
  · rcases hvalid with hc | hc <;> simp only [UInt32.toNat] at * <;> omega

theorem Shaped.encodes {g : Bytes} (h : Shaped g) (hg : ¬ Faulty g) :
    ∃ c : Char, String.utf8EncodeChar c = g := by
  simp only [Faulty, not_or, not_lt, not_and] at hg
  obtain ⟨hleast, hsurrogate, hmax⟩ := hg
  have hvalid : (number g).isValidChar := by
    by_cases hn : number g < 0xD800
    · exact .inl hn
    · exact .inr ⟨by have := hsurrogate (by omega); omega, by omega⟩
  refine ⟨Char.ofNatAux (number g) hvalid, ?_⟩
  have hval : (Char.ofNatAux (number g) hvalid).val.toNat = number g := rfl
  have hbyte : ∀ {b : UInt8} {n : ℕ}, n = b.toNat → UInt8.ofNat n = b := by
    rintro b n rfl
    exact UInt8.ofNat_toNat
  unfold String.utf8EncodeChar
  dsimp only
  rw [hval]
  clear hval hvalid hsurrogate
  generalize hn : number g = n at *
  cases h with
  | @one a ha =>
    simp only [number] at hn
    rw [if_pos (by omega), hbyte hn.symm]
  | @two a b ha ha' hb =>
    simp only [number, length_cons, length_nil, least, Tail] at hn hleast hb
    rw [if_neg (by omega), if_pos (by omega), hbyte (b := a) (by omega), hbyte (b := b) (by omega)]
  | @three a b c ha ha' hb hc =>
    simp only [number, length_cons, length_nil, least, Tail] at hn hleast hb hc
    rw [if_neg (by omega), if_neg (by omega), if_pos (by omega), hbyte (b := a) (by omega),
      hbyte (b := b) (by omega), hbyte (b := c) (by omega)]
  | @four a b c d ha ha' hb hc hd =>
    simp only [number, length_cons, length_nil, least, Tail] at hn hleast hb hc hd
    rw [if_neg (by omega), if_neg (by omega), if_neg (by omega), hbyte (b := a) (by omega),
      hbyte (b := b) (by omega), hbyte (b := c) (by omega), hbyte (b := d) (by omega)]

theorem Shaped.unique {g g' r r' : Bytes} (h : Shaped g) (h' : Shaped g') (he : g ++ r = g' ++ r') :
    g = g' ∧ r = r' := by
  cases h <;> cases h' <;>
    simp only [cons_append, nil_append, List.cons.injEq] at he ⊢ <;> grind

theorem Shaped.ne_nil {g : Bytes} (h : Shaped g) : g ≠ [] := by
  cases h <;> exact cons_ne_nil _ _

theorem Divides.unique {data : Bytes} {gs gs' : List Bytes} (h : Divides data gs)
    (h' : Divides data gs') : gs = gs' := by
  induction gs generalizing data gs' with
  | nil =>
    cases gs' with
    | nil => rfl
    | cons g' gs' =>
      have he := h'.flatten.trans h.flatten.symm
      exact absurd (append_eq_nil_iff.mp he).1 (h'.shaped g' (mem_cons_self ..)).ne_nil
  | cons g gs ih =>
    cases gs' with
    | nil =>
      have he := h.flatten.trans h'.flatten.symm
      exact absurd (append_eq_nil_iff.mp he).1 (h.shaped g (mem_cons_self ..)).ne_nil
    | cons g' gs' =>
      have he : g ++ gs.flatten = g' ++ gs'.flatten := h.flatten.trans h'.flatten.symm
      obtain ⟨rfl, hr⟩ := (h.shaped g (mem_cons_self ..)).unique
        (h'.shaped g' (mem_cons_self ..)) he
      have := ih ⟨rfl, fun x hx => h.shaped x (mem_cons_of_mem _ hx)⟩
        ⟨hr.symm, fun x hx => h'.shaped x (mem_cons_of_mem _ hx)⟩
      rw [this]

theorem wellFormed_iff {data : Bytes} :
    WellFormed data ↔ ∃ gs, Divides data gs ∧ ∀ g ∈ gs, ¬ Faulty g := by
  constructor
  · rintro ⟨cs, rfl⟩
    refine ⟨cs.map String.utf8EncodeChar, ⟨by rw [flatMap_def], ?_⟩, ?_⟩
    · intro g hg
      obtain ⟨c, -, rfl⟩ := mem_map.mp hg
      exact shaped_encode c
    · intro g hg
      obtain ⟨c, -, rfl⟩ := mem_map.mp hg
      exact not_faulty_encode c
  · rintro ⟨gs, ⟨rfl, hgs⟩, hfault⟩
    induction gs with
    | nil => exact ⟨[], rfl⟩
    | cons g gs ih =>
      obtain ⟨cs, hcs⟩ := ih (fun x hx => hfault x (mem_cons_of_mem _ hx))
        (fun x hx => hgs x (mem_cons_of_mem _ hx))
      obtain ⟨c, hc⟩ := (hgs g (mem_cons_self ..)).encodes (hfault g (mem_cons_self ..))
      exact ⟨c :: cs, by rw [flatten_cons, flatMap_cons, hc, hcs]⟩

end Voxlib.Utf8
