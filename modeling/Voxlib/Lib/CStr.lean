import Mathlib.Tactic

/-!
# Byte strings

C strings and byte views are lists of bytes without the terminating NUL. A
read at or behind the end of a list is the terminator.
-/

namespace Voxlib.CStr
open List

abbrev Bytes := List UInt8

def lit (s : String) : Bytes := s.toList.map (fun c => c.toNat.toUInt8)

/-- What `strlen` sees of a buffer. -/
def cstr (b : Bytes) : Bytes := b.takeWhile (fun c => c ≠ 0)

theorem takeWhile_stop {p : UInt8 → Bool} {s x : Bytes} (hs : ∀ c ∈ s, p c = true)
    (hx : ∀ c ∈ x.head?, p c = false) : (s ++ x).takeWhile p = s ∧ (s ++ x).dropWhile p = x := by
  have hstop : x.takeWhile p = [] ∧ x.dropWhile p = x := by
    cases x with
    | nil => exact ⟨rfl, rfl⟩
    | cons c x =>
      have hc : ¬ p c = true := by simp [hx c rfl]
      exact ⟨takeWhile_cons_of_neg hc, dropWhile_cons_of_neg hc⟩
  rw [takeWhile_append_of_pos hs, dropWhile_append_of_pos hs, hstop.1, hstop.2,
    append_nil]
  exact ⟨rfl, rfl⟩

/-- What a call leaves: the returned `int` and the bytes of the output buffer. -/
structure Written where
  ret : ℤ
  output : Bytes
  deriving DecidableEq

def toInt (j : ℕ) : ℤ :=
  if j % 2 ^ 32 < 2 ^ 31 then (j % 2 ^ 32 : ℕ) else (j % 2 ^ 32 : ℕ) - 2 ^ 32

theorem toInt_of_le {j : ℕ} (h : j ≤ 2 ^ 31 - 1) : toInt j = j := by
  have hmod : j % 2 ^ 32 = j := Nat.mod_eq_of_lt (by omega)
  rw [toInt, hmod, if_pos (by omega)]

def lower (c : UInt8) : UInt8 := if 65 ≤ c ∧ c ≤ 90 then c + 32 else c

/- `strncmp(a, b, n) == 0` on the bytes seen through `f`: the comparison ends at
   a common NUL. -/
def strncmpBy (f : UInt8 → UInt8) : Bytes → Bytes → ℕ → Bool
  | _, _, 0 => true
  | a, b, n + 1 =>
    let x := a.headD 0
    let y := b.headD 0
    f x = f y && (x = 0 || strncmpBy f a.tail b.tail n)

def strncmp (a b : Bytes) (n : ℕ) : Bool := strncmpBy id a b n

def strncasecmp (a b : Bytes) (n : ℕ) : Bool := strncmpBy lower a b n

/- vox_string_append_data for each part, from an empty string that can grow to the lengths of
   `grow`; a part for which there is no memory is left out. -/
def appendAll (grow : ℕ → Bool) (parts : List Bytes) : Bytes :=
  parts.foldl (fun s part => if grow (s.length + part.length) then s ++ part else s) []

theorem appendAll_eq {grow : ℕ → Bool} (h : ∀ n, grow n = true) (parts : List Bytes) :
    appendAll grow parts = parts.flatten := by
  have hfold : ∀ s : Bytes, parts.foldl
      (fun s part => if grow (s.length + part.length) then s ++ part else s) s =
        s ++ parts.flatten := by
    induction parts with
    | nil => exact fun s => (append_nil s).symm
    | cons part parts ih =>
      intro s
      rw [foldl_cons, if_pos (h _), ih, flatten_cons, append_assoc]
  exact hfold []

theorem forall_uint8 {P : UInt8 → Prop} (h : ∀ n : Fin 256, P (UInt8.ofNat n)) (b : UInt8) :
    P b := by
  have hb := h ⟨b.toNat, b.toNat_lt⟩
  rwa [UInt8.ofNat_toNat] at hb

theorem forall_mem_of_all {P : UInt8 → Prop} [DecidablePred P] {b : Bytes}
    (h : b.all (fun c => P c) = true) : ∀ c ∈ b, P c := fun c hc =>
  of_decide_eq_true (all_eq_true.mp h c hc)

theorem strncmpBy_iff {f : UInt8 → UInt8} (hf : ∀ c, f 0 = f c → c = 0) (a b : Bytes)
    (hb : ∀ c ∈ b, c ≠ 0) :
    strncmpBy f a b b.length = true ↔ (a.take b.length).map f = b.map f := by
  induction b generalizing a with
  | nil => simp [strncmpBy]
  | cons y b ih =>
    have hy : y ≠ 0 := hb y (mem_cons_self ..)
    cases a with
    | nil => simpa [strncmpBy] using fun h => absurd (hf y h) hy
    | cons x a =>
      have hrest := ih a fun c hc => hb c (mem_cons_of_mem _ hc)
      have hx (h : f x = f y) : x ≠ 0 := fun hzero => hy (hf y (hzero ▸ h))
      show (decide (f x = f y) && (decide (x = 0) || strncmpBy f a b b.length)) = true ↔ _
      simp only [length_cons, take_succ_cons, map_cons, List.cons.injEq,
        Bool.and_eq_true, Bool.or_eq_true, decide_eq_true_eq, hrest]
      exact and_congr_right fun h => or_iff_right (hx h)

theorem lower_eq_zero (c : UInt8) (h : lower 0 = lower c) : c = 0 := by
  have hzero : lower 0 = 0 := by decide
  rw [hzero, lower] at h
  split at h
  · next hupper =>
    simp only [UInt8.le_iff_toNat_le, ← UInt8.toNat_inj, UInt8.toNat_add] at h hupper
    simp at h hupper
    omega
  · exact h.symm

end Voxlib.CStr
