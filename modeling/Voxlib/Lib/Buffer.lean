import Mathlib.Tactic

/-!
# Checked accesses to an allocated buffer

Every access to the list of cells fails when a cell lies outside. Positions and lengths are
words of `w` bits.
-/

namespace Voxlib.Buffer
open List

variable {α : Type*}

def addWord (w a b : ℕ) : ℕ := (a + b) % 2 ^ w

def subWord (w a b : ℕ) : ℕ := (((a : ℤ) - b) % 2 ^ w).toNat

theorem addWord_eq {w a b : ℕ} (h : a + b < 2 ^ w) : addWord w a b = a + b := Nat.mod_eq_of_lt h

theorem subWord_eq {w a b : ℕ} (hle : b ≤ a) (ha : a < 2 ^ w) : subWord w a b = a - b := by
  have hlt : ((a : ℤ) - b) < 2 ^ w := by
    have hcast : (a : ℤ) < 2 ^ w := by exact_mod_cast ha
    omega
  rw [subWord, Int.emod_eq_of_lt (by omega) hlt]
  omega

theorem subWord_below {w a b : ℕ} (hlt : a < b) (hb : b ≤ 2 ^ w) :
    subWord w a b = 2 ^ w - (b - a) := by
  have hcast : ((2 ^ w : ℕ) : ℤ) = 2 ^ w := by push_cast; rfl
  have hmod : ((a : ℤ) - b) % 2 ^ w = (a : ℤ) - b + 2 ^ w := by
    rw [← Int.add_emod_right, Int.emod_eq_of_lt] <;> omega
  rw [subWord, hmod, ← hcast]
  omega

def load (b : List α) (i : ℕ) : Option α := b[i]?

def store (b : List α) (i : ℕ) (c : α) : Option (List α) :=
  if i < b.length then some (b.set i c) else none

def fetch (b : List α) (off n : ℕ) : Option (List α) :=
  if off + n ≤ b.length then some ((b.drop off).take n) else none

/-- Cells written over those from `off` on. -/
def blit (b : List α) (off : ℕ) (cells : List α) : Option (List α) :=
  if off + cells.length ≤ b.length then
    some (b.take off ++ (cells ++ b.drop (off + cells.length)))
  else none

/-- `memset(b + off, c, n)`. -/
def fill (b : List α) (off n : ℕ) (c : α) : Option (List α) :=
  if off + n ≤ b.length then blit b off (List.replicate n c) else none

/-- `memmove(b + dst, b + src, n)`. -/
def memmove (b : List α) (dst src n : ℕ) : Option (List α) :=
  (fetch b src n).bind (blit b dst)

theorem store_append (l : List α) (x : α) (r : List α) (c : α) :
    store (l ++ x :: r) l.length c = some (l ++ c :: r) := by
  simp [store]

theorem fetch_append (l m r : List α) : fetch (l ++ (m ++ r)) l.length m.length = some m := by
  simp [fetch]

theorem blit_append {l x r : List α} (h : x.length ≤ r.length) :
    blit (l ++ r) l.length x = some (l ++ (x ++ r.drop x.length)) := by
  have hin : l.length + x.length ≤ (l ++ r).length := by
    rw [length_append]
    omega
  rw [blit, if_pos hin, take_left, drop_append, drop_of_length_le (by omega)]
  simp

theorem fill_append {l r : List α} {n : ℕ} (c : α) (h : n ≤ r.length) :
    fill (l ++ r) l.length n c = some (l ++ (List.replicate n c ++ r.drop n)) := by
  have hin : l.length + n ≤ (l ++ r).length := by
    rw [length_append]
    omega
  have hblit := blit_append (l := l) (x := List.replicate n c) (r := r) (by simpa using h)
  rw [fill, if_pos hin, hblit, length_replicate]

theorem blit_nil {b : List α} {off : ℕ} (h : off ≤ b.length) : blit b off [] = some b := by
  simp [blit, h]

theorem splice {l r x y : List α} (hroom : x.length + y.length ≤ r.length) :
    ∃ rest, rest.length + x.length + y.length = r.length ∧
      (blit (l ++ r) (l.length + x.length) y).bind (fun b => blit b l.length x) =
        some (l ++ (x ++ (y ++ rest))) := by
  have hseam : l.length + x.length = (l ++ r.take x.length).length := by
    rw [length_append, length_take]
    omega
  have hsplit : l ++ r = (l ++ r.take x.length) ++ r.drop x.length := by
    rw [append_assoc, take_append_drop]
  have hpart : y.length ≤ (r.drop x.length).length := by
    rw [length_drop]
    omega
  have htake : (r.take x.length).length = x.length := by
    rw [length_take]
    omega
  refine ⟨(r.drop x.length).drop y.length, ?_, ?_⟩
  · rw [length_drop, length_drop]
    omega
  · rw [hsplit, hseam, blit_append hpart, Option.bind_some, append_assoc,
      blit_append (by rw [length_append]; omega),
      drop_append, drop_of_length_le (by omega)]
    simp [htake]

end Voxlib.Buffer
