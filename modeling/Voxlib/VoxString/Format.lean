import Voxlib.VoxString.Calls

/-!
# Formatted appends (vox_string.c)

With memory, a text that vsnprintf can format is appended as it is.
-/

namespace Voxlib.VoxString
open CStr Buffer Pow2 List Option

def intMax : ℕ := 2 ^ 31 - 1

/- The result of vsnprintf for a text, whatever the room; a negative one is that its length is no
   int. -/
def vsnprintfResult (text : Bytes) : ℤ := if text.length ≤ intMax then text.length else -1

-- vox_string_append_vformat (vox_string.c:485-522); `text` is the formatted text
def appendVformat (pool : Mpool) (s : Str) (text : Bytes) : Outcome :=
  if vsnprintfResult text < 0 then some (-1, s)
  else if vsnprintfResult text < 256 then appendData pool s text
  else
    afterGrowth pool s (addWord 64 text.length 1) fun s =>
      let available := subWord 64 s.capacity s.length
      if available = 0 then some (-1, s)
      else do
        let data ← blit s.data s.length (text.take (available - 1) ++ [0])
        if available ≤ text.length then return (-1, { s with data := data })
        else
          let length := addWord 64 s.length text.length
          let data ← store data length 0
          return (text.length, { s with data := data, length := length })

theorem newCapacity_some (capacity : ℕ) {required : ℕ} (hpos : 1 < required)
    (hle : required ≤ 2 ^ 63) : newCapacity capacity required ≠ none := by
  have hlog : (required - 1).log2 < 63 := (Nat.log2_lt (by omega)).mpr (by omega)
  have hpow : 2 ^ ((required - 1).log2 + 1) ≤ 2 ^ 63 := Nat.pow_le_pow_right (by norm_num) hlog
  have hbelow : required - 1 < 2 ^ ((required - 1).log2 + 1) := Nat.lt_log2_self
  have hrounded : (smear64 (required - 1) + 1) % 2 ^ 64 = 2 ^ ((required - 1).log2 + 1) := by
    rw [smear64_eq (by omega) (by omega)]
    omega
  simp only [newCapacity, hrounded]
  generalize (if capacity = 0 then 32 else capacity) * 2 % 2 ^ 64 = doubled
  by_cases hroom : required ≤ doubled
  · rw [if_pos hroom]
    exact some_ne_none _
  · rw [if_neg hroom, if_neg (by omega)]
    exact some_ne_none _

def Mpool.plentiful (pool : Mpool) : Prop := ∀ n, pool.alloc n ≠ none

variable {pool : Mpool} {s : Str} {l text : Bytes}

theorem ensureCapacity_grows (hpool : pool.plentiful) {needed : ℕ} (h : Holds s l)
    (hword : l.length + needed + 1 ≤ 2 ^ 63) :
    ∃ s', ensureCapacity pool s needed = some (0, s') ∧ Holds s' l ∧
      l.length + needed + 1 ≤ s'.capacity := by
  have hspec := @ensureCapacity_spec s l pool needed h (by omega)
  rcases hspec with hfail | hgrown
  · have hcapacity : 0 < s.capacity := Nat.zero_lt_of_lt h.wellFormed.below
    have hrequired : addWord 64 (addWord 64 s.length needed) 1 = l.length + needed + 1 := by
      have hsum : addWord 64 l.length needed = l.length + needed := addWord_eq (by omega)
      rw [h.length, hsum, addWord_eq (by omega)]
    simp only [ensureCapacity, hrequired] at hfail
    by_cases hroom : l.length + needed + 1 ≤ s.capacity
    · rw [if_pos hroom] at hfail
      simp at hfail
    · rw [if_neg hroom] at hfail
      cases hnew : newCapacity s.capacity (l.length + needed + 1) with
      | none => exact absurd hnew (newCapacity_some _ (by omega) hword)
      | some capacity =>
        simp only [hnew] at hfail
        cases halloc : pool.alloc capacity with
        | none => exact absurd halloc (hpool capacity)
        | some fresh =>
          simp only [halloc] at hfail
          obtain ⟨old, -, hrest⟩ := bind_eq_some_iff.mp hfail
          obtain ⟨data, -, heq⟩ := bind_eq_some_iff.mp hrest
          have hret : (0 : ℤ) = -1 := (Prod.ext_iff.mp (some.inj heq)).1
          exact absurd hret (by decide)
  · exact hgrown

def Appended (o : Outcome) (l : Bytes) : Prop := ∃ ret s, o = some (ret, s) ∧ 0 ≤ ret ∧ Holds s l

theorem appendData_appends (hpool : pool.plentiful) (h : Holds s l) (hne : text ≠ [])
    (hword : l.length + text.length + 1 ≤ 2 ^ 63) :
    Appended (appendData pool s text) (l ++ text) := by
  obtain ⟨s', hgrown, -, -⟩ := ensureCapacity_grows hpool h hword
  obtain ⟨ret, t, hcall, hcase⟩ := @appendData_leaves s l pool text h
    (by omega : l.length + text.length + 1 < 2 ^ 64)
  have hempty : text.length ≠ 0 := fun h => hne (length_eq_zero_iff.mp h)
  have hzero : ret = 0 := by
    rw [appendData, if_neg hempty, afterGrowth, hgrown] at hcall
    have hbody : (blit s'.data s'.length text).bind (fun data =>
        (store data (addWord 64 s'.length text.length) 0).bind fun data =>
          some ((0 : ℤ), { s' with data := data, length := addWord 64 s'.length text.length })) =
        some (ret, t) := hcall
    obtain ⟨data, -, hrest⟩ := bind_eq_some_iff.mp hbody
    obtain ⟨data', -, hend⟩ := bind_eq_some_iff.mp hrest
    exact (Prod.ext_iff.mp (some.inj hend)).1.symm
  rcases hcase with ⟨-, ht⟩ | ⟨hneg, -⟩
  · exact ⟨ret, t, hcall, hzero.ge, ht⟩
  · rw [hzero] at hneg
    exact absurd hneg (by decide)

theorem appendVformat_appends (hpool : pool.plentiful) (h : Holds s l) (hne : text ≠ [])
    (hfits : text.length ≤ intMax) (hword : l.length + text.length + 2 ≤ 2 ^ 63) :
    Appended (appendVformat pool s text) (l ++ text) := by
  have hresult : vsnprintfResult text = text.length := if_pos hfits
  unfold appendVformat
  rw [hresult, if_neg (by omega)]
  by_cases hshort : (text.length : ℤ) < 256
  · rw [if_pos hshort]
    exact appendData_appends hpool h hne (by omega)
  · have hplus : addWord 64 text.length 1 = text.length + 1 := addWord_eq (by omega)
    obtain ⟨s', hgrown, hs', hroom⟩ :=
      ensureCapacity_grows hpool h (by omega : l.length + (text.length + 1) + 1 ≤ 2 ^ 63)
    obtain ⟨unused, hdata⟩ := hs'.data
    have hcap := hs'.capacity
    have havailable : subWord 64 s'.capacity s'.length = s'.capacity - l.length := by
      rw [hs'.length, subWord_eq (by omega) hs'.word]
    have hlength : addWord 64 s'.length text.length = (l ++ text).length := by
      rw [hs'.length, addWord_eq (by omega), length_append]
    have htake : text.take (s'.capacity - l.length - 1) = text :=
      take_of_length_le (by omega)
    have hlen : (l ++ 0 :: unused).length = l.length + (unused.length + 1) := by
      rw [length_append, length_cons]
    rw [hdata, hlen] at hcap
    have hfit : (text ++ [0]).length ≤ (0 :: unused).length := by
      rw [length_append, length_singleton, length_cons]
      omega
    have hblit := blit_append (l := l) hfit
    rw [if_neg hshort, afterGrowth, hplus, hgrown]
    show Appended (if subWord 64 s'.capacity s'.length = 0 then some (-1, s') else
      (blit s'.data s'.length (text.take (subWord 64 s'.capacity s'.length - 1) ++ [0])).bind
        fun data =>
          if subWord 64 s'.capacity s'.length ≤ text.length then some (-1, { s' with data := data })
          else (store data (addWord 64 s'.length text.length) 0).bind fun data =>
            some ((text.length : ℤ),
              { s' with data := data, length := addWord 64 s'.length text.length })) _
    rw [havailable, htake, hdata, hs'.length, hblit, if_neg (by omega), bind_some,
      if_neg (by omega), ← hs'.length, hlength]
    have hseam : l ++ (text ++ [0] ++ (0 :: unused).drop (text ++ [0]).length) =
        (l ++ text) ++ 0 :: (0 :: unused).drop (text ++ [0]).length := by
      rw [append_assoc, append_assoc, singleton_append]
    rw [hseam, store_append, bind_some]
    refine ⟨_, _, rfl, by omega, rfl, ?_, hs'.word, _, rfl⟩
    show s'.capacity = _
    rw [length_append, length_append, length_cons, length_drop,
      length_append, length_singleton, length_cons]
    omega

end Voxlib.VoxString
