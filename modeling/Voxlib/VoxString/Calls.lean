import Voxlib.VoxString
import Mathlib.Data.List.DropRight

/-!
# The calls against operations on lists

`Holds s l`: the buffer is the contents `l`, a NUL and unused bytes. Every call whose sums stay
below 2^64 keeps that.
-/

namespace Voxlib.VoxString
open CStr Buffer List Option

def contents (s : Str) : Bytes := s.data.take s.length

/-- The invariant of the structure. -/
structure WellFormed (s : Str) : Prop where
  allocated : s.data.length = s.capacity
  word : s.capacity < 2 ^ 64
  below : s.length < s.capacity
  terminated : s.data[s.length]? = some 0

/-- The buffer is `l`, a NUL and unused bytes. -/
structure Holds (s : Str) (l : Bytes) : Prop where
  length : s.length = l.length
  capacity : s.capacity = s.data.length
  word : s.capacity < 2 ^ 64
  data : ∃ unused, s.data = l ++ 0 :: unused

variable {s : Str} {l : Bytes}

theorem Holds.wellFormed (h : Holds s l) : WellFormed s := by
  obtain ⟨unused, hdata⟩ := h.data
  refine ⟨h.capacity.symm, h.word, ?_, ?_⟩
  · rw [h.capacity, h.length, hdata]
    simp
  · rw [h.length, hdata]
    simp

theorem Holds.contents (h : Holds s l) : contents s = l := by
  obtain ⟨unused, hdata⟩ := h.data
  rw [VoxString.contents, h.length, hdata, take_left]

theorem WellFormed.holds (h : WellFormed s) : Holds s (contents s) := by
  have hlen : (contents s).length = s.length := by
    rw [contents, length_take, h.allocated]
    exact Nat.min_eq_left (Nat.le_of_lt h.below)
  refine ⟨hlen.symm, h.allocated.symm, h.word, s.data.drop (s.length + 1), ?_⟩
  have hin : s.length < s.data.length := by
    rw [h.allocated]
    exact h.below
  have hnul : s.data[s.length] = 0 := by
    have hget := h.terminated
    rw [List.getElem?_eq_getElem hin] at hget
    exact some.inj hget
  have hdrop : s.data.drop s.length = 0 :: s.data.drop (s.length + 1) := by
    rw [drop_eq_getElem_cons hin, hnul]
  rw [contents, ← hdrop, take_append_drop]

/-- What a call makes of the contents. -/
def Call.effect : Call → Bytes → Bytes
  | .set text, _ => text.getD []
  | .append text, l => l ++ text.getD []
  | .insert pos text, l => l.take pos.toNat ++ text.getD [] ++ l.drop pos.toNat
  | .remove pos len, l => l.take pos.toNat ++ l.drop (pos.toNat + len.toNat)
  | .replaceAt pos len text, l =>
    l.take pos.toNat ++ text.getD [] ++ l.drop (pos.toNat + len.toNat)
  | .resize newSize, l =>
    l.take newSize.toNat ++ List.replicate (newSize.toNat - l.length) 32
  | .clear, _ => []
  | .trim, l => (l.dropWhile isspace).rdropWhile isspace

/-- An outcome with the contents `l` where the call succeeds, and with the old contents `old`
where it returns -1. -/
def Leaves (o : Outcome) (old l : Bytes) : Prop :=
  ∃ ret s, o = some (ret, s) ∧ (ret = 0 ∧ Holds s l ∨ ret = -1 ∧ Holds s old)

theorem leaves_failed {old : Bytes} (h : Holds s old) :
    Leaves (some (-1, s)) old l := ⟨-1, s, rfl, .inr ⟨rfl, h⟩⟩

theorem leaves_same {old : Bytes} (h : Holds s old) (heq : l = old) :
    Leaves (some (0, s)) old l := ⟨0, s, rfl, .inl ⟨rfl, heq ▸ h⟩⟩

theorem newCapacity_spec {capacity required n : ℕ} (h : newCapacity capacity required = some n) :
    required ≤ n ∧ n < 2 ^ 64 := by
  simp only [newCapacity] at h
  have hdoubled : (if capacity = 0 then 32 else capacity) * 2 % 2 ^ 64 < 2 ^ 64 :=
    Nat.mod_lt _ (by norm_num)
  have hrounded : (Pow2.smear64 (required - 1) + 1) % 2 ^ 64 < 2 ^ 64 :=
    Nat.mod_lt _ (by norm_num)
  generalize (if capacity = 0 then 32 else capacity) * 2 % 2 ^ 64 = doubled at h hdoubled
  generalize (Pow2.smear64 (required - 1) + 1) % 2 ^ 64 = rounded at h hrounded
  by_cases hle : required ≤ doubled
  · rw [if_pos hle] at h
    obtain rfl := some.inj h
    exact ⟨hle, hdoubled⟩
  · rw [if_neg hle] at h
    by_cases hlt : rounded < required
    · rw [if_pos hlt] at h
      cases h
    · rw [if_neg hlt] at h
      obtain rfl := some.inj h
      exact ⟨Nat.le_of_not_lt hlt, hrounded⟩

/-- Growth fails and changes nothing, or leaves the same contents in a buffer with the room that
was asked for. -/
theorem ensureCapacity_spec {a : Mpool} {needed : ℕ} (h : Holds s l)
    (hword : l.length + needed + 1 < 2 ^ 64) : ensureCapacity a s needed = some (-1, s) ∨
      ∃ s', ensureCapacity a s needed = some (0, s') ∧ Holds s' l ∧
        l.length + needed + 1 ≤ s'.capacity := by
  obtain ⟨unused, hdata⟩ := h.data
  have hrequired : addWord 64 (addWord 64 s.length needed) 1 = l.length + needed + 1 := by
    have hsum : addWord 64 l.length needed = l.length + needed := addWord_eq (by omega)
    rw [h.length, hsum, addWord_eq hword]
  simp only [ensureCapacity, hrequired]
  by_cases hroom : l.length + needed + 1 ≤ s.capacity
  · rw [if_pos hroom]
    exact .inr ⟨s, rfl, h, hroom⟩
  · rw [if_neg hroom]
    cases hnew : newCapacity s.capacity (l.length + needed + 1) with
    | none => exact .inl rfl
    | some capacity =>
      obtain ⟨hle, hlt⟩ := newCapacity_spec hnew
      cases halloc : a.alloc capacity with
      | none =>
        simp only [halloc, true_or]
      | some fresh =>
        have hfresh : fresh.length = capacity := a.sized _ _ halloc
        have hcopy : (l ++ [0]).length ≤ fresh.length := by
          rw [length_append, length_singleton]
          omega
        have hold : fetch s.data 0 (addWord 64 s.length 1) = some (l ++ [0]) := by
          rw [h.length, addWord_eq (by omega), hdata]
          have hseam := fetch_append [] (l ++ [0]) unused
          simpa using hseam
        have hblit : blit fresh 0 (l ++ [0]) = some (l ++ 0 :: fresh.drop (l.length + 1)) := by
          have hseam := blit_append (l := []) hcopy
          simpa using hseam
        refine .inr ⟨⟨l ++ 0 :: fresh.drop (l.length + 1), s.length, capacity⟩, ?_, ?_, hle⟩
        · simp only [halloc, hold, hblit, bind_eq_bind, bind_some]
          rfl
        · refine ⟨h.length, ?_, hlt, _, rfl⟩
          show capacity = _
          rw [length_append, length_cons, length_drop]
          omega

variable {pool : Mpool}

theorem afterGrowth_leaves {l' : Bytes} {needed : ℕ} {body : Str → Outcome} (h : Holds s l)
    (hword : l.length + needed + 1 < 2 ^ 64)
    (hbody : ∀ s', Holds s' l → l.length + needed + 1 ≤ s'.capacity → Leaves (body s') l l') :
    Leaves (afterGrowth pool s needed body) l l' := by
  rcases ensureCapacity_spec (a := pool) h hword with hfail | ⟨s', hgrown, hs', hroom⟩
  · rw [afterGrowth, hfail]
    exact leaves_failed h
  · rw [afterGrowth, hgrown]
    exact hbody s' hs' hroom

theorem ended {r o : Bytes} (n : ℕ) (hn : n = l.length) (hr : 0 < r.length)
    (hcapacity : s.capacity = (l ++ r).length) (hword : s.capacity < 2 ^ 64) :
    Leaves ((store (l ++ r) n 0).bind fun data => some (0, { s with data := data, length := n }))
      o l := by
  cases r with
  | nil => simp at hr
  | cons x r =>
    rw [hn, store_append, bind_some]
    refine ⟨0, _, rfl, .inl ⟨rfl, rfl, ?_, hword, r, rfl⟩⟩
    show s.capacity = _
    rw [hcapacity, length_append, length_append, length_cons, length_cons]

theorem clear_leaves (h : Holds s l) : Leaves (clear s) l [] := by
  have hsize : 0 < s.data.length := by
    obtain ⟨unused, hdata⟩ := h.data
    rw [hdata]
    simp
  exact ended (l := []) 0 rfl hsize h.capacity h.word

theorem setData_leaves {text : Bytes} (h : Holds s l)
    (hword : l.length + text.length + 1 < 2 ^ 64) : Leaves (setData pool s text) l text := by
  rw [setData]
  by_cases hempty : text.length = 0
  · rw [if_pos hempty]
    exact leaves_failed h
  · rw [if_neg hempty]
    refine afterGrowth_leaves h hword fun s' hs' hroom => ?_
    have hcap := hs'.capacity
    have hblit := blit_append (l := []) (x := text) (r := s'.data) (by omega)
    simp only [nil_append, length_nil] at hblit
    simp only [hblit, bind_eq_bind, bind_some]
    refine ended (r := s'.data.drop text.length) _ rfl ?_ ?_ hs'.word
    · rw [length_drop]
      omega
    · rw [length_append, length_drop]
      omega

theorem appendData_leaves {text : Bytes} (h : Holds s l)
    (hword : l.length + text.length + 1 < 2 ^ 64) :
    Leaves (appendData pool s text) l (l ++ text) := by
  rw [appendData]
  by_cases hempty : text.length = 0
  · rw [if_pos hempty]
    exact leaves_failed h
  · rw [if_neg hempty]
    refine afterGrowth_leaves h hword fun s' hs' hroom => ?_
    obtain ⟨unused, hdata⟩ := hs'.data
    have hcap := hs'.capacity
    simp only [hdata, length_append, length_cons] at hcap
    have hblit := blit_append (l := l) (x := text) (r := 0 :: unused) (by simp; omega)
    have hlength : addWord 64 s'.length text.length = (l ++ text).length := by
      rw [hs'.length, addWord_eq (by omega), length_append]
    rw [← append_assoc] at hblit
    simp only [hdata, hs'.length.symm ▸ hblit, bind_eq_bind, bind_some]
    refine ended _ hlength ?_ ?_ hs'.word
    · rw [length_drop, length_cons]
      omega
    · simp only [length_append, length_drop, length_cons]
      omega

theorem memmove_part (p q r : Bytes) (dst : ℕ) :
    memmove (p ++ (q ++ r)) dst p.length q.length = blit (p ++ (q ++ r)) dst q := by
  rw [memmove, fetch_append, bind_some]

theorem insertData_leaves {text : Bytes} {pos : ℕ} (h : Holds s l)
    (hword : l.length + text.length + 1 < 2 ^ 64) :
    Leaves (insertData pool s pos text) l (l.take pos ++ text ++ l.drop pos) := by
  rw [insertData]
  by_cases hempty : text.length = 0
  · rw [if_pos hempty]
    exact leaves_failed h
  by_cases hpos : s.length < pos
  · rw [if_neg hempty, if_pos hpos]
    exact leaves_failed h
  rw [if_neg hempty, if_neg hpos]
  refine afterGrowth_leaves h hword fun s' hs' hroom => ?_
  rw [h.length] at hpos
  obtain ⟨unused, hdata⟩ := hs'.data
  have hp : (l.take pos).length = pos := by
    rw [length_take]
    omega
  have hq : (l.drop pos).length = l.length - pos := length_drop
  have hcap := hs'.capacity
  simp only [hdata, length_append, length_cons] at hcap
  have hsplit : s'.data = l.take pos ++ (l.drop pos ++ 0 :: unused) := by
    rw [hdata, ← append_assoc, take_append_drop]
  -- at the very end there is nothing to move
  have hmove : (if pos < s'.length then
      memmove s'.data (addWord 64 pos text.length) pos (subWord 64 s'.length pos)
      else some s'.data) = blit s'.data (pos + text.length) (l.drop pos) := by
    rw [hs'.length, addWord_eq (by omega), subWord_eq (by omega) (by omega)]
    by_cases hin : pos < l.length
    · rw [if_pos hin, hsplit, ← hq]
      have hpart := memmove_part (l.take pos) (l.drop pos) (0 :: unused) (pos + text.length)
      rwa [hp] at hpart
    · have hnil : l.drop pos = [] := drop_of_length_le (by omega)
      rw [if_neg hin, hnil, blit_nil (by rw [hdata]; simp; omega)]
  obtain ⟨rest, hrest, hsplice⟩ := splice (l := l.take pos) (r := l.drop pos ++ 0 :: unused)
    (x := text) (y := l.drop pos) (by simp; omega)
  rw [← hsplit, hp] at hsplice
  have hlength : addWord 64 s'.length text.length =
      (l.take pos ++ text ++ l.drop pos).length := by
    rw [hs'.length, addWord_eq (by omega)]
    simp only [length_append, hp, hq]
    omega
  simp only [hmove, Option.bind_eq_bind, Option.pure_def]
  rw [← Option.bind_assoc, hsplice, Option.bind_some]
  simp only [length_append, length_cons] at hrest
  have hend := ended (s := s') (l := l.take pos ++ text ++ l.drop pos) (r := rest) (o := l) _
    hlength (by omega) (by simp only [length_append, hp, hq]; omega) hs'.word
  simpa only [append_assoc] using hend

theorem cutLength_spec {pos len : ℕ} (h : Holds s l) (hpos : pos < l.length)
    (hword : pos + len < 2 ^ 64) : cutLength s pos len ≤ l.length - pos ∧
      l.drop (pos + len) = l.drop (pos + cutLength s pos len) := by
  have hcap := h.wellFormed.below
  have hlt := h.word
  rw [cutLength, addWord_eq hword, h.length]
  by_cases hover : l.length < pos + len
  · rw [if_pos hover, subWord_eq (by omega) (by rw [← h.length]; omega)]
    refine ⟨le_rfl, ?_⟩
    rw [drop_of_length_le (by omega), drop_of_length_le (by omega)]
  · rw [if_neg hover]
    exact ⟨by omega, rfl⟩

theorem exists_cut {i n : ℕ} (h : i + n ≤ l.length) :
    ∃ p m q : Bytes, l = p ++ (m ++ q) ∧ p.length = i ∧ m.length = n ∧
      l.take i = p ∧ l.drop (i + n) = q := by
  refine ⟨l.take i, (l.drop i).take n, l.drop (i + n), ?_, ?_, ?_, rfl, rfl⟩
  · rw [← drop_drop, take_append_drop, take_append_drop]
  · rw [length_take]
    omega
  · rw [length_take, length_drop]
    omega

theorem remove_leaves {pos len : ℕ} (h : Holds s l) (hword : pos < s.length → pos + len < 2 ^ 64) :
    Leaves (remove s pos len) l (l.take pos ++ l.drop (pos + len)) := by
  rw [remove]
  by_cases hpos : s.length ≤ pos
  · rw [if_pos hpos]
    exact leaves_failed h
  rw [if_neg hpos]
  have hsum := hword (Nat.lt_of_not_le hpos)
  have hcap := h.wellFormed.below
  have hlt := h.word
  rw [h.length] at hpos
  obtain ⟨hcut, hdrop⟩ := cutLength_spec h (Nat.lt_of_not_le hpos) hsum
  rw [hdrop]
  generalize cutLength s pos len = cut at hcut hdrop
  by_cases hzero : cut = 0
  · simp only [hzero, if_true, Nat.add_zero, take_append_drop]
    exact leaves_same h rfl
  simp only [if_neg hzero]
  obtain ⟨p, m, q, hl, hp, hm, htake, hbehind⟩ := exists_cut (l := l) (i := pos) (n := cut)
    (by omega)
  obtain ⟨unused, hdata⟩ := h.data
  rw [htake, hbehind]
  have hlen : l.length = p.length + m.length + q.length := by
    rw [hl, length_append, length_append]
    omega
  have hslen := h.length
  have hsplit : s.data = p ++ (m ++ (q ++ 0 :: unused)) := by
    rw [hdata, hl, append_assoc, append_assoc]
  have hmove : (if addWord 64 pos cut < s.length then
      memmove s.data pos (addWord 64 pos cut) (subWord 64 (subWord 64 s.length pos) cut)
      else some s.data) = blit s.data pos q := by
    have hsub : subWord 64 s.length pos = s.length - pos := subWord_eq (by omega) (by omega)
    rw [hsub, addWord_eq (by omega), subWord_eq (by omega) (by omega)]
    by_cases hin : pos + cut < s.length
    · have hpart := memmove_part (p ++ m) q (0 :: unused) pos
      rw [if_pos hin, hsplit, show s.length - pos - cut = q.length by omega,
        show pos + cut = (p ++ m).length by rw [length_append]; omega]
      rwa [append_assoc] at hpart
    · have hnil : q = [] := eq_nil_of_length_eq_zero (by omega)
      rw [if_neg hin, hnil, blit_nil (by rw [hdata]; simp; omega)]
  have hblit := blit_append (l := p) (x := q) (r := m ++ (q ++ 0 :: unused)) (by simp; omega)
  rw [hp, ← hsplit, ← append_assoc] at hblit
  have hsize : s.capacity = p.length + m.length + q.length + 1 + unused.length := by
    rw [h.capacity, hsplit]
    simp only [length_append, length_cons]
    omega
  have hrest : ((m ++ (q ++ 0 :: unused)).drop q.length).length = m.length + 1 + unused.length := by
    simp only [length_drop, length_append, length_cons]
    omega
  have hlength : subWord 64 s.length cut = (p ++ q).length := by
    rw [subWord_eq (by omega) (by omega), length_append]
    omega
  have hend := ended (s := s) (l := p ++ q) (o := l) _ hlength
    (r := (m ++ (q ++ 0 :: unused)).drop q.length) (by omega)
    (by rw [length_append, length_append]; omega) h.word
  rw [hmove, hblit]
  exact hend

theorem addWord_subWord {n old new : ℕ} (hold : old ≤ n) (hn : n + new + 1 < 2 ^ 64) :
    addWord 64 n (subWord 64 new old) = n - old + new := by
  by_cases hle : old ≤ new
  · rw [subWord_eq hle (by omega), addWord_eq (by omega)]
    omega
  · rw [subWord_below (by omega) (by omega), addWord]
    omega

theorem putText_leaves {p m q x o : Bytes} (h : Holds s (p ++ (m ++ q)))
    (hword : (p ++ (m ++ q)).length + x.length + 1 < 2 ^ 64)
    (hroom : p.length + x.length + q.length + 1 ≤ s.capacity) :
    Leaves (putText p.length m.length x s) o (p ++ x ++ q) := by
  obtain ⟨unused, hdata⟩ := h.data
  have hslen := h.length
  simp only [length_append] at hword hslen
  have hsplit : s.data = p ++ (m ++ (q ++ 0 :: unused)) := by
    rw [hdata, append_assoc, append_assoc]
  have hcap : s.capacity = p.length + m.length + q.length + 1 + unused.length := by
    rw [h.capacity, hsplit]
    simp only [length_append, length_cons]
    omega
  have hrest : subWord 64 (subWord 64 s.length p.length) m.length = q.length := by
    have hsub : subWord 64 s.length p.length = s.length - p.length :=
      subWord_eq (by omega) (by omega)
    rw [hsub, subWord_eq (by omega) (by omega)]
    omega
  have hmove : memmove s.data (p.length + x.length) (p.length + m.length) q.length =
      blit s.data (p.length + x.length) q := by
    have hpart := memmove_part (p ++ m) q (0 :: unused) (p.length + x.length)
    rwa [append_assoc, ← hsplit, length_append] at hpart
  obtain ⟨rest, hlen, hsplice⟩ := splice (l := p) (r := m ++ (q ++ 0 :: unused)) (x := x)
    (y := q) (by simp only [length_append, length_cons]; omega)
  simp only [length_append, length_cons] at hlen
  rw [← hsplit] at hsplice
  have hlength : addWord 64 s.length (subWord 64 x.length m.length) =
      (p ++ x ++ q).length := by
    rw [addWord_subWord (by omega) (by omega)]
    simp only [length_append]
    omega
  have hend := ended (s := s) (l := p ++ x ++ q) (r := rest) (o := o) _ hlength (by omega)
    (by simp only [length_append]; omega) h.word
  have hto : addWord 64 p.length x.length = p.length + x.length := addWord_eq (by omega)
  have hfrom : addWord 64 p.length m.length = p.length + m.length := addWord_eq (by omega)
  simp only [putText, hto, hfrom, hrest, hmove, Option.bind_eq_bind, Option.pure_def]
  rw [← Option.bind_assoc, hsplice, Option.bind_some]
  simpa only [append_assoc] using hend

theorem replaceAt_leaves {text : Bytes} {pos len : ℕ} (h : Holds s l)
    (hword : pos < s.length → pos + len < 2 ^ 64) (htext : l.length + text.length + 1 < 2 ^ 64) :
    Leaves (replaceAt pool s pos len (some text)) l (l.take pos ++ text ++ l.drop (pos + len)) := by
  rw [replaceAt]
  by_cases hpos : s.length ≤ pos
  · rw [if_pos hpos]
    exact leaves_failed h
  rw [if_neg hpos]
  have hsum := hword (Nat.lt_of_not_le hpos)
  rw [h.length] at hpos
  obtain ⟨hcut, hdrop⟩ := cutLength_spec h (Nat.lt_of_not_le hpos) hsum
  rw [hdrop]
  generalize cutLength s pos len = cut at hcut hdrop
  obtain ⟨p, m, q, hl, hp, hm, htake, hbehind⟩ := exists_cut (l := l) (i := pos) (n := cut)
    (by omega)
  rw [htake, hbehind]
  have hlen : l.length = p.length + m.length + q.length := by
    rw [hl, length_append, length_append]
    omega
  have hheld : Holds s (p ++ (m ++ q)) := hl ▸ h
  have htext' : (p ++ (m ++ q)).length + text.length + 1 < 2 ^ 64 := hl ▸ htext
  by_cases hsame : text.length = cut
  · -- the same length: written in place
    obtain ⟨unused, hdata⟩ := hheld.data
    have hsplit : s.data = p ++ (m ++ (q ++ 0 :: unused)) := by
      rw [hdata, append_assoc, append_assoc]
    have hblit := blit_append (l := p) (x := text) (r := m ++ (q ++ 0 :: unused))
      (by rw [length_append]; omega)
    rw [← hsplit, hp, hsame, ← hm, drop_left] at hblit
    simp only [if_pos hsame, hblit, Option.bind_eq_bind, Option.bind_some, Option.pure_def]
    refine ⟨0, _, rfl, .inl ⟨rfl, ?_, ?_, h.word, unused, by simp⟩⟩
    · show s.length = _
      rw [h.length, hl]
      simp only [length_append]
      omega
    · show s.capacity = _
      rw [h.capacity, hsplit]
      simp only [length_append]
      omega
  · simp only [if_neg hsame]
    by_cases hlonger : cut < text.length
    · have hsub : subWord 64 text.length cut = text.length - cut :=
        subWord_eq (by omega) (by omega)
      rw [if_pos hlonger, hsub]
      refine afterGrowth_leaves h (by omega) fun s' hs' hroom => ?_
      have hput := putText_leaves (s := s') (x := text) (o := l) (hl ▸ hs') htext' (by omega)
      rwa [hp, hm] at hput
    · rw [if_neg hlonger]
      have hcap := h.wellFormed.below
      have hslen := h.length
      have hput := putText_leaves (x := text) (o := l) hheld htext' (by omega)
      rwa [hp, hm] at hput

theorem resize_leaves {n : ℕ} (h : Holds s l) (hword : n + 1 < 2 ^ 64) :
    Leaves (resize pool s n) l (l.take n ++ List.replicate (n - l.length) 32) := by
  have hslen := h.length
  have hcap := h.wellFormed.below
  rw [resize]
  by_cases hsame : n = s.length
  · rw [if_pos hsame]
    refine leaves_same h ?_
    rw [hsame, hslen, take_length, Nat.sub_self, replicate_zero, append_nil]
  by_cases hless : n < s.length
  · rw [if_neg hsame, if_pos hless]
    obtain ⟨unused, hdata⟩ := h.data
    have hnone : n - l.length = 0 := by omega
    have hsplit : s.data = l.take n ++ (l.drop n ++ 0 :: unused) := by
      rw [hdata, ← append_assoc, take_append_drop]
    have hend := ended (s := s) (l := l.take n) (r := l.drop n ++ 0 :: unused) (o := l) n
      (by rw [length_take]; omega) (by rw [length_append, length_cons]; omega)
      (by rw [← hsplit]; exact h.capacity) h.word
    rw [← hsplit] at hend
    rw [hnone, replicate_zero, append_nil]
    exact hend
  · rw [if_neg hsame, if_neg hless]
    have hsub : subWord 64 n s.length = n - l.length := by
      rw [subWord_eq (by omega) (by omega), hslen]
    rw [hsub]
    refine afterGrowth_leaves h (by omega) fun s' hs' hroom => ?_
    obtain ⟨unused, hdata⟩ := hs'.data
    have hcap' := hs'.capacity
    simp only [hdata, length_append, length_cons] at hcap'
    have hsub' : subWord 64 n s'.length = n - l.length := by
      rw [subWord_eq (by rw [hs'.length]; omega) (by omega), hs'.length]
    have hfill := fill_append (l := l) (r := 0 :: unused) (n := n - l.length) (32 : UInt8)
      (by rw [length_cons]; omega)
    rw [← hdata, ← hs'.length, ← append_assoc] at hfill
    have hend := ended (s := s') (l := l ++ List.replicate (n - l.length) 32) (o := l)
      (r := (0 :: unused).drop (n - l.length)) n
      (by rw [length_append, length_replicate]; omega)
      (by rw [length_drop, length_cons]; omega)
      (by simp only [length_append, length_replicate, length_drop,
            length_cons]; omega) hs'.word
    have hall : l.take n = l := take_of_length_le (by omega)
    rw [hsub', hall, hs'.length]
    rw [hs'.length] at hfill
    simp only [hfill, bind_eq_bind, bind_some]
    exact hend

theorem skipFront_spec (p l r : Bytes) : skipFront (p ++ (l ++ r)) l.length p.length =
      some (p.length + (l.takeWhile isspace).length) := by
  induction l generalizing p with
  | nil => simp [skipFront]
  | cons c l ih =>
    have hload : load (p ++ (c :: l ++ r)) p.length = some c := by simp [load]
    simp only [length_cons, skipFront, hload, bind_eq_bind, bind_some]
    by_cases hc : isspace c
    · have hnext := ih (p ++ [c])
      simp only [append_assoc, singleton_append, length_append,
        length_singleton] at hnext
      rw [if_pos hc, cons_append, hnext, takeWhile_cons_of_pos hc, length_cons]
      congr 1
      omega
    · rw [if_neg hc, takeWhile_cons_of_neg hc]
      simp

theorem skipBack_spec (p l r : Bytes) : skipBack (p ++ (l ++ r)) p.length l.length =
      some (p.length + (l.rdropWhile isspace).length) := by
  induction l using List.reverseRecOn generalizing r with
  | nil => simp [skipBack]
  | append_singleton l c ih =>
    have hload : load (p ++ (l ++ [c] ++ r)) (p.length + l.length) = some c := by
      simp [load]
    simp only [length_append, length_singleton, skipBack, hload, bind_eq_bind,
      bind_some]
    by_cases hc : isspace c
    · rw [if_pos hc, rdropWhile_concat_pos _ _ _ hc, append_assoc, ih]
    · rw [if_neg hc, rdropWhile_concat_neg _ _ _ hc, length_append,
        length_singleton, Nat.add_assoc]

theorem trim_leaves (h : Holds s l) :
    Leaves (trim s) l ((l.dropWhile isspace).rdropWhile isspace) := by
  have hslen := h.length
  rw [trim]
  by_cases hempty : s.length = 0
  · have hnil : l = [] := eq_nil_of_length_eq_zero (by omega)
    rw [if_pos hempty]
    exact leaves_same h (by rw [hnil]; rfl)
  rw [if_neg hempty]
  obtain ⟨unused, hdata⟩ := h.data
  -- blanks in front, what stays, blanks behind
  obtain ⟨a, ha⟩ : ∃ a, a = l.takeWhile isspace := ⟨_, rfl⟩
  obtain ⟨b, hb⟩ : ∃ b, b = l.dropWhile isspace := ⟨_, rfl⟩
  obtain ⟨kept, hkept⟩ : ∃ kept, kept = b.rdropWhile isspace := ⟨_, rfl⟩
  obtain ⟨c, hc⟩ : ∃ c, c = b.rtakeWhile isspace := ⟨_, rfl⟩
  have hab : a ++ b = l := by rw [ha, hb, takeWhile_append_dropWhile]
  have hkc : kept ++ c = b := by
    rw [hkept, hc, List.rdropWhile, List.rtakeWhile, ← reverse_append,
      takeWhile_append_dropWhile, reverse_reverse]
  have hl : l.length = a.length + (kept.length + c.length) := by
    rw [← hab, ← hkc, length_append, length_append]
  have hsplit : s.data = a ++ (kept ++ (c ++ 0 :: unused)) := by
    rw [hdata, ← hab, ← hkc]
    simp only [append_assoc]
  have hfront : skipFront s.data s.length 0 = some a.length := by
    have hskip := skipFront_spec [] l (0 :: unused)
    rw [← ha] at hskip
    rw [hdata, hslen]
    simpa using hskip
  have hback : skipBack s.data a.length (s.length - a.length) =
      some (a.length + kept.length) := by
    have hskip := skipBack_spec a b (0 :: unused)
    rw [← hkept] at hskip
    rw [hslen, hdata, show l.length - a.length = b.length by rw [← hab, length_append]; omega,
      ← hab, append_assoc]
    exact hskip
  simp only [hfront, hback, bind_eq_bind, bind_some, Nat.add_sub_cancel_left,
    Option.pure_def, ← hb, ← hkept]
  by_cases hcut : 0 < a.length ∨ a.length + kept.length < s.length
  · have hmove : (if a.length < a.length + kept.length then memmove s.data 0 a.length kept.length
        else some s.data) = blit s.data 0 kept := by
      by_cases hsome : a.length < a.length + kept.length
      · rw [if_pos hsome, hsplit]
        exact memmove_part a kept (c ++ 0 :: unused) 0
      · have hnil : kept = [] := eq_nil_of_length_eq_zero (by omega)
        rw [if_neg hsome, hnil, blit_nil (Nat.zero_le _)]
    have hcap := h.capacity
    have hbelow := h.wellFormed.below
    have hblit := blit_append (l := []) (x := kept) (r := s.data) (by omega)
    simp only [nil_append, length_nil] at hblit
    rw [if_pos hcut, hmove, hblit, bind_some]
    exact ended (r := s.data.drop kept.length) _ rfl (by rw [length_drop]; omega)
      (by rw [length_append, length_drop]; omega) h.word
  · have hnone : a = [] := eq_nil_of_length_eq_zero (by omega)
    have hcnone : c = [] := eq_nil_of_length_eq_zero (by omega)
    rw [if_neg hcut]
    refine leaves_same h ?_
    rw [← hab, ← hkc, hnone, hcnone, append_nil, nil_append]

/-- The arguments of a call stay clear of the end of the address space: the texts fit beside the
string, what is cut out ends below 2^64, and no string is asked to be 2^64-1 long. -/
def Call.Meets (s : Str) : Call → Prop
  | .set text | .append text | .insert _ text =>
    s.length + (text.getD []).length + 1 < 2 ^ 64
  | .remove pos len => pos.toNat < s.length → pos.toNat + len.toNat < 2 ^ 64
  | .replaceAt pos len text => (pos.toNat < s.length → pos.toNat + len.toNat < 2 ^ 64) ∧
      s.length + (text.getD []).length + 1 < 2 ^ 64
  | .resize newSize => newSize.toNat + 1 < 2 ^ 64
  | .clear | .trim => True

instance Call.decidableMeets (s : Str) : (c : Call) → Decidable (c.Meets s)
  | .set text | .append text | .insert _ text =>
    inferInstanceAs (Decidable (s.length + (text.getD []).length + 1 < 2 ^ 64))
  | .remove pos len =>
    inferInstanceAs (Decidable (pos.toNat < s.length → pos.toNat + len.toNat < 2 ^ 64))
  | .replaceAt pos len text =>
    inferInstanceAs (Decidable ((pos.toNat < s.length → pos.toNat + len.toNat < 2 ^ 64) ∧
      s.length + (text.getD []).length + 1 < 2 ^ 64))
  | .resize newSize => inferInstanceAs (Decidable (newSize.toNat + 1 < 2 ^ 64))
  | .clear | .trim => inferInstanceAs (Decidable True)

/-- The call succeeds with the contents that the list operation gives, or returns -1 and leaves
the contents. -/
def Correct (s : Str) (a : Mpool × Call) : Prop :=
  ∃ ret t, call s a.1 a.2 = some (ret, t) ∧
    (ret = 0 ∧ contents t = a.2.effect (contents s) ∨ ret = -1 ∧ contents t = contents s)

theorem call_leaves {b : Mpool} {c : Call} (h : Holds s l) (hmeets : c.Meets s) :
    Leaves (call s b c) l (c.effect l) := by
  have hlen := h.length
  cases c with
  | set text =>
    cases text with
    | none => exact clear_leaves h
    | some text => exact setData_leaves h (hlen ▸ hmeets)
  | append text =>
    cases text with
    | none => exact leaves_failed h
    | some text => exact appendData_leaves h (hlen ▸ hmeets)
  | insert pos text =>
    cases text with
    | none => exact leaves_failed h
    | some text => exact insertData_leaves h (hlen ▸ hmeets)
  | remove pos len => exact remove_leaves h hmeets
  | replaceAt pos len text =>
    cases text with
    | none => exact leaves_failed h
    | some text => exact replaceAt_leaves h hmeets.1 (hlen ▸ hmeets.2)
  | resize newSize => exact resize_leaves h hmeets
  | clear => exact clear_leaves h
  | trim => exact trim_leaves h

theorem step_spec {a : Mpool × Call} (h : WellFormed s) (hmeets : a.2.Meets s) :
    ∃ t, step s a = some t ∧ WellFormed t ∧ Correct s a := by
  obtain ⟨ret, t, hcall, hleaves⟩ := call_leaves (b := a.1) h.holds hmeets
  refine ⟨t, ?_, ?_, ret, t, hcall, ?_⟩
  · rw [step, hcall]
    rfl
  · rcases hleaves with ⟨-, ht⟩ | ⟨-, ht⟩
    · exact ht.wellFormed
    · exact ht.wellFormed
  · rcases hleaves with ⟨hret, ht⟩ | ⟨hret, ht⟩
    · exact .inl ⟨hret, ht.contents⟩
    · exact .inr ⟨hret, ht.contents⟩

theorem create_wellFormed {initialCapacity : ℕ} (hword : initialCapacity < 2 ^ 64)
    (h : create pool initialCapacity = some s) : WellFormed s := by
  simp only [create, Option.bind_eq_bind, Option.pure_def] at h
  have hpos : 0 < if 0 < initialCapacity then initialCapacity else 32 := by
    split <;> omega
  have hlt : (if 0 < initialCapacity then initialCapacity else 32) < 2 ^ 64 := by
    split <;> omega
  generalize (if 0 < initialCapacity then initialCapacity else 32) = capacity at h hpos hlt
  cases halloc : pool.alloc capacity with
  | none => simp [halloc] at h
  | some data =>
    have hsize := pool.sized _ _ halloc
    cases data with
    | nil => simp at hsize; omega
    | cons x data =>
      have hstore : store (x :: data) 0 0 = some (0 :: data) := store_append [] x data 0
      simp only [halloc, hstore, Option.bind_some, Option.some.injEq] at h
      subst h
      exact ⟨hsize, hlt, hpos, rfl⟩

/-- In every run of calls that stay clear of the end of the address space, no call touches a byte
outside the buffer, every string on the way is well formed, and every call does to the contents
what the list operation does or fails and leaves them. -/
theorem string_runs (pool : Mpool) (initialCapacity : UInt64) (s : Str)
    (hcreate : create pool initialCapacity.toNat = some s) (calls : List (Mpool × Call))
    (hmeets : Run.Meets step (fun s a => a.2.Meets s) s calls) :
    Run.Along step WellFormed s calls ∧ Run.Guarded step Correct s calls :=
  Run.guarded_of_meets (fun _ _ h hok => step_spec h hok)
    (create_wellFormed initialCapacity.toNat_lt hcreate) hmeets

def zeroedPool : Mpool where
  alloc n := some (List.replicate n 0)
  sized n b h := by
    obtain rfl := some.inj h
    exact length_replicate

def emptyStr : Str := ⟨List.replicate 32 0, 0, 32⟩

theorem string_runs_edit : Run.Along step WellFormed emptyStr
        [(zeroedPool, .set (some (lit "abc"))), (zeroedPool, .remove 1 1),
          (zeroedPool, .resize 5)] ∧
      Run.Guarded step Correct emptyStr
        [(zeroedPool, .set (some (lit "abc"))), (zeroedPool, .remove 1 1),
          (zeroedPool, .resize 5)] :=
  string_runs zeroedPool 0 emptyStr rfl _ (by decide)

/- `pos + len` wraps around: `remove(s, 1, SIZE_MAX)` does not cut "abc" down to "a", it moves
   the whole text up and lengthens it. -/
theorem remove_to_the_end_wraps : create zeroedPool (0 : UInt64).toNat = some emptyStr ∧
      ¬ (Run.Along step WellFormed emptyStr
          [(zeroedPool, .set (some (lit "abc"))), (zeroedPool, .remove 1 0xFFFFFFFFFFFFFFFF)] ∧
        Run.Guarded step Correct emptyStr
          [(zeroedPool, .set (some (lit "abc"))), (zeroedPool, .remove 1 0xFFFFFFFFFFFFFFFF)]) := by
  refine ⟨rfl, ?_⟩
  rintro ⟨-, -, s, hset, ⟨ret, t, hcall, hright⟩, -⟩
  have hs : step emptyStr (zeroedPool, .set (some (lit "abc"))) =
      some ⟨lit "abc" ++ List.replicate 29 0, 3, 32⟩ := by decide
  obtain rfl := some.inj (hset.symm.trans hs)
  have ht : call ⟨lit "abc" ++ List.replicate 29 0, 3, 32⟩ zeroedPool
      (.remove 1 0xFFFFFFFFFFFFFFFF) =
        some (0, ⟨lit "aabc" ++ List.replicate 28 0, 4, 32⟩) := by decide
  have heq := some.inj (hcall.symm.trans ht)
  simp only [Prod.mk.injEq] at heq
  obtain ⟨rfl, rfl⟩ := heq
  rcases hright with ⟨-, hright⟩ | ⟨hret, -⟩
  · revert hright
    decide
  · exact absurd hret (by decide)

end Voxlib.VoxString
