import Voxlib.VoxString.Calls
import Voxlib.WebSocket.Handshake

/-!
# Replacing every occurrence (vox_string_find and vox_string_replace)

The loop searches the string that it edits: in front of `pos` stands what is rewritten, behind it
the untouched rest.
-/

namespace Voxlib.VoxString
open CStr Buffer List
open WebSocket.Server (strstr)

def sizeMax : ℕ := 2 ^ 64 - 1

-- vox_string_find (vox_string.c:601-612); `none`: strstr reads behind the buffer
def find (s : Str) (substr : Bytes) (start : ℕ) : Option ℕ :=
  if s.length ≤ start then some sizeMax
  else if (0 : UInt8) ∈ s.data.drop start then
    match strstr substr (cstr (s.data.drop start)) with
    | none => some sizeMax
    | some i => some (start + i)
  else none

/- The loop of vox_string_replace, with the pool of each round and `count` before it is cut to an
   `int`; `none` is also a loop that has not ended within the fuel. -/
def replaceLoop (pools : ℕ → Mpool) (old new : Bytes) : ℕ → ℕ → ℕ → Str → Outcome
  | 0, _, _, _ => none
  | fuel + 1, count, pos, s => do
    let pos ← find s old pos
    if pos = sizeMax then return (toInt count, s)
    let (ret, s) ← replaceAt (pools count) s pos old.length (some new)
    if ret ≠ 0 then return (-1, s)
    replaceLoop pools old new fuel (count + 1) (addWord 64 pos new.length) s

-- vox_string_replace (vox_string.c:642-669)
def replace (pools : ℕ → Mpool) (fuel : ℕ) (s : Str) : Option Bytes → Option Bytes → Outcome
  | some old, some new =>
    if old.length = 0 then some (0, s) else replaceLoop pools old new fuel 0 0 s
  | _, _ => some (-1, s)

/-- The text with the leftmost non-overlapping occurrences replaced; `skip` bytes of an occurrence
are still in front. -/
def replaced (old new : Bytes) (skip : ℕ) : Bytes → Bytes
  | [] => []
  | c :: cs =>
    match skip with
    | k + 1 => replaced old new k cs
    | 0 =>
      if old.isPrefixOf (c :: cs) then new ++ replaced old new (old.length - 1) cs
      else c :: replaced old new 0 cs

def occurrences (old : Bytes) (skip : ℕ) : Bytes → ℕ
  | [] => 0
  | c :: cs =>
    match skip with
    | k + 1 => occurrences old k cs
    | 0 =>
      if old.isPrefixOf (c :: cs) then occurrences old (old.length - 1) cs + 1
      else occurrences old 0 cs

example : replaced (lit "aa") (lit "aab") 0 (lit "caaaad") = lit "caabaabd" ∧
    occurrences (lit "aa") 0 (lit "caaaad") = 2 := by decide

/-- The pools of a run let every string grow to `n` bytes. -/
def Grow (pools : ℕ → Mpool) (n : ℕ) : Prop :=
  ∀ i s l needed, Holds s l → l.length + needed ≤ n →
    ensureCapacity (pools i) s needed ≠ some (-1, s)

section
variable {old new : Bytes}

theorem skipped (old new : Bytes) (k : ℕ) (r : Bytes) :
    replaced old new k r = replaced old new 0 (r.drop k) ∧
      occurrences old k r = occurrences old 0 (r.drop k) := by
  induction r generalizing k with
  | nil => simp [replaced, occurrences]
  | cons c cs ih =>
    cases k with
    | zero => exact ⟨rfl, rfl⟩
    | succ k => exact ih k

/-- What strstr finds is replaced first. -/
theorem strstr_spec (new : Bytes) (hold : old ≠ []) (r : Bytes) :
    (strstr old r = none ∧ replaced old new 0 r = r ∧ occurrences old 0 r = 0) ∨
      ∃ p q, r = p ++ (old ++ q) ∧ strstr old r = some p.length ∧
        replaced old new 0 r = p ++ (new ++ replaced old new 0 q) ∧
        occurrences old 0 r = occurrences old 0 q + 1 := by
  induction r with
  | nil => exact .inl ⟨if_neg hold, rfl, rfl⟩
  | cons c cs ih =>
    by_cases hhit : old.isPrefixOf (c :: cs) = true
    · obtain ⟨q, hq⟩ := isPrefixOf_iff_prefix.mp hhit
      have hskip := skipped old new (old.length - 1) cs
      have hrest : cs.drop (old.length - 1) = q := by
        cases old with
        | nil => exact absurd rfl hold
        | cons d ds =>
          obtain ⟨-, rfl⟩ := cons.inj hq
          exact drop_left
      rw [hrest] at hskip
      refine .inr ⟨[], q, hq.symm, if_pos hhit, ?_, ?_⟩
      · rw [replaced, if_pos hhit, hskip.1, nil_append]
      · rw [occurrences, if_pos hhit, hskip.2]
    · rw [strstr, replaced, occurrences, if_neg hhit, if_neg hhit, if_neg hhit]
      rcases ih with ⟨hnone, hsame, hzero⟩ | ⟨p, q, hcs, hsome, htext, hcount⟩
      · exact .inl ⟨by rw [hnone]; rfl, by rw [hsame], hzero⟩
      · exact .inr ⟨c :: p, q, by rw [hcs]; rfl, by rw [hsome]; rfl, by rw [htext]; rfl, hcount⟩

theorem replaced_longer (hold : old ≠ []) (hle : old.length ≤ new.length) (k : ℕ) (r : Bytes) :
    r.length ≤ (replaced old new k r).length + k := by
  induction r generalizing k with
  | nil => exact Nat.zero_le _
  | cons c cs ih =>
    cases k with
    | succ k =>
      have hcs := ih k
      rw [replaced, length_cons]
      omega
    | zero =>
      rw [replaced]
      split
      · have hcs := ih (old.length - 1)
        have hpos := length_pos_of_ne_nil hold
        rw [length_append, length_cons]
        omega
      · have hcs := ih 0
        rw [length_cons, length_cons]
        omega

variable {s : Str} {p l r : Bytes}

theorem find_spec (hold : old ≠ []) (h : Holds s (p ++ r)) (hr : 0 ∉ r) :
    find s old p.length = some ((strstr old r).elim sizeMax (p.length + ·)) := by
  obtain ⟨unused, hdata⟩ := h.data
  have hlen := h.length
  rw [length_append] at hlen
  cases r with
  | nil =>
    rw [find, if_pos (show s.length ≤ p.length from Nat.le_of_eq hlen), strstr, if_neg hold]
    rfl
  | cons c cs =>
    have htext : cstr (c :: cs ++ 0 :: unused) = c :: cs :=
      (takeWhile_stop (fun b hb => by simpa using ne_of_mem_of_not_mem hb hr) (by simp)).1
    have hdrop : s.data.drop p.length = c :: cs ++ 0 :: unused := by
      rw [hdata, append_assoc, drop_left]
    rw [length_cons] at hlen
    rw [find, if_neg (by omega), hdrop, if_pos (by simp), htext]
    cases strstr old (c :: cs) <;> rfl

theorem putText_ret {pos len : ℕ} {ret : ℤ} {t : Str} (h : putText pos len new s = some (ret, t)) :
    ret = 0 := by
  simp only [putText, Option.bind_eq_bind, Option.bind_eq_some_iff] at h
  obtain ⟨_, _, _, _, _, _, hend⟩ := h
  exact (Prod.mk.inj (Option.some.inj hend)).1.symm

theorem replaceAt_replaces (pool : Mpool) (new : Bytes) (h : Holds s (p ++ (old ++ r)))
    (hold : old ≠ []) (hword : (p ++ (old ++ r)).length + new.length + 1 < 2 ^ 64)
    (hgrow : ensureCapacity pool s (new.length - old.length) ≠ some (-1, s)) :
    ∃ t, replaceAt pool s p.length old.length (some new) = some (0, t) ∧
      Holds t (p ++ (new ++ r)) := by
  have hpos := length_pos_of_ne_nil hold
  have hlen := h.length
  rw [length_append, length_append] at hlen hword
  have hcut : cutLength s p.length old.length = old.length := by
    rw [cutLength, addWord_eq (by omega), if_neg (by omega)]
  obtain ⟨ret, t, hat, ⟨rfl, ht⟩ | ⟨rfl, -⟩⟩ := @replaceAt_leaves s _ pool new p.length
    old.length h (by omega) (by simp only [length_append]; omega)
  · rw [take_left, ← drop_drop, drop_left, drop_left, append_assoc] at ht
    exact ⟨t, hat, ht⟩
  · -- only the growth can fail
    exfalso
    rw [replaceAt, if_neg (by omega)] at hat
    simp only [hcut] at hat
    split at hat
    · obtain ⟨_, _, hend⟩ := Option.bind_eq_some_iff.mp hat
      exact absurd (Prod.mk.inj (Option.some.inj hend)).1 (by decide)
    · split at hat
      · rw [subWord_eq (by omega) (by omega), afterGrowth] at hat
        rcases @ensureCapacity_spec s _ pool (new.length - old.length) h
          (by simp only [length_append]; omega) with hfail | ⟨s', hgrown, -⟩
        · exact hgrow hfail
        · rw [hgrown] at hat
          exact absurd (putText_ret hat) (by decide)
      · exact absurd (putText_ret hat) (by decide)

/-- From `pos` on the loop does to the rest what the specification says. -/
theorem replaceLoop_spec {pools : ℕ → Mpool} {n : ℕ} (hold : old ≠ [])
    (hword : n + new.length + 1 < 2 ^ 64) (hgrow : Grow pools n) (fuel count : ℕ)
    (h : Holds s (p ++ r)) (hr : 0 ∉ r) (hfuel : r.length < fuel) (hn : (p ++ r).length ≤ n)
    (hn' : (p ++ replaced old new 0 r).length ≤ n) :
    ∃ t, replaceLoop pools old new fuel count p.length s =
        some (toInt (count + occurrences old 0 r), t) ∧ Holds t (p ++ replaced old new 0 r) := by
  induction fuel generalizing s p r count with
  | zero => exact absurd hfuel (Nat.not_lt_zero _)
  | succ fuel ih =>
    have hfind := find_spec hold h hr
    rcases strstr_spec new hold r with
      ⟨hnone, hsame, hzero⟩ | ⟨x, q, rfl, hsome, htext, hcount⟩
    · rw [hnone] at hfind
      rw [hsame, hzero]
      exact ⟨s, by simp [replaceLoop, hfind], h⟩
    · have hpos := length_pos_of_ne_nil hold
      rw [htext] at hn' ⊢
      rw [hsome, Option.elim_some, ← length_append] at hfind
      rw [hcount]
      have hassoc : p ++ (x ++ (old ++ q)) = (p ++ x) ++ (old ++ q) := (append_assoc ..).symm
      have hassoc' : p ++ (x ++ (new ++ replaced old new 0 q)) =
          (p ++ x ++ new) ++ replaced old new 0 q := by simp only [append_assoc]
      have hlater : (p ++ x ++ new ++ q).length ≤ n := by
        simp only [length_append] at hn hn' ⊢
        by_cases hle : old.length ≤ new.length
        · have hq := replaced_longer hold hle 0 q
          omega
        · omega
      rw [hassoc] at h hn
      rw [hassoc'] at hn' ⊢
      have hne : (p ++ x).length ≠ sizeMax := by
        simp only [length_append, sizeMax] at hn ⊢
        omega
      obtain ⟨t, hat, ht⟩ := replaceAt_replaces (pools count) new h hold
        (by omega) (hgrow count s _ _ h (by simp only [length_append] at hn hlater ⊢; omega))
      rw [← append_assoc] at ht
      simp only [length_append] at hlater hfuel
      have hlen : addWord 64 (p ++ x).length new.length = (p ++ x ++ new).length := by
        simp only [length_append]
        exact addWord_eq (by omega)
      obtain ⟨u, hloop, hu⟩ := ih (count + 1) ht
        (fun hz => hr (mem_append_right _ (mem_append_right _ hz))) (by omega)
        (by simp only [length_append]; omega) hn'
      refine ⟨u, ?_, hu⟩
      rw [Nat.add_right_comm] at hloop
      rw [replaceLoop, hfind]
      simp only [Option.bind_eq_bind, Option.bind_some, hne, hat, hlen, if_false, ne_eq, not_true]
      exact hloop

/-- The call ends, returns the number of occurrences, and has replaced exactly these. -/
def Replaces (pools : ℕ → Mpool) (fuel : ℕ) (s : Str) (l old new : Bytes) : Prop :=
  ∃ t, replace pools fuel s (some old) (some new) = some ((occurrences old 0 l : ℤ), t) ∧
    Holds t (replaced old new 0 l)

variable {pools : ℕ → Mpool} {fuel : ℕ}

theorem replace_spec (hold : old ≠ []) (h : Holds s l) (hplain : 0 ∉ l) (hfuel : l.length < fuel)
    (hword : max l.length (replaced old new 0 l).length + new.length + 1 < 2 ^ 64)
    (hgrow : Grow pools (max l.length (replaced old new 0 l).length)) :
    ∃ t, replace pools fuel s (some old) (some new) = some (toInt (occurrences old 0 l), t) ∧
      Holds t (replaced old new 0 l) := by
  have hrun := replaceLoop_spec (p := []) hold hword hgrow fuel 0 h hplain hfuel
    (Nat.le_max_left ..) (Nat.le_max_right ..)
  rw [Nat.zero_add] at hrun
  rw [replace, if_neg (Nat.ne_of_gt (length_pos_of_ne_nil hold))]
  exact hrun

theorem toInt_eq_iff {n : ℕ} : toInt n = n ↔ n < 2 ^ 31 := by
  constructor
  · intro h
    unfold toInt at h
    split at h <;> omega
  · intro hn
    exact toInt_of_le (by omega)

/-- The `int count` wraps around: the call replaces all occurrences, and its answer is their number
if and only if there are fewer than 2^31. (The two texts are objects of one address space.) -/
theorem string_replace_right_iff (hold : old ≠ []) (h : Holds s l) (hplain : 0 ∉ l)
    (hfuel : l.length < fuel)
    (hword : max l.length (replaced old new 0 l).length + new.length + 1 < 2 ^ 64)
    (hgrow : Grow pools (max l.length (replaced old new 0 l).length)) :
    Replaces pools fuel s l old new ↔ occurrences old 0 l < 2 ^ 31 := by
  obtain ⟨t, ht, hheld⟩ := replace_spec hold h hplain hfuel hword hgrow
  rw [← toInt_eq_iff, Replaces, ht]
  constructor
  · rintro ⟨u, hu, -⟩
    exact (Prod.mk.inj (Option.some.inj hu)).1
  · intro hcount
    exact ⟨t, by rw [hcount], hheld⟩

theorem zeroedPool_grow : Grow (fun _ => zeroedPool) (2 ^ 62) := by
  intro _ s l needed h hn hfail
  have hlen := h.length
  have hrequired : addWord 64 (addWord 64 s.length needed) 1 = l.length + needed + 1 := by
    rw [hlen, addWord_eq (show l.length + needed < 2 ^ 64 by omega), addWord_eq (by omega)]
  have hcap := h.wellFormed.below
  rw [ensureCapacity, hrequired] at hfail
  by_cases hroom : l.length + needed + 1 ≤ s.capacity
  · rw [if_pos hroom] at hfail
    exact absurd (Prod.mk.inj (Option.some.inj hfail)).1 (by decide)
  have hsome : newCapacity s.capacity (l.length + needed + 1) ≠ none := by
    simp only [newCapacity, Nat.add_sub_cancel]
    generalize (if s.capacity = 0 then 32 else s.capacity) * 2 % 2 ^ 64 = doubled
    have hbelow : l.length + needed < 2 ^ ((l.length + needed).log2 + 1) := Nat.lt_log2_self
    have htop : 2 ^ ((l.length + needed).log2 + 1) ≤ 2 ^ 63 :=
      Nat.pow_le_pow_right (by norm_num) ((Nat.log2_lt (by omega)).mpr (by omega))
    split
    · exact Option.some_ne_none _
    · rw [Pow2.smear64_eq (by omega) (by omega), if_neg (by omega)]
      exact Option.some_ne_none _
  obtain ⟨capacity, hcapacity⟩ := Option.ne_none_iff_exists'.mp hsome
  rw [if_neg hroom, hcapacity] at hfail
  obtain ⟨_, _, hfail⟩ := Option.bind_eq_some_iff.mp hfail
  obtain ⟨_, _, hend⟩ := Option.bind_eq_some_iff.mp hfail
  exact absurd (Prod.mk.inj (Option.some.inj hend)).1 (by decide)

def letters (n : ℕ) : Str := ⟨replicate n 97 ++ [0], n, n + 1⟩

theorem letters_holds {n : ℕ} (hn : n < 2 ^ 62) : Holds (letters n) (replicate n 97) :=
  ⟨length_replicate.symm, by simp [letters], by simp only [letters]; omega, [], rfl⟩

theorem letters_replaced (n : ℕ) : (replaced [97] [98] 0 (replicate n 97)).length = n ∧
      occurrences [97] 0 (replicate n 97) = n := by
  induction n with
  | zero => exact ⟨rfl, rfl⟩
  | succ n ih => simpa [replicate_succ, replaced, occurrences] using ih

/- "caaaad" with "aab" for "aa". -/
theorem string_replace_right_iff_twice :
    let s : Str := ⟨lit "caaaad" ++ [0, 0], 6, 8⟩
    Replaces (fun _ => zeroedPool) 7 s (lit "caaaad") (lit "aa") (lit "aab") ↔ 2 < 2 ^ 31 :=
  string_replace_right_iff (by decide) ⟨by decide, by decide, by decide, [0], by decide⟩ (by decide)
    (by decide) (by decide)
    (fun i s l needed h hn => zeroedPool_grow i s l needed h (hn.trans (by decide)))

/- 2^31 letters "a" that become "b": the call answers -2^31. -/
theorem replace_count_wraps : Holds (letters (2 ^ 31)) (replicate (2 ^ 31) 97) ∧
      ¬ Replaces (fun _ => zeroedPool) (2 ^ 31 + 1) (letters (2 ^ 31)) (replicate (2 ^ 31) 97)
        [97] [98] := by
  obtain ⟨n, hn⟩ : ∃ n, n = 2 ^ 31 := ⟨_, rfl⟩
  obtain ⟨hlen, hcount⟩ := letters_replaced n
  have hheld := letters_holds (n := n) (by omega)
  have hmax : max (replicate n (97 : UInt8)).length
      (replaced [97] [98] 0 (replicate n 97)).length = n := by
    rw [hlen, length_replicate, Nat.max_self]
  obtain ⟨t, ht, -⟩ : ∃ t, replace (fun _ => zeroedPool) (n + 1) (letters n) (some [97])
      (some [98]) = _ ∧ Holds t _ := replace_spec (by decide) hheld (by simp) (by simp) (by rw [hmax, length_singleton]; omega)
    (fun i s l needed h hle => zeroedPool_grow i s l needed h (by omega))
  rw [← hn]
  refine ⟨hheld, ?_⟩
  rintro ⟨u, hu, -⟩
  rw [hu, hcount] at ht
  have hlt := toInt_eq_iff.mp (Prod.mk.inj (Option.some.inj ht)).1.symm
  omega

end

end Voxlib.VoxString
