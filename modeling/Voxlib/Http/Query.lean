import Mathlib.Data.List.TakeWhile
import Voxlib.Lib.CStr

/-!
# Query parameters (vox_http_context.c)

An item without '=' is read as one with the item behind it, so that one is not found.
-/

namespace Voxlib.Http
open CStr List

structure View where
  ptr : ℕ
  text : Bytes
  deriving DecidableEq

def memchr (c : UInt8) (p : Bytes) : Option (Bytes × Bytes) :=
  if c ∈ p then some (p.takeWhile (· ≠ c), (p.dropWhile (· ≠ c)).tail) else none

def queryLoop (name : Bytes) : ℕ → ℕ → Bytes → Option View
  | 0, _, _ => none
  | n + 1, ptr, p =>
    match memchr 61 p with
    | none => none
    | some (key, rest) =>
      let start := ptr + key.length + 1
      if key.length = name.length ∧ strncmp p name name.length then
        some ⟨start, rest.takeWhile (· ≠ 38)⟩
      else
        match memchr 38 rest with
        | none => none
        | some (passed, next) => queryLoop name n (start + passed.length + 1) next

-- parse_query_param (vox_http_context.c:165-194)
def parseQueryParam (query name : Bytes) : Option View :=
  queryLoop name (query.length + 1) 0 query

-- vox_http_context_get_query (vox_http_context.c:196-201); a NULL query has length 0 too
def getQuery (query name : Bytes) : Option View :=
  if query.length = 0 then none else parseQueryParam query name

def items : Bytes → List Bytes
  | [] => [[]]
  | c :: p =>
    if c = 38 then [] :: items p
    else
      match items p with
      | [] => [[c]]
      | item :: rest => (c :: item) :: rest

def Named (name item : Bytes) : Prop := 61 ∈ item ∧ item.takeWhile (· ≠ 61) = name

instance (name item : Bytes) : Decidable (Named name item) := inferInstanceAs (Decidable (_ ∧ _))

/-- The value of the first item of that name, where the items begin at `off`. -/
def firstValue (name : Bytes) : ℕ → List Bytes → Option View
  | _, [] => none
  | off, item :: rest =>
    if Named name item then some ⟨off + name.length + 1, item.drop (name.length + 1)⟩
    else firstValue name (off + item.length + 1) rest

/-- The first item of that name is behind an item without '='. -/
def Hidden (name : Bytes) (bare : Bool) : List Bytes → Prop
  | [] => False
  | item :: rest => if Named name item then bare = true else Hidden name (61 ∉ item) rest

def seenValue (name : Bytes) : Bool → ℕ → List Bytes → Option View
  | _, _, [] => none
  | bare, off, item :: rest =>
    if bare = false ∧ Named name item then
      some ⟨off + name.length + 1, item.drop (name.length + 1)⟩
    else seenValue name (61 ∉ item) (off + item.length + 1) rest

variable {c : UInt8} {p : Bytes}

theorem memchr_none (h : c ∉ p) : memchr c p = none := if_neg h

variable {k : Bytes}

theorem takeWhile_cut (hk : c ∉ k) (r : Bytes) :
    (k ++ c :: r).takeWhile (· ≠ c) = k ∧ (k ++ c :: r).dropWhile (· ≠ c) = c :: r :=
  takeWhile_stop (fun d hd => decide_eq_true fun h => hk (h ▸ hd)) (by simp)

theorem memchr_cut (hk : c ∉ k) (r : Bytes) : memchr c (k ++ c :: r) = some (k, r) := by
  obtain ⟨htake, hdrop⟩ := takeWhile_cut hk r
  rw [memchr, if_pos (by simp), htake, hdrop]
  rfl

theorem cut_cases (c : UInt8) (p : Bytes) : c ∉ p ∨ ∃ k r, p = k ++ c :: r ∧ c ∉ k := by
  by_cases h : c ∈ p
  · exact .inr (eq_append_cons_of_mem h)
  · exact .inl h

theorem items_last (h : 38 ∉ p) : items p = [p] := by
  induction p with
  | nil => rfl
  | cons c p ih =>
    rw [mem_cons, not_or] at h
    rw [items, if_neg (Ne.symm h.1), ih h.2]

theorem items_cut (h : 38 ∉ k) (r : Bytes) : items (k ++ 38 :: r) = k :: items r := by
  induction k with
  | nil => rfl
  | cons c k ih =>
    rw [mem_cons, not_or] at h
    rw [cons_append, items, if_neg (Ne.symm h.1), ih h.2]

theorem items_induction {P : Bytes → Prop} (last : ∀ p, 38 ∉ p → P p)
    (cut : ∀ k r, 38 ∉ k → P r → P (k ++ 38 :: r)) (p : Bytes) : P p := by
  induction hn : p.length using Nat.strong_induction_on generalizing p with
  | _ n ih =>
    rcases cut_cases 38 p with h | ⟨k, r, rfl, hk⟩
    · exact last p h
    · refine cut k r hk (ih r.length ?_ r rfl)
      rw [← hn, length_append, length_cons]
      omega

variable {name : Bytes}

theorem seenValue_bare (h : 61 ∉ p) (bare : Bool) (off : ℕ) :
    seenValue name bare off (items p) = none := by
  have hnot (k : Bytes) (hk : 61 ∉ k) : ¬ (bare = false ∧ Named name k) := fun hnamed =>
    hk hnamed.2.1
  induction p using items_induction generalizing bare off with
  | last p hp => rw [items_last hp, seenValue, if_neg (hnot p h), seenValue]
  | cut k r hk ih =>
    simp only [mem_append, mem_cons, not_or] at h
    rw [items_cut hk, seenValue, if_neg (hnot k h.1)]
    exact ih h.2.2 _ _ fun q hq hnamed => hq hnamed.2.1

/-- A key that is not taken is passed over with its value and the bare items in front of it. -/
theorem seenValue_passes (hk : 61 ∉ k) (r : Bytes) {bare : Bool} (hskip : bare = true ∨ k ≠ name)
    (off : ℕ) : seenValue name bare off (items (k ++ 61 :: r)) = match memchr 38 r with
      | none => none
      | some (v, next) =>
        seenValue name false (off + k.length + 1 + v.length + 1) (items next) := by
  induction k using items_induction generalizing bare off with
  | last k hamp =>
    have hnot (v : Bytes) : ¬ (bare = false ∧ Named name (k ++ 61 :: v)) := by
      rintro ⟨hbare, -, hname⟩
      rw [(takeWhile_cut hk v).1] at hname
      exact hskip.elim (fun h => Bool.false_ne_true (hbare.symm.trans h)) (fun h => h hname)
    rcases cut_cases 38 r with hr | ⟨v, next, rfl, hv⟩
    · rw [memchr_none hr, items_last (by simp [hamp, hr]), seenValue, if_neg (hnot r), seenValue]
    · have hitem : 38 ∉ k ++ 61 :: v := by simp [hamp, hv]
      rw [memchr_cut hv, ← cons_append, ← append_assoc, items_cut hitem, seenValue,
        if_neg (hnot v)]
      simp only [mem_append, mem_cons, true_or, or_true, not_true, decide_false, length_append,
        length_cons, ← Nat.add_assoc]
      rw [Nat.add_right_comm _ v.length]
  | cut a b ha ih =>
    simp only [mem_append, mem_cons, not_or] at hk
    have hnot : ¬ (bare = false ∧ Named name a) := fun hnamed => hk.1 hnamed.2.1
    rw [append_assoc, cons_append, items_cut ha, seenValue, if_neg hnot,
      ih hk.2.2 (.inl (decide_eq_true hk.1))]
    simp only [length_append, length_cons, ← Nat.add_assoc, Nat.add_right_comm _ 1]

theorem key_matches (hzero : 0 ∉ name) {key rest : Bytes} :
    key.length = name.length ∧ strncmp (key ++ 61 :: rest) name name.length ↔ key = name := by
  have hcmp := strncmpBy_iff (f := id) (fun _ h => h.symm) (key ++ 61 :: rest) name
    fun c hc h => hzero (h ▸ hc)
  rw [map_id, map_id] at hcmp
  rw [strncmp, hcmp]
  constructor
  · rintro ⟨hlen, htake⟩
    rwa [← hlen, take_left] at htake
  · rintro rfl
    exact ⟨rfl, take_left⟩

theorem queryLoop_eq (hamp : 38 ∉ name) (hzero : 0 ∉ name) (n ptr : ℕ) (p : Bytes)
    (hn : p.length < n) : queryLoop name n ptr p = seenValue name false ptr (items p) := by
  induction n generalizing ptr p with
  | zero => omega
  | succ n ih =>
    rcases cut_cases 61 p with hp | ⟨key, rest, rfl, hkey⟩
    · rw [queryLoop, memchr_none hp, seenValue_bare hp]
    · rw [queryLoop, memchr_cut hkey]
      dsimp only
      by_cases hname : key = name
      · subst hname
        rw [if_pos ((key_matches hzero).mpr rfl)]
        have hnamed (v : Bytes) : false = false ∧ Named key (key ++ 61 :: v) :=
          ⟨rfl, by simp, (takeWhile_cut hkey v).1⟩
        have hdrop (v : Bytes) : (key ++ 61 :: v).drop (key.length + 1) = v := by simp
        rcases cut_cases 38 rest with hr | ⟨v, next, rfl, hv⟩
        · have htake : rest.takeWhile (· ≠ 38) = rest :=
            takeWhile_eq_self_iff.mpr fun d hd => decide_eq_true fun h => hr (h ▸ hd)
          rw [items_last (by simp [hamp, hr]), seenValue, if_pos (hnamed rest), htake, hdrop]
        · have hitem : 38 ∉ key ++ 61 :: v := by simp [hamp, hv]
          rw [(takeWhile_cut hv next).1, ← cons_append, ← append_assoc, items_cut hitem, seenValue,
            if_pos (hnamed v), hdrop]
      · rw [if_neg fun h => hname ((key_matches hzero).mp h),
          seenValue_passes hkey rest (.inr hname)]
        rcases cut_cases 38 rest with hr | ⟨v, next, rfl, hv⟩
        · rw [memchr_none hr]
        · rw [memchr_cut hv]
          refine ih _ next ?_
          simp only [length_append, length_cons] at hn
          omega

theorem seenValue_ptr {bare : Bool} {off : ℕ} {l : List Bytes} {v : View}
    (h : seenValue name bare off l = some v) : off + name.length < v.ptr := by
  induction l generalizing bare off with
  | nil => cases h
  | cons item l ih =>
    rw [seenValue] at h
    split_ifs at h
    · cases h
      exact Nat.lt_succ_self _
    · have := ih h
      omega

theorem seenValue_eq_iff (bare : Bool) (off : ℕ) (l : List Bytes) :
    seenValue name bare off l = firstValue name off l ↔ ¬ Hidden name bare l := by
  induction l generalizing bare off with
  | nil => simp [seenValue, firstValue, Hidden]
  | cons item l ih =>
    rw [seenValue, firstValue, Hidden]
    by_cases hnamed : Named name item
    · rw [if_pos hnamed, if_pos hnamed]
      cases bare with
      | false => simp [hnamed]
      | true =>
        simp only [Bool.true_eq_false, false_and, if_false, not_true, iff_false]
        intro hsame
        have := seenValue_ptr hsame
        dsimp only at this
        omega
    · rw [if_neg hnamed, if_neg hnamed, if_neg fun h => hnamed h.2]
      exact ih _ _

/-- The value of the first item of a name is found, unless that item stands right behind one
without '='. -/
theorem getQuery_right_iff (query name : Bytes) (hamp : 38 ∉ name) (hzero : 0 ∉ name) :
    getQuery query name = firstValue name 0 (items query) ↔ ¬ Hidden name false (items query) := by
  have hget : getQuery query name = seenValue name false 0 (items query) := by
    rw [getQuery, parseQueryParam]
    split_ifs with hempty
    · rw [length_eq_zero_iff.mp hempty, seenValue_bare (by simp)]
    · exact queryLoop_eq hamp hzero _ 0 query (Nat.lt_succ_self _)
  rw [hget]
  exact seenValue_eq_iff false 0 (items query)

theorem getQuery_right_mixed :
    getQuery (lit "x=1&&y&b=3&a=2=3&a=4") (lit "a") =
      firstValue (lit "a") 0 (items (lit "x=1&&y&b=3&a=2=3&a=4")) ↔
      ¬ Hidden (lit "a") false (items (lit "x=1&&y&b=3&a=2=3&a=4")) :=
  getQuery_right_iff _ _ (by decide) (by decide)

/-- `b` is asked for in the query `a&b=1`. -/
theorem getQuery_behind_a_flag : getQuery (lit "a&b=1") (lit "b") = none ∧
    firstValue (lit "b") 0 (items (lit "a&b=1")) = some ⟨4, lit "1"⟩ := by
  decide

end Voxlib.Http
