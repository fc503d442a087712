import Voxlib.Lib.Run
import Voxlib.Lib.Buffer

/-!
# The vector (vox_vector.c)

The byte count of the element array is computed modulo 2^64; only the doubling is checked for a
wrap.
-/

namespace Voxlib.Vector
open Buffer Run List

variable {E : Type*}

/-- struct vox_vector, and the elements that `elem_free` was called with. -/
structure Vec (E : Type*) where
  elements : List (Option E)
  size : ℕ := 0
  capacity : ℕ
  elemFree : Bool := false
  freed : List E := []

/- What the memory that a call gets from the pool holds; `none` when there is none. -/
abbrev Mem (E : Type*) := Option (ℕ → Option E)

/- The slots in `n * sizeof(void*)` bytes. -/
def slots (n : ℕ) : ℕ := n * 8 % 2 ^ 64 / 8

/- vox_mpool_alloc of `n * sizeof(void*)` bytes. -/
def alloc (mem : Mem E) (n : ℕ) : Option (List (Option E)) :=
  if slots n = 0 then none else mem.map fun junk => (range (slots n)).map junk

-- vox_vector_create_with_config (vox_vector.c:53-88); the vector itself can be allocated
def create (mem : Mem E) (initialCapacity : ℕ) (elemFree : Bool) : Option (Vec E) :=
  let n := if 0 < initialCapacity then initialCapacity else 16
  (alloc mem n).map fun cells => { elements := cells, capacity := n, elemFree := elemFree }

def moveTo (v : Vec E) (cells : List (Option E)) : Option (List (Option E)) :=
  (fetch v.elements 0 (slots v.size)).bind (blit cells 0)

def renew (mem : Mem E) (v : Vec E) (n : ℕ) : Option (ℤ × Vec E) :=
  match alloc mem n with
  | none => some (-1, v)
  | some cells => (moveTo v cells).map fun e => (0, { v with elements := e, capacity := n })

-- expand_vector (vox_vector.c:24-45)
def expandVector (mem : Mem E) (v : Vec E) : Option (ℤ × Vec E) :=
  if v.capacity * 2 % 2 ^ 64 < v.capacity then some (-1, v)
  else renew mem v (v.capacity * 2 % 2 ^ 64)

/- An element is put at `index` when there is room; vox_vector_push puts it behind all others. -/
def put (mem : Mem E) (v : Vec E) (index : ℕ) (elem : Option E) : Option (ℤ × Vec E) :=
  (if v.capacity ≤ v.size then expandVector mem v else some (0, v)).bind fun (ret, v) =>
    if ret ≠ 0 then some (-1, v)
    else
      (if index < v.size then memmove v.elements (index + 1) index (slots (v.size - index))
        else some v.elements).bind fun e =>
        (store e index elem).map fun e => (0, { v with elements := e, size := v.size + 1 })

-- vox_vector_push (vox_vector.c:93-108)
def push (mem : Mem E) (v : Vec E) (elem : Option E) : Option (ℤ × Vec E) :=
  if elem.isNone then some (-1, v) else put mem v v.size elem

-- vox_vector_pop (vox_vector.c:111-116)
def pop (v : Vec E) : Option (Option E × Vec E) :=
  if v.size = 0 then some (none, v)
  else (load v.elements (v.size - 1)).map fun x => (x, { v with size := v.size - 1 })

-- vox_vector_insert (vox_vector.c:119-144)
def insert (mem : Mem E) (v : Vec E) (index : ℕ) (elem : Option E) : Option (ℤ × Vec E) :=
  if elem.isNone then some (-1, v) else if v.size < index then some (-1, v)
  else put mem v index elem

-- vox_vector_remove (vox_vector.c:147-163)
def remove (v : Vec E) (index : ℕ) : Option (Option E × Vec E) :=
  if v.size ≤ index then some (none, v)
  else
    (load v.elements index).bind fun x =>
      (if index < v.size - 1 then memmove v.elements index (index + 1) (slots (v.size - index - 1))
        else some v.elements).map fun e => (x, { v with elements := e, size := v.size - 1 })

-- vox_vector_set (vox_vector.c:172-182)
def set (v : Vec E) (index : ℕ) (elem : Option E) : Option (ℤ × Vec E) :=
  if v.size ≤ index then some (-1, v)
  else
    (load v.elements index).bind fun old =>
      (store v.elements index elem).map fun e =>
        (0, { v with
          elements := e
          freed := if v.elemFree then v.freed ++ old.toList else v.freed })

/- The loop of vox_vector_resize; `some none` is its overflow. -/
def doubled (capacity newSize : ℕ) : ℕ → ℕ → Option (Option ℕ)
  | 0, _ => none
  | fuel + 1, n =>
    if n < newSize then
      if n * 2 % 2 ^ 64 < capacity then some none
      else doubled capacity newSize fuel (n * 2 % 2 ^ 64)
    else some (some n)

-- vox_vector_resize (vox_vector.c:216-262)
def resize (mem : Mem E) (v : Vec E) (newSize : ℕ) : Option (ℤ × Vec E) :=
  if newSize < v.size then
    (fetch v.elements newSize (v.size - newSize)).map fun gone =>
      (0, { v with
        size := newSize
        freed := if v.elemFree then v.freed ++ gone.reduceOption else v.freed })
  else if v.capacity < newSize then
    (doubled v.capacity newSize 65 v.capacity).bind fun
      | none => some (-1, v)
      | some n =>
        match alloc mem n with
        | none => some (-1, v)
        | some cells =>
          (moveTo v cells).bind fun e => (fill e v.size (slots (n - v.size)) none).map fun e =>
            (0, { v with elements := e, capacity := n, size := newSize })
  else
    (fill v.elements v.size (slots (newSize - v.size)) none).map fun e =>
      (0, { v with elements := e, size := newSize })

-- vox_vector_reserve (vox_vector.c:268-286)
def reserve (mem : Mem E) (v : Vec E) (capacity : ℕ) : Option (ℤ × Vec E) :=
  if capacity ≤ v.capacity then some (0, v) else renew mem v capacity

inductive Call (E : Type*) where
  | push (elem : Option E)
  | pop
  | insert (index : ℕ) (elem : Option E)
  | remove (index : ℕ)
  | set (index : ℕ) (elem : Option E)
  | resize (newSize : ℕ)
  | reserve (capacity : ℕ)

inductive Answer (E : Type*) where
  | code (ret : ℤ)
  | elem (x : Option E)

/-- A call, with the memory for it; it has no outcome where it touches a slot outside. -/
def call (v : Vec E) : Mem E × Call E → Option (Answer E × Vec E)
  | (mem, .push elem) => (push mem v elem).map (Prod.map .code id)
  | (_, .pop) => (pop v).map (Prod.map .elem id)
  | (mem, .insert index elem) => (insert mem v index elem).map (Prod.map .code id)
  | (_, .remove index) => (remove v index).map (Prod.map .elem id)
  | (_, .set index elem) => (set v index elem).map (Prod.map .code id)
  | (mem, .resize newSize) => (resize mem v newSize).map (Prod.map .code id)
  | (mem, .reserve capacity) => (reserve mem v capacity).map (Prod.map .code id)

def step (v : Vec E) (a : Mem E × Call E) : Option (Vec E) := (call v a).map (·.2)

/-- The operations on a list; `none` where they are refused. -/
def listCall (l : List (Option E)) : Call E → Option (Answer E × List (Option E))
  | .push elem => if elem.isNone then none else some (.code 0, l ++ [elem])
  | .pop => some (.elem l.getLast?.join, l.dropLast)
  | .insert index elem => if elem.isNone ∨ l.length < index then none
    else some (.code 0, l.take index ++ elem :: l.drop index)
  | .remove index => some (.elem l[index]?.join, l.eraseIdx index)
  | .set index elem => if l.length ≤ index then none else some (.code 0, l.set index elem)
  | .resize n => some (.code 0, l.take n ++ replicate (n - l.length) none)
  | .reserve _ => some (.code 0, l)

def contents (v : Vec E) : List (Option E) := v.elements.take v.size

def Sound (v : Vec E) : Prop := v.size ≤ v.capacity ∧ v.capacity ≤ v.elements.length

/- The slots that the call needs, and the number for which it asks the pool when there are fewer. -/
def needed (v : Vec E) : Call E → ℕ
  | .push _ | .insert _ _ => v.size + 1
  | .resize n | .reserve n => n
  | _ => 0

def asked (v : Vec E) : Call E → Option ℕ
  | .push _ | .insert _ _ =>
    if v.capacity * 2 % 2 ^ 64 < v.capacity then none else some (v.capacity * 2 % 2 ^ 64)
  | .resize n => (doubled v.capacity n 65 v.capacity).join
  | .reserve n => some n
  | _ => none

/-- A call that is not refused and needs more slots. -/
def Grows (v : Vec E) (c : Call E) : Prop :=
  v.capacity < needed v c ∧ (listCall (contents v) c).isSome

/-- A call that grows does not get memory for a number of bytes that wrapped. -/
def Sized (v : Vec E) (a : Mem E × Call E) : Prop :=
  Grows v a.2 → ∀ n ∈ asked v a.2, n * 8 < 2 ^ 64 ∨ alloc a.1 n = none

/-- A call that is refused or needs more slots returns -1 and changes nothing, or the call answers
and does what the operation on the list does. -/
def Right (v : Vec E) (a : Mem E × Call E) : Prop :=
  ∃ r w, call v a = some (r, w) ∧
    ((r = .code (-1) ∧ w = v ∧ (listCall (contents v) a.2 = none ∨ Grows v a.2)) ∨
      listCall (contents v) a.2 = some (r, contents w))

/-- What every state of such runs looks like. -/
structure Holds (v : Vec E) (l : List (Option E)) : Prop where
  size : v.size = l.length
  elements : ∃ unused, v.elements = l ++ unused
  fits : l.length ≤ v.capacity
  slots : v.capacity ≤ v.elements.length
  pos : 0 < v.capacity
  word : v.elements.length < 2 ^ 61

variable {v : Vec E} {l : List (Option E)} {mem : Mem E}

variable {n : ℕ}

theorem slots_eq (h : n < 2 ^ 61) : slots n = n := by
  unfold slots
  omega

theorem Holds.contents (h : Holds v l) : contents v = l := by
  obtain ⟨unused, hel⟩ := h.elements
  rw [Vector.contents, h.size, hel, take_left]

theorem Holds.sound (h : Holds v l) : Sound v := ⟨h.size ▸ h.fits, h.slots⟩

theorem Holds.short (h : Holds v l) : l.length < 2 ^ 61 :=
  (h.fits.trans h.slots).trans_lt h.word

theorem alloc_length {cells : List (Option E)} (h : alloc mem n = some cells)
    (hfit : n * 8 < 2 ^ 64) : cells.length = n ∧ 0 < n := by
  have hn : slots n = n := slots_eq (by omega)
  rw [alloc, hn] at h
  split_ifs at h with hzero
  obtain ⟨junk, -, rfl⟩ := Option.map_eq_some_iff.mp h
  exact ⟨by rw [length_map, length_range], Nat.pos_of_ne_zero hzero⟩

theorem moveTo_eq (h : Holds v l) {cells : List (Option E)} (hn : l.length ≤ cells.length) :
    moveTo v cells = some (l ++ cells.drop l.length) := by
  obtain ⟨unused, hel⟩ := h.elements
  rw [moveTo, h.size, slots_eq h.short, hel]
  have hfetch := fetch_append [] l unused
  have hblit := blit_append (l := []) hn
  simp only [nil_append, length_nil] at hfetch hblit
  rw [hfetch, Option.bind_some, hblit]

theorem renew_spec (h : Holds v l) (hn : l.length ≤ n)
    (hfit : n * 8 < 2 ^ 64 ∨ alloc mem n = none) :
    renew mem v n = some (-1, v) ∨ ∃ w, renew mem v n = some (0, w) ∧ Holds w l ∧ w.capacity = n := by
  rw [renew]
  cases halloc : alloc mem n with
  | none => exact .inl rfl
  | some cells =>
    have hfit := hfit.resolve_right (by rw [halloc]; exact nofun)
    obtain ⟨hlen, hpos⟩ := alloc_length halloc hfit
    have hlong : (l ++ cells.drop l.length).length = n := by
      rw [length_append, length_drop]
      omega
    dsimp only
    rw [moveTo_eq h (hlen ▸ hn)]
    refine .inr ⟨_, rfl, ⟨h.size, ⟨_, rfl⟩, hn, hlong.ge, hpos, ?_⟩, rfl⟩
    show (l ++ cells.drop l.length).length < _
    omega

theorem store_eq_blit (b : List (Option E)) (i : ℕ) (c : Option E) : store b i c = blit b i [c] := by
  rw [store, blit, length_singleton]
  by_cases hi : i < b.length
  · rw [if_pos hi, if_pos (Nat.succ_le_of_lt hi), set_eq_take_append_cons_drop, if_pos hi]
    rfl
  · rw [if_neg hi, if_neg fun h => hi (Nat.lt_of_succ_le h)]

variable {index : ℕ}

/-- The part of an insertion behind the test for room. -/
theorem put_room (mem : Mem E) (h : Holds v l) (hroom : l.length < v.capacity)
    (hi : index ≤ l.length) (elem : Option E) :
    ∃ w, put mem v index elem = some (0, w) ∧ Holds w (l.take index ++ elem :: l.drop index) := by
  obtain ⟨unused, hel⟩ := h.elements
  have hslots := h.slots
  have hlong : l.length < v.elements.length := hroom.trans_le hslots
  obtain ⟨a, b, rfl, rfl⟩ : ∃ a b, l = a ++ b ∧ a.length = index :=
    ⟨l.take index, l.drop index, (take_append_drop _ _).symm, length_take_of_le hi⟩
  have hcount : v.size - a.length = b.length := by
    rw [h.size, length_append]
    omega
  rw [append_assoc] at hel
  have hshift : (if a.length < v.size then
      memmove v.elements (a.length + 1) a.length (slots (v.size - a.length))
      else some v.elements) = blit v.elements (a.length + 1) b := by
    have hshort := h.short
    rw [length_append] at hshort hlong
    rw [hcount, slots_eq (by omega)]
    split_ifs with hlt
    · rw [memmove, hel, fetch_append, Option.bind_some]
    · have hb : b = [] := length_eq_zero_iff.mp (by omega)
      rw [hb, blit_nil (by omega)]
  obtain ⟨rest, hrest, hsplice⟩ := splice (l := a) (r := b ++ unused) (x := [elem]) (y := b) (by
    have := congrArg length hel
    simp only [length_append, length_singleton] at this hlong ⊢
    omega)
  have hput : put mem v a.length elem =
      some (0, { v with elements := a ++ ([elem] ++ (b ++ rest)), size := v.size + 1 }) := by
    rw [length_singleton] at hsplice
    rw [put, if_neg (by rw [h.size]; omega), Option.bind_some]
    dsimp only
    rw [if_neg (not_not.mpr rfl), hshift, hel]
    simp only [store_eq_blit]
    obtain ⟨e, he, hstore⟩ := Option.bind_eq_some_iff.mp hsplice
    rw [he, Option.bind_some, hstore]
    rfl
  have hlen : (a ++ ([elem] ++ (b ++ rest))).length = v.elements.length := by
    have := congrArg length hel
    simp only [length_append, length_singleton] at this hrest ⊢
    omega
  rw [take_left, drop_left]
  refine ⟨_, hput, ?_, ⟨rest, by simp⟩, ?_, hlen ▸ hslots, h.pos, hlen ▸ h.word⟩
  · simp [h.size, Nat.add_assoc]
  · rw [length_append] at hroom
    show (a ++ elem :: b).length ≤ v.capacity
    rw [length_append, length_cons]
    omega

section
variable (h : Holds v l)
include h

theorem put_spec (hi : index ≤ l.length) {elem : Option E}
    (hsized : v.capacity < v.size + 1 → ∀ n ∈ asked v (.push elem),
      n * 8 < 2 ^ 64 ∨ alloc mem n = none) :
    (put mem v index elem = some (-1, v) ∧ v.capacity < v.size + 1) ∨
      ∃ w, put mem v index elem = some (0, w) ∧ Holds w (l.take index ++ elem :: l.drop index) := by
  by_cases hfull : v.capacity ≤ v.size
  · have hfits := h.fits
    have hpos := h.pos
    have hword := h.slots.trans_lt h.word
    have hsize := h.size
    have hdouble : v.capacity * 2 % 2 ^ 64 = v.capacity * 2 := Nat.mod_eq_of_lt (by omega)
    have hexpand : expandVector mem v = renew mem v (v.capacity * 2) := by
      rw [expandVector, hdouble, if_neg (by omega)]
    have hasked : asked v (.push elem) = some (v.capacity * 2) := by
      rw [asked, hdouble, if_neg (by omega)]
    rw [hasked] at hsized
    rcases renew_spec h (by omega) (hsized (by omega) _ rfl) with hrenew | ⟨w, hrenew, hw, hcap⟩
    · refine .inl ⟨?_, by omega⟩
      rw [put, if_pos hfull, hexpand, hrenew]
      rfl
    · obtain ⟨u, hput, hu⟩ := put_room mem hw (by omega) hi elem
      have hroom : ¬ w.capacity ≤ w.size := by rw [hw.size]; omega
      rw [put, if_neg hroom] at hput
      exact .inr ⟨u, by rw [← hput, put, if_pos hfull, hexpand, hrenew], hu⟩
  · exact .inr (put_room mem h (by rw [← h.size]; omega) hi elem)

theorem pop_spec : ∃ w, pop v = some (l.getLast?.join, w) ∧ Holds w l.dropLast := by
  obtain ⟨unused, hel⟩ := h.elements
  have hsize := h.size
  cases l using List.reverseRecOn with
  | nil => exact ⟨v, if_pos hsize, h⟩
  | append_singleton a x =>
    rw [length_append, length_singleton] at hsize
    have hload : load v.elements (v.size - 1) = some x := by
      rw [load, hel, hsize]
      simp
    have hfits := h.fits
    rw [length_append] at hfits
    refine ⟨{ v with size := v.size - 1 }, ?_, ?_, ⟨x :: unused, ?_⟩, ?_, h.slots, h.pos, h.word⟩
    · rw [pop, if_neg (by omega), hload]
      simp
    · simp [hsize]
    · simp [hel]
    · rw [dropLast_concat]
      exact (Nat.le_add_right _ _).trans hfits

theorem Holds.split (hi : index < l.length) :
    ∃ a x b unused, l = a ++ x :: b ∧ a.length = index ∧ v.elements = a ++ x :: (b ++ unused) ∧
      load v.elements index = some x := by
  obtain ⟨unused, hel⟩ := h.elements
  refine ⟨l.take index, l[index], l.drop (index + 1), unused, ?_, length_take_of_le hi.le, ?_, ?_⟩
  · rw [← drop_eq_getElem_cons, take_append_drop]
  · rw [hel, ← cons_append, ← drop_eq_getElem_cons, ← append_assoc, take_append_drop]
  · rw [load, hel, getElem?_append_left hi, List.getElem?_eq_getElem hi]

theorem remove_spec (index : ℕ) :
    ∃ w, remove v index = some (l[index]?.join, w) ∧ Holds w (l.eraseIdx index) := by
  by_cases hi : index < l.length
  · obtain ⟨a, x, b, unused, rfl, rfl, hel, hload⟩ := h.split hi
    have hsize := h.size
    have hshort := h.short
    rw [length_append, length_cons] at hsize hshort
    obtain ⟨rest, hrest, hmove⟩ : ∃ rest, rest.length = unused.length + 1 ∧
        (if a.length < v.size - 1 then
          memmove v.elements a.length (a.length + 1) (slots (v.size - a.length - 1))
        else some v.elements) = some (a ++ (b ++ rest)) := by
      rw [slots_eq (by omega)]
      split_ifs with hlt
      · have hfetch := fetch_append (a ++ [x]) b unused
        rw [show v.size - a.length - 1 = b.length by omega, memmove]
        rw [append_assoc, singleton_append, ← hel, length_append, length_singleton] at hfetch
        rw [hfetch, Option.bind_some, hel, blit_append (by simp; omega)]
        refine ⟨_, ?_, rfl⟩
        simp
        omega
      · have hb : b = [] := length_eq_zero_iff.mp (by omega)
        exact ⟨x :: unused, rfl, by rw [hel, hb]; rfl⟩
    have hlen : (a ++ (b ++ rest)).length = v.elements.length := by
      rw [hel]
      simp [hrest]
      omega
    have hfits := h.fits
    have herase : (a ++ x :: b).eraseIdx a.length = a ++ b := by
      rw [eraseIdx_append_of_length_le (Nat.le_refl _), Nat.sub_self]
      rfl
    rw [remove, if_neg (by omega), hload, Option.bind_some, hmove, herase]
    have hx : (a ++ x :: b)[a.length]? = some x := by simp
    rw [hx]
    refine ⟨_, rfl, ?_, ⟨rest, (append_assoc _ _ _).symm⟩, ?_, hlen ▸ h.slots, h.pos, hlen ▸ h.word⟩
    · rw [length_append]
      show v.size - 1 = _
      omega
    · rw [length_append, length_cons] at hfits
      rw [length_append]
      exact (Nat.le_succ _).trans hfits
  · have hout : l.length ≤ index := Nat.not_lt.mp hi
    rw [remove, if_pos (by rw [h.size]; exact hout), getElem?_eq_none hout, eraseIdx_of_length_le hout]
    exact ⟨v, rfl, h⟩

theorem set_spec (hi : index < l.length) (elem : Option E) :
    ∃ w, set v index elem = some (0, w) ∧ Holds w (l.set index elem) := by
  obtain ⟨a, x, b, unused, rfl, rfl, hel, hload⟩ := h.split hi
  have hstore : store v.elements a.length elem = some (a ++ elem :: (b ++ unused)) := by
    rw [hel, store_append]
  have hlen : (a ++ elem :: (b ++ unused)).length = v.elements.length := by
    rw [hel]
    simp
  rw [set, if_neg (by rw [h.size]; omega), hload, Option.bind_some, hstore]
  refine ⟨_, rfl, ?_, ⟨unused, ?_⟩, ?_, hlen ▸ h.slots, h.pos, hlen ▸ h.word⟩
  · rw [length_set]
    exact h.size
  · simp
  · rw [length_set]
    exact h.fits

end

theorem doubled_spec {capacity : ℕ} (newSize : ℕ) (hpos : 0 < capacity) (fuel n : ℕ)
    (h : n * 2 ^ fuel % 2 ^ 64 = 0) (hn : n < 2 ^ 64) :
    ∃ r, doubled capacity newSize (fuel + 1) n = some r ∧ ∀ m ∈ r, newSize ≤ m := by
  induction fuel generalizing n with
  | zero =>
    have hzero : n = 0 := by omega
    subst hzero
    rw [doubled]
    split_ifs with hlt hover
    · exact ⟨none, rfl, nofun⟩
    · omega
    · exact ⟨some 0, rfl, fun m hm => Option.some.inj hm ▸ Nat.not_lt.mp hlt⟩
  | succ fuel ih =>
    rw [doubled]
    split_ifs with hlt hover
    · exact ⟨none, rfl, nofun⟩
    · refine ih _ ?_ (Nat.mod_lt _ (by decide))
      rw [Nat.mod_mul_mod, Nat.mul_assoc, ← Nat.pow_succ']
      exact h
    · exact ⟨some n, rfl, fun m hm => Option.some.inj hm ▸ Nat.not_lt.mp hlt⟩

theorem fill_spec (v : Vec E) {e unused : List (Option E)} (n capacity count : ℕ)
    (he : e = l ++ unused) (hn : l.length ≤ n) (hk : n ≤ l.length + count)
    (hcount : count ≤ unused.length) (hcap : n ≤ capacity) (hslots : capacity ≤ e.length)
    (hpos : 0 < capacity) (hword : e.length < 2 ^ 61) : ∃ e', fill e l.length count none = some e' ∧
      Holds { v with elements := e', capacity := capacity, size := n }
        (l ++ replicate (n - l.length) none) := by
  have hlen : (l ++ (replicate count none ++ unused.drop count)).length = e.length := by
    rw [he]
    simp
    omega
  refine ⟨_, he ▸ fill_append none hcount, ?_, ⟨replicate (count - (n - l.length)) none ++
    unused.drop count, ?_⟩, ?_, hlen ▸ hslots, hpos, hlen ▸ hword⟩
  · simp
    omega
  · rw [append_assoc, ← append_assoc (replicate _ _), ← replicate_add]
    rw [Nat.add_sub_of_le (by omega)]
  · show (l ++ replicate (n - l.length) none).length ≤ capacity
    rw [length_append, length_replicate]
    omega

theorem resize_spec (h : Holds v l) (hsized : v.capacity < n → ∀ m ∈ asked v (.resize n),
      m * 8 < 2 ^ 64 ∨ alloc mem m = none) :
    (resize mem v n = some (-1, v) ∧ v.capacity < n) ∨ ∃ w, resize mem v n = some (0, w) ∧
      Holds w (l.take n ++ replicate (n - l.length) none) := by
  obtain ⟨unused, hel⟩ := h.elements
  have hsize := h.size
  have hfits := h.fits
  have hslots := h.slots
  have hword := h.word
  have hroom := congrArg length hel
  rw [length_append] at hroom
  rw [resize]
  by_cases hless : n < v.size
  · have hfetch : ∃ gone, fetch v.elements n (v.size - n) = some gone :=
      ⟨_, if_pos (by omega)⟩
    obtain ⟨gone, hgone⟩ := hfetch
    rw [if_pos hless, hgone, Nat.sub_eq_zero_of_le (by omega), replicate_zero, append_nil]
    refine .inr ⟨_, rfl, ?_, ⟨l.drop n ++ unused, ?_⟩, ?_, hslots, h.pos, hword⟩
    · rw [length_take_of_le (by omega)]
    · rw [← append_assoc, take_append_drop]
      exact hel
    · rw [length_take_of_le (by omega)]
      show n ≤ v.capacity
      omega
  rw [if_neg hless, take_of_length_le (by omega), hsize]
  by_cases hmore : v.capacity < n
  · rw [if_pos hmore]
    obtain ⟨r, hr, hle⟩ := doubled_spec n h.pos 64 v.capacity (Nat.mul_mod_left _ _)
      (by omega)
    rw [asked, hr] at hsized
    rw [hr, Option.bind_some]
    cases r with
    | none => exact .inl ⟨rfl, hmore⟩
    | some m =>
      dsimp only
      cases halloc : alloc mem m with
      | none => exact .inl ⟨rfl, hmore⟩
      | some cells =>
        have hm := hle m rfl
        have hfit := (hsized hmore m rfl).resolve_right (by rw [halloc]; exact nofun)
        obtain ⟨hlen, hpos⟩ := alloc_length halloc hfit
        dsimp only
        have hlong : (l ++ cells.drop l.length).length = m := by
          rw [length_append, length_drop]
          omega
        obtain ⟨e', he', hw⟩ := fill_spec v n m (m - l.length) rfl
          (by omega) (by omega) (by rw [length_drop]; omega) hm hlong.ge hpos (by omega)
        rw [moveTo_eq h (by omega), Option.bind_some, slots_eq (by omega), he']
        exact .inr ⟨_, rfl, hw⟩
  · rw [if_neg hmore, slots_eq (by omega)]
    obtain ⟨e', he', hw⟩ := fill_spec v n v.capacity (n - l.length) hel (by omega) (by omega)
      (by omega) (Nat.not_lt.mp hmore) hslots h.pos hword
    rw [he']
    exact .inr ⟨_, rfl, hw⟩

/-- What a call comes to whose sizes do not wrap. -/
def Answered (v : Vec E) (l : List (Option E)) (mem : Mem E) (c : Call E) : Prop :=
  ∃ r w, call v (mem, c) = some (r, w) ∧
    ((r = .code (-1) ∧ w = v ∧ (listCall l c = none ∨ Grows v c)) ∨
      ∃ l', listCall l c = some (r, l') ∧ Holds w l')

theorem Answered.ofCode {c : Call E} {o : Option (ℤ × Vec E)} {l' : List (Option E)}
    (hcall : call v (mem, c) = o.map (Prod.map .code id)) (hlist : listCall l c = some (.code 0, l'))
    (hgrows : v.capacity < needed v c → Grows v c)
    (h : (o = some (-1, v) ∧ v.capacity < needed v c) ∨ ∃ w, o = some (0, w) ∧ Holds w l') :
    Answered v l mem c := by
  rcases h with ⟨rfl, hc⟩ | ⟨w, rfl, hw⟩
  · exact ⟨_, _, hcall, .inl ⟨rfl, rfl, .inr (hgrows hc)⟩⟩
  · exact ⟨_, _, hcall, .inr ⟨_, hlist, hw⟩⟩

theorem Answered.refused {c : Call E} (hcall : call v (mem, c) = some (.code (-1), v))
    (hlist : listCall l c = none) : Answered v l mem c :=
  ⟨_, _, hcall, .inl ⟨rfl, rfl, .inl hlist⟩⟩

theorem call_spec (h : Holds v l) (c : Call E) (hsized : Sized v (mem, c)) : Answered v l mem c := by
  have hgrows : ∀ {r}, listCall l c = some r → v.capacity < needed v c → Grows v c :=
    fun hl hc => ⟨hc, by rw [h.contents, hl]; rfl⟩
  cases c with
  | push elem =>
    by_cases hnull : elem.isNone = true
    · exact .refused (by rw [call, push, if_pos hnull]; rfl) (if_pos hnull)
    · have hlist : listCall l (.push elem) = some (.code 0, l ++ [elem]) := if_neg hnull
      refine .ofCode (by rw [call, push, if_neg hnull]) hlist (hgrows hlist) ?_
      have hput := put_spec h h.size.le fun hc => hsized (hgrows hlist hc)
      rwa [h.size, take_length, drop_length, ← h.size] at hput
  | insert index elem =>
    by_cases hnull : elem.isNone ∨ l.length < index
    · refine .refused ?_ (if_pos hnull)
      rw [call, insert, h.size]
      split_ifs with h1 h2
      · rfl
      · rfl
      · exact absurd hnull (not_or.mpr ⟨h1, h2⟩)
    · have hlist : listCall l (.insert index elem) =
          some (.code 0, l.take index ++ elem :: l.drop index) := if_neg hnull
      rw [not_or] at hnull
      refine .ofCode ?_ hlist (hgrows hlist)
        (put_spec h (Nat.not_lt.mp hnull.2) fun hc => hsized (hgrows hlist hc))
      rw [call, insert, if_neg hnull.1, h.size, if_neg hnull.2]
  | pop =>
    obtain ⟨w, hpop, hw⟩ := pop_spec h
    exact ⟨_, _, congrArg (Option.map _) hpop, .inr ⟨_, rfl, hw⟩⟩
  | remove index =>
    obtain ⟨w, hremove, hw⟩ := remove_spec h index
    exact ⟨_, _, congrArg (Option.map _) hremove, .inr ⟨_, rfl, hw⟩⟩
  | set index elem =>
    by_cases hi : index < l.length
    · exact .ofCode rfl (if_neg (Nat.not_le.mpr hi)) (fun hc => absurd hc (Nat.not_lt_zero _))
        (.inr (set_spec h hi elem))
    · have hout := Nat.not_lt.mp hi
      exact .refused (by rw [call, set, if_pos (h.size.symm ▸ hout)]; rfl) (if_pos hout)
  | resize n =>
    exact .ofCode rfl rfl (hgrows rfl) (resize_spec h fun hc => hsized (hgrows rfl hc))
  | reserve n =>
    refine .ofCode rfl rfl (hgrows rfl) ?_
    rw [reserve]
    by_cases hn : n ≤ v.capacity
    · rw [if_pos hn]
      exact .inr ⟨_, rfl, h⟩
    · have hc : v.capacity < n := Nat.not_le.mp hn
      rw [if_neg hn]
      rcases renew_spec h (h.fits.trans hc.le) (hsized (hgrows rfl hc) n rfl) with
        hrenew | ⟨w, hrenew, hw, -⟩
      · exact .inl ⟨hrenew, hc⟩
      · exact .inr ⟨w, hrenew, hw⟩

theorem step_right (h : ∃ l, Holds v l) (a : Mem E × Call E) (hsized : Sized v a) :
    ∃ w, step v a = some w ∧ (∃ l, Holds w l) ∧ Right v a := by
  obtain ⟨l, h⟩ := h
  obtain ⟨r, w, hcall, hcase⟩ := call_spec h a.2 hsized
  refine ⟨w, by rw [step, hcall]; rfl, ?_, r, w, hcall, ?_⟩
  · rcases hcase with ⟨-, rfl, -⟩ | ⟨l', -, hw⟩
    · exact ⟨l, h⟩
    · exact ⟨l', hw⟩
  · rw [h.contents]
    rcases hcase with hfail | ⟨l', hlist, hw⟩
    · exact .inl hfail
    · exact .inr (hw.contents.symm ▸ hlist)

/-- In every run in which no growing call gets memory for a number of bytes that wrapped, every
state is sound and every call is right. -/
theorem vector_run_right (mem : Mem E) (n : ℕ) (elemFree : Bool) (v : Vec E)
    (hcreate : create mem n elemFree = some v) (hn : n * 8 < 2 ^ 64) (as : List (Mem E × Call E))
    (hmeets : Meets step Sized v as) : Along step Sound v as ∧ Guarded step Right v as := by
  obtain ⟨cells, halloc, rfl⟩ := Option.map_eq_some_iff.mp hcreate
  obtain ⟨hlen, hpos⟩ := alloc_length halloc (by split_ifs <;> omega)
  have hstart : ∃ l, Holds (⟨cells, 0, if 0 < n then n else 16, elemFree, []⟩ : Vec E) l :=
    ⟨[], rfl, ⟨cells, rfl⟩, Nat.zero_le _, hlen.ge, hpos, by rw [hlen]; split_ifs <;> omega⟩
  obtain ⟨halong, hright⟩ := guarded_of_meets (fun _ a h hok => step_right h a hok) hstart hmeets
  exact ⟨along_mono (fun _ ⟨_, h⟩ => h.sound) halong, hright⟩

theorem vector_run_right_grown :
    Along step Sound (⟨[none], 0, 1, false, []⟩ : Vec ℕ) [(some fun _ => some 8, .resize 3)] ∧
      Guarded step Right ⟨[none], 0, 1, false, []⟩ [(some fun _ => some 8, .resize 3)] :=
  vector_run_right (some fun _ => none) 1 false _ rfl (by decide) _
    ⟨fun _ n hn => .inl (Option.some.inj hn ▸ (by decide : 4 * 8 < 2 ^ 64)), fun _ _ => trivial⟩

/-- A vector that reserves 2^61 + 1 slots gets one. -/
theorem reserve_wraps : ∃ v w : Vec ℕ, create (some fun _ => none) 16 false = some v ∧
    step v (some fun _ => none, .reserve (2 ^ 61 + 1)) = some w ∧
    w.elements.length = 1 ∧ w.capacity = 2 ^ 61 + 1 ∧ ¬ Sound w :=
  ⟨_, _, rfl, rfl, rfl, rfl, fun h => absurd h.2 (by decide)⟩

end Voxlib.Vector
