import Mathlib.Tactic

/-!
# The array heap (vox_mheap.c)

The element array in use, `elements[0 .. size)`, is a list; `capacity` is the
length of the allocated array. The sift loops take fuel: an upward sift from
`index` ends within `index` rounds and a downward one within `size` rounds.
A comparator is passed to every operation because it may read memory that
changes between the operations.
-/

namespace Voxlib.MHeap
open List Option

variable {α : Type}

structure Heap (α : Type) where
  elements : List α
  capacity : ℕ
  deriving Repr, DecidableEq

def parent (i : ℕ) : ℕ := (i - 1) / 2
def leftChild (i : ℕ) : ℕ := 2 * i + 1
def rightChild (i : ℕ) : ℕ := 2 * i + 2

def swap (l : List α) (i j : ℕ) : List α :=
  match l[i]?, l[j]? with
  | some x, some y => (l.set i y).set j x
  | _, _ => l

-- heapify_up (vox_mheap.c:49-63)
def heapifyUp (cmp : α → α → ℤ) : ℕ → List α → ℕ → List α
  | 0, l, _ => l
  | fuel + 1, l, index =>
    if index = 0 then l
    else
      match l[index]?, l[parent index]? with
      | some x, some y =>
        if cmp x y ≥ 0 then l else heapifyUp cmp fuel (swap l index (parent index)) (parent index)
      | _, _ => l

/- One of the two comparisons of heapify_down: `child` when it is inside the
   heap and smaller than the element at `smallest`. -/
def pickSmaller (cmp : α → α → ℤ) (l : List α) (child smallest : ℕ) : ℕ :=
  match l[child]?, l[smallest]? with
  | some x, some y => if cmp x y < 0 then child else smallest
  | _, _ => smallest

-- heapify_down (vox_mheap.c:66-94)
def heapifyDown (cmp : α → α → ℤ) : ℕ → List α → ℕ → List α
  | 0, l, _ => l
  | fuel + 1, l, index =>
    let smallest := pickSmaller cmp l (rightChild index) (pickSmaller cmp l (leftChild index) index)
    if smallest = index then l else heapifyDown cmp fuel (swap l index smallest) smallest

/- expand_heap (vox_mheap.c:97-120): doubling in 64-bit arithmetic, `alloc`
   tells whether the new array could be allocated. -/
def expandHeap (alloc : Bool) (h : Heap α) : Option (Heap α) :=
  let newCapacity := h.capacity * 2 % 2 ^ 64
  if newCapacity < h.capacity then none
  else if alloc then some { h with capacity := newCapacity }
  else none

-- vox_mheap_push (vox_mheap.c:172-190), `none` for -1
def push (cmp : α → α → ℤ) (alloc : Bool) (h : Heap α) (elem : α) : Option (Heap α) :=
  let room := if h.elements.length ≥ h.capacity then expandHeap alloc h else some h
  room.map fun h' =>
    let l := h'.elements ++ [elem]
    { h' with elements := heapifyUp cmp (l.length - 1) l (l.length - 1) }

def peek (h : Heap α) : Option α := h.elements.head?

def empty (h : Heap α) : Bool := h.elements.isEmpty

def moveLast (l : List α) (i : ℕ) : List α :=
  match l.getLast? with
  | none => l
  | some x => (l.set i x).dropLast

-- vox_mheap_pop (vox_mheap.c:199-215)
def pop (cmp : α → α → ℤ) (h : Heap α) : Option (α × Heap α) :=
  match h.elements with
  | [] => none
  | min :: _ =>
    let l := moveLast h.elements 0
    some (min, { h with elements := heapifyDown cmp l.length l 0 })

-- vox_mheap_remove (vox_mheap.c:282-318), `none` for -1
def remove [DecidableEq α] (cmp : α → α → ℤ) (h : Heap α) (elem : α) : Option (Heap α) :=
  let index := h.elements.findIdx (fun x => x = elem)
  if index ≥ h.elements.length then none
  else if index = h.elements.length - 1 then some { h with elements := h.elements.dropLast }
  else
    let l := moveLast h.elements index
    let down := heapifyDown cmp l.length l index
    -- `index` is passed by value, so the test `index == old_index` always holds
    some { h with elements := if index > 0 then heapifyUp cmp index down index else down }

theorem swap_perm (l : List α) (i j : ℕ) : (swap l i j).Perm l := by
  unfold swap
  split
  · rename_i x y hx hy
    obtain ⟨hi, rfl⟩ := List.getElem?_eq_some_iff.mp hx
    obtain ⟨hj, rfl⟩ := List.getElem?_eq_some_iff.mp hy
    exact set_set_perm hi hj
  · exact List.Perm.refl l

theorem heapifyUp_perm (cmp : α → α → ℤ) (fuel : ℕ) (l : List α) (index : ℕ) :
    (heapifyUp cmp fuel l index).Perm l := by
  induction fuel generalizing l index with
  | zero => exact List.Perm.refl l
  | succ fuel ih =>
    unfold heapifyUp
    split
    · exact List.Perm.refl l
    · split
      · split
        · exact List.Perm.refl l
        · exact (ih _ _).trans (swap_perm l _ _)
      · exact List.Perm.refl l

theorem heapifyDown_perm (cmp : α → α → ℤ) (fuel : ℕ) (l : List α) (index : ℕ) :
    (heapifyDown cmp fuel l index).Perm l := by
  induction fuel generalizing l index with
  | zero => exact List.Perm.refl l
  | succ fuel ih =>
    unfold heapifyDown
    dsimp only
    split
    · exact List.Perm.refl l
    · exact (ih _ _).trans (swap_perm l _ _)

theorem moveLast_append (l : List α) (x : α) (i : ℕ) :
    moveLast (l ++ [x]) i = ((l ++ [x]).set i x).dropLast := by
  unfold moveLast
  rw [List.getLast?_concat]

theorem moveLast_perm (l : List α) (i : ℕ) (y : α) (hy : l[i]? = some y) :
    (y :: moveLast l i).Perm l := by
  rcases eq_nil_or_concat l with rfl | ⟨init, x, rfl⟩
  · simp at hy
  · simp only [concat_eq_append] at hy ⊢
    rw [moveLast_append]
    by_cases hi : i < init.length
    · rw [List.getElem?_append_left hi] at hy
      obtain ⟨_, rfl⟩ := List.getElem?_eq_some_iff.mp hy
      rw [set_append_left _ _ hi, dropLast_concat]
      have hset := set_perm_cons_eraseIdx hi x
      have herase := getElem_cons_eraseIdx_perm hi
      calc (init[i] :: init.set i x).Perm (init[i] :: x :: init.eraseIdx i) := hset.cons _
        _ |>.Perm (x :: init[i] :: init.eraseIdx i) := List.Perm.swap _ _ _
        _ |>.Perm (x :: init) := herase.cons _
        _ |>.Perm (init ++ [x]) := (perm_append_singleton x init).symm
    · rw [List.getElem?_append_right (by omega)] at hy
      have hlast : i - init.length = 0 ∧ x = y := by
        cases hk : i - init.length with
        | zero => simpa [hk] using hy
        | succ k => simp [hk] at hy
      obtain ⟨hk, rfl⟩ := hlast
      have hieq : i = init.length := by omega
      subst hieq
      simpa using (perm_append_singleton x init).symm

variable {cmp : α → α → ℤ} {alloc : Bool} {h h' : Heap α}

theorem push_cases {elem : α} (hp : push cmp alloc h elem = some h') : h'.elements =
      heapifyUp cmp h.elements.length (h.elements ++ [elem]) h.elements.length ∧
    (h.elements.length < h.capacity ∧ h'.capacity = h.capacity ∨
      h.capacity ≤ h'.capacity ∧ h'.capacity = h.capacity * 2 % 2 ^ 64) := by
  unfold push at hp
  obtain ⟨r, hr, rfl⟩ := map_eq_some_iff.mp hp
  dsimp only
  rw [length_append, length_singleton, Nat.add_sub_cancel]
  split at hr
  · unfold expandHeap at hr
    dsimp only at hr
    split at hr
    · cases hr
    · rename_i hgrow
      split at hr
      · rw [← some.inj hr]
        exact ⟨rfl, Or.inr ⟨not_lt.mp hgrow, rfl⟩⟩
      · cases hr
  · rename_i hroom
    rw [← some.inj hr]
    exact ⟨rfl, Or.inl ⟨not_le.mp hroom, rfl⟩⟩

theorem push_perm {elem : α} (hp : push cmp alloc h elem = some h') :
    h'.elements.Perm (elem :: h.elements) := by
  rw [(push_cases hp).1]
  exact (heapifyUp_perm cmp _ _ _).trans (perm_append_singleton elem h.elements)

theorem pop_cases {x : α} (hp : pop cmp h = some (x, h')) : h.elements.head? = some x ∧
    h' = { h with
      elements := heapifyDown cmp (moveLast h.elements 0).length (moveLast h.elements 0) 0 } := by
  unfold pop at hp
  split at hp
  · cases hp
  · rename_i m rest hl
    obtain ⟨rfl, rfl⟩ := Prod.mk.inj (some.inj hp)
    exact ⟨by rw [hl]; rfl, rfl⟩

theorem pop_perm {x : α} (hp : pop cmp h = some (x, h')) : (x :: h'.elements).Perm h.elements := by
  obtain ⟨hhead, rfl⟩ := pop_cases hp
  have hmove := moveLast_perm h.elements 0 x (by rw [← List.head?_eq_getElem?, hhead])
  exact ((heapifyDown_perm cmp _ _ _).cons x).trans hmove

theorem pop_head {x : α} (hp : pop cmp h = some (x, h')) : peek h = some x :=
  (pop_cases hp).1

theorem push_room {elem : α} (hp : push cmp alloc h elem = some h') (hpos : 0 < h.capacity)
    (hroom : h.elements.length ≤ h.capacity) :
    0 < h'.capacity ∧ h'.elements.length ≤ h'.capacity := by
  have hlen := (push_perm hp).length_eq
  rw [length_cons] at hlen
  rcases (push_cases hp).2 with ⟨hfree, hcap⟩ | ⟨hgrow, hcap⟩
  · omega
  · by_cases hw : h.capacity * 2 < 2 ^ 64
    · rw [Nat.mod_eq_of_lt hw] at hcap
      omega
    · omega

def CanPush (alloc : Bool) (h : Heap α) : Prop :=
  h.elements.length < h.capacity ∨ (alloc = true ∧ h.capacity * 2 < 2 ^ 64)

theorem push_of_canPush (cmp : α → α → ℤ) (elem : α) (hc : CanPush alloc h) :
    ∃ h', push cmp alloc h elem = some h' := by
  unfold push
  dsimp only
  split
  · rename_i hfull
    rcases hc with hroom | ⟨halloc, hcap⟩
    · omega
    · subst halloc
      unfold expandHeap
      rw [Nat.mod_eq_of_lt hcap]
      rw [if_neg (by omega), if_pos rfl]
      exact ⟨_, rfl⟩
  · exact ⟨_, rfl⟩

theorem pop_capacity {x : α} (hp : pop cmp h = some (x, h')) : h'.capacity = h.capacity := by
  rw [(pop_cases hp).2]

section Remove
variable [DecidableEq α]

variable {cmp : α → α → ℤ} {elem : α}

theorem remove_none {h : Heap α} (hp : remove cmp h elem = none) : elem ∉ h.elements := by
  unfold remove at hp
  intro hmem
  have hlt : h.elements.findIdx (fun x => x = elem) < h.elements.length :=
    findIdx_lt_length_of_exists ⟨elem, hmem, by simp⟩
  rw [if_neg (by omega)] at hp
  split at hp
  · cases hp
  · cases hp

theorem remove_cases {h h' : Heap α} (hp : remove cmp h elem = some h') :
    ∃ index, index < h.elements.length ∧ h.elements[index]? = some elem ∧
      (index = h.elements.length - 1 ∧ h' = { h with elements := h.elements.dropLast } ∨
        index < h.elements.length - 1 ∧
        ∃ down, down = heapifyDown cmp (moveLast h.elements index).length
            (moveLast h.elements index) index ∧
          h' = { h with
            elements := if index > 0 then heapifyUp cmp index down index else down }) := by
  unfold remove at hp
  dsimp only at hp
  split at hp
  · cases hp
  · rename_i hlt
    have hidx : h.elements.findIdx (fun x => x = elem) < h.elements.length := by omega
    refine ⟨_, hidx, ?_, ?_⟩
    · rw [List.getElem?_eq_getElem hidx]
      have hspec := findIdx_getElem (w := hidx)
      exact congrArg some (by simpa using hspec)
    · split at hp
      · rename_i hlast
        exact Or.inl ⟨hlast, (some.inj hp).symm⟩
      · exact Or.inr ⟨by omega, _, rfl, (some.inj hp).symm⟩

theorem remove_perm {h h' : Heap α} (hp : remove cmp h elem = some h') :
    (elem :: h'.elements).Perm h.elements := by
  obtain ⟨index, hidx, hget, ⟨hlast, rfl⟩ | ⟨-, down, hdown, rfl⟩⟩ := remove_cases hp
  · have hne : h.elements ≠ [] := by
      intro hnil
      simp [hnil] at hidx
    have hl : h.elements.getLast hne = elem := by
      rw [hlast, ← List.getLast?_eq_getElem?, List.getLast?_eq_getLast_of_ne_nil hne] at hget
      exact some.inj hget
    have hsplit := dropLast_append_getLast hne
    rw [hl] at hsplit
    exact (perm_append_singleton elem _).symm.trans (List.Perm.of_eq hsplit)
  · have hmove := moveLast_perm h.elements index elem hget
    have hperm := heapifyDown_perm cmp (moveLast h.elements index).length
      (moveLast h.elements index) index
    rw [← hdown] at hperm
    refine (List.Perm.cons elem ?_).trans hmove
    split
    · exact (heapifyUp_perm cmp _ _ _).trans hperm
    · exact hperm

theorem remove_capacity {h h' : Heap α} (hp : remove cmp h elem = some h') :
    h'.capacity = h.capacity := by
  obtain ⟨_, _, _, ⟨_, rfl⟩ | ⟨_, _, _, rfl⟩⟩ := remove_cases hp
  · rfl
  · rfl

end Remove

variable {cmp : α → α → ℤ}

section
variable (hflat : ∀ x y, 0 ≤ cmp x y)
include hflat

theorem heapifyUp_flat (fuel : ℕ) (l : List α) (index : ℕ) : heapifyUp cmp fuel l index = l := by
  cases fuel with
  | zero => rfl
  | succ fuel =>
    unfold heapifyUp
    split
    · rfl
    · split
      · rename_i x y _ _
        rw [if_pos (hflat x y)]
      · rfl

theorem pickSmaller_flat (l : List α) (child smallest : ℕ) :
    pickSmaller cmp l child smallest = smallest := by
  unfold pickSmaller
  split
  · rename_i x y _ _
    rw [if_neg (not_lt.mpr (hflat x y))]
  · rfl

theorem heapifyDown_flat (fuel : ℕ) (l : List α) (index : ℕ) :
    heapifyDown cmp fuel l index = l := by
  cases fuel with
  | zero => rfl
  | succ fuel =>
    unfold heapifyDown
    simp only [pickSmaller_flat hflat, if_true]

end

/- The order in which pops then give out the elements of an array. -/
def flatOrder : List α → List α
  | [] => []
  | root :: others => root :: others.reverse

theorem mem_flatOrder {l : List α} {x : α} : x ∈ flatOrder l ↔ x ∈ l := by
  cases l with
  | nil => rfl
  | cons root others => simp [flatOrder]

theorem flatOrder_nodup {l : List α} : (flatOrder l).Nodup ↔ l.Nodup := by
  cases l with
  | nil => rfl
  | cons root others => simp [flatOrder]

theorem flatOrder_moveLast (root : α) (others : List α) :
    flatOrder (moveLast (root :: others) 0) = others.reverse := by
  rcases eq_nil_or_concat others with rfl | ⟨init, last, rfl⟩
  · rfl
  · rw [concat_eq_append, ← cons_append, moveLast_append, cons_append,
      set_cons_zero, ← cons_append, dropLast_concat]
    simp [flatOrder]

theorem pop_flat (hflat : ∀ x y, 0 ≤ cmp x y) {h : Heap α} {x : α} {s : List α}
    (hs : flatOrder h.elements = x :: s) :
    ∃ h', pop cmp h = some (x, h') ∧ flatOrder h'.elements = s ∧ h'.capacity = h.capacity ∧
      h'.elements.length < h.elements.length := by
  cases hl : h.elements with
  | nil => simp [hl, flatOrder] at hs
  | cons root others =>
    rw [hl] at hs
    obtain ⟨rfl, rfl⟩ := List.cons.inj hs
    unfold pop
    rw [hl]
    dsimp only
    rw [heapifyDown_flat hflat]
    have hperm := moveLast_perm (root :: others) 0 root rfl
    have hlen := hperm.length_eq
    simp only [length_cons] at hlen
    exact ⟨_, rfl, flatOrder_moveLast root others, rfl, by simp only [length_cons]; omega⟩

theorem push_flat (hflat : ∀ x y, 0 ≤ cmp x y) (alloc : Bool) {h : Heap α} (x : α)
    (hroom : h.elements.length < h.capacity) :
    push cmp alloc h x = some { h with elements := h.elements ++ [x] } := by
  unfold push
  rw [if_neg (by omega)]
  simp only [map_some, heapifyUp_flat hflat]

theorem flatOrder_append_singleton (l : List α) (x : α) :
    flatOrder (l ++ [x]) = (flatOrder l).take 1 ++ x :: (flatOrder l).drop 1 := by
  cases l with
  | nil => rfl
  | cons root others => simp [flatOrder]

end Voxlib.MHeap
