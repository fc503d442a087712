import Voxlib.MHeap

/-!
# Heap order

For a comparator that orders the elements every operation keeps each parent at or below its
children.
-/

namespace Voxlib.MHeap
open List

variable {α : Type}

structure TotalPreorder (cmp : α → α → ℤ) : Prop where
  flip : ∀ x y, cmp x y < 0 ↔ 0 < cmp y x
  trans : ∀ x y z, cmp x y ≤ 0 → cmp y z ≤ 0 → cmp x z ≤ 0

variable {cmp : α → α → ℤ} {x : α}

theorem TotalPreorder.le_of_not_lt (hcmp : TotalPreorder cmp) {y : α} (h : ¬ cmp x y < 0) :
    cmp y x ≤ 0 := by
  by_contra hgt
  exact h ((hcmp.flip x y).mpr (not_le.mp hgt))

theorem TotalPreorder.refl (hcmp : TotalPreorder cmp) (x : α) : cmp x x ≤ 0 := by
  apply hcmp.le_of_not_lt
  intro hlt
  have hgt := (hcmp.flip x x).mp hlt
  omega

def LeAt (cmp : α → α → ℤ) (l : List α) (i j : ℕ) : Prop :=
  ∀ x y, l[i]? = some x → l[j]? = some y → cmp x y ≤ 0

def Ordered (cmp : α → α → ℤ) (l : List α) : Prop :=
  ∀ i, 0 < i → LeAt cmp l (parent i) i

/- In order but for the element at `hole`, whose children are at or above its
   parent. -/
structure OrderedBut (cmp : α → α → ℤ) (l : List α) (hole : ℕ) : Prop where
  rest : ∀ i, 0 < i → i ≠ hole → parent i ≠ hole → LeAt cmp l (parent i) i
  across : ∀ i, 0 < hole → 0 < i → parent i = hole → LeAt cmp l (parent hole) i

def UpTo (cmp : α → α → ℤ) (l : List α) (hole : ℕ) : Prop :=
  OrderedBut cmp l hole ∧ ∀ i, 0 < i → parent i = hole → LeAt cmp l hole i

def DownFrom (cmp : α → α → ℤ) (l : List α) (hole : ℕ) : Prop :=
  OrderedBut cmp l hole ∧ (0 < hole → LeAt cmp l (parent hole) hole)

variable {i : ℕ}

theorem parent_lt (h : 0 < i) : parent i < i := by
  unfold parent
  omega

theorem parent_leftChild (i : ℕ) : parent (leftChild i) = i := by
  unfold parent leftChild
  omega

theorem parent_rightChild (i : ℕ) : parent (rightChild i) = i := by
  unfold parent rightChild
  omega

theorem child_cases {k : ℕ} (hi : 0 < i) (h : parent i = k) :
    i = leftChild k ∨ i = rightChild k := by
  unfold parent at h
  unfold leftChild rightChild
  omega

variable {l : List α} {j : ℕ}

theorem LeAt.trans (hcmp : TotalPreorder cmp) {k : ℕ} (hj : j < l.length) (h₁ : LeAt cmp l i j)
    (h₂ : LeAt cmp l j k) : LeAt cmp l i k := by
  intro x z hx hz
  have hy := List.getElem?_eq_getElem hj
  exact hcmp.trans x _ z (h₁ x _ hx hy) (h₂ _ z hy hz)

theorem leAt_of_none (h : l.length ≤ j) : LeAt cmp l i j := by
  intro x y _ hy
  rw [List.getElem?_eq_none h] at hy
  cases hy

variable {hole : ℕ}

theorem Ordered.upTo (hcmp : TotalPreorder cmp) (h : Ordered cmp l) (hhole : hole < l.length) :
    UpTo cmp l hole := by
  have hkids : ∀ i, 0 < i → parent i = hole → LeAt cmp l hole i := by
    intro i hi hp
    have := h i hi
    rw [hp] at this
    exact this
  refine ⟨⟨fun i hi _ _ => h i hi, ?_⟩, hkids⟩
  intro i hpos hi hp
  exact (h hole hpos).trans hcmp hhole (hkids i hi hp)

theorem swap_eq (hi : i < l.length) (hj : j < l.length) :
    swap l i j = (l.set i l[j]).set j l[i] := by
  unfold swap
  rw [List.getElem?_eq_getElem hi, List.getElem?_eq_getElem hj]

theorem getElem?_swap (hi : i < l.length) (hj : j < l.length) (k : ℕ) :
    (swap l i j)[k]? = if k = i then l[j]? else if k = j then l[i]? else l[k]? := by
  rw [swap_eq hi hj, List.getElem?_set, List.getElem?_set, length_set,
    List.getElem?_eq_getElem hi, List.getElem?_eq_getElem hj]
  by_cases hki : k = i
  · subst hki
    by_cases hkj : k = j
    · subst hkj
      simp [hi]
    · rw [if_neg (fun h => hkj h.symm), if_pos rfl, if_pos hi, if_pos rfl]
  · by_cases hkj : k = j
    · subst hkj
      simp [hki, hj]
    · rw [if_neg (fun h => hkj h.symm), if_neg (fun h => hki h.symm), if_neg hki, if_neg hkj]

theorem length_swap (l : List α) (i j : ℕ) : (swap l i j).length = l.length :=
  (swap_perm l i j).length_eq

theorem leAt_swap (hi : i < l.length) (hj : j < l.length) (a b : ℕ) :
    LeAt cmp (swap l i j) a b ↔ LeAt cmp l (Equiv.swap i j a) (Equiv.swap i j b) := by
  have hread : ∀ k, (swap l i j)[k]? = l[Equiv.swap i j k]? := by
    intro k
    rw [getElem?_swap hi hj, Equiv.swap_apply_def]
    split
    · rfl
    · split
      · rfl
      · rfl
  unfold LeAt
  rw [hread, hread]

theorem UpTo.ordered (h : UpTo cmp l hole) (hstop : 0 < hole → LeAt cmp l (parent hole) hole) :
    Ordered cmp l := by
  intro i hi
  by_cases hih : i = hole
  · subst hih
    exact hstop hi
  · by_cases hp : parent i = hole
    · rw [hp]
      exact h.2 i hi hp
    · exact h.1.rest i hi hih hp

theorem UpTo.climb (hcmp : TotalPreorder cmp) (h : UpTo cmp l hole) (hpos : 0 < hole)
    (hlt : hole < l.length) (hless : LeAt cmp l hole (parent hole)) :
    UpTo cmp (swap l hole (parent hole)) (parent hole) := by
  have hp := parent_lt hpos
  have hpl : parent hole < l.length := by omega
  have hup : 0 < parent hole → LeAt cmp l (parent (parent hole)) (parent hole) := by
    intro h0
    have := parent_lt h0
    exact h.1.rest _ h0 (by omega) (by omega)
  -- the elements below the parent are at or above the one that rises
  have hside : ∀ i, 0 < i → i ≠ hole → parent i = parent hole → LeAt cmp l (parent hole) i := by
    intro i hi hih hpi
    have hrest := h.1.rest i hi hih (by omega)
    rw [hpi] at hrest
    exact hrest
  constructor
  · constructor
    · intro i hi hip hpp
      have hih : i ≠ hole := fun he => hpp (he ▸ rfl)
      rw [leAt_swap hlt hpl, Equiv.swap_apply_of_ne_of_ne hih hip]
      by_cases hpi : parent i = hole
      · rw [hpi, Equiv.swap_apply_left]
        exact h.1.across i hpos hi hpi
      · rw [Equiv.swap_apply_of_ne_of_ne hpi hpp]
        exact h.1.rest i hi hih hpi
    · intro i hp0 hi hpi
      have hpp := parent_lt hp0
      rw [leAt_swap hlt hpl, Equiv.swap_apply_of_ne_of_ne (by omega) (by omega)]
      by_cases hih : i = hole
      · rw [hih, Equiv.swap_apply_left]
        exact hup hp0
      · have hpl' := parent_lt hi
        rw [Equiv.swap_apply_of_ne_of_ne hih (by omega)]
        exact (hup hp0).trans hcmp hpl (hside i hi hih hpi)
  · intro i hi hpi
    rw [leAt_swap hlt hpl, Equiv.swap_apply_right]
    by_cases hih : i = hole
    · rw [hih, Equiv.swap_apply_left]
      exact hless
    · have hpl' := parent_lt hi
      rw [Equiv.swap_apply_of_ne_of_ne hih (by omega)]
      exact hless.trans hcmp hpl (hside i hi hih hpi)

theorem leAt_of_cmp {y : α} (hx : l[i]? = some x) (hy : l[j]? = some y) (h : cmp x y ≤ 0) :
    LeAt cmp l i j := by
  intro x' y' hx' hy'
  rw [hx] at hx'
  rw [hy] at hy'
  rw [← Option.some.inj hx', ← Option.some.inj hy']
  exact h

theorem heapifyUp_ordered (hcmp : TotalPreorder cmp) (fuel : ℕ) :
    ∀ (l : List α) (index : ℕ), UpTo cmp l index → index < l.length → index ≤ fuel →
      Ordered cmp (heapifyUp cmp fuel l index) := by
  induction fuel with
  | zero =>
    intro l index h _ hfuel
    exact h.ordered (by omega)
  | succ fuel ih =>
    intro l index h hlt hfuel
    unfold heapifyUp
    by_cases h0 : index = 0
    · rw [if_pos h0]
      exact h.ordered (by omega)
    · have hpos : 0 < index := by omega
      have hp := parent_lt hpos
      have hpl : parent index < l.length := by omega
      have hx := List.getElem?_eq_getElem hlt
      have hy := List.getElem?_eq_getElem hpl
      rw [if_neg h0, hx, hy]
      dsimp only
      split
      · rename_i hstop
        apply h.ordered
        intro _
        exact leAt_of_cmp hy hx (hcmp.le_of_not_lt (not_lt.mpr hstop))
      · rename_i hgo
        have hless := leAt_of_cmp hx hy (show cmp l[index] l[parent index] ≤ 0 by omega)
        apply ih
        · exact h.climb hcmp hpos hlt hless
        · rw [length_swap]
          exact hpl
        · omega

structure Picked (cmp : α → α → ℤ) (l : List α) (child smallest r : ℕ) : Prop where
  inside : r < l.length
  which : r = smallest ∨ (r = child ∧ LeAt cmp l child smallest)
  least : LeAt cmp l r smallest ∧ LeAt cmp l r child

theorem pickSmaller_spec (hcmp : TotalPreorder cmp) (child : ℕ) {smallest : ℕ}
    (hs : smallest < l.length) :
    Picked cmp l child smallest (pickSmaller cmp l child smallest) := by
  have hy := List.getElem?_eq_getElem hs
  have hrefl := leAt_of_cmp hy hy (hcmp.refl l[smallest])
  unfold pickSmaller
  by_cases hc : child < l.length
  · have hx := List.getElem?_eq_getElem hc
    rw [hx, hy]
    dsimp only
    split
    · rename_i hlt
      have hle := leAt_of_cmp hx hy (le_of_lt hlt)
      exact ⟨hc, Or.inr ⟨rfl, hle⟩, hle, leAt_of_cmp hx hx (hcmp.refl l[child])⟩
    · rename_i hge
      exact ⟨hs, Or.inl rfl, hrefl, leAt_of_cmp hy hx (hcmp.le_of_not_lt hge)⟩
  · rw [List.getElem?_eq_none (not_lt.mp hc)]
    exact ⟨hs, Or.inl rfl, hrefl, leAt_of_none (not_lt.mp hc)⟩

/-- The index at which a round of heapify_down goes on. -/
def smallestOf (cmp : α → α → ℤ) (l : List α) (index : ℕ) : ℕ :=
  pickSmaller cmp l (rightChild index) (pickSmaller cmp l (leftChild index) index)

structure Smallest (cmp : α → α → ℤ) (l : List α) (index s : ℕ) : Prop where
  inside : s < l.length
  which : s = index ∨ (0 < s ∧ parent s = index)
  least : LeAt cmp l s index
  kids : ∀ i, 0 < i → parent i = index → LeAt cmp l s i

theorem smallestOf_spec (hcmp : TotalPreorder cmp) {index : ℕ} (hlt : index < l.length) :
    Smallest cmp l index (smallestOf cmp l index) := by
  have hleft := pickSmaller_spec hcmp (leftChild index) hlt
  have hright := pickSmaller_spec hcmp (rightChild index) hleft.inside
  constructor
  · exact hright.inside
  · rcases hright.which with hr | ⟨hr, _⟩
    · rcases hleft.which with hl | ⟨hl, _⟩
      · left
        exact hr.trans hl
      · right
        rw [smallestOf, hr, hl]
        exact ⟨by unfold leftChild; omega, parent_leftChild index⟩
    · right
      rw [smallestOf, hr]
      exact ⟨by unfold rightChild; omega, parent_rightChild index⟩
  · exact hright.least.1.trans hcmp hleft.inside hleft.least.1
  · intro i hi hp
    rcases child_cases hi hp with rfl | rfl
    · exact hright.least.1.trans hcmp hleft.inside hleft.least.2
    · exact hright.least.2

theorem OrderedBut.sink {s : ℕ} (h : OrderedBut cmp l hole) (hs : Smallest cmp l hole s)
    (hne : s ≠ hole) (hlt : hole < l.length) : DownFrom cmp (swap l hole s) s := by
  obtain ⟨hs0, hps⟩ := hs.which.resolve_left hne
  have hgt := parent_lt hs0
  have hsl := hs.inside
  constructor
  · constructor
    · intro i hi his hpi
      rw [leAt_swap hlt hsl]
      by_cases hih : i = hole
      · subst hih
        have hp := parent_lt hi
        rw [Equiv.swap_apply_left, Equiv.swap_apply_of_ne_of_ne (by omega) hpi]
        exact h.across s hi hs0 hps
      · rw [Equiv.swap_apply_of_ne_of_ne hih his]
        by_cases hph : parent i = hole
        · rw [hph, Equiv.swap_apply_left]
          exact hs.kids i hi hph
        · rw [Equiv.swap_apply_of_ne_of_ne hph hpi]
          exact h.rest i hi hih hph
    · intro i _ hi hpi
      have hp := parent_lt hi
      rw [leAt_swap hlt hsl, hps, Equiv.swap_apply_left,
        Equiv.swap_apply_of_ne_of_ne (by omega) (by omega)]
      have hrest := h.rest i hi (by omega) (by omega)
      rw [hpi] at hrest
      exact hrest
  · intro _
    rw [leAt_swap hlt hsl, hps, Equiv.swap_apply_left, Equiv.swap_apply_right]
    exact hs.least

theorem DownFrom.ordered (h : DownFrom cmp l hole)
    (hkids : ∀ i, 0 < i → parent i = hole → LeAt cmp l hole i) : Ordered cmp l :=
  UpTo.ordered ⟨h.1, hkids⟩ h.2

theorem heapifyDown_ordered (hcmp : TotalPreorder cmp) (fuel : ℕ) :
    ∀ (l : List α) (index : ℕ), DownFrom cmp l index → l.length ≤ fuel + index →
      Ordered cmp (heapifyDown cmp fuel l index) := by
  induction fuel with
  | zero =>
    intro l index h hfuel
    apply h.ordered
    intro i hi hp
    have hlt := parent_lt hi
    exact leAt_of_none (by omega)
  | succ fuel ih =>
    intro l index h hfuel
    by_cases hlt : index < l.length
    · have hs := smallestOf_spec hcmp hlt
      unfold heapifyDown
      change Ordered cmp (if smallestOf cmp l index = index then l
        else heapifyDown cmp fuel (swap l index (smallestOf cmp l index)) (smallestOf cmp l index))
      by_cases hstop : smallestOf cmp l index = index
      · rw [if_pos hstop]
        rw [hstop] at hs
        exact h.ordered hs.kids
      · rw [if_neg hstop]
        obtain ⟨hs0, hps⟩ := hs.which.resolve_left hstop
        have hgt := parent_lt hs0
        apply ih
        · exact h.1.sink hs hstop hlt
        · rw [length_swap]
          omega
    · have hend : heapifyDown cmp (fuel + 1) l index = l := by
        unfold heapifyDown pickSmaller
        rw [List.getElem?_eq_none (show l.length ≤ leftChild index by unfold leftChild; omega),
          List.getElem?_eq_none (show l.length ≤ rightChild index by unfold rightChild; omega)]
        exact if_pos rfl
      rw [hend]
      apply h.ordered
      intro i hi hp
      have hi' := parent_lt hi
      exact leAt_of_none (by omega)

theorem heapifyDown_upTo (hcmp : TotalPreorder cmp) {index : ℕ} (h : OrderedBut cmp l index)
    (hlt : index < l.length) : UpTo cmp (heapifyDown cmp l.length l index) index := by
  have hs := smallestOf_spec hcmp hlt
  obtain ⟨fuel, hfuel⟩ : ∃ fuel, l.length = fuel + 1 := ⟨l.length - 1, by omega⟩
  rw [hfuel]
  unfold heapifyDown
  change UpTo cmp (if smallestOf cmp l index = index then l
    else heapifyDown cmp fuel (swap l index (smallestOf cmp l index)) (smallestOf cmp l index)) index
  by_cases hstop : smallestOf cmp l index = index
  · rw [if_pos hstop]
    rw [hstop] at hs
    exact ⟨h, hs.kids⟩
  · rw [if_neg hstop]
    obtain ⟨hs0, hps⟩ := hs.which.resolve_left hstop
    have hord : Ordered cmp (heapifyDown cmp fuel (swap l index (smallestOf cmp l index))
        (smallestOf cmp l index)) := by
      apply heapifyDown_ordered hcmp
      · exact h.sink hs hstop hlt
      · rw [length_swap]
        omega
    apply hord.upTo hcmp
    rw [(heapifyDown_perm cmp _ _ _).length_eq, length_swap]
    exact hlt

theorem LeAt.mono {l' : List α} (h : LeAt cmp l i j) (hi : ∀ x, l'[i]? = some x → l[i]? = some x)
    (hj : ∀ x, l'[j]? = some x → l[j]? = some x) : LeAt cmp l' i j :=
  fun x y hx hy => h x y (hi x hx) (hj y hy)

theorem getElem?_dropLast_some (h : l.dropLast[j]? = some x) : l[j]? = some x := by
  rw [List.getElem?_dropLast] at h
  split at h
  · exact h
  · cases h

theorem getElem?_moveLast_some (hij : j ≠ i) (h : (moveLast l i)[j]? = some x) :
    l[j]? = some x := by
  unfold moveLast at h
  split at h
  · exact h
  · have hset := getElem?_dropLast_some h
    rw [List.getElem?_set_ne (fun he => hij he.symm)] at hset
    exact hset

theorem length_moveLast (hi : i < l.length) : (moveLast l i).length + 1 = l.length :=
  (moveLast_perm l i l[i] (List.getElem?_eq_getElem hi)).length_eq

theorem Ordered.dropLast (h : Ordered cmp l) : Ordered cmp l.dropLast :=
  fun i hi => (h i hi).mono (fun _ => getElem?_dropLast_some) (fun _ => getElem?_dropLast_some)

theorem Ordered.moveLast (hcmp : TotalPreorder cmp) (h : Ordered cmp l) (hi : i < l.length) :
    OrderedBut cmp (MHeap.moveLast l i) i := by
  have hup := h.upTo hcmp hi
  constructor
  · intro j hj hji hpj
    apply (h j hj).mono
    · exact fun _ => getElem?_moveLast_some hpj
    · exact fun _ => getElem?_moveLast_some hji
  · intro j hpos hj hpj
    have hp := parent_lt hpos
    have hpj' := parent_lt hj
    apply (hup.1.across j hpos hj hpj).mono
    · exact fun _ => getElem?_moveLast_some (by omega)
    · exact fun _ => getElem?_moveLast_some (by omega)

theorem Ordered.append (h : Ordered cmp l) (x : α) : UpTo cmp (l ++ [x]) l.length := by
  have hnone : ∀ i, 0 < i → parent i = l.length → ∀ j, LeAt cmp (l ++ [x]) j i := by
    intro i hi hp j
    have hlt := parent_lt hi
    apply leAt_of_none
    rw [length_append, length_singleton]
    omega
  constructor
  · constructor
    · intro i hi hne hpne
      by_cases hlt : i < l.length
      · have hp := parent_lt hi
        apply (h i hi).mono
        · intro y hy
          rw [List.getElem?_append_left (by omega)] at hy
          exact hy
        · intro y hy
          rw [List.getElem?_append_left hlt] at hy
          exact hy
      · apply leAt_of_none
        rw [length_append, length_singleton]
        omega
    · exact fun i _ hi hp => hnone i hi hp _
  · exact fun i hi hp => hnone i hi hp _

theorem Ordered.root_le (hcmp : TotalPreorder cmp) {m : α} (h : Ordered cmp l)
    (hm : l.head? = some m) (i : ℕ) : ∀ x, l[i]? = some x → cmp m x ≤ 0 := by
  rw [List.head?_eq_getElem?] at hm
  induction i using Nat.strong_induction_on with
  | _ i ih =>
    intro x hx
    by_cases h0 : i = 0
    · rw [h0, hm] at hx
      rw [← Option.some.inj hx]
      exact hcmp.refl m
    · have hp := parent_lt (show 0 < i by omega)
      obtain ⟨hlt, _⟩ := List.getElem?_eq_some_iff.mp hx
      have hy := List.getElem?_eq_getElem (show parent i < l.length by omega)
      exact hcmp.trans m _ x (ih (parent i) hp _ hy) (h i (by omega) _ _ hy hx)

variable {h : Heap α}

section
variable (hcmp : TotalPreorder cmp)
include hcmp

theorem push_ordered {alloc : Bool} {h' : Heap α} {elem : α} (hord : Ordered cmp h.elements)
    (hp : push cmp alloc h elem = some h') : Ordered cmp h'.elements := by
  rw [(push_cases hp).1]
  apply heapifyUp_ordered hcmp _ _ _ (hord.append elem)
  · rw [length_append, length_singleton]
    omega
  · exact le_rfl

theorem pop_ordered {h' : Heap α} (hord : Ordered cmp h.elements) (hp : pop cmp h = some (x, h')) :
    Ordered cmp h'.elements := by
  obtain ⟨hhead, rfl⟩ := pop_cases hp
  have hpos : 0 < h.elements.length := by
    rw [length_pos_iff]
    intro hnil
    simp [hnil] at hhead
  apply heapifyDown_ordered hcmp
  · exact ⟨hord.moveLast hcmp hpos, fun h0 => absurd h0 (lt_irrefl 0)⟩
  · exact le_rfl

theorem remove_ordered [DecidableEq α] {h' : Heap α} {elem : α} (hord : Ordered cmp h.elements)
    (hp : remove cmp h elem = some h') : Ordered cmp h'.elements := by
  obtain ⟨index, hidx, -, ⟨-, rfl⟩ | ⟨hinner, down, rfl, rfl⟩⟩ := remove_cases hp
  · exact hord.dropLast
  · have hlen := length_moveLast hidx
    have hup := heapifyDown_upTo hcmp (hord.moveLast hcmp hidx) (by omega)
    dsimp only
    split
    · apply heapifyUp_ordered hcmp _ _ _ hup
      · rw [(heapifyDown_perm cmp _ _ _).length_eq]
        omega
      · exact le_rfl
    · rename_i h0
      exact hup.ordered (fun hpos => absurd hpos h0)

theorem peek_least (hord : Ordered cmp h.elements) (hp : peek h = some x) (y : α)
    (hy : y ∈ h.elements) : cmp x y ≤ 0 := by
  obtain ⟨i, hi⟩ := mem_iff_getElem?.mp hy
  exact hord.root_le hcmp hp i y hi

end

theorem pop_none (hp : pop cmp h = none) : h.elements = [] := by
  unfold pop at hp
  split at hp
  · assumption
  · cases hp

/- vox_mheap_create_with_config (vox_mheap.c:128-169); 0 stands for the default. -/
def create (alloc : Bool) (initialCapacity : ℕ) : Option (Heap α) :=
  if alloc then some ⟨[], if initialCapacity > 0 then initialCapacity else 16⟩ else none

inductive Op (α : Type) where
  | push (elem : α) (alloc : Bool)
  | pop
  | peek
  | remove (elem : α)

inductive Res (α : Type) where
  | code (rc : ℤ)
  | elem (x : Option α)

section Runs
variable [DecidableEq α]

def call (cmp : α → α → ℤ) (h : Heap α) : Op α → Res α × Heap α
  | .push x alloc =>
    match push cmp alloc h x with
    | some h' => (.code 0, h')
    | none => (.code (-1), h)
  | .pop =>
    match pop cmp h with
    | some (x, h') => (.elem (some x), h')
    | none => (.elem none, h)
  | .peek => (.elem (peek h), h)
  | .remove x =>
    match remove cmp h x with
    | some h' => (.code 0, h')
    | none => (.code (-1), h)

def after (cmp : α → α → ℤ) (h : Heap α) (ops : List (Op α)) : Heap α :=
  ops.foldl (fun h op => (call cmp h op).2) h

/-- What each call answers and how it changes the multiset of elements. -/
inductive Answers (cmp : α → α → ℤ) (h : Heap α) : Op α → Res α → Heap α → Prop where
  | pushed (x : α) (alloc : Bool) (h' : Heap α)
      (hset : (h'.elements : Multiset α) = x ::ₘ (h.elements : Multiset α)) :
      Answers cmp h (.push x alloc) (.code 0) h'
  | refused (x : α) (alloc : Bool) : Answers cmp h (.push x alloc) (.code (-1)) h
  | popped (x : α) (h' : Heap α) (hleast : ∀ y ∈ h.elements, cmp x y ≤ 0)
      (hset : (x ::ₘ (h'.elements : Multiset α)) = (h.elements : Multiset α)) :
      Answers cmp h .pop (.elem (some x)) h'
  | popEmpty (hnil : h.elements = []) : Answers cmp h .pop (.elem none) h
  | peeked (x : α) (hmem : x ∈ h.elements) (hleast : ∀ y ∈ h.elements, cmp x y ≤ 0) :
      Answers cmp h .peek (.elem (some x)) h
  | peekEmpty (hnil : h.elements = []) : Answers cmp h .peek (.elem none) h
  | removed (x : α) (h' : Heap α)
      (hset : (x ::ₘ (h'.elements : Multiset α)) = (h.elements : Multiset α)) :
      Answers cmp h (.remove x) (.code 0) h'
  | notStored (x : α) (habsent : x ∉ h.elements) : Answers cmp h (.remove x) (.code (-1)) h

theorem call_spec {cmp : α → α → ℤ} (hcmp : TotalPreorder cmp) {h : Heap α}
    (hord : Ordered cmp h.elements) (op : Op α) : Ordered cmp (call cmp h op).2.elements ∧
      Answers cmp h op (call cmp h op).1 (call cmp h op).2 := by
  cases op with
  | push x alloc =>
    cases hp : push cmp alloc h x with
    | none =>
      have hcall : call cmp h (.push x alloc) = (.code (-1), h) := by simp only [call, hp]
      rw [hcall]
      exact ⟨hord, .refused x alloc⟩
    | some h' =>
      have hcall : call cmp h (.push x alloc) = (.code 0, h') := by simp only [call, hp]
      have hset := Multiset.coe_eq_coe.mpr (push_perm hp)
      rw [hcall]
      exact ⟨push_ordered hcmp hord hp, .pushed x alloc h' hset⟩
  | pop =>
    cases hp : pop cmp h with
    | none =>
      have hcall : call cmp h .pop = (.elem none, h) := by simp only [call, hp]
      rw [hcall]
      exact ⟨hord, .popEmpty (pop_none hp)⟩
    | some p =>
      obtain ⟨x, h'⟩ := p
      have hcall : call cmp h .pop = (.elem (some x), h') := by simp only [call, hp]
      have hset := Multiset.coe_eq_coe.mpr (pop_perm hp)
      rw [hcall]
      exact ⟨pop_ordered hcmp hord hp, .popped x h' (peek_least hcmp hord (pop_head hp)) hset⟩
  | peek =>
    cases hp : peek h with
    | none =>
      have hcall : call cmp h .peek = (.elem none, h) := by simp only [call, hp]
      rw [hcall]
      exact ⟨hord, .peekEmpty (List.head?_eq_none_iff.mp hp)⟩
    | some x =>
      have hcall : call cmp h .peek = (.elem (some x), h) := by simp only [call, hp]
      rw [hcall]
      exact ⟨hord, .peeked x (mem_of_mem_head? hp) (peek_least hcmp hord hp)⟩
  | remove x =>
    cases hp : remove cmp h x with
    | none =>
      have hcall : call cmp h (.remove x) = (.code (-1), h) := by simp only [call, hp]
      rw [hcall]
      exact ⟨hord, .notStored x (remove_none hp)⟩
    | some h' =>
      have hcall : call cmp h (.remove x) = (.code 0, h') := by simp only [call, hp]
      have hset := Multiset.coe_eq_coe.mpr (remove_perm hp)
      rw [hcall]
      exact ⟨remove_ordered hcmp hord hp, .removed x h' hset⟩

theorem after_ordered {cmp : α → α → ℤ} (hcmp : TotalPreorder cmp) (ops : List (Op α)) :
    ∀ h : Heap α, Ordered cmp h.elements → Ordered cmp (after cmp h ops).elements := by
  induction ops with
  | nil => exact fun _ hord => hord
  | cons op ops ih => exact fun h hord => ih _ (call_spec hcmp hord op).1

/-- In every run the array stays in heap order and every call answers as a
priority queue of the stored multiset does. -/
theorem heap_runs {cmp : α → α → ℤ} (hcmp : TotalPreorder cmp) (initialCapacity : ℕ) {h₀ : Heap α}
    (hcreate : create true initialCapacity = some h₀) (ops : List (Op α)) :
    Ordered cmp (after cmp h₀ ops).elements ∧
      ∀ op, Answers cmp (after cmp h₀ ops) op (call cmp (after cmp h₀ ops) op).1
        (call cmp (after cmp h₀ ops) op).2 := by
  have hnil : Ordered cmp h₀.elements := by
    rw [← Option.some.inj hcreate]
    exact fun i _ => leAt_of_none (Nat.zero_le i)
  have hord := after_ordered hcmp ops h₀ hnil
  exact ⟨hord, fun op => (call_spec hcmp hord op).2⟩

end Runs

theorem totalPreorder_sub : TotalPreorder (fun x y : ℤ => x - y) := by
  constructor
  · intro x y
    omega
  · intro x y z
    omega

/- The last element has to rise where the removed one was. -/
theorem heap_runs_remove : (after (fun x y : ℤ => x - y) ⟨[], 1⟩
      [.push 1 true, .push 10 true, .push 2 true, .push 11 true, .push 12 true, .push 3 true,
        .remove 11]).elements = [1, 3, 2, 10, 12] ∧
    Ordered (fun x y : ℤ => x - y) (after (fun x y : ℤ => x - y) ⟨[], 1⟩
      [.push 1 true, .push 10 true, .push 2 true, .push 11 true, .push 12 true, .push 3 true,
        .remove 11]).elements :=
  ⟨by decide, (heap_runs totalPreorder_sub 1 rfl _).1⟩

/- What `n` pops give out, up to the first that finds the heap empty. -/
def pops (cmp : α → α → ℤ) : ℕ → Heap α → List α
  | 0, _ => []
  | n + 1, h =>
    match pop cmp h with
    | none => []
    | some (x, h') => x :: pops cmp n h'

theorem pops_sorted (hcmp : TotalPreorder cmp) {n : ℕ} {h : Heap α} (hn : h.elements.length = n)
    (hord : Ordered cmp h.elements) : (pops cmp n h).Perm h.elements ∧
      (pops cmp n h).Pairwise (fun x y => cmp x y ≤ 0) := by
  induction n generalizing h with
  | zero =>
    rw [length_eq_zero_iff.mp hn]
    exact ⟨.nil, .nil⟩
  | succ n ih =>
    cases hp : pop cmp h with
    | none => rw [pop_none hp] at hn; cases hn
    | some p =>
      obtain ⟨x, h'⟩ := p
      have hperm := pop_perm hp
      have hlen := hperm.length_eq
      rw [length_cons] at hlen
      obtain ⟨hrest, hsorted⟩ := ih (by omega) (pop_ordered hcmp hord hp)
      rw [pops, hp]
      refine ⟨(hrest.cons x).trans hperm, pairwise_cons.mpr ⟨fun y hy => ?_, hsorted⟩⟩
      exact peek_least hcmp hord (pop_head hp) y
        (hperm.subset (mem_cons_of_mem x (hrest.subset hy)))

/-- Emptied after any run, the heap gives out all that is stored, in order. -/
theorem heap_sorts [DecidableEq α] (hcmp : TotalPreorder cmp) (initialCapacity : ℕ) {h₀ : Heap α}
    (hcreate : create true initialCapacity = some h₀) (ops : List (Op α)) :
    (pops cmp (after cmp h₀ ops).elements.length (after cmp h₀ ops)).Perm
        (after cmp h₀ ops).elements ∧
      (pops cmp (after cmp h₀ ops).elements.length (after cmp h₀ ops)).Pairwise
        (fun x y => cmp x y ≤ 0) := by
  refine pops_sorted hcmp rfl (after_ordered hcmp ops h₀ ?_)
  rw [← Option.some.inj hcreate]
  exact fun i _ => leAt_of_none (Nat.zero_le i)

theorem heap_sorts_three : (pops (fun x y : ℤ => x - y) 3 (after (fun x y : ℤ => x - y) ⟨[], 1⟩
      [.push 7 true, .push 9 true, .push 2 true])).Pairwise (fun x y : ℤ => x - y ≤ 0) :=
  (heap_sorts totalPreorder_sub 1 rfl [.push 7 true, .push 9 true, .push 2 true]).2

end Voxlib.MHeap
