import Voxlib.Queue

/-!
# One FIFO behind three rings

A queue answers as a bounded list does, but for the size of an SPSC queue with a wrapped tail
and an MPSC queue of one slot.
-/

namespace Voxlib.Queue
open Run Pow2 Ring Spsc Mpsc List Option

variable {E : Type}

/-- What a queue is for: elements leave in the order in which they came, and at
most `bound` of them are stored. -/
structure Fifo (E : Type) where
  bound : Option ℕ
  items : List E

def Fifo.isFull (f : Fifo E) : Bool :=
  match f.bound with
  | none => false
  | some b => b ≤ f.items.length

def Fifo.call (f : Fifo E) : Op E → Res E × Fifo E
  | .enqueue e =>
    if f.isFull then (.code (-1), f) else (.code 0, { f with items := f.items ++ [e] })
  | .dequeue => (.elem f.items.head?, { f with items := f.items.tail })
  | .peek => (.elem f.items.head?, f)
  | .size => (.count f.items.length, f)
  | .empty => (.flag f.items.isEmpty, f)
  | .full => (.flag f.isFull, f)

/- The answer of the FIFO; what a queue without a bound says of being full is
left open. -/
def Agrees (f : Fifo E) (op : Op E) (r : Res E) : Prop :=
  r = (f.call op).1 ∨ f.bound = none ∧ op = .full ∧ ∃ b, r = .flag b

def Returns (s : VoxQueue E × Fifo E) (op : Op E) : Prop :=
  ∃ r queue, call s.1 op = some (r, queue) ∧ Agrees s.2 op r

/-- vox_queue_full tells whether the next enqueue would fail. -/
def FullExact (queue : VoxQueue E) : Prop :=
  match queue with
  | .normal _ => True
  | _ => ∀ e, full queue = true ↔ ∃ queue', enqueue queue e = some (-1, queue')

def step (s : VoxQueue E × Fifo E) (op : Op E) : Option (VoxQueue E × Fifo E) :=
  (call s.1 op).map fun r => (r.2, (s.2.call op).2)

/-- The steps that go right. -/
def Sound (s : VoxQueue E × Fifo E) (op : Op E) : Prop :=
  match s.1, op with
  | .normal q, .enqueue _ => q.size < q.capacity ∨ q.capacity * 2 * 8 < 2 ^ 64
  | .spsc q, .size => q.atomicHead ≤ q.atomicTail
  | .mpsc q, .enqueue _ => q.capacity ≠ 1
  | _, _ => True

structure NormalInv (q : NormalQueue E) (items : List E) : Prop where
  size : q.size = items.length
  room : items.length ≤ q.capacity
  pos : 0 < q.capacity
  head : q.head < q.capacity
  tail : q.tail = (q.head + items.length) % q.capacity
  holds : Holds q.elements q.capacity q.head items

variable {items : List E}

theorem expandQueue_spec {q : NormalQueue E} (h : NormalInv q items) (hfull : q.capacity ≤ q.size)
    (hbytes : q.capacity * 2 * 8 < 2 ^ 64) :
    ∃ q', expandQueue q = some (0, q') ∧ NormalInv q' items ∧ items.length < q'.capacity := by
  have hsize := h.size
  have hroom := h.room
  have hpos := h.pos
  have hlen : items.length = q.capacity := by omega
  have htail : q.tail = q.head := by
    rw [h.tail, hlen, Nat.add_mod_right, Nat.mod_eq_of_lt h.head]
  have hwrap : q.capacity * 2 % 2 ^ 64 = q.capacity * 2 := Nat.mod_eq_of_lt (by omega)
  refine ⟨⟨copied q, q.capacity * 2, q.size, 0, q.size⟩, ?_, ?_, ?_⟩
  · unfold expandQueue
    dsimp only
    rw [hwrap, if_neg (by omega), if_neg (by omega)]
  · refine ⟨hsize, ?_, ?_, ?_, ?_, ?_⟩
    · dsimp only
      omega
    · dsimp only
      omega
    · dsimp only
      omega
    · dsimp only
      rw [hsize, Nat.zero_add, Nat.mod_eq_of_lt (by omega)]
    · intro i x hx
      have hi : i < items.length := (List.getElem?_eq_some_iff.mp hx).1
      have hold := h.holds i x hx
      have hhead := h.head
      dsimp only
      rw [Nat.zero_add, Nat.mod_eq_of_lt (by omega), copied, htail, if_neg (lt_irrefl _),
        if_pos (by omega)]
      dsimp only
      by_cases hfirst : i < q.capacity - q.head
      · rw [Nat.mod_eq_of_lt (by omega)] at hold
        rw [if_pos hfirst, hold]
      · have hslot : (q.head + i) % q.capacity = i - (q.capacity - q.head) := by
          rw [Nat.mod_eq_sub_mod (by omega), Nat.mod_eq_of_lt (by omega)]
          omega
        rw [hslot] at hold
        rw [if_neg hfirst, if_pos (by omega), hold]
  · dsimp only
    omega

theorem normalInv_push {q : NormalQueue E} (h : NormalInv q items)
    (hroom : items.length < q.capacity) (e : E) : NormalInv { q with
      elements := Function.update q.elements q.tail (some e)
      tail := (q.tail + 1) % q.capacity
      size := q.size + 1 } (items ++ [e]) := by
  refine ⟨?_, ?_, h.pos, h.head, ?_, ?_⟩
  · rw [length_append, h.size]
    rfl
  · rw [length_append]
    exact hroom
  · dsimp only
    rw [h.tail, Nat.mod_add_mod, length_append, Nat.add_assoc]
    rfl
  · dsimp only
    rw [h.tail]
    exact h.holds.push hroom e

theorem normalEnqueue_spec {q : NormalQueue E} (h : NormalInv q items) (e : E)
    (hok : q.size < q.capacity ∨ q.capacity * 2 * 8 < 2 ^ 64) :
    ∃ q', normalEnqueue q e = some (0, q') ∧ NormalInv q' (items ++ [e]) := by
  unfold normalEnqueue
  by_cases hfull : q.capacity ≤ q.size
  · obtain ⟨q', hrun, hinv, hroom⟩ := expandQueue_spec h hfull (hok.resolve_left (by omega))
    rw [if_pos hfull, hrun]
    exact ⟨_, rfl, normalInv_push hinv hroom e⟩
  · rw [if_neg hfull]
    have hsize := h.size
    exact ⟨_, rfl, normalInv_push h (by omega) e⟩

theorem normalDequeue_spec {q : NormalQueue E} (h : NormalInv q items) :
    (normalDequeue q).1 = items.head? ∧ NormalInv (normalDequeue q).2 items.tail := by
  unfold normalDequeue
  have hsize := h.size
  have hroom := h.room
  cases items with
  | nil =>
    have hzero : q.size = 0 := hsize
    rw [if_pos hzero]
    exact ⟨rfl, h⟩
  | cons x rest =>
    rw [length_cons] at hsize hroom
    rw [if_neg (by omega)]
    have hslot := h.holds.head
    rw [Nat.mod_eq_of_lt h.head] at hslot
    refine ⟨hslot, ?_, ?_, h.pos, Nat.mod_lt _ h.pos, ?_, holds_mod.mpr h.holds.tail⟩
    · dsimp only [List.tail]
      omega
    · dsimp only [List.tail]
      omega
    · dsimp only [List.tail]
      rw [h.tail, length_cons, Nat.mod_add_mod]
      congr 1
      omega

structure SpscInv (q : SpscQueue E) (items : List E) : Prop where
  room : items.length < q.capacity
  masked : ∀ p, p &&& q.mask = p % q.capacity
  head : q.atomicHead < q.capacity
  tail : q.atomicTail = (q.atomicHead + items.length) % q.capacity
  holds : Holds q.elements q.capacity q.atomicHead items

theorem SpscInv.empty_iff {q : SpscQueue E} (h : SpscInv q items) :
    q.atomicHead = q.atomicTail ↔ items = [] := by
  have hroom := h.room
  have hpos : 0 < q.capacity := by omega
  rw [h.tail]
  constructor
  · intro heq
    have hself : (q.atomicHead + 0) % q.capacity = q.atomicHead := Nat.mod_eq_of_lt h.head
    have hzero := slot_inj (p := q.atomicHead) hpos hroom (hself.trans heq)
    exact length_eq_zero_iff.mp hzero.symm
  · intro hnil
    rw [hnil]
    exact (Nat.mod_eq_of_lt h.head).symm

theorem SpscInv.full_iff {q : SpscQueue E} (h : SpscInv q items) :
    (q.atomicTail + 1) &&& q.mask = q.atomicHead ↔ q.capacity ≤ items.length + 1 := by
  have hroom := h.room
  have hpos : 0 < q.capacity := by omega
  rw [h.masked, h.tail, Nat.mod_add_mod, Nat.add_assoc]
  constructor
  · intro heq
    by_contra hlt
    have hself : (q.atomicHead + 0) % q.capacity = q.atomicHead := Nat.mod_eq_of_lt h.head
    have hinj := slot_inj (p := q.atomicHead) (by omega) hpos (heq.trans hself.symm)
    omega
  · intro hle
    rw [show items.length + 1 = q.capacity by omega, Nat.add_mod_right, Nat.mod_eq_of_lt h.head]

theorem spscEnqueue_spec {q : SpscQueue E} (h : SpscInv q items) (e : E) :
    if q.capacity ≤ items.length + 1 then spscEnqueue q e = (-1, q)
    else (spscEnqueue q e).1 = 0 ∧ SpscInv (spscEnqueue q e).2 (items ++ [e]) := by
  unfold spscEnqueue
  split
  · rename_i hfull
    exact if_pos (h.full_iff.mpr hfull)
  · rename_i hfull
    have hnext : (q.atomicTail + 1) &&& q.mask ≠ q.atomicHead := mt h.full_iff.mp hfull
    dsimp only
    rw [if_neg hnext]
    refine ⟨rfl, ?_, h.masked, h.head, ?_, ?_⟩
    · rw [length_append, length_singleton]
      dsimp only
      omega
    · dsimp only
      rw [h.masked, h.tail, Nat.mod_add_mod, length_append, Nat.add_assoc]
      rfl
    · dsimp only
      rw [h.tail]
      exact h.holds.push h.room e

theorem spscEnqueue_capacity (q : SpscQueue E) (e : E) :
    (spscEnqueue q e).2.capacity = q.capacity := by
  unfold spscEnqueue
  dsimp only
  split
  · rfl
  · rfl

theorem spscDequeue_capacity (q : SpscQueue E) : (spscDequeue q).2.capacity = q.capacity := by
  unfold spscDequeue
  split
  · rfl
  · rfl

theorem spscDequeue_spec {q : SpscQueue E} (h : SpscInv q items) :
    (spscDequeue q).1 = items.head? ∧ SpscInv (spscDequeue q).2 items.tail := by
  unfold spscDequeue
  have hroom := h.room
  cases items with
  | nil =>
    rw [if_pos (h.empty_iff.mpr rfl)]
    exact ⟨rfl, h⟩
  | cons x rest =>
    rw [if_neg (mt h.empty_iff.mp (cons_ne_nil x rest))]
    rw [length_cons] at hroom
    have hslot := h.holds.head
    rw [Nat.mod_eq_of_lt h.head] at hslot
    have hpos : 0 < q.capacity := by omega
    refine ⟨hslot, ?_, h.masked, ?_, ?_, ?_⟩
    · dsimp only [List.tail]
      omega
    · dsimp only
      rw [h.masked]
      exact Nat.mod_lt _ hpos
    · dsimp only [List.tail]
      rw [h.masked, h.tail, length_cons, Nat.mod_add_mod]
      congr 1
      omega
    · dsimp only [List.tail]
      rw [h.masked]
      exact holds_mod.mpr h.holds.tail

/-- The sequence numbers of one round: those of the stored elements are one
ahead of their positions, those of the free slots are the positions to come. -/
structure MpscInv (q : MpscQueue E) (items : List E) : Prop where
  masked : ∀ p, p &&& q.mask = p % q.capacity
  pos : 0 < q.capacity
  room : items.length ≤ q.capacity
  tail : q.atomicTail = q.atomicHead + items.length
  two : 2 ≤ q.capacity ∨ items = []
  ready : ∀ i x, items[i]? = some x → q.slot (q.atomicHead + i) = ⟨some x, q.atomicHead + i + 1⟩
  free : ∀ i, items.length ≤ i → i < q.capacity →
    (q.slot (q.atomicHead + i)).sequence = q.atomicHead + i

variable {q : MpscQueue E}

theorem MpscInv.slot_ne (h : MpscInv q items) {i j : ℕ} (hi : i < q.capacity) (hj : j < q.capacity)
    (hij : i ≠ j) : (q.atomicHead + i) &&& q.mask ≠ (q.atomicHead + j) &&& q.mask := by
  rw [h.masked, h.masked]
  exact fun heq => hij (slot_inj hi hj heq)

theorem mpscEnqueue_capacity {q' : MpscQueue E} {e : E} {code : ℤ}
    (h : mpscEnqueue q e = some (code, q')) : q'.capacity = q.capacity := by
  unfold mpscEnqueue at h
  dsimp only at h
  split at h
  · have hq : _ = q' := congrArg Prod.snd (some.inj h)
    rw [← hq]
    rfl
  · split at h
    · have hq : q = q' := congrArg Prod.snd (some.inj h)
      rw [hq]
    · cases h

theorem mpscDequeue_capacity {q' : MpscQueue E} {elem : Option E}
    (h : mpscDequeue q = some (elem, q')) : q'.capacity = q.capacity := by
  unfold mpscDequeue at h
  dsimp only at h
  split at h
  · have hq : q = q' := congrArg Prod.snd (some.inj h)
    rw [hq]
  · split at h
    · cases h
    · have hq : _ = q' := congrArg Prod.snd (some.inj h)
      rw [← hq]
      rfl

theorem mpscEnqueue_spec (h : MpscInv q items) (e : E) :
    (q.capacity ≤ items.length → mpscEnqueue q e = some (-1, q)) ∧
    (items.length < q.capacity → ∃ q', mpscEnqueue q e = some (0, q') ∧
      (q.capacity ≠ 1 → MpscInv q' (items ++ [e]))) := by
  have hroom := h.room
  have hpos := h.pos
  constructor
  · intro hfull
    -- the slot of the tail is that of the head, which is stored
    have hlen : items.length = q.capacity := by omega
    obtain ⟨x, rest, rfl⟩ : ∃ x rest, items = x :: rest := by
      cases items with
      | nil =>
        rw [length_nil] at hlen
        omega
      | cons x rest => exact ⟨x, rest, rfl⟩
    have htwo : 2 ≤ q.capacity := h.two.resolve_right (cons_ne_nil x rest)
    have hhead := h.ready 0 x rfl
    have hslot : q.slot q.atomicTail = ⟨some x, q.atomicHead + 1⟩ := by
      rw [← hhead]
      unfold MpscQueue.slot
      rw [h.masked, h.masked, h.tail, hlen, Nat.add_mod_right, Nat.add_zero]
    unfold mpscEnqueue
    dsimp only
    rw [hslot, h.tail, hlen]
    rw [if_neg (by push_cast; omega), if_pos (by push_cast; omega)]
  · intro hfree
    have hseq : (q.slot q.atomicTail).sequence = q.atomicTail := by
      rw [h.tail]
      exact h.free items.length (le_refl _) hfree
    unfold mpscEnqueue
    dsimp only
    rw [hseq, if_pos (sub_self _)]
    refine ⟨_, rfl, ?_⟩
    intro hone
    generalize hq : MpscQueue.setSlot { q with atomicTail := q.atomicTail + 1 } q.atomicTail
      ⟨some e, q.atomicTail + 1⟩ = q'
    have hslots : ∀ p, q'.slot p =
        if p &&& q.mask = q.atomicTail &&& q.mask then ⟨some e, q.atomicTail + 1⟩ else
          q.slot p := by
      rw [← hq]
      exact fun p => setSlot_slot _ _ _ _
    have hcap : q'.capacity = q.capacity := by rw [← hq]; rfl
    have hmask : q'.mask = q.mask := by rw [← hq]; rfl
    have hhead : q'.atomicHead = q.atomicHead := by rw [← hq]; rfl
    have hnew : q'.atomicTail = q.atomicTail + 1 := by rw [← hq]; rfl
    refine ⟨?_, ?_, ?_, ?_, Or.inl ?_, ?_, ?_⟩
    · rw [hmask, hcap]
      exact h.masked
    · rw [hcap]
      exact hpos
    · rw [hcap, length_append]
      exact hfree
    · rw [hnew, hhead, h.tail, length_append, Nat.add_assoc]
      rfl
    · omega
    · intro i x hx
      obtain ⟨hi, hget⟩ := List.getElem?_eq_some_iff.mp hx
      rw [length_append, length_singleton] at hi
      rw [hslots, hhead, h.tail]
      by_cases hlast : i = items.length
      · subst hlast
        rw [getElem_append_right (le_refl _)] at hget
        simp only [Nat.sub_self, getElem_singleton] at hget
        rw [if_pos rfl, hget]
      · rw [if_neg (h.slot_ne (by omega) hfree hlast)]
        rw [List.getElem?_append_left (by omega)] at hx
        exact h.ready i x hx
    · intro i hi hic
      rw [length_append, length_singleton] at hi
      rw [hcap] at hic
      rw [hslots, hhead, h.tail, if_neg (h.slot_ne hic hfree (by omega))]
      exact h.free i (by omega) hic

theorem mpscDequeue_spec (h : MpscInv q items) :
    ∃ q', mpscDequeue q = some (items.head?, q') ∧ MpscInv q' items.tail ∧
      mpscPeek q = items.head? := by
  unfold mpscDequeue mpscPeek
  have hroom := h.room
  have htail := h.tail
  cases items with
  | nil =>
    have heq : q.atomicHead = q.atomicTail := htail.symm
    dsimp only
    rw [if_pos heq, if_pos heq]
    exact ⟨q, rfl, h, rfl⟩
  | cons x rest =>
    rw [length_cons] at hroom htail
    have hne : q.atomicHead ≠ q.atomicTail := by omega
    have hslot : q.slot q.atomicHead = ⟨some x, q.atomicHead + 1⟩ := h.ready 0 x rfl
    dsimp only
    rw [if_neg hne, if_neg hne, hslot]
    rw [if_neg (by push_cast; omega), if_neg (by push_cast; omega)]
    have htwo : 2 ≤ q.capacity := h.two.resolve_right (cons_ne_nil x rest)
    refine ⟨_, rfl, ?_, rfl⟩
    generalize hq : MpscQueue.setSlot { q with atomicHead := q.atomicHead + 1 } q.atomicHead
      ⟨some x, q.atomicHead + q.capacity⟩ = q'
    have hslots : ∀ p, q'.slot p = if p &&& q.mask = q.atomicHead &&& q.mask then
        ⟨some x, q.atomicHead + q.capacity⟩ else q.slot p := by
      rw [← hq]
      exact fun p => setSlot_slot _ _ _ _
    have hcap : q'.capacity = q.capacity := by rw [← hq]; rfl
    have hmask : q'.mask = q.mask := by rw [← hq]; rfl
    have hhead : q'.atomicHead = q.atomicHead + 1 := by rw [← hq]; rfl
    have hold : q'.atomicTail = q.atomicTail := by rw [← hq]; rfl
    refine ⟨?_, ?_, ?_, ?_, Or.inl ?_, ?_, ?_⟩
    · rw [hmask, hcap]
      exact h.masked
    · rw [hcap]
      exact h.pos
    · rw [hcap]
      exact Nat.le_of_succ_le hroom
    · rw [hold, hhead, htail, tail_cons]
      omega
    · rw [hcap]
      exact htwo
    · intro i y hy
      have hi : i < rest.length := (List.getElem?_eq_some_iff.mp hy).1
      have hother : (q.atomicHead + (i + 1)) &&& q.mask ≠ q.atomicHead &&& q.mask :=
        h.slot_ne (i := i + 1) (j := 0) (by omega) (by omega) (by omega)
      rw [hslots, hhead, show q.atomicHead + 1 + i = q.atomicHead + (i + 1) by omega,
        if_neg hother]
      exact h.ready (i + 1) y hy
    · intro i hi hic
      rw [tail_cons] at hi
      rw [hcap] at hic
      rw [hslots, hhead, show q.atomicHead + 1 + i = q.atomicHead + (i + 1) by omega]
      by_cases hlast : i + 1 = q.capacity
      · -- the slot that has become free is that of the last position
        rw [hlast, if_pos]
        rw [h.masked, h.masked, Nat.add_mod_right]
      · have hother : (q.atomicHead + (i + 1)) &&& q.mask ≠ q.atomicHead &&& q.mask :=
          h.slot_ne (i := i + 1) (j := 0) (by omega) (by omega) (by omega)
        rw [if_neg hother]
        exact h.free (i + 1) (by rw [length_cons]; omega) (by omega)

/-- The queue stores the items of the FIFO, and has its bound. -/
def Represents (queue : VoxQueue E) (f : Fifo E) : Prop :=
  match queue with
  | .normal q => f.bound = none ∧ NormalInv q f.items
  | .spsc q => f.bound = some (q.capacity - 1) ∧ SpscInv q f.items
  | .mpsc q => f.bound = some q.capacity ∧ MpscInv q f.items

theorem atomicSize_of_le {head n capacity : ℕ} (h : n ≤ capacity) :
    atomicSize head (head + n) capacity = n := by
  unfold atomicSize
  dsimp only
  rw [if_neg (by push_cast; omega), if_neg (by push_cast; omega)]
  push_cast
  omega

variable {f : Fifo E}

theorem normal_step {q : NormalQueue E} (hbound : f.bound = none) (h : NormalInv q f.items)
    (op : Op E) (hok : Sound (.normal q, f) op) :
    ∃ r queue, call (.normal q) op = some (r, queue) ∧ Agrees f op r ∧
      Represents queue (f.call op).2 := by
  have hnot : f.isFull = false := by
    unfold Fifo.isFull
    rw [hbound]
  cases op with
  | enqueue e =>
    obtain ⟨q', hrun, hinv⟩ := normalEnqueue_spec h e hok
    have hcall : f.call (.enqueue e) = (.code 0, { f with items := f.items ++ [e] }) := by
      unfold Fifo.call
      dsimp only
      rw [hnot]
      rfl
    refine ⟨.code 0, .normal q', ?_, Or.inl ?_, ?_⟩
    · unfold call enqueue
      dsimp only
      rw [hrun]
      rfl
    · rw [hcall]
    · rw [hcall]
      exact ⟨hbound, hinv⟩
  | dequeue =>
    obtain ⟨helem, hinv⟩ := normalDequeue_spec h
    refine ⟨.elem (normalDequeue q).1, .normal (normalDequeue q).2, rfl, Or.inl ?_, hbound, hinv⟩
    rw [helem]
    rfl
  | peek =>
    have hsame : peek (.normal q) = (normalDequeue q).1 := by
      unfold peek normalDequeue
      dsimp only
      split
      · rfl
      · rfl
    refine ⟨_, .normal q, rfl, Or.inl ?_, hbound, h⟩
    rw [hsame, (normalDequeue_spec h).1]
    rfl
  | size => exact ⟨_, .normal q, rfl, Or.inl (congrArg Res.count h.size), hbound, h⟩
  | empty =>
    refine ⟨_, .normal q, rfl, Or.inl (congrArg Res.flag ?_), hbound, h⟩
    show decide (q.size = 0) = f.items.isEmpty
    rw [h.size]
    cases f.items with
    | nil => rfl
    | cons x rest => rfl
  | full => exact ⟨_, .normal q, rfl, Or.inr ⟨hbound, rfl, _, rfl⟩, hbound, h⟩

theorem isFull_eq {b : ℕ} (hbound : f.bound = some b) : f.isFull = decide (b ≤ f.items.length) := by
  unfold Fifo.isFull
  rw [hbound]

theorem call_enqueue {b : ℕ} (hbound : f.bound = some b) (e : E) :
    f.call (.enqueue e) = if b ≤ f.items.length then (.code (-1), f)
      else (.code 0, { f with items := f.items ++ [e] }) := by
  unfold Fifo.call
  dsimp only
  rw [isFull_eq hbound]
  simp only [decide_eq_true_eq]

theorem spsc_step {q : SpscQueue E} (hbound : f.bound = some (q.capacity - 1))
    (h : SpscInv q f.items) (op : Op E) (hok : Sound (.spsc q, f) op) :
    ∃ r queue, call (.spsc q) op = some (r, queue) ∧ Agrees f op r ∧
      Represents queue (f.call op).2 := by
  have hroom := h.room
  cases op with
  | enqueue e =>
    refine ⟨.code (spscEnqueue q e).1, .spsc (spscEnqueue q e).2, rfl, ?_⟩
    have hspec := spscEnqueue_spec h e
    have hcall := call_enqueue hbound e
    by_cases hfull : q.capacity ≤ f.items.length + 1
    · rw [if_pos hfull] at hspec
      rw [if_pos (by omega)] at hcall
      unfold Agrees
      rw [hcall, hspec]
      exact ⟨Or.inl rfl, hbound, h⟩
    · rw [if_neg hfull] at hspec
      rw [if_neg (by omega)] at hcall
      unfold Agrees
      rw [hcall, hspec.1]
      refine ⟨Or.inl rfl, ?_, hspec.2⟩
      rw [spscEnqueue_capacity]
      exact hbound
  | dequeue =>
    obtain ⟨helem, hinv⟩ := spscDequeue_spec h
    refine ⟨.elem (spscDequeue q).1, .spsc (spscDequeue q).2, rfl, Or.inl ?_, ?_, hinv⟩
    · rw [helem]
      rfl
    · rw [spscDequeue_capacity]
      exact hbound
  | peek =>
    have hsame : peek (.spsc q) = (spscDequeue q).1 := by
      unfold peek spscDequeue
      dsimp only
      split
      · rfl
      · rfl
    refine ⟨_, .spsc q, rfl, Or.inl ?_, hbound, h⟩
    rw [hsame, (spscDequeue_spec h).1]
    rfl
  | size =>
    -- the tail index has not wrapped
    refine ⟨_, .spsc q, rfl, Or.inl (congrArg Res.count ?_), hbound, h⟩
    have hle : q.atomicHead ≤ q.atomicTail := hok
    have htail := h.tail
    have hhead := h.head
    have hsum : q.atomicTail = q.atomicHead + f.items.length := by
      by_cases hlt : q.atomicHead + f.items.length < q.capacity
      · rw [htail, Nat.mod_eq_of_lt hlt]
      · rw [Nat.mod_eq_sub_mod (by omega), Nat.mod_eq_of_lt (by omega)] at htail
        omega
    show atomicSize q.atomicHead q.atomicTail q.capacity = f.items.length
    rw [hsum]
    exact atomicSize_of_le (by omega)
  | empty =>
    refine ⟨_, .spsc q, rfl, Or.inl (congrArg Res.flag ?_), hbound, h⟩
    rw [Bool.eq_iff_iff, List.isEmpty_iff]
    show decide (q.atomicHead = q.atomicTail) = true ↔ f.items = []
    rw [decide_eq_true_eq]
    exact h.empty_iff
  | full =>
    refine ⟨_, .spsc q, rfl, Or.inl (congrArg Res.flag ?_), hbound, h⟩
    rw [Bool.eq_iff_iff, isFull_eq hbound]
    show decide ((q.atomicTail + 1) &&& q.mask = q.atomicHead) = true ↔ _
    rw [decide_eq_true_eq, decide_eq_true_eq, h.full_iff]
    omega

theorem MpscInv.empty_iff (h : MpscInv q items) : q.atomicHead = q.atomicTail ↔ items = [] := by
  rw [h.tail, ← length_eq_zero_iff]
  omega

theorem MpscInv.full_iff (h : MpscInv q items) :
    full (.mpsc q) = true ↔ q.capacity ≤ items.length := by
  have htail := h.tail
  unfold full
  dsimp only
  rw [if_neg (by omega), decide_eq_true_eq]
  omega

theorem mpsc_step (hbound : f.bound = some q.capacity) (h : MpscInv q f.items) (op : Op E)
    (hok : Sound (.mpsc q, f) op) : ∃ r queue, call (.mpsc q) op = some (r, queue) ∧ Agrees f op r ∧
      Represents queue (f.call op).2 := by
  cases op with
  | enqueue e =>
    obtain ⟨hfull, hfree⟩ := mpscEnqueue_spec h e
    have hcall := call_enqueue hbound e
    by_cases hlen : q.capacity ≤ f.items.length
    · rw [if_pos hlen] at hcall
      refine ⟨.code (-1), .mpsc q, ?_, Or.inl ?_, ?_⟩
      · unfold call enqueue
        dsimp only
        rw [hfull hlen]
        rfl
      · rw [hcall]
      · rw [hcall]
        exact ⟨hbound, h⟩
    · obtain ⟨q', hrun, hinv⟩ := hfree (by omega)
      rw [if_neg hlen] at hcall
      refine ⟨.code 0, .mpsc q', ?_, Or.inl ?_, ?_⟩
      · unfold call enqueue
        dsimp only
        rw [hrun]
        rfl
      · rw [hcall]
      · rw [hcall]
        refine ⟨?_, hinv hok⟩
        rw [mpscEnqueue_capacity hrun]
        exact hbound
  | dequeue =>
    obtain ⟨q', hrun, hinv, _⟩ := mpscDequeue_spec h
    refine ⟨.elem f.items.head?, .mpsc q', ?_, Or.inl rfl, ?_, hinv⟩
    · unfold call dequeue
      dsimp only
      rw [hrun]
      rfl
    · rw [mpscDequeue_capacity hrun]
      exact hbound
  | peek =>
    obtain ⟨_, _, _, hpeek⟩ := mpscDequeue_spec h
    exact ⟨_, .mpsc q, rfl, Or.inl (congrArg Res.elem hpeek), hbound, h⟩
  | size =>
    refine ⟨_, .mpsc q, rfl, Or.inl (congrArg Res.count ?_), hbound, h⟩
    show atomicSize q.atomicHead q.atomicTail q.capacity = f.items.length
    rw [h.tail]
    exact atomicSize_of_le h.room
  | empty =>
    refine ⟨_, .mpsc q, rfl, Or.inl (congrArg Res.flag ?_), hbound, h⟩
    rw [Bool.eq_iff_iff, List.isEmpty_iff]
    show decide (q.atomicHead = q.atomicTail) = true ↔ f.items = []
    rw [decide_eq_true_eq]
    exact h.empty_iff
  | full =>
    refine ⟨_, .mpsc q, rfl, Or.inl (congrArg Res.flag ?_), hbound, h⟩
    rw [Bool.eq_iff_iff, isFull_eq hbound, decide_eq_true_eq]
    exact h.full_iff

theorem fullExact_of_represents {queue : VoxQueue E} (h : Represents queue f) :
    FullExact queue := by
  cases queue with
  | normal q => trivial
  | spsc q =>
    obtain ⟨_, hinv⟩ := h
    intro e
    have hspec := spscEnqueue_spec hinv e
    have hfull : full (.spsc q) = true ↔ q.capacity ≤ f.items.length + 1 := by
      rw [← hinv.full_iff]
      exact decide_eq_true_iff
    rw [hfull]
    constructor
    · intro hle
      rw [if_pos hle] at hspec
      refine ⟨.spsc q, ?_⟩
      unfold enqueue
      dsimp only
      rw [hspec]
    · rintro ⟨queue', hrun⟩
      by_contra hlt
      rw [if_neg hlt] at hspec
      have hcode : (spscEnqueue q e).1 = -1 := congrArg Prod.fst (some.inj hrun)
      rw [hspec.1] at hcode
      cases hcode
  | mpsc q =>
    obtain ⟨_, hinv⟩ := h
    intro e
    obtain ⟨hfull, hfree⟩ := mpscEnqueue_spec hinv e
    rw [hinv.full_iff]
    constructor
    · intro hle
      refine ⟨.mpsc q, ?_⟩
      unfold enqueue
      dsimp only
      rw [hfull hle]
      rfl
    · rintro ⟨queue', hrun⟩
      by_contra hlt
      obtain ⟨q', hok, _⟩ := hfree (by omega)
      unfold enqueue at hrun
      dsimp only at hrun
      rw [hok] at hrun
      have hcode : (0 : ℤ) = -1 := congrArg Prod.fst (some.inj hrun)
      cases hcode

theorem step_right (s : VoxQueue E × Fifo E) (op : Op E) (h : Represents s.1 s.2)
    (hok : Sound s op) : ∃ t, step s op = some t ∧ Represents t.1 t.2 ∧ Returns s op := by
  obtain ⟨queue, f⟩ := s
  have hcases : ∃ r queue', call queue op = some (r, queue') ∧ Agrees f op r ∧
      Represents queue' (f.call op).2 := by
    cases queue with
    | normal q => exact normal_step h.1 h.2 op hok
    | spsc q => exact spsc_step h.1 h.2 op hok
    | mpsc q => exact mpsc_step h.1 h.2 op hok
  obtain ⟨r, queue', hrun, hagrees, hkeep⟩ := hcases
  refine ⟨(queue', (f.call op).2), ?_, hkeep, r, queue', hrun, hagrees⟩
  unfold step
  dsimp only
  rw [hrun]
  rfl

def boundOf (type : QueueType) (initialCapacity : ℕ) : Option ℕ :=
  match type with
  | .normal => none
  | .spsc => some (roundCapacity initialCapacity - 1)
  | .mpsc => some (roundCapacity initialCapacity)

theorem roundCapacity_spec {c : ℕ} (h1 : 1 ≤ c) (hmax : c ≤ 2 ^ 32) :
    (∃ k, roundCapacity c = 2 ^ k) ∧ c ≤ roundCapacity c ∧ roundCapacity c < 2 * c := by
  have hpow : ∃ k, roundCapacity c = 2 ^ k := by
    by_cases hone : c = 1
    · exact ⟨0, by rw [hone]; decide⟩
    · obtain ⟨k, hk, _⟩ := roundCapacity_pow2 (c := c) (by omega) (by omega)
      exact ⟨k, hk⟩
  refine ⟨hpow, ?_⟩
  unfold roundCapacity
  split
  · rename_i hand
    have hne : c - 1 ≠ 0 := by
      intro heq
      rw [heq, Nat.and_zero] at hand
      exact hand rfl
    have hlow := Nat.log2_self_le hne
    have hhigh : c - 1 < 2 ^ ((c - 1).log2 + 1) := Nat.lt_log2_self
    rw [smear64_eq hne (by omega), Nat.sub_add_cancel (Nat.two_pow_pos _)]
    rw [pow_succ] at hhigh ⊢
    rw [Nat.mod_eq_of_lt (by omega)]
    omega
  · omega

theorem create_represents {c : ℕ} (type : QueueType) (h1 : 1 ≤ c) (hmax : c ≤ 2 ^ 32) :
    ∃ queue, create E type c = some queue ∧ Represents queue ⟨boundOf type c, []⟩ := by
  obtain ⟨⟨k, hk⟩, hle, _⟩ := roundCapacity_spec h1 hmax
  have hpos : 0 < roundCapacity c := by omega
  have hmask : ∀ p, p &&& (roundCapacity c - 1) = p % roundCapacity c :=
    fun p => and_mask_eq_mod hk
  unfold create
  cases type with
  | normal =>
    dsimp only
    rw [if_pos (by omega)]
    exact ⟨_, rfl, rfl, rfl, Nat.zero_le _, h1, h1, (Nat.zero_mod _).symm, holds_nil⟩
  | spsc =>
    dsimp only
    rw [if_neg (by omega)]
    exact ⟨_, rfl, rfl, hpos, hmask, hpos, (Nat.zero_mod _).symm, holds_nil⟩
  | mpsc =>
    dsimp only
    rw [if_neg (by omega)]
    refine ⟨_, rfl, rfl, hmask, hpos, Nat.zero_le _, rfl, Or.inr rfl, ?_, ?_⟩
    · intro i x hx
      cases hx
    · intro i _ hi
      show (0 + i) &&& (roundCapacity c - 1) = 0 + i
      rw [hmask, Nat.zero_add]
      exact Nat.mod_eq_of_lt hi

/-- In a run whose steps go right every call returns and answers as the FIFO
does, and being full always means that the next enqueue would fail. -/
theorem fifo_runs (type : QueueType) (c : ℕ) (h1 : 1 ≤ c) (hmax : c ≤ 2 ^ 32) (ops : List (Op E)) :
    ((∃ k, roundCapacity c = 2 ^ k) ∧ c ≤ roundCapacity c ∧ roundCapacity c < 2 * c) ∧
    ∃ queue, create E type c = some queue ∧ (Meets step Sound (queue, ⟨boundOf type c, []⟩) ops →
        Guarded step Returns (queue, ⟨boundOf type c, []⟩) ops ∧
        Along step (fun s => FullExact s.1) (queue, ⟨boundOf type c, []⟩) ops) := by
  refine ⟨roundCapacity_spec h1 hmax, ?_⟩
  obtain ⟨queue, hcreate, hrep⟩ := create_represents (E := E) type h1 hmax
  refine ⟨queue, hcreate, ?_⟩
  intro hmeets
  obtain ⟨halong, hguarded⟩ :=
    guarded_of_meets (I := fun s : VoxQueue E × Fifo E => Represents s.1 s.2) step_right hrep hmeets
  exact ⟨hguarded, along_mono (fun s hs => fullExact_of_represents hs) halong⟩

/- Two slots of an SPSC queue, with the tail index wrapped once. -/
theorem fifo_runs_wrapped : ∃ queue, create ℕ .spsc 2 = some queue ∧
    Guarded step Returns (queue, ⟨some 1, []⟩)
      [.enqueue 7, .enqueue 8, .dequeue, .enqueue 8, .full, .peek] := by
  obtain ⟨_, queue, hcreate, hrun⟩ := fifo_runs .spsc 2 (by decide) (by decide)
    [Op.enqueue 7, .enqueue 8, .dequeue, .enqueue 8, .full, .peek]
  refine ⟨queue, hcreate, (hrun ?_).1⟩
  obtain rfl := some.inj hcreate
  iterate 5
    refine ⟨trivial, fun t ht => ?_⟩
    obtain rfl := some.inj ht
  exact ⟨trivial, fun _ _ => trivial⟩

/-- An SPSC queue whose tail index has wrapped says that it stores nothing. An
MPSC queue of one slot that says it is full takes another element, and then a
dequeue does not return. -/
theorem size_and_single_slot : (∃ queue s, create ℕ .spsc 2 = some queue ∧
      exec step (queue, ⟨some 1, []⟩) [.enqueue 7, .dequeue, .enqueue 8] = some s ∧
      s.2.items = [8] ∧ size s.1 = 0) ∧ (∃ queue s s', create ℕ .mpsc 1 = some queue ∧
      exec step (queue, ⟨some 1, []⟩) [.enqueue 7] = some s ∧ full s.1 = true ∧
      enqueue s.1 8 = some (0, s') ∧ (∃ s'', dequeue s' = some (some 8, s'') ∧ dequeue
        s'' = none)) :=
  ⟨⟨_, _, rfl, rfl, rfl, rfl⟩, ⟨_, _, _, rfl, rfl, rfl, rfl, _, rfl, rfl⟩⟩

end Voxlib.Queue
