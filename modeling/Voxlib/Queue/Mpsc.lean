import Voxlib.Lib.Pow2
import Voxlib.Lib.Run

/-!
# The MPSC queue (vox_queue.c, type VOX_QUEUE_TYPE_MPSC)

A ring of slots with a sequence number each, a head and a tail position. A step is
one atomic access of one thread (sequentially consistent, positions do not wrap),
or the plain access to the data of a slot. The history records what the calls
reserved, claimed and returned.
-/

namespace Voxlib.Queue.Mpsc
open Run Pow2

/-- `vox_queue_slot_t` (vox_queue.c:20-23); `data` is `none` for NULL. -/
structure Slot (E : Type) where
  data : Option E
  sequence : ℕ

/-- The MPSC fields of `struct vox_queue` (vox_queue.c:26-44). -/
structure MpscQueue (E : Type) where
  slots : ℕ → Slot E
  capacity : ℕ
  mask : ℕ
  atomicHead : ℕ
  atomicTail : ℕ

/-- The capacity of `vox_queue_create_with_config` (vox_queue.c:133-146): the
next power of two, in 64-bit arithmetic. -/
def roundCapacity (initial : ℕ) : ℕ :=
  if initial &&& (initial - 1) ≠ 0 then (smear64 (initial - 1) + 1) % 2 ^ 64 else initial

/-- `vox_queue_create_with_config` for the MPSC type. -/
def create (E : Type) (initial : ℕ) : MpscQueue E :=
  { slots := fun i => ⟨none, i⟩
    capacity := roundCapacity initial
    mask := roundCapacity initial - 1
    atomicHead := 0
    atomicTail := 0 }

/-- `queue->slots[pos & queue->mask]`. -/
def MpscQueue.slot {E : Type} (q : MpscQueue E) (pos : ℕ) : Slot E := q.slots (pos &&& q.mask)

def MpscQueue.setSlot {E : Type} (q : MpscQueue E) (pos : ℕ) (x : Slot E) : MpscQueue E :=
  { q with slots := Function.update q.slots (pos &&& q.mask) x }

/-- Where a thread is in `vox_queue_enqueue` (vox_queue.c:226-267) or
`vox_queue_dequeue` (vox_queue.c:308-344), named by its next access. -/
inductive Pc (E : Type) where
  | idle
  | enqLoadTail (elem : E)
  | enqLoadSequence (elem : E) (pos : ℕ)
  | enqExchangeTail (elem : E) (pos : ℕ)
  | enqWriteData (elem : E) (pos : ℕ)
  | enqStoreSequence (elem : E) (pos : ℕ)
  | deqLoadHead
  | deqLoadTail (pos : ℕ)
  | deqLoadSequence (pos : ℕ)
  | deqExchangeHead (pos : ℕ)
  | deqReadData (pos : ℕ)
  | deqStoreSequence (pos : ℕ) (elem : Option E)

/-- What the calls did. `reserved` and `claimed` grow with each successful
exchange of the tail and the head, `enqueued` with each enqueue that returned
0 and `returned` with each dequeue that returned the data of a slot. -/
structure History (T E : Type) where
  reserved : List (T × E) := []
  claimed : List (T × ℕ) := []
  enqueued : List (ℕ × T × E) := []
  returned : List (ℕ × T × Option E) := []

structure State (T E : Type) where
  queue : MpscQueue E
  pc : T → Pc E
  hist : History T E

def State.init (T E : Type) (initial : ℕ) : State T E :=
  ⟨create E initial, fun _ => .idle, {}⟩

inductive Command (E : Type) where
  | callEnqueue (elem : E)
  | callDequeue
  | access

section Steps
variable {T E : Type} [DecidableEq T]

def State.goto (s : State T E) (t : T) (c : Pc E) : State T E :=
  { s with pc := Function.update s.pc t c }

/-- The next access of thread `t`. A failed enqueue (`diff < 0`, queue full)
and a dequeue of an empty queue return at once. -/
def access (s : State T E) (t : T) : Option (State T E) :=
  match s.pc t with
  | .idle => none
  | .enqLoadTail elem => some (s.goto t (.enqLoadSequence elem s.queue.atomicTail))
  | .enqLoadSequence elem pos =>
    let diff : ℤ := (s.queue.slot pos).sequence - pos
    if diff = 0 then some (s.goto t (.enqExchangeTail elem pos))
    else if diff < 0 then some (s.goto t .idle)
    else some (s.goto t (.enqLoadTail elem))
  | .enqExchangeTail elem pos =>
    if s.queue.atomicTail = pos then
      some { queue := { s.queue with atomicTail := pos + 1 }
             pc := Function.update s.pc t (.enqWriteData elem pos)
             hist := { s.hist with reserved := s.hist.reserved ++ [(t, elem)] } }
    else some (s.goto t (.enqLoadTail elem))
  | .enqWriteData elem pos =>
    some { s with
      queue := s.queue.setSlot pos { s.queue.slot pos with data := some elem }
      pc := Function.update s.pc t (.enqStoreSequence elem pos) }
  | .enqStoreSequence elem pos =>
    some { queue := s.queue.setSlot pos { s.queue.slot pos with sequence := pos + 1 }
           pc := Function.update s.pc t .idle
           hist := { s.hist with enqueued := s.hist.enqueued ++ [(pos, t, elem)] } }
  | .deqLoadHead => some (s.goto t (.deqLoadTail s.queue.atomicHead))
  | .deqLoadTail pos =>
    if pos = s.queue.atomicTail then some (s.goto t .idle)
    else some (s.goto t (.deqLoadSequence pos))
  | .deqLoadSequence pos =>
    let diff : ℤ := (s.queue.slot pos).sequence - (pos + 1)
    if diff < 0 then some (s.goto t .deqLoadHead)
    else some (s.goto t (.deqExchangeHead pos))
  | .deqExchangeHead pos =>
    if s.queue.atomicHead = pos then
      some { queue := { s.queue with atomicHead := pos + 1 }
             pc := Function.update s.pc t (.deqReadData pos)
             hist := { s.hist with claimed := s.hist.claimed ++ [(t, pos)] } }
    else some (s.goto t .deqLoadHead)
  | .deqReadData pos => some (s.goto t (.deqStoreSequence pos (s.queue.slot pos).data))
  | .deqStoreSequence pos elem =>
    some { queue := s.queue.setSlot pos
             { s.queue.slot pos with sequence := pos + s.queue.capacity }
           pc := Function.update s.pc t .idle
           hist := { s.hist with returned := s.hist.returned ++ [(pos, t, elem)] } }

/-- One step of the threads: an idle thread calls, a busy one accesses. -/
def step (s : State T E) : T × Command E → Option (State T E)
  | (t, .callEnqueue elem) =>
    match s.pc t with
    | .idle => some (s.goto t (.enqLoadTail elem))
    | _ => none
  | (t, .callDequeue) =>
    match s.pc t with
    | .idle => some (s.goto t .deqLoadHead)
    | _ => none
  | (t, .access) => access s t

end Steps

theorem roundCapacity_pow2 {c : ℕ} (h2 : 2 ≤ c) (hmax : c ≤ 2 ^ 63) :
    ∃ k, roundCapacity c = 2 ^ k ∧ 2 ≤ roundCapacity c := by
  unfold roundCapacity
  split
  · have hne : c - 1 ≠ 0 := by omega
    have hlog : (c - 1).log2 < 63 := (Nat.log2_lt hne).mpr (by omega)
    have hpow : 2 ^ ((c - 1).log2 + 1) ≤ 2 ^ 63 := Nat.pow_le_pow_right (by norm_num) (by omega)
    have hpos : 0 < 2 ^ ((c - 1).log2 + 1) := Nat.two_pow_pos _
    have heq : (smear64 (c - 1) + 1) % 2 ^ 64 = 2 ^ ((c - 1).log2 + 1) := by
      rw [smear64_eq hne (by omega), Nat.sub_add_cancel hpos]
      exact Nat.mod_eq_of_lt (lt_of_le_of_lt hpow (by norm_num))
    refine ⟨(c - 1).log2 + 1, heq, ?_⟩
    rw [heq]
    calc 2 = 2 ^ 1 := rfl
      _ ≤ 2 ^ ((c - 1).log2 + 1) := Nat.pow_le_pow_right (by norm_num) (by omega)
  · rename_i hand
    exact ⟨c.log2, pow2_of_and_pred (by omega) (by simpa using hand), h2⟩

variable {T E : Type}

def Published (h : History T E) (p : ℕ) : Prop := ∃ x, (p, x) ∈ h.enqueued

def Released (h : History T E) (p : ℕ) : Prop := ∃ x, (p, x) ∈ h.returned

/-- The sequence numbers tell for every slot which position it belongs to and
how far that position is: `p` while reserved and unwritten, `p + 1` while
published, `p + capacity` once released. -/
structure Shared (q : MpscQueue E) (h : History T E) : Prop where
  capacityTwo : 2 ≤ q.capacity
  masked : ∀ p, p &&& q.mask = p % q.capacity
  tailEq : h.reserved.length = q.atomicTail
  headLe : q.atomicHead ≤ q.atomicTail
  claims : h.claimed.map Prod.snd = List.range q.atomicHead
  enqueuedReserved : ∀ p t x, (p, t, x) ∈ h.enqueued → h.reserved[p]? = some (t, x)
  enqueuedNodup : (h.enqueued.map Prod.fst).Nodup
  releasedLt : ∀ p, Released h p → p < q.atomicHead
  releasedPublished : ∀ p, Released h p → Published h p
  returnedEnqueued : ∀ p c e, (p, c, e) ∈ h.returned → ∃ t x, (p, t, x) ∈ h.enqueued ∧ e = some x
  returnedNodup : (h.returned.map Prod.fst).Nodup
  oldReleased : ∀ p, p + q.capacity < q.atomicTail → Released h p
  slotNew : ∀ i, i < q.capacity → q.atomicTail ≤ i → (q.slot i).sequence = i
  slotReserved : ∀ p, p < q.atomicTail → ¬ Published h p → (q.slot p).sequence = p
  slotPublished : ∀ p t x, (p, t, x) ∈ h.enqueued → ¬ Released h p →
    (q.slot p).sequence = p + 1 ∧ (q.slot p).data = some x
  slotReleased : ∀ p, Released h p → q.atomicTail ≤ p + q.capacity →
    (q.slot p).sequence = p + q.capacity

def PcOk (q : MpscQueue E) (h : History T E) (t : T) : Pc E → Prop
  | .idle => True
  | .enqLoadTail _ => True
  | .enqLoadSequence _ pos => pos ≤ q.atomicTail
  | .enqExchangeTail _ pos =>
    pos ≤ q.atomicTail ∧ (q.atomicTail = pos → (q.slot pos).sequence = pos)
  | .enqWriteData elem pos => h.reserved[pos]? = some (t, elem) ∧ ¬ Published h pos
  | .enqStoreSequence elem pos =>
    h.reserved[pos]? = some (t, elem) ∧ ¬ Published h pos ∧ (q.slot pos).data = some elem
  | .deqLoadHead => True
  | .deqLoadTail pos => pos ≤ q.atomicHead
  | .deqLoadSequence pos => pos ≤ q.atomicHead ∧ pos < q.atomicTail
  | .deqExchangeHead pos =>
    pos ≤ q.atomicHead ∧ pos < q.atomicTail ∧ (q.atomicHead = pos → Published h pos)
  | .deqReadData pos => h.claimed[pos]? = some (t, pos) ∧ ¬ Released h pos ∧ Published h pos
  | .deqStoreSequence pos elem =>
    h.claimed[pos]? = some (t, pos) ∧ ¬ Released h pos ∧
      ∃ p x, (pos, p, x) ∈ h.enqueued ∧ elem = some x

structure Inv (s : State T E) : Prop where
  shared : Shared s.queue s.hist
  pcs : ∀ t, PcOk s.queue s.hist t (s.pc t)

theorem init_inv {c : ℕ} (h2 : 2 ≤ c) (hmax : c ≤ 2 ^ 63) : Inv (State.init T E c) := by
  obtain ⟨k, hk, hk2⟩ := roundCapacity_pow2 h2 hmax
  have hmask : ∀ p, p &&& (roundCapacity c - 1) = p % roundCapacity c :=
    fun p => and_mask_eq_mod hk
  refine ⟨⟨hk2, hmask, rfl, le_rfl, rfl, ?_, List.nodup_nil, ?_, ?_, ?_, List.nodup_nil, ?_, ?_, ?_, ?_, ?_⟩,
    fun t => trivial⟩
  · intro p t x hx
    cases hx
  · rintro p ⟨x, hx⟩
    cases hx
  · rintro p ⟨x, hx⟩
    cases hx
  · intro p d e he
    cases he
  · intro p hp
    exact absurd hp (Nat.not_lt_zero _)
  · intro i hi _
    show i &&& (roundCapacity c - 1) = i
    rw [hmask]
    exact Nat.mod_eq_of_lt hi
  · intro p hp
    exact absurd hp (Nat.not_lt_zero _)
  · intro p t x hx
    cases hx
  · rintro p ⟨x, hx⟩
    cases hx

end Voxlib.Queue.Mpsc
