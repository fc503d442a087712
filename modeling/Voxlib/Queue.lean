import Voxlib.Queue.Spsc
import Voxlib.Queue.MpscSafety

/-!
# The queue as one thread sees it (vox_queue.c)

The three types behind one interface. An outer `none` stands for a call that
does not return: a loop in which nothing changes any more, or a copy that leaves
the block it was given. Allocations succeed; positions do not wrap.
-/

namespace Voxlib.Queue
open Spsc Mpsc

/-- The fields of `struct vox_queue` of the NORMAL type (vox_queue.c:26-44). -/
structure NormalQueue (E : Type) where
  elements : ℕ → Option E
  capacity : ℕ
  size : ℕ
  head : ℕ
  tail : ℕ

inductive QueueType where
  | normal
  | spsc
  | mpsc
  deriving DecidableEq

inductive VoxQueue (E : Type) where
  | normal (q : NormalQueue E)
  | spsc (q : SpscQueue E)
  | mpsc (q : MpscQueue E)

variable {E : Type}

/-- `vox_queue_create_with_config` (vox_queue.c:89-202). -/
def create (E : Type) (type : QueueType) (initialCapacity : ℕ) : Option (VoxQueue E) :=
  match type with
  | .normal =>
    some (.normal ⟨fun _ => none, if 0 < initialCapacity then initialCapacity else 16, 0, 0, 0⟩)
  | .spsc =>
    if initialCapacity = 0 then none else some (.spsc (Spsc.create E initialCapacity))
  | .mpsc =>
    if initialCapacity = 0 then none else some (.mpsc (Mpsc.create E initialCapacity))

/- What the two memcpy of expand_queue put into the new array; the rest of it is
   never read before it is written. -/
def copied (q : NormalQueue E) : ℕ → Option E :=
  if q.head < q.tail then fun i => if i < q.size then q.elements (q.head + i) else none
  else if 0 < q.size then fun i =>
    let firstPart := q.capacity - q.head
    if i < firstPart then q.elements (q.head + i)
    else if i < firstPart + q.tail then q.elements (i - firstPart)
    else none
  else fun _ => none

/-- `expand_queue` (vox_queue.c:46-79). From 2^61 new slots on the number of
bytes wraps, and the block is too small for the copy. -/
def expandQueue (q : NormalQueue E) : Option (ℤ × NormalQueue E) :=
  let newCapacity := q.capacity * 2 % 2 ^ 64
  if newCapacity < q.capacity then some (-1, q)
  else if 2 ^ 64 ≤ newCapacity * 8 then none
  else some (0, ⟨copied q, newCapacity, q.size, 0, q.size⟩)

/-- `vox_queue_enqueue` for the NORMAL type (vox_queue.c:269-284). -/
def normalEnqueue (q : NormalQueue E) (elem : E) : Option (ℤ × NormalQueue E) :=
  (if q.capacity ≤ q.size then expandQueue q else some (0, q)).map fun r =>
    if r.1 ≠ 0 then (-1, r.2)
    else
      (0, { r.2 with
        elements := Function.update r.2.elements r.2.tail (some elem)
        tail := (r.2.tail + 1) % r.2.capacity
        size := r.2.size + 1 })

/-- `vox_queue_dequeue` for the NORMAL type (vox_queue.c:346-357). -/
def normalDequeue (q : NormalQueue E) : Option E × NormalQueue E :=
  if q.size = 0 then (none, q)
  else
    (q.elements q.head, { q with head := (q.head + 1) % q.capacity, size := q.size - 1 })

/-- `vox_queue_enqueue` for the SPSC type (vox_queue.c:208-225). -/
def spscEnqueue (q : SpscQueue E) (elem : E) : ℤ × SpscQueue E :=
  let nextTail := (q.atomicTail + 1) &&& q.mask
  if nextTail = q.atomicHead then (-1, q)
  else
    (0, { q with
      elements := Function.update q.elements q.atomicTail (some elem)
      atomicTail := nextTail })

/-- `vox_queue_dequeue` for the SPSC type (vox_queue.c:290-307). -/
def spscDequeue (q : SpscQueue E) : Option E × SpscQueue E :=
  if q.atomicHead = q.atomicTail then (none, q)
  else (q.elements q.atomicHead, { q with atomicHead := (q.atomicHead + 1) &&& q.mask })

/-- `vox_queue_enqueue` for the MPSC type (vox_queue.c:226-267): the exchange
succeeds, and where the loop goes round nothing has changed. -/
def mpscEnqueue (q : MpscQueue E) (elem : E) : Option (ℤ × MpscQueue E) :=
  let pos := q.atomicTail
  let diff : ℤ := (q.slot pos).sequence - pos
  if diff = 0 then
    some (0, ({ q with atomicTail := pos + 1 }).setSlot pos ⟨some elem, pos + 1⟩)
  else if diff < 0 then some (-1, q)
  else none

/-- `vox_queue_dequeue` for the MPSC type (vox_queue.c:308-344). -/
def mpscDequeue (q : MpscQueue E) : Option (Option E × MpscQueue E) :=
  let pos := q.atomicHead
  if pos = q.atomicTail then some (none, q)
  else
    let diff : ℤ := (q.slot pos).sequence - (pos + 1)
    if diff < 0 then none
    else
      some ((q.slot pos).data, ({ q with atomicHead := pos + 1 }).setSlot pos
        { q.slot pos with sequence := pos + q.capacity })

/-- `vox_queue_peek` for the MPSC type (vox_queue.c:374-391). -/
def mpscPeek (q : MpscQueue E) : Option E :=
  let pos := q.atomicHead
  if pos = q.atomicTail then none
  else
    let diff : ℤ := (q.slot pos).sequence - (pos + 1)
    if diff < 0 then none else (q.slot pos).data

/-- `vox_queue_enqueue` (vox_queue.c:205-284). -/
def enqueue (queue : VoxQueue E) (elem : E) : Option (ℤ × VoxQueue E) :=
  match queue with
  | .normal q => (normalEnqueue q elem).map fun r => (r.1, .normal r.2)
  | .spsc q => some ((spscEnqueue q elem).1, .spsc (spscEnqueue q elem).2)
  | .mpsc q => (mpscEnqueue q elem).map fun r => (r.1, .mpsc r.2)

/-- `vox_queue_dequeue` (vox_queue.c:287-358). -/
def dequeue (queue : VoxQueue E) : Option (Option E × VoxQueue E) :=
  match queue with
  | .normal q => some ((normalDequeue q).1, .normal (normalDequeue q).2)
  | .spsc q => some ((spscDequeue q).1, .spsc (spscDequeue q).2)
  | .mpsc q => (mpscDequeue q).map fun r => (r.1, .mpsc r.2)

/-- `vox_queue_peek` (vox_queue.c:361-399). -/
def peek (queue : VoxQueue E) : Option E :=
  match queue with
  | .normal q => if q.size = 0 then none else q.elements q.head
  | .spsc q => if q.atomicHead = q.atomicTail then none else q.elements q.atomicHead
  | .mpsc q => mpscPeek q

def atomicSize (head tail capacity : ℕ) : ℕ :=
  let size : ℤ := tail - head
  if size < 0 then 0 else if (capacity : ℤ) < size then capacity else size.toNat

/-- `vox_queue_size` (vox_queue.c:402-427). -/
def size (queue : VoxQueue E) : ℕ :=
  match queue with
  | .normal q => q.size
  | .spsc q => atomicSize q.atomicHead q.atomicTail q.capacity
  | .mpsc q => atomicSize q.atomicHead q.atomicTail q.capacity

/-- `vox_queue_empty` (vox_queue.c:435-454). -/
def empty (queue : VoxQueue E) : Bool :=
  match queue with
  | .normal q => q.size = 0
  | .spsc q => q.atomicHead = q.atomicTail
  | .mpsc q => q.atomicHead = q.atomicTail

/-- `vox_queue_full` (vox_queue.c:457-480). -/
def full (queue : VoxQueue E) : Bool :=
  match queue with
  | .normal q => q.capacity ≤ q.size
  | .spsc q => (q.atomicTail + 1) &&& q.mask = q.atomicHead
  | .mpsc q =>
    let size : ℤ := q.atomicTail - q.atomicHead
    if size < 0 then false else (q.capacity : ℤ) ≤ size

inductive Op (E : Type) where
  | enqueue (elem : E)
  | dequeue
  | peek
  | size
  | empty
  | full

inductive Res (E : Type) where
  | code (rc : ℤ)
  | elem (e : Option E)
  | count (n : ℕ)
  | flag (b : Bool)
  deriving DecidableEq

def call (queue : VoxQueue E) : Op E → Option (Res E × VoxQueue E)
  | .enqueue e => (enqueue queue e).map fun r => (.code r.1, r.2)
  | .dequeue => (dequeue queue).map fun r => (.elem r.1, r.2)
  | .peek => some (.elem (peek queue), queue)
  | .size => some (.count (size queue), queue)
  | .empty => some (.flag (empty queue), queue)
  | .full => some (.flag (full queue), queue)

end Voxlib.Queue
