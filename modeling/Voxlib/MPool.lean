import Voxlib.Lib.Run
import Voxlib.Lib.Spans
import Voxlib.Lib.Words

/-!
# Memory pool (vox_mpool.c)

Memory is a word of 64 bits at each address; what the pool reads and writes in
it are words: the nodes of chunks, the headers of large blocks, and in front of
each block one word, which is the link of the free list or has the slot index
in its lowest byte. Sizes are computed modulo 2^64. The sizes of a slot are
constants of its index; a pool has one lock around each function, so that a
function is one step.
-/

namespace Voxlib.MPool
open Run Spans Words

def sizeMod : ℕ := 2 ^ 64

/- sizeof vox_chunk_t (next, prev, memory), vox_large_block_header_t (size, chunk) and
   vox_block_meta_t. -/
def chunkSize : ℕ := 24
def largeHeaderSize : ℕ := 16
def metaSize : ℕ := 8

/-- BLOCK_SIZES (vox_mpool.c:17-19). -/
def userSize : Fin 10 → ℕ := ![16, 32, 64, 128, 256, 512, 1024, 2048, 4096, 8192]

def blockSize (i : Fin 10) : ℕ := userSize i + metaSize

/-- vox_mpool_get_slot_index (vox_mpool.c:77-90); none is -1. -/
def getSlotIndex (size : ℕ) : Option (Fin 10) :=
  if size ≤ 16 then some 0
  else if size ≤ 32 then some 1
  else if size ≤ 64 then some 2
  else if size ≤ 128 then some 3
  else if size ≤ 256 then some 4
  else if size ≤ 512 then some 5
  else if size ≤ 1024 then some 6
  else if size ≤ 2048 then some 7
  else if size ≤ 4096 then some 8
  else if size ≤ 8192 then some 9
  else none

def capacity (size : ℕ) : ℕ :=
  match getSlotIndex size with
  | some i => userSize i
  | none => size

/- vox_pool_slot_t. -/
structure Slot where
  freeList : ℕ := 0
  chunks : ℕ := 0
  totalBlocks : ℕ := 0
  freeBlocks : ℕ := 0

/- struct vox_mpool, the memory, and what malloc has given and free has not taken back. -/
structure Pool where
  slots : Fin 10 → Slot := fun _ => {}
  totalUsed : ℕ := 0
  largeChunks : ℕ := 0
  initialBlockCount : ℕ
  mem : Mem
  regions : List Span := []

/- An answer of malloc to the request of `n` bytes: aligned, within the address space, and apart
   from all that is given. -/
def Fresh (regions : List Span) (n a : ℕ) : Prop :=
  a ≠ 0 ∧ a % 16 = 0 ∧ a + n ≤ sizeMod ∧ ∀ r ∈ regions, Apart r (a, n)

instance (regions : List Span) (n a : ℕ) : Decidable (Fresh regions n a) :=
  inferInstanceAs (Decidable (_ ∧ _ ∧ _ ∧ ∀ r ∈ regions, Apart r (a, n)))

def malloc (regions : List Span) (n : ℕ) (ans : Option ℕ) : Option ℕ :=
  ans.filter fun a => Fresh regions n a

def mfree (regions : List Span) (a : ℕ) : List Span := regions.eraseP fun r => r.1 = a

/-- The loop that links the blocks of a chunk (vox_mpool.c:137-146), with `n` blocks to go; the
last block and the memory. -/
def linkBlocks (size : ℕ) : (n ptr last : ℕ) → Mem → ℕ × Mem
  | 0, _, last, m => (last, m)
  | n + 1, ptr, last, m =>
    linkBlocks size n (ptr + size) ptr (if last = 0 then m else wr m last ptr)

/-- The bytes that expand_slot asks for (vox_mpool.c:119-123). -/
def expandBytes (i : Fin 10) (blockCount : ℕ) : ℕ :=
  (blockSize i * blockCount % sizeMod + chunkSize) % sizeMod

/-- vox_mpool_expand_slot (vox_mpool.c:118-158); none is -1. -/
def expandSlot (p : Pool) (i : Fin 10) (blockCount : ℕ) (ans : Option ℕ) : Option Pool :=
  match malloc p.regions (expandBytes i blockCount) ans with
  | none => none
  | some chunk =>
    let first := chunk + chunkSize
    let slot := p.slots i
    let m := wr (wr p.mem (chunk + 16) first) chunk slot.chunks
    let r := linkBlocks (blockSize i) blockCount first 0 m
    let last := r.1
    let m := r.2
    some { p with
      slots := Function.update p.slots i
        { freeList := if last ≠ 0 then first else slot.freeList
          chunks := chunk
          totalBlocks := slot.totalBlocks + blockCount
          freeBlocks := slot.freeBlocks + blockCount }
      mem := if last ≠ 0 then wr m last slot.freeList else m
      regions := p.regions ++ [(chunk, expandBytes i blockCount)] }

def setIndex (m : Mem) (block idx : ℕ) : Mem := wr m block (m block / 256 * 256 + idx)

def slotIndexOf (m : Mem) (block : ℕ) : ℕ := m block % 256

/- 255 marks a large block. -/
def largeIndex : ℕ := 255

/-- A block from the free list (vox_mpool.c:265-279). -/
def takeBlock (p : Pool) (i : Fin 10) : ℕ × Pool :=
  let slot := p.slots i
  let block := slot.freeList
  (block + metaSize,
    { p with
      slots := Function.update p.slots i
        { slot with freeList := p.mem block, freeBlocks := slot.freeBlocks - 1 }
      mem := setIndex p.mem block i
      totalUsed := p.totalUsed + userSize i })

/-- A large block in the memory that malloc gave (vox_mpool.c:228-253). -/
def putLarge (p : Pool) (chunk size : ℕ) : ℕ × Pool :=
  let header := chunk + chunkSize
  let m := wr (wr p.mem header size) (header + 8) chunk
  let block := header + largeHeaderSize
  let m := setIndex m block largeIndex
  let m := wr (wr (wr m (chunk + 16) header) chunk p.largeChunks) (chunk + 8) 0
  let m := if p.largeChunks ≠ 0 then wr m (p.largeChunks + 8) chunk else m
  (block + metaSize,
    { p with
      largeChunks := chunk
      mem := m
      totalUsed := p.totalUsed + size
      regions := p.regions ++ [(chunk, chunkSize + largeHeaderSize + metaSize + size)] })

/-- vox_mpool_alloc_internal (vox_mpool.c:208-279); 0 is NULL. -/
def allocInternal (p : Pool) (size : ℕ) (ans : Option ℕ) : ℕ × Pool :=
  if size = 0 then (0, p)
  else
    match getSlotIndex size with
    | none =>
      let headerSize := chunkSize + largeHeaderSize + metaSize
      if size > sizeMod - 1 - headerSize then (0, p)
      else
        match malloc p.regions (headerSize + size) ans with
        | none => (0, p)
        | some chunk => putLarge p chunk size
    | some i =>
      if (p.slots i).freeList = 0 then
        match expandSlot p i p.initialBlockCount ans with
        | none => (0, p)
        | some p => takeBlock p i
      else takeBlock p i

/-- A large block is taken out of the list and given back (vox_mpool.c:299-318). -/
def freeLarge (p : Pool) (block : ℕ) : Pool :=
  let header := block - largeHeaderSize
  let size := p.mem header
  let chunk := p.mem (header + 8)
  let prev := p.mem (chunk + 8)
  let m := if prev ≠ 0 then wr p.mem prev (p.mem chunk) else p.mem
  let head := if prev ≠ 0 then p.largeChunks else p.mem chunk
  let next := m chunk
  { p with
    largeChunks := head
    mem := if next ≠ 0 then wr m (next + 8) (m (chunk + 8)) else m
    totalUsed := p.totalUsed - size
    regions := mfree p.regions (header - chunkSize) }

/-- A block is put back in front of the free list (vox_mpool.c:326-337). -/
def putBlock (p : Pool) (i : Fin 10) (block : ℕ) : Pool :=
  let slot := p.slots i
  { p with
    slots := Function.update p.slots i
      { slot with freeList := block, freeBlocks := slot.freeBlocks + 1 }
    mem := wr p.mem block slot.freeList
    totalUsed := p.totalUsed - userSize i }

/-- vox_mpool_free_internal (vox_mpool.c:292-338); an index that is none is ignored. -/
def freeInternal (p : Pool) (ptr : ℕ) : Pool :=
  if ptr = 0 then p
  else
    let block := ptr - metaSize
    let idx := slotIndexOf p.mem block
    if idx = largeIndex then freeLarge p block
    else if h : idx < 10 then putBlock p ⟨idx, h⟩ block
    else p

def memcpy (m : Mem) (dst src n : ℕ) : Mem := fun x =>
  if dst ≤ x ∧ x < dst + n then m (src + (x - dst)) else m x

/-- vox_mpool_realloc (vox_mpool.c:381-441). -/
def realloc (p : Pool) (ptr newSize : ℕ) (ans : Option ℕ) : ℕ × Pool :=
  if ptr = 0 then allocInternal p newSize ans
  else if newSize = 0 then (0, freeInternal p ptr)
  else
    let block := ptr - metaSize
    let idx := slotIndexOf p.mem block
    if idx ≠ largeIndex ∧ ¬ idx < 10 then (0, p)
    else
      let oldSize :=
        if h : idx < 10 then userSize ⟨idx, h⟩ else p.mem (block - largeHeaderSize)
      if (getSlotIndex newSize).map Fin.val = some idx then (ptr, p)
      else
        let r := allocInternal p newSize ans
        if r.1 = 0 then (0, p)
        else
          let copySize := if oldSize = 0 ∨ newSize < oldSize then newSize else oldSize
          (r.1, freeInternal { r.2 with mem := memcpy r.2.mem r.1 ptr copySize } ptr)

/-- The blocks of a chunk in front of the free list (vox_mpool.c:476-481). -/
def pushBlocks (size : ℕ) : (n ptr head : ℕ) → Mem → ℕ × Mem
  | 0, _, head, m => (head, m)
  | n + 1, ptr, head, m => pushBlocks size n (ptr + size) ptr (wr m ptr head)

/-- The loop over the chunks of a slot (vox_mpool.c:470-484). -/
def pushChunks (size count : ℕ) : (fuel chunk head : ℕ) → Mem → ℕ × Mem
  | 0, _, head, m => (head, m)
  | fuel + 1, chunk, head, m =>
    if chunk = 0 then (head, m)
    else
      let r := pushBlocks size count (m (chunk + 16)) head m
      pushChunks size count fuel (r.2 chunk) r.1 r.2

/-- The body of the loop over the slots (vox_mpool.c:458-488). A slot has no more chunks than
malloc has given. -/
def resetSlot (p : Pool) (i : Fin 10) : Pool :=
  let slot := p.slots i
  let r := pushChunks (blockSize i) p.initialBlockCount p.regions.length slot.chunks 0 p.mem
  { p with
    slots := Function.update p.slots i
      { slot with freeList := r.1, freeBlocks := slot.totalBlocks }
    mem := r.2 }

/-- The loop that gives the large blocks back (vox_mpool.c:450-455). -/
def freeLarges (m : Mem) : (fuel chunk : ℕ) → List Span → List Span
  | 0, _, regions => regions
  | fuel + 1, chunk, regions =>
    if chunk = 0 then regions else freeLarges m fuel (m chunk) (mfree regions chunk)

/-- vox_mpool_reset (vox_mpool.c:444-495). -/
def reset (p : Pool) : Pool :=
  let p := { p with
    regions := freeLarges p.mem p.regions.length p.largeChunks p.regions, largeChunks := 0 }
  { (List.finRange 10).foldl resetSlot p with totalUsed := 0 }

/- The pool and its live blocks: the pointers that were returned and not freed, with the size
   that was asked for last. -/
structure State where
  pool : Pool
  live : List (ℕ × ℕ) := []

/-- vox_mpool_create_with_config: an initial_block_count of 0 is taken as 64; the memory holds
anything. -/
def State.init (initialBlockCount : ℕ) (mem : Mem) : State where
  pool := {
    initialBlockCount := if initialBlockCount > 0 then initialBlockCount else 64
    mem := mem }

/- The calls, with what malloc would like to answer, and a word that is written to a live block. -/
inductive Cmd where
  | alloc (size : ℕ) (ans : Option ℕ)
  | free (ptr : ℕ)
  | realloc (ptr newSize : ℕ) (ans : Option ℕ)
  | reset
  | store (ptr off value : ℕ)
  deriving DecidableEq

def State.isLive (s : State) (ptr : ℕ) : Prop := ptr ∈ s.live.map Prod.fst

instance (s : State) (ptr : ℕ) : Decidable (s.isLive ptr) :=
  inferInstanceAs (Decidable (ptr ∈ s.live.map Prod.fst))

def without (live : List (ℕ × ℕ)) (ptr : ℕ) : List (ℕ × ℕ) := live.eraseP fun x => x.1 = ptr

def State.asked (s : State) (ptr : ℕ) : ℕ :=
  ((s.live.find? fun x => x.1 = ptr).map Prod.snd).getD 0

def returned (ptr size : ℕ) (live : List (ℕ × ℕ)) : List (ℕ × ℕ) :=
  if ptr = 0 then live else (ptr, size) :: live

/- Sizes are of type size_t; pointers are live or NULL. -/
def State.step (s : State) : Cmd → Option State
  | .alloc size ans =>
    if size < sizeMod then
      let r := allocInternal s.pool size ans
      some ⟨r.2, returned r.1 size s.live⟩
    else none
  | .free ptr =>
    if ptr = 0 ∨ s.isLive ptr then some ⟨freeInternal s.pool ptr, without s.live ptr⟩ else none
  | .realloc ptr newSize ans =>
    if newSize < sizeMod ∧ (ptr = 0 ∨ s.isLive ptr) then
      let r := MPool.realloc s.pool ptr newSize ans
      some ⟨r.2,
        if newSize = 0 then without s.live ptr
        else if r.1 = 0 then s.live
        else (r.1, newSize) :: without s.live ptr⟩
    else none
  | .reset => some ⟨MPool.reset s.pool, []⟩
  | .store ptr off value =>
    if s.isLive ptr ∧ off < capacity (s.asked ptr) then
      some { s with pool := { s.pool with mem := wr s.pool.mem (ptr + off) value } }
    else none

end Voxlib.MPool
