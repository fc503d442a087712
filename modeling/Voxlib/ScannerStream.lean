import Voxlib.VoxString.Calls

/-!
# The streaming scanner (vox_scanner.c)

The view of the scanner is the only piece, where the caller has it, or a merged copy of them all.
-/

namespace Voxlib.ScannerStream
open CStr Buffer List Run
open VoxString (Mpool zeroedPool)

/- NULL, into an object of the caller, or into temp_buffer. -/
inductive Ptr where
  | null
  | caller (obj off : ℕ)
  | temp (off : ℕ)
  deriving DecidableEq

/- `p && p >= begin && p <= end`. A pointer into another object lies outside, or is `begin`. -/
def Ptr.inside : Ptr → Ptr → Ptr → Bool
  | .caller obj off, .caller obj' b, .caller _ e => obj = obj' ∧ b ≤ off ∧ off ≤ e
  | _, _, _ => false

/- `p && begin ? p - begin : 0`; `none` for different objects. -/
def Ptr.since : Ptr → Ptr → Option ℕ
  | .null, _ | _, .null => some 0
  | .caller obj off, .caller obj' b => if obj = obj' ∧ b ≤ off then some (off - b) else none
  | .temp off, .temp b => if b ≤ off then some (off - b) else none
  | _, _ => none

def Ptr.add (n : ℕ) : Ptr → Ptr
  | .null => .null
  | .caller obj off => .caller obj (off + n)
  | .temp off => .temp (off + n)

-- vox_scanner_chunk_t
structure Chunk where
  obj : ℕ
  off : ℕ
  len : ℕ
  deriving DecidableEq

/- vox_scanner_stream_t; `temp` is temp_buffer with its capacity, [] where it is NULL. -/
structure Stream where
  chunks : List Chunk := []
  totalSize : ℕ := 0
  temp : Bytes := []
  tempSize : ℕ := 0
  start : Ptr := .null
  stop : Ptr := .null
  curptr : Ptr := .null
  deriving DecidableEq

def Stream.scanned (s : Stream) : Option ℕ := s.curptr.since s.start

/- The loop of 1.5 times the capacity (vox_scanner.c:691-697). -/
def growCapacity (total : ℕ) : ℕ → ℕ → Option ℕ
  | 0, _ => none
  | fuel + 1, capacity =>
    if capacity < total then
      let grown := addWord 64 capacity (capacity / 2)
      if grown < capacity then none else growCapacity total fuel grown
    else some capacity

/- temp_buffer with room for everything (vox_scanner.c:685-724), `some none` without memory. -/
def enlarge (pool : Mpool) (s : Stream) : Option (Option Bytes) :=
  if s.totalSize ≤ s.temp.length then some (some s.temp)
  else
    match (growCapacity s.totalSize (s.totalSize + 1)
      (if s.temp.length = 0 then 4096 else s.temp.length)).bind pool.alloc with
    | none => some none
    | some fresh =>
      if s.temp = [] then some (some fresh)
      else do
        let offset ← s.scanned
        if offset < s.tempSize then
          let old ← fetch s.temp 0 offset
          let copied ← blit fresh 0 old
          return some copied
        else return some fresh

/- The memcpy of the pieces; `mem` is what the objects of the caller hold. -/
def merge (mem : ℕ → Bytes) : List Chunk → ℕ → Bytes → Option Bytes
  | [], _, dst => some dst
  | c :: cs, i, dst => do
    let piece ← fetch (mem c.obj) c.off c.len
    let dst ← blit dst i piece
    merge mem cs (i + c.len) dst

-- vox_scanner_stream_update_view (vox_scanner.c:654-747)
def updateView (mem : ℕ → Bytes) (pool : Mpool) (s : Stream) : Option (ℤ × Stream) :=
  match s.chunks with
  | [] => some (0, { s with start := .null, stop := .null, curptr := .null })
  | [c] =>
    let start := .caller c.obj c.off
    let stop := .caller c.obj (c.off + c.len)
    let curptr := if s.curptr.inside start stop then s.curptr else start
    some (0, { s with start := start, stop := stop, curptr := curptr })
  | _ => do
    match ← enlarge pool s with
    | none => return (-1, s)
    | some temp =>
      let offset ← s.scanned
      let merged ← merge mem s.chunks 0 temp
      return (0, { s with temp := merged, tempSize := s.totalSize, start := .temp 0,
                          stop := .temp s.totalSize, curptr := .temp offset })

-- vox_scanner_stream_feed (vox_scanner.c:537-566); the chunk takes 24 bytes
def feed (mem : ℕ → Bytes) (pool : Mpool) (s : Stream) (c : Chunk) : Option (ℤ × Stream) :=
  if c.len = 0 ∨ pool.alloc 24 = none then some (-1, s)
  else updateView mem pool
    { s with chunks := s.chunks ++ [c], totalSize := s.totalSize + c.len }

/- The loop of vox_scanner_stream_consume: what is left, and total_size. -/
def removeConsumed : ℕ → ℕ → List Chunk → List Chunk × ℕ
  | _, total, [] => ([], total)
  | remaining, total, c :: cs =>
    if remaining = 0 then (c :: cs, total)
    else if c.len ≤ remaining then removeConsumed (remaining - c.len) (total - c.len) cs
    else (⟨c.obj, c.off + remaining, c.len - remaining⟩ :: cs, total - remaining)

-- vox_scanner_stream_consume (vox_scanner.c:568-612)
def consume (mem : ℕ → Bytes) (pool : Mpool) (s : Stream) (bytes : ℕ) : Option (ℤ × Stream) := do
  let scanned ← s.scanned
  if scanned < bytes then return (-1, s)
  let left := removeConsumed bytes s.totalSize s.chunks
  updateView mem pool { s with chunks := left.1, totalSize := left.2 }

def Stream.range (mem : ℕ → Bytes) (s : Stream) : Option Bytes :=
  match s.start, s.stop with
  | .null, .null => some []
  | .caller obj b, .caller _ e => fetch (mem obj) b (e - b)
  | .temp b, .temp e => fetch s.temp b (e - b)
  | _, _ => none

/-- The stream, all the bytes fed to it, how many of them are consumed, and the logical position
of the cursor. -/
structure World where
  stream : Stream := {}
  fed : Bytes := []
  consumed : ℕ := 0
  position : ℕ := 0

inductive Call where
  | feed (piece : Chunk)
  | advance (n : ℕ)
  | consume (bytes : ℕ)

def Chunk.bytes (mem : ℕ → Bytes) (c : Chunk) : Bytes := ((mem c.obj).drop c.off).take c.len

def step (mem : ℕ → Bytes) (w : World) : Mpool × Call → Option World
  | (pool, .feed c) => (feed mem pool w.stream c).bind fun r =>
    if r.1 = 0 then some { w with stream := r.2, fed := w.fed ++ c.bytes mem } else none
  | (_, .advance n) => some { w with
      stream := { w.stream with curptr := w.stream.curptr.add n }, position := w.position + n }
  | (pool, .consume n) => (consume mem pool w.stream n).bind fun r =>
    if r.1 = 0 then some { w with stream := r.2, consumed := w.consumed + n } else none

/-- The range holds what is fed and not consumed, and the cursor is at its logical position. -/
def Right (mem : ℕ → Bytes) (w : World) : Prop :=
  w.stream.range mem = some (w.fed.drop w.consumed) ∧
    ∃ k, w.stream.scanned = some k ∧ w.consumed + k = w.position

/-- What the calls ask of the caller, and the pool of them: pieces are not empty, the cursor stays
in the range, no more is consumed than scanned, and there is memory for what is kept. -/
def Allowed (mem : ℕ → Bytes) (w : World) : Mpool × Call → Prop
  | (pool, .feed c) => 0 < c.len ∧ c.off + c.len ≤ (mem c.obj).length ∧
      w.stream.totalSize + c.len < 2 ^ 63 ∧ ∀ n < 2 ^ 64, pool.alloc n ≠ none
  | (_, .advance n) => w.position + n ≤ w.fed.length
  | (pool, .consume n) => w.consumed + n ≤ w.position ∧ ∀ n < 2 ^ 64, pool.alloc n ≠ none

/-- Nothing is consumed of a merged view, or all that is scanned, and at most one piece is left. -/
def Unmoved (w : World) : Mpool × Call → Prop
  | (_, .consume n) => w.stream.chunks.length ≤ 1 ∨ n = 0 ∨
      w.consumed + n = w.position ∧
        (removeConsumed n w.stream.totalSize w.stream.chunks).1.length ≤ 1
  | _ => True

/-- What is kept of the stream's contents `data`, apart from the view. -/
structure Kept (mem : ℕ → Bytes) (s : Stream) (data : Bytes) : Prop where
  pieces : ∀ c ∈ s.chunks, 0 < c.len ∧ c.off + c.len ≤ (mem c.obj).length
  whole : s.chunks.flatMap (Chunk.bytes mem) = data
  total : s.totalSize = data.length
  small : s.totalSize < 2 ^ 63
  room : s.temp = [] ∨ 2 ≤ s.temp.length
  used : s.tempSize ≤ s.temp.length

def Views (mem : ℕ → Bytes) (s : Stream) (k : ℕ) : Prop :=
  match s.chunks with
  | [] => s.start = .null ∧ s.stop = .null ∧ s.curptr = .null
  | [c] => s.start = .caller c.obj c.off ∧ s.stop = .caller c.obj (c.off + c.len) ∧
      s.curptr = .caller c.obj (c.off + k)
  | cs => s.start = .temp 0 ∧ s.stop = .temp s.totalSize ∧ s.curptr = .temp k ∧
      fetch s.temp 0 s.totalSize = some (cs.flatMap (Chunk.bytes mem))

structure Holds (mem : ℕ → Bytes) (s : Stream) (data : Bytes) (k : ℕ) : Prop
    extends Kept mem s data where
  within : k ≤ data.length
  view : Views mem s k

variable {mem : ℕ → Bytes} {s : Stream} {data : Bytes} {k : ℕ} {c : Chunk} {pool : Mpool}

theorem Chunk.bytes_length (h : c.off + c.len ≤ (mem c.obj).length) :
    (c.bytes mem).length = c.len := by
  rw [Chunk.bytes, length_take, length_drop]
  omega

theorem Holds.scanned (h : Holds mem s data k) : s.scanned = some k := by
  have hview := h.view
  have hwithin := h.within
  have hwhole := h.whole
  unfold Views at hview
  split at hview
  · next hnone =>
    rw [hnone, flatMap_nil] at hwhole
    rw [← hwhole] at hwithin
    rw [Stream.scanned, hview.2.2, Nat.le_zero.mp hwithin]
    rfl
  · rw [Stream.scanned, hview.1, hview.2.2]
    simp [Ptr.since]
  · rw [Stream.scanned, hview.1, hview.2.2.1]
    simp [Ptr.since]

theorem Holds.range (h : Holds mem s data k) : s.range mem = some data := by
  have hview := h.view
  have hwhole := h.whole
  unfold Views at hview
  split at hview
  · next hnone =>
    rw [hnone] at hwhole
    rw [Stream.range, hview.1, hview.2.1, ← hwhole]
    rfl
  · next c hone =>
    have hin := h.pieces c (by simp [hone])
    rw [hone, flatMap_singleton] at hwhole
    rw [Stream.range, hview.1, hview.2.1, ← hwhole]
    simp [fetch, hin.2, Chunk.bytes]
  · rw [Stream.range, hview.1, hview.2.1, ← hwhole]
    exact hview.2.2.2

theorem growCapacity_spec {total : ℕ} (htotal : total < 2 ^ 63) (fuel capacity : ℕ)
    (hpos : 2 ≤ capacity) (hcap : capacity < 2 ^ 64) (hfuel : total ≤ capacity + fuel) :
    ∃ n, growCapacity total (fuel + 1) capacity = some n ∧ total ≤ n ∧ 2 ≤ n ∧ n < 2 ^ 64 := by
  induction fuel generalizing capacity with
  | zero => exact ⟨capacity, if_neg (by omega), hfuel, hpos, hcap⟩
  | succ fuel ih =>
    rw [growCapacity]
    by_cases hless : capacity < total
    · have hgrown : addWord 64 capacity (capacity / 2) = capacity + capacity / 2 :=
        addWord_eq (by omega)
      rw [if_pos hless, hgrown, if_neg (by omega)]
      exact ih _ (by omega) (by omega) (by omega)
    · rw [if_neg hless]
      exact ⟨capacity, rfl, by omega, hpos, hcap⟩

theorem enlarge_spec (h : Kept mem s data) (hk : s.scanned = some k) (htwo : 2 ≤ s.totalSize)
    (hpool : ∀ n < 2 ^ 64, pool.alloc n ≠ none) :
    ∃ b, enlarge pool s = some (some b) ∧ s.totalSize ≤ b.length := by
  have hsmall := h.small
  rw [enlarge]
  by_cases hroom : s.totalSize ≤ s.temp.length
  · exact ⟨_, if_pos hroom, hroom⟩
  obtain ⟨n, hn, hle, hpos, hword⟩ := growCapacity_spec hsmall s.totalSize
    (if s.temp.length = 0 then 4096 else s.temp.length)
    (by rcases h.room with hnil | htemp
        · rw [hnil, length_nil, if_pos rfl]; omega
        · rw [if_neg (by omega)]; exact htemp)
    (by split <;> omega) (by omega)
  obtain ⟨fresh, hfresh⟩ := Option.ne_none_iff_exists'.mp (hpool n hword)
  have hlen := pool.sized _ _ hfresh
  rw [if_neg hroom, hn, Option.bind_some, hfresh]
  dsimp only
  by_cases hnil : s.temp = []
  · exact ⟨fresh, by rw [if_pos hnil], by omega⟩
  rw [if_neg hnil, hk]
  by_cases hused : k < s.tempSize
  · -- what is copied lies in both buffers
    have hin := h.used
    have hold : fetch s.temp 0 k = some (s.temp.take k) := by
      rw [fetch, if_pos (by omega), drop_zero]
    have hcopy : (s.temp.take k).length ≤ fresh.length := by
      rw [length_take]
      omega
    refine ⟨s.temp.take k ++ fresh.drop (s.temp.take k).length, ?_, ?_⟩
    · have hblit := blit_append (l := []) hcopy
      simp only [nil_append, length_nil] at hblit
      simp [hused, hold, hblit]
    · rw [length_append, length_drop]
      omega
  · exact ⟨fresh, by simp [hused], by omega⟩

theorem merge_spec {cs : List Chunk} {p r : Bytes}
    (h : ∀ c ∈ cs, 0 < c.len ∧ c.off + c.len ≤ (mem c.obj).length)
    (hroom : (cs.flatMap (Chunk.bytes mem)).length ≤ r.length) :
    ∃ x, merge mem cs p.length (p ++ r) = some (p ++ (cs.flatMap (Chunk.bytes mem) ++ x)) ∧
      (cs.flatMap (Chunk.bytes mem) ++ x).length = r.length := by
  induction cs generalizing p r with
  | nil => exact ⟨r, rfl, rfl⟩
  | cons c cs ih =>
    have hc := (h c (mem_cons_self ..)).2
    have hlen := Chunk.bytes_length hc
    rw [flatMap_cons, length_append] at hroom
    have hread : fetch (mem c.obj) c.off c.len = some (c.bytes mem) := if_pos hc
    obtain ⟨x, hx, hsize⟩ := @ih (p ++ c.bytes mem) (r.drop (c.bytes mem).length)
      (fun d hd => h d (mem_cons_of_mem _ hd)) (by rw [length_drop]; omega)
    rw [length_append, hlen, append_assoc, append_assoc] at hx
    have hblit := blit_append (l := p) (x := c.bytes mem) (r := r) (by omega)
    rw [hlen] at hblit
    refine ⟨x, ?_, ?_⟩
    · simp only [merge, hread, Option.bind_eq_bind, Option.bind_some, hblit, hx]
      rw [flatMap_cons, append_assoc]
    · rw [flatMap_cons, append_assoc, length_append, hsize, length_drop]
      omega

theorem update_many (h : Kept mem s data) (hmany : 2 ≤ s.chunks.length)
    (hk : s.scanned = some k) (hle : k ≤ data.length) (hpool : ∀ n < 2 ^ 64, pool.alloc n ≠ none) :
    ∃ t, updateView mem pool s = some (0, t) ∧ Holds mem t data k := by
  obtain ⟨c, d, cs, hcs⟩ : ∃ c d cs, s.chunks = c :: d :: cs := by
    match s.chunks, hmany with
    | c :: d :: cs, _ => exact ⟨c, d, cs, rfl⟩
  have htotal := h.total
  have hwhole := h.whole
  have htwo : 2 ≤ s.totalSize := by
    have hc := h.pieces c (by simp [hcs])
    have hd := h.pieces d (by simp [hcs])
    rw [htotal, ← hwhole, hcs, flatMap_cons, flatMap_cons, length_append, length_append,
      Chunk.bytes_length hc.2, Chunk.bytes_length hd.2]
    omega
  obtain ⟨b, hb, hroom⟩ := enlarge_spec h hk htwo hpool
  obtain ⟨x, hx, hlen⟩ := merge_spec (p := []) (r := b) h.pieces (by rw [hwhole]; omega)
  rw [length_nil, nil_append, nil_append, hwhole] at hx
  rw [hwhole] at hlen
  refine ⟨{ s with temp := data ++ x, tempSize := s.totalSize, start := .temp 0,
                   stop := .temp s.totalSize, curptr := .temp k }, ?_, ?_⟩
  · rw [hcs] at hx
    simp [updateView, hcs, hb, hk, hx]
  · refine ⟨⟨h.pieces, hwhole, htotal, h.small, .inr ?_, ?_⟩, hle, ?_⟩
    · rw [hlen]
      omega
    · rw [hlen]
      exact hroom
    · have hfetch := fetch_append [] data x
      rw [nil_append, length_nil, ← htotal] at hfetch
      rw [hcs] at hwhole
      simp only [Views, hcs, hwhole, hfetch, and_self]

theorem update_one (h : Kept mem s data) (hone : s.chunks = [c]) (hle : k ≤ data.length)
    (hk : (s.curptr.inside (.caller c.obj c.off) (.caller c.obj (c.off + c.len)) = false ∧ k = 0) ∨
      s.curptr = .caller c.obj (c.off + k)) :
    ∃ t, updateView mem pool s = some (0, t) ∧ Holds mem t data k := by
  have hlen : data.length = c.len := by
    rw [← h.whole, hone, flatMap_singleton, Chunk.bytes_length (h.pieces c (by simp [hone])).2]
  have hcur : (if s.curptr.inside (.caller c.obj c.off) (.caller c.obj (c.off + c.len)) then
      s.curptr else .caller c.obj c.off) = .caller c.obj (c.off + k) := by
    rcases hk with ⟨hout, rfl⟩ | hin
    · rw [hout]
      rfl
    · rw [hin]
      exact if_pos (by simp [Ptr.inside]; omega)
  obtain ⟨cs, total, temp, size, start, stop, cur⟩ := s
  obtain rfl := hone
  exact ⟨_, rfl, ⟨h.pieces, h.whole, h.total, h.small, h.room, h.used⟩, hle, rfl, rfl, hcur⟩

theorem update_none (h : Kept mem s data) (hnone : s.chunks = []) :
    ∃ t, updateView mem pool s = some (0, t) ∧ Holds mem t data 0 := by
  obtain ⟨cs, total, temp, size, start, stop, cur⟩ := s
  obtain rfl := hnone
  exact ⟨_, rfl, ⟨h.pieces, h.whole, h.total, h.small, h.room, h.used⟩, Nat.zero_le _,
    rfl, rfl, rfl⟩

theorem removeConsumed_spec {cs : List Chunk} {n total : ℕ}
    (h : ∀ c ∈ cs, 0 < c.len ∧ c.off + c.len ≤ (mem c.obj).length)
    (htotal : total = (cs.flatMap (Chunk.bytes mem)).length) (hn : n ≤ total) :
    (∀ c ∈ (removeConsumed n total cs).1, 0 < c.len ∧ c.off + c.len ≤ (mem c.obj).length) ∧
      (removeConsumed n total cs).1.flatMap (Chunk.bytes mem) =
        (cs.flatMap (Chunk.bytes mem)).drop n ∧ (removeConsumed n total cs).2 = total - n := by
  induction cs generalizing n total with
  | nil =>
    rw [flatMap_nil, length_nil] at htotal
    rw [removeConsumed, flatMap_nil, drop_nil]
    exact ⟨nofun, rfl, by omega⟩
  | cons c cs ih =>
    have hc := h c (mem_cons_self ..)
    have hlen := Chunk.bytes_length hc.2
    rw [flatMap_cons, length_append] at htotal
    rw [removeConsumed]
    by_cases hzero : n = 0
    · rw [if_pos hzero, hzero]
      exact ⟨h, rfl, rfl⟩
    rw [if_neg hzero, flatMap_cons, drop_append]
    by_cases hwhole : c.len ≤ n
    · obtain ⟨hpieces, hrest, hleft⟩ := @ih (n - c.len) (total - c.len)
        (fun d hd => h d (mem_cons_of_mem _ hd)) (by omega) (by omega)
      rw [if_pos hwhole, drop_of_length_le (by omega), hlen, nil_append]
      exact ⟨hpieces, hrest, by omega⟩
    · rw [if_neg hwhole, hlen, show n - c.len = 0 by omega, drop_zero]
      refine ⟨forall_mem_cons.mpr ⟨⟨?_, ?_⟩, fun d hd => h d (mem_cons_of_mem _ hd)⟩, ?_, rfl⟩
      · show 0 < c.len - n
        omega
      · show c.off + n + (c.len - n) ≤ (mem c.obj).length
        omega
      · rw [flatMap_cons, Chunk.bytes, Chunk.bytes, drop_take, drop_drop]

theorem removeConsumed_zero (total : ℕ) (cs : List Chunk) :
    removeConsumed 0 total cs = (cs, total) := by
  cases cs <;> rfl

theorem feed_spec (h : Holds mem s data k) (hc : 0 < c.len ∧ c.off + c.len ≤ (mem c.obj).length)
    (hsmall : s.totalSize + c.len < 2 ^ 63) (hpool : ∀ n < 2 ^ 64, pool.alloc n ≠ none) :
    ∃ t, feed mem pool s c = some (0, t) ∧ Holds mem t (data ++ c.bytes mem) k := by
  have hlen := Chunk.bytes_length hc.2
  have hwithin := h.within
  have hscan := h.scanned
  have hfed : Kept mem { s with chunks := s.chunks ++ [c], totalSize := s.totalSize + c.len }
      (data ++ c.bytes mem) := by
    refine ⟨?_, ?_, ?_, hsmall, h.room, h.used⟩
    · intro d hd
      rcases mem_append.mp hd with hd | hd
      · exact h.pieces d hd
      · rw [mem_singleton.mp hd]
        exact hc
    · rw [flatMap_append, h.whole, flatMap_singleton]
    · rw [length_append, hlen, h.total]
  have hall : k ≤ (data ++ c.bytes mem).length := by
    rw [length_append]
    omega
  rw [feed, if_neg (not_or.mpr ⟨hc.1.ne', hpool 24 (by norm_num)⟩)]
  by_cases hnone : s.chunks = []
  · have hview := h.view
    have hwhole := h.whole
    simp only [Views, hnone] at hview
    rw [hnone, flatMap_nil] at hwhole
    have hzero : k = 0 := by
      rw [← hwhole] at hwithin
      exact Nat.le_zero.mp hwithin
    exact update_one (c := c) hfed (by simp [hnone]) hall (.inl ⟨by rw [hview.2.2]; rfl, hzero⟩)
  · have hpos := length_pos_of_ne_nil hnone
    exact update_many hfed (by rw [length_append, length_singleton]; omega) hscan hall hpool

theorem consume_spec {n : ℕ} (h : Holds mem s data k) (hn : n ≤ k)
    (hfine : s.chunks.length ≤ 1 ∨ n = 0 ∨
      n = k ∧ (removeConsumed n s.totalSize s.chunks).1.length ≤ 1)
    (hpool : ∀ n < 2 ^ 64, pool.alloc n ≠ none) :
    ∃ t, consume mem pool s n = some (0, t) ∧ Holds mem t (data.drop n) (k - n) := by
  have hwithin := h.within
  have htotal := h.total
  have hsmall := h.small
  obtain ⟨hpieces, hrest, hleft⟩ := removeConsumed_spec h.pieces (by rw [h.whole]; exact htotal)
    (show n ≤ s.totalSize by omega)
  rw [h.whole] at hrest
  simp only [consume, h.scanned, Option.bind_eq_bind, Option.bind_some]
  rw [if_neg (by omega)]
  have hkept : Kept mem { s with
      chunks := (removeConsumed n s.totalSize s.chunks).1,
      totalSize := (removeConsumed n s.totalSize s.chunks).2 } (data.drop n) := by
    refine ⟨hpieces, hrest, ?_, ?_, h.room, h.used⟩
    · rw [length_drop, ← htotal]
      exact hleft
    · show (removeConsumed n s.totalSize s.chunks).2 < 2 ^ 63
      rw [hleft]
      omega
  have hall : k - n ≤ (data.drop n).length := by
    rw [length_drop]
    omega
  generalize hl : removeConsumed n s.totalSize s.chunks = left at hkept hrest hfine ⊢
  obtain ⟨cs, total⟩ := left
  have hview := h.view
  match cs with
  | [] =>
    have hzero : k - n = 0 := by
      rw [← hrest] at hall
      exact Nat.le_zero.mp hall
    rw [hzero]
    exact update_none hkept rfl
  | [d] =>
    refine update_one (c := d) hkept rfl hall ?_
    match hs : s.chunks with
    | [] => simp [hs, removeConsumed] at hl
    | [c] =>
      -- the cursor stays in the piece
      simp only [Views, hs] at hview
      simp only [hs, removeConsumed] at hl
      refine .inr (hview.2.2.trans ?_)
      split at hl
      · next hzero =>
        obtain rfl := (cons.inj (Prod.mk.inj hl).1).1
        rw [hzero, Nat.sub_zero]
      · split at hl
        · cases hl
        · obtain rfl := (cons.inj (Prod.mk.inj hl).1).1
          show Ptr.caller _ _ = Ptr.caller _ (c.off + n + (k - n))
          rw [Nat.add_assoc, Nat.add_sub_of_le hn]
    | c :: c' :: cs =>
      -- the cursor was in the merged copy
      simp only [Views, hs] at hview
      refine .inl ⟨by rw [hview.2.2.1]; rfl, ?_⟩
      rcases hfine with hone | rfl | ⟨rfl, -⟩
      · simp [hs] at hone
      · rw [removeConsumed_zero, hs] at hl
        cases hl
      · exact Nat.sub_self _
  | d :: d' :: cs =>
    obtain rfl : n = 0 := by
      rcases hfine with hone | hzero | ⟨-, hless⟩
      · match hs : s.chunks, hone with
        | [], _ => simp [hs, removeConsumed] at hl
        | [c], _ =>
          simp only [hs, removeConsumed] at hl
          split at hl <;> [skip; split at hl] <;> cases hl
      · exact hzero
      · simp at hless
    exact update_many hkept (by simp) h.scanned hall hpool

theorem advance_spec {n : ℕ} (h : Holds mem s data k) (hn : k + n ≤ data.length) :
    Holds mem { s with curptr := s.curptr.add n } data (k + n) := by
  obtain ⟨cs, total, temp, size, start, stop, cur⟩ := s
  have hview := h.view
  refine ⟨⟨h.pieces, h.whole, h.total, h.small, h.room, h.used⟩, hn, ?_⟩
  match cs with
  | [] =>
    obtain ⟨hstart, hstop, hcur⟩ := hview
    exact ⟨hstart, hstop, congrArg (Ptr.add n) hcur⟩
  | [c] =>
    obtain ⟨hstart, hstop, hcur⟩ := hview
    refine ⟨hstart, hstop, (congrArg (Ptr.add n) hcur).trans ?_⟩
    rw [Ptr.add, Nat.add_assoc]
  | _ :: _ :: _ =>
    obtain ⟨hstart, hstop, hcur, hdata⟩ := hview
    exact ⟨hstart, hstop, congrArg (Ptr.add n) hcur, hdata⟩

structure Inv (mem : ℕ → Bytes) (w : World) : Prop where
  consumed : w.consumed ≤ w.position
  position : w.position ≤ w.fed.length
  holds : Holds mem w.stream (w.fed.drop w.consumed) (w.position - w.consumed)

theorem Inv.right {w : World} (h : Inv mem w) : Right mem w :=
  ⟨h.holds.range, _, h.holds.scanned, Nat.add_sub_of_le h.consumed⟩

theorem step_inv {w : World} {a : Mpool × Call} (h : Inv mem w) (hok : Allowed mem w a)
    (hfine : Unmoved w a) : ∃ v, step mem w a = some v ∧ Inv mem v := by
  obtain ⟨pool, call⟩ := a
  have hconsumed := h.consumed
  have hposition := h.position
  cases call with
  | feed c =>
    obtain ⟨hpos, hin, hsmall, hpool⟩ := hok
    obtain ⟨t, ht, hheld⟩ := feed_spec h.holds ⟨hpos, hin⟩ hsmall hpool
    rw [← drop_append_of_le_length (by omega)] at hheld
    refine ⟨{ w with stream := t, fed := w.fed ++ c.bytes mem }, by simp [step, ht], hconsumed,
      ?_, hheld⟩
    show w.position ≤ (w.fed ++ c.bytes mem).length
    rw [length_append]
    omega
  | advance n =>
    have hn : w.position + n ≤ w.fed.length := hok
    have hheld := advance_spec (n := n) h.holds (by rw [length_drop]; omega)
    rw [← Nat.sub_add_comm hconsumed] at hheld
    exact ⟨_, rfl, Nat.le_add_right_of_le hconsumed, hn, hheld⟩
  | consume n =>
    obtain ⟨hn, hpool⟩ := hok
    obtain ⟨t, ht, hheld⟩ := consume_spec (n := n) h.holds (by omega)
      (hfine.imp_right (Or.imp_right (And.imp_left (by omega)))) hpool
    rw [drop_drop, Nat.sub_sub] at hheld
    exact ⟨{ w with stream := t, consumed := w.consumed + n }, by simp [step, ht], hn, hposition,
      hheld⟩

/-- In every run in which nothing is consumed of a merged view but all that was scanned of it, with
at most one piece left, the range and the cursor are right after every call. -/
theorem stream_run_right (mem : ℕ → Bytes) (calls : List (Mpool × Call))
    (hmeets : Meets (step mem) (fun w a => Allowed mem w a ∧ Unmoved w a) {} calls) :
    Along (step mem) (Right mem) {} calls := by
  have hinit : Inv mem {} := ⟨Nat.le_refl _, Nat.le_refl _, ⟨nofun, rfl, rfl, by norm_num, .inl rfl,
    Nat.le_refl _⟩, Nat.le_refl _, rfl, rfl, rfl⟩
  have hrun : Along (step mem) (Inv mem) {} calls ∧ Guarded (step mem) (fun _ _ => True) {} calls :=
    guarded_of_meets (fun w a h hok => by
      obtain ⟨v, hv, hinv⟩ := step_inv h hok.1 hok.2
      exact ⟨v, hv, hinv, trivial⟩) hinit hmeets
  exact along_mono (fun w => Inv.right) hrun.1

def objects : ℕ → Bytes
  | 0 => lit "ab"
  | _ => lit "cd"

def piecewise : List (Mpool × Call) :=
  [(zeroedPool, .feed ⟨0, 0, 2⟩), (zeroedPool, .advance 2), (zeroedPool, .consume 1),
    (zeroedPool, .feed ⟨1, 0, 2⟩)]

theorem zeroedPool_gives : ∀ n < 2 ^ 64, zeroedPool.alloc n ≠ none :=
  fun n _ => Option.some_ne_none (replicate n 0)

theorem stream_run_right_piecewise : Along (step objects) (Right objects) {} piecewise := by
  refine stream_run_right objects piecewise ⟨⟨⟨by decide, by decide, by decide, zeroedPool_gives⟩,
    trivial⟩, fun t ht => ?_⟩
  obtain rfl := Option.some.inj ht
  refine ⟨⟨Nat.le_refl 2, trivial⟩, fun t ht => ?_⟩
  obtain rfl := Option.some.inj ht
  refine ⟨⟨⟨by decide, zeroedPool_gives⟩, .inl (Nat.le_refl 1)⟩, fun t ht => ?_⟩
  obtain rfl := Option.some.inj ht
  exact ⟨⟨⟨by decide, by decide, by decide, zeroedPool_gives⟩, trivial⟩, fun _ _ => trivial⟩

/- "ab" and "cd", of which three bytes are scanned and the first piece is consumed: the cursor goes
   back from "d" to "c". -/
def backwards : List (Mpool × Call) :=
  [(zeroedPool, .feed ⟨0, 0, 2⟩), (zeroedPool, .feed ⟨1, 0, 2⟩), (zeroedPool, .advance 3),
    (zeroedPool, .consume 2)]

theorem scanned_again : Meets (step objects) (Allowed objects) {} backwards ∧
    ¬ Along (step objects) (Right objects) {} backwards := by
  constructor
  · refine ⟨⟨by decide, by decide, by decide, zeroedPool_gives⟩, fun t ht => ?_⟩
    obtain rfl := Option.some.inj ht
    refine ⟨⟨by decide, by decide, by decide, zeroedPool_gives⟩, fun t ht => ?_⟩
    rw [step, Option.bind_eq_some_iff] at ht
    obtain ⟨r, -, hr⟩ := ht
    split at hr
    · obtain rfl := Option.some.inj hr
      refine ⟨Nat.le_succ 3, fun t ht => ?_⟩
      obtain rfl := Option.some.inj ht
      exact ⟨⟨Nat.le_succ 2, zeroedPool_gives⟩, fun _ _ => trivial⟩
    · cases hr
  · intro h
    have hlast : (exec (step objects) {} backwards).map
        (fun w => (w.stream.scanned, w.consumed, w.position)) = some (some 0, 2, 3) := by
      decide +kernel
    obtain ⟨w, hw, hvalues⟩ := Option.map_eq_some_iff.mp hlast
    obtain ⟨-, k, hk, hsum⟩ := along_last h hw
    obtain ⟨hzero, hvalues⟩ := Prod.mk.inj hvalues
    obtain ⟨htwo, hthree⟩ := Prod.mk.inj hvalues
    rw [hzero] at hk
    obtain rfl := Option.some.inj hk
    omega

end Voxlib.ScannerStream
