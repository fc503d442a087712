import Voxlib.MPool

/-!
# The layout of a pool
-/

namespace Voxlib.MPool
open Spans Words List

def chunkBlocks (i : Fin 10) (n a : ℕ) : List ℕ := List.range' (a + chunkSize) n (blockSize i)

def blocks (i : Fin 10) (n : ℕ) (chunks : List ℕ) : List ℕ := chunks.flatMap (chunkBlocks i n)

def used (i : Fin 10) (live : List (ℕ × ℕ)) : List ℕ :=
  (live.filter fun x => getSlotIndex x.2 = some i).map Prod.fst

def largeLive (live : List (ℕ × ℕ)) : List (ℕ × ℕ) := live.filter fun x => getSlotIndex x.2 = none

/- The chunks and the free blocks of each slot in the order of their lists, the large blocks with
   their sizes; `owner` is the slot of a chunk. -/
structure Layout where
  chunks : Fin 10 → List ℕ
  free : Fin 10 → List ℕ
  larges : List (ℕ × ℕ)
  owner : ℕ → Option (Fin 10)

def chunkSpan (i : Fin 10) (n a : ℕ) : Span := (a, chunkSize + blockSize i * n)

def largeSpan (x : ℕ × ℕ) : Span := (x.1, chunkSize + largeHeaderSize + metaSize + x.2)

structure Owned (regions : List Span) (n : ℕ) (L : Layout) : Prop where
  apart : regions.Pairwise Apart
  nonzero : ∀ r ∈ regions, r.1 ≠ 0
  chunk : ∀ i, ∀ a ∈ L.chunks i, L.owner a = some i ∧ chunkSpan i n a ∈ regions
  large : ∀ x ∈ L.larges, L.owner x.1 = none ∧ largeSpan x ∈ regions
  chunks_nodup : ∀ i, (L.chunks i).Nodup
  larges_nodup : (L.larges.map Prod.fst).Nodup

theorem blockSize_pos (i : Fin 10) : 0 < blockSize i := Nat.lt_of_lt_of_le (by decide) (Nat.le_add_left _ _)

theorem mem_blocks {i : Fin 10} {n b : ℕ} {chunks : List ℕ} :
    b ∈ blocks i n chunks ↔ ∃ a ∈ chunks, ∃ j < n, b = a + chunkSize + blockSize i * j := by
  simp only [blocks, chunkBlocks, mem_flatMap, mem_range']

theorem block_within {i : Fin 10} {n a j : ℕ} (hj : j < n) :
    Within (a + chunkSize + blockSize i * j, blockSize i) (chunkSpan i n a) := by
  have hmul : blockSize i * j + blockSize i ≤ blockSize i * n := by
    rw [← Nat.mul_succ]
    exact Nat.mul_le_mul_left _ hj
  unfold Within chunkSpan
  dsimp only
  omega

theorem block_span {i : Fin 10} {n b : ℕ} {chunks : List ℕ} (hb : b ∈ blocks i n chunks) :
    ∃ a ∈ chunks, Within (b, blockSize i) (chunkSpan i n a) := by
  obtain ⟨a, ha, j, hj, rfl⟩ := mem_blocks.mp hb
  exact ⟨a, ha, block_within hj⟩

theorem first_within {b len : ℕ} (hlen : 0 < len) : Within (b, 1) (b, len) :=
  ⟨le_refl _, Nat.add_le_add_left hlen b⟩

theorem ne_of_apart {r s : Span} (h : Apart r s) {x y : ℕ} (hx : Within (x, 1) r)
    (hy : Within (y, 1) s) : x ≠ y := by
  unfold Apart Within at *
  dsimp only at *
  omega

section
variable {regions : List Span} {n : ℕ} {L : Layout} (h : Owned regions n L)
include h

theorem Owned.chunkSpans_apart {i j : Fin 10} {a b : ℕ} (ha : a ∈ L.chunks i)
    (hb : b ∈ L.chunks j) (hne : i ≠ j ∨ a ≠ b) : Apart (chunkSpan i n a) (chunkSpan j n b) := by
  obtain ⟨howner, hin⟩ := h.chunk i a ha
  obtain ⟨howner', hin'⟩ := h.chunk j b hb
  refine h.apart.forall hin hin' fun heq => ?_
  have hab : a = b := congrArg Prod.fst heq
  rcases hne with hne | hne
  · rw [hab, howner'] at howner
    exact hne (Option.some.inj howner).symm
  · exact hne hab

theorem Owned.chunk_large_apart {i : Fin 10} {a : ℕ} {x : ℕ × ℕ} (ha : a ∈ L.chunks i)
    (hx : x ∈ L.larges) : Apart (chunkSpan i n a) (largeSpan x) := by
  obtain ⟨howner, hin⟩ := h.chunk i a ha
  obtain ⟨howner', hin'⟩ := h.large x hx
  refine h.apart.forall hin hin' fun heq => ?_
  have hax : a = x.1 := congrArg Prod.fst heq
  rw [hax, howner'] at howner
  exact nomatch howner

theorem Owned.larges_apart {x y : ℕ × ℕ} (hx : x ∈ L.larges) (hy : y ∈ L.larges) (hne : x ≠ y) :
    Apart (largeSpan x) (largeSpan y) := by
  refine h.apart.forall (h.large x hx).2 (h.large y hy).2 fun heq => hne ?_
  have hbase : (largeSpan x).1 = (largeSpan y).1 := congrArg Prod.fst heq
  exact inj_on_of_nodup_map h.larges_nodup hx hy hbase

theorem Owned.blocks_apart {i j : Fin 10} {b c : ℕ} (hb : b ∈ blocks i n (L.chunks i))
    (hc : c ∈ blocks j n (L.chunks j)) (hne : i ≠ j ∨ b ≠ c) :
    Apart (b, blockSize i) (c, blockSize j) := by
  obtain ⟨a, ha, k, hk, rfl⟩ := mem_blocks.mp hb
  obtain ⟨a', ha', k', hk', rfl⟩ := mem_blocks.mp hc
  by_cases hsame : i = j ∧ a = a'
  · obtain ⟨rfl, rfl⟩ := hsame
    have hkk : k ≠ k' := by
      rintro rfl
      simp at hne
    unfold Apart
    dsimp only
    rcases Nat.lt_or_gt_of_ne hkk with hlt | hlt
    · have := Nat.mul_le_mul_left (blockSize i) hlt
      rw [Nat.mul_succ] at this
      omega
    · have := Nat.mul_le_mul_left (blockSize i) hlt
      rw [Nat.mul_succ] at this
      omega
  · exact (h.chunkSpans_apart ha ha' (by tauto)).within (block_within hk) (block_within hk')

theorem Owned.block_node_apart {i j : Fin 10} {b a : ℕ} (hb : b ∈ blocks i n (L.chunks i))
    (ha : a ∈ L.chunks j) : Apart (b, blockSize i) (a, chunkSize) := by
  obtain ⟨a', ha', k, hk, rfl⟩ := mem_blocks.mp hb
  by_cases hsame : i = j ∧ a' = a
  · obtain ⟨rfl, rfl⟩ := hsame
    unfold Apart
    dsimp only
    omega
  · refine (h.chunkSpans_apart ha' ha (by tauto)).within (block_within hk) ?_
    unfold Within chunkSpan
    dsimp only
    omega

theorem Owned.block_large_apart {i : Fin 10} {b : ℕ} {x : ℕ × ℕ}
    (hb : b ∈ blocks i n (L.chunks i)) (hx : x ∈ L.larges) :
    Apart (b, blockSize i) (largeSpan x) := by
  obtain ⟨a, ha, hwithin⟩ := block_span hb
  exact (h.chunk_large_apart ha hx).within hwithin ⟨le_refl _, le_refl _⟩

theorem Owned.blocks_nodup (i : Fin 10) : (blocks i n (L.chunks i)).Nodup := by
  have hpos := blockSize_pos i
  refine nodup_flatMap.mpr ⟨fun a _ => nodup_range' _ hpos, ?_⟩
  refine (h.chunks_nodup i).imp_of_mem fun ha hb hne => ?_
  intro x hx hy
  obtain ⟨j, hj, rfl⟩ := mem_range'.mp hx
  obtain ⟨k, hk, heq⟩ := mem_range'.mp hy
  have hword : ∀ {a m : ℕ}, m < n →
      Within (a + chunkSize + blockSize i * m, 1) (chunkSpan i n a) := fun hm =>
    (first_within hpos).trans (block_within hm)
  exact ne_of_apart (h.chunkSpans_apart ha hb (Or.inr hne)) (hword hj) (hword hk) heq

end

structure SlotOk (m : Mem) (n : ℕ) (i : Fin 10) (slot : Slot) (chunks free used : List ℕ) :
    Prop where
  chunk_chain : Chain m slot.chunks chunks
  memory : ∀ a ∈ chunks, m (a + 16) = a + chunkSize
  total : slot.totalBlocks = chunks.length * n
  free_chain : Chain m slot.freeList free
  count : slot.freeBlocks = free.length
  shared : (free.map (· + metaSize) ++ used).Perm ((blocks i n chunks).map (· + metaSize))
  tagged : ∀ b, b + metaSize ∈ used → slotIndexOf m b = i

structure LargesOk (m : Mem) (head : ℕ) (larges : List (ℕ × ℕ)) : Prop where
  chain : Chain m head (larges.map Prod.fst)
  prevs : Prevs m 8 0 (larges.map Prod.fst)
  size : ∀ x ∈ larges, m (x.1 + chunkSize) = x.2
  node : ∀ x ∈ larges, m (x.1 + chunkSize + 8) = x.1
  tagged : ∀ x ∈ larges, slotIndexOf m (x.1 + chunkSize + largeHeaderSize) = largeIndex

/- `m'` is `m` outside of the span. -/
def SameOutside (r : Span) (m m' : Mem) : Prop := ∀ x, ¬ Within (x, 1) r → m' x = m x

theorem sameOutside_wr (m : Mem) {r : Span} {a : ℕ} (ha : Within (a, 1) r) (v : ℕ) :
    SameOutside r m (wr m a v) := by
  intro x hx
  refine wr_other m ?_ v
  rintro rfl
  exact hx ha

theorem SameOutside.trans {r : Span} {m m' m'' : Mem} (h : SameOutside r m m')
    (h' : SameOutside r m' m'') : SameOutside r m m'' := fun x hx => (h' x hx).trans (h x hx)

theorem SameOutside.at {r s : Span} {m m' : Mem} (h : SameOutside r m m') (hrs : Apart r s) {x : ℕ}
    (hx : Within (x, 1) s) : m' x = m x :=
  h x fun hr => ne_of_apart hrs hr hx rfl

section
variable {m m' : Mem} {n : ℕ} {i : Fin 10} {slot : Slot} {chunks free us : List ℕ}

section
variable (h : SlotOk m n i slot chunks free us)
include h

theorem SlotOk.free_mem {b : ℕ} (hb : b ∈ free) : b ∈ blocks i n chunks := by
  have hmem := h.shared.subset (mem_append_left us (mem_map_of_mem hb))
  obtain ⟨c, hc, heq⟩ := mem_map.mp hmem
  exact Nat.add_right_cancel heq ▸ hc

theorem SlotOk.used_mem {ptr : ℕ} (hp : ptr ∈ us) :
    ∃ b ∈ blocks i n chunks, ptr = b + metaSize := by
  have hmem := h.shared.subset (mem_append_right (free.map (· + metaSize)) hp)
  obtain ⟨b, hb, heq⟩ := mem_map.mp hmem
  exact ⟨b, hb, heq.symm⟩

theorem SlotOk.frame (hnodes : ∀ a ∈ chunks, m' a = m a ∧ m' (a + 16) = m (a + 16))
    (hblocks : ∀ b ∈ blocks i n chunks, m' b = m b) : SlotOk m' n i slot chunks free us where
  chunk_chain := h.chunk_chain.frame fun a ha => (hnodes a ha).1
  memory a ha := by rw [(hnodes a ha).2, h.memory a ha]
  total := h.total
  free_chain := h.free_chain.frame fun b hb => hblocks b (h.free_mem hb)
  count := h.count
  shared := h.shared
  tagged b hb := by
    obtain ⟨c, hc, heq⟩ := h.used_mem hb
    obtain rfl : b = c := Nat.add_right_cancel heq
    unfold slotIndexOf
    rw [hblocks b hc]
    exact h.tagged b hb

theorem SlotOk.elsewhere {r : Span} (hm : SameOutside r m m')
    (hnodes : ∀ a ∈ chunks, Apart r (a, chunkSize))
    (hblocks : ∀ b ∈ blocks i n chunks, Apart r (b, blockSize i)) :
    SlotOk m' n i slot chunks free us := by
  refine h.frame (fun a ha => ⟨?_, ?_⟩) fun b hb => ?_
  · exact hm.at (hnodes a ha) (first_within (by decide))
  · exact hm.at (hnodes a ha) (by unfold Within chunkSize; dsimp only; omega)
  · exact hm.at (hblocks b hb) (first_within (blockSize_pos i))

end

theorem LargesOk.frame {head : ℕ} {larges : List (ℕ × ℕ)} (h : LargesOk m head larges)
    (hsame : ∀ x ∈ larges, ∀ k < 48, m' (x.1 + k) = m (x.1 + k)) : LargesOk m' head larges := by
  have hnode : ∀ k < 48, ∀ a ∈ larges.map Prod.fst, m' (a + k) = m (a + k) := by
    intro k hk a ha
    obtain ⟨x, hx, rfl⟩ := mem_map.mp ha
    exact hsame x hx k hk
  refine ⟨h.chain.frame (hnode 0 (by decide)), h.prevs.frame (hnode 8 (by decide)), fun x hx => ?_,
    fun x hx => ?_, fun x hx => ?_⟩
  · rw [hsame x hx chunkSize (by decide), h.size x hx]
  · rw [Nat.add_assoc, hsame x hx (chunkSize + 8) (by decide), ← Nat.add_assoc, h.node x hx]
  · unfold slotIndexOf
    rw [Nat.add_assoc, hsame x hx (chunkSize + largeHeaderSize) (by decide), ← Nat.add_assoc]
    exact h.tagged x hx

theorem LargesOk.elsewhere {head : ℕ} {larges : List (ℕ × ℕ)} (h : LargesOk m head larges)
    {r : Span} (hm : SameOutside r m m') (hlarges : ∀ x ∈ larges, Apart r (largeSpan x)) :
    LargesOk m' head larges := by
  refine h.frame fun x hx k hk => hm.at (hlarges x hx) ?_
  unfold Within largeSpan chunkSize largeHeaderSize metaSize
  dsimp only
  omega

end

structure Laid (p : Pool) (live : List (ℕ × ℕ)) (L : Layout) : Prop where
  count : 0 < p.initialBlockCount
  owned : Owned p.regions p.initialBlockCount L
  slots : ∀ i, SlotOk p.mem p.initialBlockCount i (p.slots i) (L.chunks i) (L.free i) (used i live)
  larges : LargesOk p.mem p.largeChunks L.larges
  large_live : (L.larges.map fun x =>
    (x.1 + (chunkSize + largeHeaderSize + metaSize), x.2)).Perm (largeLive live)
  total : p.totalUsed = (live.map fun x => capacity x.2).sum

theorem Laid.perm {p : Pool} {live live' : List (ℕ × ℕ)} {L : Layout} (h : Laid p live L)
    (hp : live.Perm live') : Laid p live' L where
  count := h.count
  owned := h.owned
  slots i := by
    have hused : (used i live).Perm (used i live') := (hp.filter _).map _
    have hi := h.slots i
    exact { hi with
      shared := (hused.append_left _).symm.trans hi.shared
      tagged := fun b hb => hi.tagged b (hused.symm.subset hb) }
  larges := h.larges
  large_live := h.large_live.trans (hp.filter _)
  total := h.total.trans (hp.map _).sum_eq

end Voxlib.MPool
