import Voxlib.MPool.Layout

/-!
# Blocks of the slots

A slot grows by a chunk, a block is taken and put back: what this does to the slot and to the
layout.
-/

namespace Voxlib.MPool
open Spans Words List Function

theorem linkBlocks_spec {size : ℕ} (hsize : 0 < size) (n : ℕ) {ptr last : ℕ} (m : Mem)
    (hlast : last ≠ 0) (hlt : last < ptr) :
    (linkBlocks size n ptr last m).1 ∈ last :: List.range' ptr n size ∧
    (∀ x, x ∉ last :: List.range' ptr n size → (linkBlocks size n ptr last m).2 x = m x) ∧
    ∀ t, Seg (wr (linkBlocks size n ptr last m).2 (linkBlocks size n ptr last m).1 t) last
      (last :: List.range' ptr n size) t := by
  induction n generalizing ptr last m with
  | zero => exact ⟨mem_cons_self, fun _ _ => rfl, fun t => ⟨rfl, hlast, wr_same m last t⟩⟩
  | succ n ih =>
    obtain ⟨hmem, hframe, hseg⟩ := ih (wr m last ptr) (by omega : ptr ≠ 0)
      (by omega : ptr < ptr + size)
    have hge : ∀ x ∈ ptr :: List.range' (ptr + size) n size, x ≠ last := by
      intro x hx
      rcases mem_cons.mp hx with rfl | hx
      · omega
      · obtain ⟨j, -, rfl⟩ := mem_range'.mp hx
        omega
    simp only [linkBlocks, if_neg hlast, range'_succ]
    refine ⟨mem_cons_of_mem last hmem, fun x hx => ?_, fun t => ⟨rfl, hlast, ?_⟩⟩
    · rw [mem_cons, not_or] at hx
      rw [hframe x hx.2, wr_other m hx.1]
    · have hhere := hframe last fun h => hge last h rfl
      rw [wr_same] at hhere
      rw [wr_other _ (hge _ hmem).symm, hhere]
      exact hseg t

theorem SlotOk.grow {m : Mem} {n : ℕ} {i : Fin 10} {slot : Slot} {chunks free us : List ℕ}
    (h : SlotOk m n i slot chunks free us) {a : ℕ} (ha : a ≠ 0) (hnext : m a = slot.chunks)
    (hmemory : m (a + 16) = a + chunkSize)
    (hseg : Seg m (a + chunkSize) (chunkBlocks i n a) slot.freeList) : SlotOk m n i
      { freeList := a + chunkSize
        chunks := a
        totalBlocks := slot.totalBlocks + n
        freeBlocks := slot.freeBlocks + n }
      (a :: chunks) (chunkBlocks i n a ++ free) us where
  chunk_chain := ⟨rfl, ha, by rw [hnext]; exact h.chunk_chain⟩
  memory b hb := by
    rcases mem_cons.mp hb with rfl | hb
    · exact hmemory
    · exact h.memory b hb
  total := by
    show slot.totalBlocks + n = _
    rw [h.total, length_cons, Nat.succ_mul]
  free_chain := seg_append.mpr ⟨slot.freeList, hseg, h.free_chain⟩
  count := by
    show slot.freeBlocks + n = _
    rw [h.count, length_append, chunkBlocks, length_range', Nat.add_comm]
  shared := by
    simp only [blocks, flatMap_cons, map_append, append_assoc]
    exact h.shared.append_left _
  tagged := h.tagged

def Layout.grow (L : Layout) (i : Fin 10) (n a : ℕ) : Layout :=
  { L with
    chunks := Function.update L.chunks i (a :: L.chunks i)
    free := Function.update L.free i (chunkBlocks i n a ++ L.free i)
    owner := Function.update L.owner a (some i) }

theorem not_apart_base {a k l : ℕ} (hk : 0 < k) (hl : 0 < l) : ¬ Apart (a, k) (a, l) := by
  unfold Apart
  dsimp only
  omega

variable {regions : List Span}

theorem pairwise_snoc (h : regions.Pairwise Apart) {r : Span} (hr : ∀ s ∈ regions, Apart s r) :
    (regions ++ [r]).Pairwise Apart := by
  rw [pairwise_append]
  refine ⟨h, pairwise_singleton _ _, fun s hs t ht => ?_⟩
  rw [mem_singleton.mp ht]
  exact hr s hs

theorem Owned.base_ne {n : ℕ} {L : Layout} (h : Owned regions n L) {a k : ℕ} (hk : 0 < k)
    (hfresh : ∀ r ∈ regions, Apart r (a, k)) :
    (∀ j, ∀ b ∈ L.chunks j, b ≠ a) ∧ ∀ x ∈ L.larges, x.1 ≠ a := by
  have hnew : ∀ {l : ℕ}, 0 < l → ∀ {b : ℕ}, (b, l) ∈ regions → b ≠ a := by
    rintro l hl b hb rfl
    exact not_apart_base hl hk (hfresh _ hb)
  exact ⟨fun j b hb => hnew (Nat.add_pos_left (by decide) _) (h.chunk j b hb).2,
    fun x hx => hnew (Nat.add_pos_left (by decide) _) (h.large x hx).2⟩

theorem Owned.grow {n : ℕ} {L : Layout} (h : Owned regions n L) {i : Fin 10} {a : ℕ} (ha : a ≠ 0)
    (hfresh : ∀ r ∈ regions, Apart r (chunkSpan i n a)) :
    Owned (regions ++ [chunkSpan i n a]) n (L.grow i n a) := by
  obtain ⟨hchunk, hlarge⟩ := h.base_ne (Nat.add_pos_left (by decide) _) hfresh
  refine ⟨pairwise_snoc h.apart hfresh, fun r hr => ?_, fun j b hb => ?_, fun x hx => ?_,
    fun j => ?_, h.larges_nodup⟩
  · rcases mem_append.mp hr with hr | hr
    · exact h.nonzero r hr
    · rw [mem_singleton.mp hr]
      exact ha
  · have hcases : (j = i ∧ b = a) ∨ b ∈ L.chunks j := by
      simp only [Layout.grow, update_apply] at hb
      split at hb
      · next hji =>
        subst hji
        exact (mem_cons.mp hb).imp (fun hba => ⟨rfl, hba⟩) id
      · exact Or.inr hb
    rcases hcases with ⟨rfl, rfl⟩ | hb
    · exact ⟨update_self _ _ _, mem_append_right _ (mem_singleton_self _)⟩
    · obtain ⟨howner, hin⟩ := h.chunk j b hb
      refine ⟨?_, mem_append_left _ hin⟩
      simp only [Layout.grow, update_of_ne (hchunk j b hb)]
      exact howner
  · obtain ⟨howner, hin⟩ := h.large x hx
    refine ⟨?_, mem_append_left _ hin⟩
    simp only [Layout.grow, update_of_ne (hlarge x hx)]
    exact howner
  · simp only [Layout.grow, update_apply]
    split
    · next hji =>
      subst hji
      exact nodup_cons.mpr ⟨fun hmem => hchunk j a hmem rfl, h.chunks_nodup j⟩
    · exact h.chunks_nodup j

variable {ans : Option ℕ}

theorem malloc_some {n a : ℕ} (h : malloc regions n ans = some a) : Fresh regions n a := by
  unfold malloc at h
  rw [Option.filter_eq_some_iff] at h
  simpa using h.2

theorem expandBytes_eq {i : Fin 10} {n : ℕ} (hfit : blockSize i * n + chunkSize < sizeMod) :
    expandBytes i n = chunkSize + blockSize i * n := by
  unfold expandBytes
  rw [Nat.mod_eq_of_lt (by omega : blockSize i * n < sizeMod), Nat.mod_eq_of_lt hfit, Nat.add_comm]

/-- What the loop leaves in memory, with the node of the chunk written before it. -/
theorem expand_memory {i : Fin 10} {n a : ℕ} (hn : 0 < n) (ha : a ≠ 0) (m : Mem) (chunks head : ℕ) :
    let r := linkBlocks (blockSize i) n (a + chunkSize) 0
      (wr (wr m (a + 16) (a + chunkSize)) a chunks)
    r.1 ≠ 0 ∧ ∃ m', wr r.2 r.1 head = m' ∧ SameOutside (chunkSpan i n a) m m' ∧
      m' a = chunks ∧ m' (a + 16) = a + chunkSize ∧
      Seg m' (a + chunkSize) (chunkBlocks i n a) head := by
  obtain ⟨k, rfl⟩ := Nat.exists_eq_succ_of_ne_zero hn.ne'
  have hpos := blockSize_pos i
  have hfirst : a + chunkSize ≠ 0 := by omega
  intro r
  obtain ⟨hmem, hframe, hseg⟩ := linkBlocks_spec hpos k
    (wr (wr m (a + 16) (a + chunkSize)) a chunks) hfirst (Nat.lt_add_of_pos_right hpos)
  have hr : r = linkBlocks (blockSize i) k (a + chunkSize + blockSize i) (a + chunkSize)
      (wr (wr m (a + 16) (a + chunkSize)) a chunks) := rfl
  rw [← hr] at hmem hframe hseg
  have hlist : (a + chunkSize) :: List.range' (a + chunkSize + blockSize i) k (blockSize i) =
      chunkBlocks i (k + 1) a := range'_succ.symm
  rw [hlist] at hmem hframe hseg
  have hblock : ∀ x ∈ chunkBlocks i (k + 1) a, Within (x, 1) (chunkSpan i (k + 1) a) ∧
      a + chunkSize ≤ x := by
    intro x hx
    obtain ⟨j, hj, rfl⟩ := mem_range'.mp hx
    exact ⟨(first_within hpos).trans (block_within hj), Nat.le_add_right _ _⟩
  have hout : ∀ x, x < a + chunkSize → wr r.2 r.1 head x =
      wr (wr m (a + 16) (a + chunkSize)) a chunks x := by
    intro x hx
    have hnot : ∀ y ∈ chunkBlocks i (k + 1) a, x ≠ y := fun y hy => by
      have := (hblock y hy).2
      omega
    rw [wr_other _ (hnot _ hmem), hframe x fun h => hnot x h rfl]
  refine ⟨by have := (hblock _ hmem).2; omega, _, rfl, fun x hx => ?_, ?_, ?_, hseg head⟩
  · have hnot : ∀ y, Within (y, 1) (chunkSpan i (k + 1) a) → x ≠ y := by
      rintro y hy rfl
      exact hx hy
    have hnode : ∀ d < chunkSize, Within (a + d, 1) (chunkSpan i (k + 1) a) := by
      intro d hd
      unfold Within chunkSpan
      dsimp only
      omega
    rw [wr_other _ (hnot _ (hblock _ hmem).1), hframe x fun h => hnot x (hblock x h).1 rfl,
      wr_other _ (hnot a (hnode 0 (by decide))), wr_other _ (hnot _ (hnode 16 (by decide)))]
  · rw [hout a (by unfold chunkSize; omega), wr_same]
  · rw [hout (a + 16) (by unfold chunkSize; omega), wr_other _ (by omega), wr_same]

variable {p q : Pool} {live : List (ℕ × ℕ)} {L : Layout} {i : Fin 10}

theorem expandSlot_answered {n : ℕ} (he : expandSlot p i n ans = some q) :
    (malloc p.regions (expandBytes i n) ans).isSome := by
  unfold expandSlot at he
  cases hm : malloc p.regions (expandBytes i n) ans with
  | none => simp [hm] at he
  | some a => rfl

theorem expandSlot_laid (h : Laid p live L) (he : expandSlot p i p.initialBlockCount ans = some q)
    (hfit : blockSize i * p.initialBlockCount + chunkSize < sizeMod) :
    (∃ a, Laid q live (L.grow i p.initialBlockCount a)) ∧ (q.slots i).freeList ≠ 0 := by
  unfold expandSlot at he
  split at he
  · simp at he
  · next a hmalloc =>
    obtain ⟨ha, -, -, hfresh⟩ := malloc_some hmalloc
    rw [expandBytes_eq hfit] at hfresh
    obtain ⟨hlast, m', hm', hsame, hnext, hmemory, hseg⟩ := expand_memory (i := i) h.count ha p.mem
      (p.slots i).chunks (p.slots i).freeList
    dsimp only at he
    rw [expandBytes_eq hfit] at he
    simp only [if_pos hlast, hm'] at he
    obtain rfl := Option.some.inj he
    have hregion : ∀ {s : Span}, s ∈ p.regions → Apart (chunkSpan i p.initialBlockCount a) s :=
      fun hs => (hfresh _ hs).symm
    have hself : ∀ s : Span, Within s s := fun s => ⟨le_refl _, le_refl _⟩
    have hslots : ∀ j, SlotOk m' p.initialBlockCount j (p.slots j) (L.chunks j) (L.free j)
        (used j live) := by
      intro j
      refine (h.slots j).elsewhere hsame (fun b hb => ?_) fun b hb => ?_
      · refine (hregion (h.owned.chunk j b hb).2).within (hself _) ?_
        unfold Within chunkSpan
        dsimp only
        omega
      · obtain ⟨c, hc, hwithin⟩ := block_span hb
        exact (hregion (h.owned.chunk j c hc).2).within (hself _) hwithin
    refine ⟨⟨a, h.count, h.owned.grow ha hfresh, fun j => ?_, ?_, h.large_live, h.total⟩, ?_⟩
    · by_cases hj : j = i
      · subst hj
        simp only [Layout.grow, update_self]
        exact (hslots j).grow ha hnext hmemory hseg
      · simp only [Layout.grow, update_of_ne hj]
        exact hslots j
    · exact h.larges.elsewhere hsame fun x hx => hregion (h.owned.large x hx).2
    · simp only [update_self]
      omega

theorem capacity_slot {j : Fin 10} {size : ℕ} (hj : getSlotIndex size = some j) :
    capacity size = userSize j := by
  unfold capacity
  rw [hj]

theorem used_cons (j : Fin 10) (ptr size : ℕ) (live : List (ℕ × ℕ)) : used j ((ptr, size) :: live) =
      if getSlotIndex size = some j then ptr :: used j live else used j live := by
  unfold used
  rw [filter_cons]
  by_cases h : getSlotIndex size = some j
  · simp [h]
  · simp [h]

theorem largeLive_cons (ptr size : ℕ) (live : List (ℕ × ℕ)) : largeLive ((ptr, size) :: live) =
      if getSlotIndex size = none then (ptr, size) :: largeLive live else largeLive live := by
  unfold largeLive
  rw [filter_cons]
  by_cases h : getSlotIndex size = none
  · simp [h]
  · simp [h]

theorem slotIndexOf_setIndex (m : Mem) (b : ℕ) {idx : ℕ} (h : idx < 256) :
    slotIndexOf (setIndex m b idx) b = idx := by
  unfold slotIndexOf setIndex
  rw [wr_same]
  omega

section
variable {m : Mem} {n : ℕ} {slot : Slot} {chunks free us : List ℕ} {b : ℕ}

theorem node_ne_block {regions : List Span} (h : Owned regions n L) {j : Fin 10}
    (hb : b ∈ blocks i n (L.chunks i)) {a : ℕ} (ha : a ∈ L.chunks j) : a ≠ b ∧ a + 16 ≠ b := by
  have hapart := h.block_node_apart hb ha
  have hpos := blockSize_pos i
  unfold Apart chunkSize at hapart
  dsimp only at hapart
  omega

theorem SlotOk.take (h : SlotOk m n i slot chunks (b :: free) us)
    (hnodup : (blocks i n chunks).Nodup) (hnode : ∀ a ∈ chunks, a ≠ b ∧ a + 16 ≠ b) :
    SlotOk (setIndex m b i) n i { slot with freeList := m b, freeBlocks := slot.freeBlocks - 1 }
      chunks free ((b + metaSize) :: us) where
  chunk_chain := h.chunk_chain.frame fun a ha => wr_other m (hnode a ha).1 _
  memory a ha := (wr_other m (hnode a ha).2 _).trans (h.memory a ha)
  total := h.total
  free_chain := by
    have hall := h.shared.nodup_iff.mpr (hnodup.map fun _ _ => Nat.add_right_cancel)
    rw [map_cons, cons_append, nodup_cons] at hall
    refine h.free_chain.2.2.frame fun c hc => wr_other m ?_ _
    rintro rfl
    exact hall.1 (mem_append_left us (mem_map_of_mem hc))
  count := by
    show slot.freeBlocks - 1 = _
    rw [h.count, length_cons, Nat.add_sub_cancel]
  shared := perm_middle.trans h.shared
  tagged c hc := by
    by_cases hcb : c = b
    · rw [hcb]
      exact slotIndexOf_setIndex m b (Nat.lt_of_lt_of_le i.isLt (by decide))
    · unfold slotIndexOf setIndex
      rw [wr_other m hcb]
      rcases mem_cons.mp hc with heq | hc
      · exact absurd (Nat.add_right_cancel heq) hcb
      · exact h.tagged c hc

theorem SlotOk.put (h : SlotOk m n i slot chunks free ((b + metaSize) :: us))
    (hnodup : (blocks i n chunks).Nodup) (hnode : ∀ a ∈ chunks, a ≠ b ∧ a + 16 ≠ b) (hb : b ≠ 0) :
    SlotOk (wr m b slot.freeList) n i { slot with freeList := b, freeBlocks := slot.freeBlocks + 1 }
      chunks (b :: free) us := by
  have hall := (perm_middle.symm.trans h.shared).nodup_iff.mpr
    (hnodup.map fun _ _ => Nat.add_right_cancel)
  rw [nodup_cons] at hall
  refine ⟨h.chunk_chain.frame fun a ha => wr_other m (hnode a ha).1 _,
    fun a ha => (wr_other m (hnode a ha).2 _).trans (h.memory a ha), h.total, ?_, ?_, ?_, ?_⟩
  · exact h.free_chain.push hb fun hmem =>
      hall.1 (mem_append_left us (mem_map_of_mem hmem))
  · show slot.freeBlocks + 1 = _
    rw [h.count, length_cons]
  · exact perm_middle.symm.trans h.shared
  · intro c hc
    have hcb : c ≠ b := by
      rintro rfl
      exact hall.1 (mem_append_right _ hc)
    unfold slotIndexOf
    rw [wr_other m hcb]
    exact h.tagged c (mem_cons_of_mem _ hc)

end

theorem Laid.block_elsewhere (h : Laid p live L) {b : ℕ}
    (hb : b ∈ blocks i p.initialBlockCount (L.chunks i)) (v : ℕ) :
    (∀ j, j ≠ i → SlotOk (wr p.mem b v) p.initialBlockCount j (p.slots j) (L.chunks j) (L.free j)
      (used j live)) ∧ LargesOk (wr p.mem b v) p.largeChunks L.larges := by
  have hsame := sameOutside_wr p.mem (first_within (b := b) (blockSize_pos i)) v
  refine ⟨fun j hj => ?_, ?_⟩
  · exact (h.slots j).elsewhere hsame (fun a ha => h.owned.block_node_apart hb ha) fun c hc =>
      h.owned.blocks_apart hb hc (Or.inl hj.symm)
  · exact h.larges.elsewhere hsame fun x hx => h.owned.block_large_apart hb hx

theorem Owned.set_free {regions : List Span} {n : ℕ} (h : Owned regions n L)
    (free : Fin 10 → List ℕ) : Owned regions n { L with free := free } :=
  ⟨h.apart, h.nonzero, h.chunk, h.large, h.chunks_nodup, h.larges_nodup⟩

theorem takeBlock_laid (h : Laid p live L) (hfree : (p.slots i).freeList ≠ 0) {size : ℕ}
    (hsize : getSlotIndex size = some i) : (takeBlock p i).1 ≠ 0 ∧
      ∃ L', Laid (takeBlock p i).2 (((takeBlock p i).1, size) :: live) L' := by
  have hi := h.slots i
  cases hlist : L.free i with
  | nil =>
    rw [hlist] at hi
    exact absurd hi.free_chain hfree
  | cons b rest =>
    rw [hlist] at hi
    have hhead : (p.slots i).freeList = b := hi.free_chain.1
    have hb := hi.free_mem mem_cons_self
    obtain ⟨hslots, hlarges⟩ := h.block_elsewhere hb (p.mem b / 256 * 256 + i)
    refine ⟨Nat.succ_ne_zero _, { L with free := Function.update L.free i rest }, ?_⟩
    unfold takeBlock
    dsimp only
    rw [hhead]
    refine ⟨h.count, h.owned.set_free _, fun j => ?_, hlarges, ?_, ?_⟩
    · by_cases hj : j = i
      · subst hj
        rw [used_cons, if_pos hsize]
        simp only [update_self]
        exact hi.take (h.owned.blocks_nodup j) fun a ha => node_ne_block h.owned hb ha
      · rw [used_cons, if_neg (by rw [hsize]; exact fun heq => hj (Option.some.inj heq).symm)]
        simp only [update_of_ne hj]
        exact hslots j hj
    · rw [largeLive_cons, if_neg (by rw [hsize]; simp)]
      exact h.large_live
    · rw [map_cons, sum_cons, capacity_slot hsize, ← h.total, Nat.add_comm]

theorem putBlock_laid {b size : ℕ} (h : Laid p ((b + metaSize, size) :: live) L)
    (hsize : getSlotIndex size = some i) : ∃ L', Laid (putBlock p i b) live L' := by
  have hi := h.slots i
  rw [used_cons, if_pos hsize] at hi
  obtain ⟨c, hc, heq⟩ := hi.used_mem mem_cons_self
  obtain rfl : b = c := Nat.add_right_cancel heq
  obtain ⟨hslots, hlarges⟩ := h.block_elsewhere hc (p.slots i).freeList
  have hb : b ≠ 0 := by
    obtain ⟨a, -, j, -, rfl⟩ := mem_blocks.mp hc
    unfold chunkSize
    omega
  refine ⟨{ L with free := Function.update L.free i (b :: L.free i) }, ?_⟩
  unfold putBlock
  dsimp only
  refine ⟨h.count, h.owned.set_free _, fun j => ?_, hlarges, ?_, ?_⟩
  · by_cases hj : j = i
    · subst hj
      simp only [update_self]
      exact hi.put (h.owned.blocks_nodup j) (fun a ha => node_ne_block h.owned hc ha) hb
    · have hother := hslots j hj
      rw [used_cons, if_neg (by rw [hsize]; exact fun heq => hj (Option.some.inj heq).symm)] at hother
      simp only [update_of_ne hj]
      exact hother
  · have hlive := h.large_live
    rw [largeLive_cons, if_neg (by rw [hsize]; simp)] at hlive
    exact hlive
  · have htotal := h.total
    rw [map_cons, sum_cons, capacity_slot hsize] at htotal
    show p.totalUsed - userSize i = _
    rw [htotal, Nat.add_sub_cancel_left]

end Voxlib.MPool
