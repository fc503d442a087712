import Voxlib.MPool.Calls

/-!
# Reset of a pool

Every block of every chunk goes into the free list of its slot, the last one in front.
-/

namespace Voxlib.MPool
open Spans Words List Function

theorem pushBlocks_spec {size : ℕ} (hsize : 0 < size) (n : ℕ) {ptr head : ℕ} {m : Mem}
    {done : List ℕ} {t : ℕ} (hptr : ptr ≠ 0) (hdone : Seg m head done t)
    (hnew : ∀ x ∈ List.range' ptr n size, x ∉ done) :
    Seg (pushBlocks size n ptr head m).2 (pushBlocks size n ptr head m).1
      ((List.range' ptr n size).reverse ++ done) t ∧
    ∀ x, x ∉ List.range' ptr n size → (pushBlocks size n ptr head m).2 x = m x := by
  induction n generalizing ptr head m done with
  | zero => exact ⟨hdone, fun _ _ => rfl⟩
  | succ n ih =>
    rw [range'_succ] at hnew
    have hpushed := hdone.push hptr (hnew ptr mem_cons_self)
    have hlater : ∀ x ∈ List.range' (ptr + size) n size, x ∉ ptr :: done := by
      intro x hx hmem
      rcases mem_cons.mp hmem with rfl | hmem
      · obtain ⟨j, -, heq⟩ := mem_range'.mp hx
        omega
      · exact hnew x (mem_cons_of_mem ptr hx) hmem
    obtain ⟨hseg, hframe⟩ := ih (by omega) hpushed hlater
    rw [range'_succ]
    simp only [pushBlocks, reverse_cons, append_assoc, singleton_append]
    refine ⟨hseg, fun x hx => ?_⟩
    rw [mem_cons, not_or] at hx
    rw [hframe x hx.2, wr_other m hx.1]

theorem pushChunks_spec {i : Fin 10} {n : ℕ} {chunks : List ℕ} :
    ∀ {fuel chunk head : ℕ} {m : Mem} {done : List ℕ}, chunks.length ≤ fuel →
      Chain m chunk chunks → (∀ a ∈ chunks, m (a + 16) = a + chunkSize) →
      (∀ a ∈ chunks, a ∉ blocks i n chunks ∧ a + 16 ∉ blocks i n chunks) →
      (blocks i n chunks).Nodup → Chain m head done → (∀ b ∈ blocks i n chunks, b ∉ done) →
      Chain (pushChunks (blockSize i) n fuel chunk head m).2
        (pushChunks (blockSize i) n fuel chunk head m).1 ((blocks i n chunks).reverse ++ done) ∧
      ∀ x, x ∉ blocks i n chunks → (pushChunks (blockSize i) n fuel chunk head m).2 x = m x := by
  induction chunks with
  | nil =>
    intro fuel chunk head m done _ hchain _ _ _ hdone _
    have hzero : chunk = 0 := hchain
    cases fuel with
    | zero => exact ⟨hdone, fun _ _ => rfl⟩
    | succ fuel =>
      unfold pushChunks
      rw [if_pos hzero]
      exact ⟨hdone, fun _ _ => rfl⟩
  | cons a chunks ih =>
    intro fuel chunk head m done hfuel hchain hmemory hnode hnodup hdone hnew
    obtain ⟨rfl, ha, hrest⟩ := hchain
    cases fuel with
    | zero => exact absurd hfuel (Nat.not_succ_le_zero _)
    | succ fuel =>
      have hblocks : blocks i n (chunk :: chunks) = chunkBlocks i n chunk ++ blocks i n chunks :=
        flatMap_cons
      rw [hblocks] at hnodup hnew hnode
      have hleft : ∀ {x : ℕ}, x ∉ chunkBlocks i n chunk ++ blocks i n chunks →
          x ∉ chunkBlocks i n chunk ∧ x ∉ blocks i n chunks := by
        intro x hx
        rwa [mem_append, not_or] at hx
      obtain ⟨-, hnodup', hdisj⟩ := nodup_append.mp hnodup
      have hself := hmemory chunk mem_cons_self
      simp only [pushChunks, if_neg ha, hself]
      obtain ⟨hseg, hframe⟩ := pushBlocks_spec (blockSize_pos i) n
        (by omega : chunk + chunkSize ≠ 0) hdone fun x hx => hnew x (mem_append_left _ hx)
      generalize pushBlocks (blockSize i) n (chunk + chunkSize) head m = r at hseg hframe
      have hsame : ∀ b ∈ chunk :: chunks, r.2 b = m b ∧ r.2 (b + 16) = m (b + 16) :=
        fun b hb => ⟨hframe b (hleft (hnode b hb).1).1, hframe (b + 16) (hleft (hnode b hb).2).1⟩
      rw [(hsame chunk mem_cons_self).1, hblocks, reverse_append, append_assoc]
      have htail : ∀ {b : ℕ}, b ∈ chunks → b ∈ chunk :: chunks := mem_cons_of_mem chunk
      have hnew' : ∀ b ∈ blocks i n chunks, b ∉ (chunkBlocks i n chunk).reverse ++ done := by
        intro b hb hmem
        rcases mem_append.mp hmem with hmem | hmem
        · exact hdisj b (mem_reverse.mp hmem) b hb rfl
        · exact hnew b (mem_append_right _ hb) hmem
      obtain ⟨hchain', hframe'⟩ := ih (m := r.2) (Nat.le_of_succ_le_succ hfuel)
        (hrest.frame fun b hb => (hsame b (htail hb)).1)
        (fun b hb => (hsame b (htail hb)).2.trans (hmemory b (htail hb)))
        (fun b hb => ⟨(hleft (hnode b (htail hb)).1).2, (hleft (hnode b (htail hb)).2).2⟩)
        hnodup' hseg hnew'
      refine ⟨hchain', fun x hx => ?_⟩
      rw [hframe' x (hleft hx).2, hframe x (hleft hx).1]

section
variable {regions : List Span} {n : ℕ} {L : Layout} (h : Owned regions n L)
include h

theorem Owned.chunks_length (i : Fin 10) : (L.chunks i).length ≤ regions.length := by
  have hnodup : ((L.chunks i).map (chunkSpan i n)).Nodup :=
    (h.chunks_nodup i).map fun _ _ heq => congrArg Prod.fst heq
  have hsub : (L.chunks i).map (chunkSpan i n) ⊆ regions := by
    intro r hr
    obtain ⟨a, ha, rfl⟩ := mem_map.mp hr
    exact (h.chunk i a ha).2
  have hle := (hnodup.subperm hsub).length_le
  rwa [length_map] at hle

theorem Owned.larges_length : L.larges.length ≤ regions.length := by
  have hnodup : (L.larges.map largeSpan).Nodup := by
    refine (h.larges_nodup.of_map).map_on fun x hx y hy heq => ?_
    have hbase : (largeSpan x).1 = (largeSpan y).1 := congrArg Prod.fst heq
    exact inj_on_of_nodup_map h.larges_nodup hx hy hbase
  have hsub : L.larges.map largeSpan ⊆ regions := by
    intro r hr
    obtain ⟨x, hx, rfl⟩ := mem_map.mp hr
    exact (h.large x hx).2
  have hle := (hnodup.subperm hsub).length_le
  rwa [length_map] at hle

theorem Owned.node_notMem {i j : Fin 10} {a : ℕ} (ha : a ∈ L.chunks j) :
    a ∉ blocks i n (L.chunks i) ∧ a + 16 ∉ blocks i n (L.chunks i) :=
  ⟨fun hmem => (node_ne_block h hmem ha).1 rfl, fun hmem => (node_ne_block h hmem ha).2 rfl⟩

end

def SlotsOk (p : Pool) (chunks free used : Fin 10 → List ℕ) : Prop :=
  ∀ j, SlotOk p.mem p.initialBlockCount j (p.slots j) (chunks j) (free j) (used j)

theorem resetSlot_slots {p : Pool} {L : Layout} (ho : Owned p.regions p.initialBlockCount L)
    {free used : Fin 10 → List ℕ} (h : SlotsOk p L.chunks free used) (i : Fin 10) :
    SlotsOk (resetSlot p i) L.chunks
      (Function.update free i (blocks i p.initialBlockCount (L.chunks i)).reverse)
      (Function.update used i []) := by
  have hi := h i
  have hnil : Chain p.mem 0 [] := rfl
  obtain ⟨hchain, hframe⟩ := pushChunks_spec (ho.chunks_length i)
    hi.chunk_chain hi.memory (fun a ha => ho.node_notMem ha) (ho.blocks_nodup i) hnil
    fun b _ => not_mem_nil
  rw [append_nil] at hchain
  have hnodes : ∀ j, ∀ a ∈ L.chunks j, (resetSlot p i).mem a = p.mem a ∧
      (resetSlot p i).mem (a + 16) = p.mem (a + 16) := fun j a ha =>
    ⟨hframe a (ho.node_notMem ha).1, hframe (a + 16) (ho.node_notMem ha).2⟩
  intro j
  by_cases hj : j = i
  · subst hj
    simp only [resetSlot, update_self]
    refine ⟨hi.chunk_chain.frame fun a ha => (hnodes j a ha).1,
      fun a ha => (hnodes j a ha).2.trans (hi.memory a ha), hi.total, hchain, ?_, ?_,
      fun b hb => absurd hb not_mem_nil⟩
    · show (p.slots j).totalBlocks = _
      rw [hi.total, length_reverse, blocks, length_flatMap]
      simp [chunkBlocks]
    · rw [append_nil]
      exact (reverse_perm _).map _
  · have hother : (resetSlot p i).slots j = p.slots j := update_of_ne hj _ _
    rw [hother, update_of_ne hj, update_of_ne hj]
    refine (h j).frame (hnodes j) fun b hb => hframe b fun hmem => ?_
    exact ne_of_apart (ho.blocks_apart hb hmem (Or.inl hj)) (first_within (blockSize_pos j))
      (first_within (blockSize_pos i)) rfl

theorem resetSlots_slots {L : Layout} (slots : List (Fin 10)) :
    ∀ {p : Pool} {free used : Fin 10 → List ℕ}, Owned p.regions p.initialBlockCount L →
      SlotsOk p L.chunks free used →
      ∃ free' used', SlotsOk (slots.foldl resetSlot p) L.chunks free' used' ∧
        (∀ i ∈ slots, used' i = []) ∧ (∀ i, used i = [] → used' i = []) := by
  induction slots with
  | nil =>
    intro p free used _ h
    exact ⟨free, used, h, fun i hi => absurd hi not_mem_nil, fun _ hi => hi⟩
  | cons i slots ih =>
    intro p free used ho h
    obtain ⟨free', used', hslots, hdone, hkeep⟩ :=
      ih (p := resetSlot p i) ho (resetSlot_slots ho h i)
    refine ⟨free', used', hslots, fun j hj => ?_, fun j hj => hkeep j ?_⟩
    · rcases mem_cons.mp hj with rfl | hj
      · exact hkeep j (update_self _ _ _)
      · exact hdone j hj
    · rw [update_apply]
      split
      · rfl
      · exact hj

theorem foldl_resetSlot (slots : List (Fin 10)) (p : Pool) :
    (slots.foldl resetSlot p).regions = p.regions ∧
    (slots.foldl resetSlot p).initialBlockCount = p.initialBlockCount ∧
    (slots.foldl resetSlot p).largeChunks = p.largeChunks := by
  induction slots generalizing p with
  | nil => exact ⟨rfl, rfl, rfl⟩
  | cons i slots ih => exact ih (resetSlot p i)

theorem freeLarges_owned {m : Mem} {n : ℕ} {larges : List (ℕ × ℕ)} :
    ∀ {fuel chunk : ℕ} {regions : List Span} {L : Layout}, L.larges = larges →
      Owned regions n L → larges.length ≤ fuel → Chain m chunk (larges.map Prod.fst) →
      Owned (freeLarges m fuel chunk regions) n { L with larges := [] } := by
  induction larges with
  | nil =>
    intro fuel chunk regions L hL ho _ hchain
    have hzero : chunk = 0 := hchain
    have hsame : { L with larges := [] } = L := by rw [← hL]
    rw [hsame]
    cases fuel with
    | zero => exact ho
    | succ fuel =>
      simp only [freeLarges, if_pos hzero]
      exact ho
  | cons x larges ih =>
    intro fuel chunk regions L hL ho hfuel hchain
    obtain ⟨rfl, hx, hrest⟩ := hchain
    cases fuel with
    | zero => exact absurd hfuel (Nat.not_succ_le_zero _)
    | succ fuel =>
      simp only [freeLarges, if_neg hx]
      have hdrop : Owned (mfree regions x.1) n { L with larges := larges } :=
        ho.drop (hL.trans (nil_append _).symm)
      exact ih (L := { L with larges := larges }) rfl hdrop (Nat.le_of_succ_le_succ hfuel) hrest

theorem reset_laid {p : Pool} {live : List (ℕ × ℕ)} {L : Layout} (h : Laid p live L) :
    ∃ L', Laid (reset p) [] L' := by
  have ho : Owned (freeLarges p.mem p.regions.length p.largeChunks p.regions)
      p.initialBlockCount { L with larges := [] } :=
    freeLarges_owned rfl h.owned h.owned.larges_length h.larges.chain
  let q : Pool := { p with
    regions := freeLarges p.mem p.regions.length p.largeChunks p.regions
    largeChunks := 0 }
  let L₀ : Layout := { L with larges := [] }
  have hready : SlotsOk q L₀.chunks L.free fun i => used i live := h.slots
  obtain ⟨free, used', hslots, hdone, -⟩ := resetSlots_slots (L := L₀) (List.finRange 10) ho hready
  obtain ⟨hregions, hcount, hhead⟩ := foldl_resetSlot (List.finRange 10) q
  refine ⟨{ L with larges := [], free := free }, ?_, ?_, fun i => ?_, ?_, List.Perm.nil, rfl⟩
  · show 0 < ((List.finRange 10).foldl resetSlot q).initialBlockCount
    rw [hcount]
    exact h.count
  · show Owned ((List.finRange 10).foldl resetSlot q).regions
      ((List.finRange 10).foldl resetSlot q).initialBlockCount _
    rw [hregions, hcount]
    exact ho.set_free free
  · have hi := hslots i
    rw [hdone i (mem_finRange i)] at hi
    exact hi
  · show LargesOk _ ((List.finRange 10).foldl resetSlot q).largeChunks []
    rw [hhead]
    exact ⟨rfl, trivial, fun x hx => absurd hx not_mem_nil,
      fun x hx => absurd hx not_mem_nil, fun x hx => absurd hx not_mem_nil⟩

end Voxlib.MPool
