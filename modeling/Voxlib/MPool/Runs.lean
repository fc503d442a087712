import Voxlib.MPool.Reset

/-!
# Runs of a pool

What is promised holds in runs in which no slot is expanded by more bytes than a size_t counts.
-/

namespace Voxlib.MPool
open Run Spans Words List

/-- The live blocks, with the chunks, the free blocks and the large chunks in the order of their
lists. -/
structure Sound (s : State) (chunks free : Fin 10 → List ℕ) (larges : List ℕ) : Prop where
  live_apart : s.live.Pairwise fun x y => Apart (userSpan x) (userSpan y)
  free_apart : ∀ x ∈ s.live, ∀ i, ∀ b ∈ free i, Apart (userSpan x) (b, blockSize i)
  node_apart : ∀ x ∈ s.live, ∀ i, ∀ a ∈ chunks i, Apart (userSpan x) (a, chunkSize)
  header_apart : ∀ x ∈ s.live, ∀ a ∈ larges,
    Apart (userSpan x) (a, chunkSize + largeHeaderSize + metaSize)
  inside : ∀ x ∈ s.live, ∃ r ∈ s.pool.regions, Within (userSpan x) r
  room : ∀ x ∈ s.live, x.2 ≤ capacity x.2
  chunk_list : ∀ i, Chain s.pool.mem (s.pool.slots i).chunks (chunks i)
  free_list : ∀ i, Chain s.pool.mem (s.pool.slots i).freeList (free i)
  free_blocks : ∀ i, (s.pool.slots i).freeBlocks = (free i).length
  total_blocks : ∀ i, (used i s.live).length + (s.pool.slots i).freeBlocks =
    (s.pool.slots i).totalBlocks
  large_list : Chain s.pool.mem s.pool.largeChunks larges
  large_prevs : Prevs s.pool.mem 8 0 larges
  large_live : (larges.map (· + (chunkSize + largeHeaderSize + metaSize))).Perm
    ((largeLive s.live).map Prod.fst)
  total_used : s.pool.totalUsed = (s.live.map fun x => capacity x.2).sum

theorem SlotOk.live_and_free {m : Mem} {n : ℕ} {i : Fin 10} {slot : Slot}
    {chunks free us : List ℕ} (h : SlotOk m n i slot chunks free us) :
    us.length + slot.freeBlocks = slot.totalBlocks := by
  have hlen := h.shared.length_eq
  simp only [length_append, length_map] at hlen
  have hblocks : (blocks i n chunks).length = chunks.length * n := by
    simp [blocks, chunkBlocks, length_flatMap]
  rw [h.count, h.total, ← hblocks, ← hlen, Nat.add_comm]

theorem Laid.sound {s : State} {L : Layout} (h : Laid s.pool s.live L) :
    Sound s L.chunks L.free (L.larges.map Prod.fst) where
  live_apart := h.live_apart
  free_apart x hx i b hb := by
    refine h.block_apart hx ((h.slots i).free_mem hb) fun hsize hptr => ?_
    -- a block is either free or live
    have hall := (h.slots i).shared.nodup_iff.mpr
      ((h.owned.blocks_nodup i).map fun _ _ => Nat.add_right_cancel)
    have hused : x.1 ∈ used i s.live :=
      mem_map_of_mem (mem_filter.mpr ⟨hx, by simpa using hsize⟩)
    exact (nodup_append.mp hall).2.2 _ (mem_map_of_mem hb) _ hused hptr.symm
  node_apart x hx _ a ha := h.node_apart hx ha
  header_apart x hx a ha := by
    obtain ⟨z, hz, rfl⟩ := mem_map.mp ha
    exact h.header_apart hx hz
  inside x hx := h.inside hx
  room x _ := le_capacity x.2
  chunk_list i := (h.slots i).chunk_chain
  free_list i := (h.slots i).free_chain
  free_blocks i := (h.slots i).count
  total_blocks i := (h.slots i).live_and_free
  large_list := h.larges.chain
  large_prevs := h.larges.prevs
  large_live := by
    have hlive := h.large_live.map Prod.fst
    simp only [map_map] at hlive ⊢
    exact hlive
  total_used := h.total

/-- The call expands a slot only by as many bytes as a size_t counts. -/
def Roomy (s : State) : Cmd → Prop
  | .alloc size ans => Fits s.pool size ans
  | .realloc ptr newSize ans =>
    (∀ i, ptr ≠ 0 → getSlotIndex (s.asked ptr) = some i → getSlotIndex newSize ≠ some i) →
      Fits s.pool newSize ans
  | _ => True

instance (s : State) : ∀ cmd, Decidable (Roomy s cmd)
  | .alloc size ans => inferInstanceAs (Decidable (Fits s.pool size ans))
  | .realloc ptr newSize ans =>
    inferInstanceAs (Decidable ((∀ i, ptr ≠ 0 → getSlotIndex (s.asked ptr) = some i →
      getSlotIndex newSize ≠ some i) → Fits s.pool newSize ans))
  | .free _ => isTrue trivial
  | .reset => isTrue trivial
  | .store _ _ _ => isTrue trivial

/-- A live pointer is one entry of the live blocks, with the size that was asked for. -/
theorem State.live_perm {s : State} {ptr : ℕ} (h : s.isLive ptr) :
    s.live.Perm ((ptr, s.asked ptr) :: without s.live ptr) := by
  unfold State.isLive at h
  unfold State.asked without
  generalize s.live = live at h
  induction live with
  | nil => exact absurd h not_mem_nil
  | cons x live ih =>
    by_cases hx : x.1 = ptr
    · have hfind : (x :: live).find? (fun y => y.1 = ptr) = some x :=
        List.find?_cons_of_pos (by simpa using hx)
      rw [hfind, eraseP_cons_of_pos (by simpa using hx), ← hx]
      exact List.Perm.refl _
    · have hrest : ptr ∈ live.map Prod.fst := by
        rcases mem_cons.mp h with heq | hmem
        · exact absurd heq.symm hx
        · exact hmem
      rw [List.find?_cons_of_neg (by simpa using hx), eraseP_cons_of_neg (by simpa using hx)]
      exact ((ih hrest).cons x).trans (List.Perm.swap _ _ _)

theorem without_null {p : Pool} {live : List (ℕ × ℕ)} {L : Layout} (h : Laid p live L) :
    without live 0 = live :=
  eraseP_of_forall_not fun x hx => by simpa using h.live_ne_zero hx

theorem step_laid {s t : State} {cmd : Cmd} (h : ∃ L, Laid s.pool s.live L) (hroomy : Roomy s cmd)
    (hstep : s.step cmd = some t) : ∃ L, Laid t.pool t.live L := by
  obtain ⟨L, h⟩ := h
  cases cmd with
  | alloc size ans =>
    simp only [State.step] at hstep
    split at hstep
    · obtain rfl := Option.some.inj hstep
      exact allocInternal_laid h hroomy
    · simp at hstep
  | free ptr =>
    simp only [State.step] at hstep
    split at hstep
    · next hptr =>
      obtain rfl := Option.some.inj hstep
      rcases hptr with rfl | hlive
      · have hnull : freeInternal s.pool 0 = s.pool := if_pos rfl
        rw [hnull, without_null h]
        exact ⟨L, h⟩
      · exact freeInternal_laid (x := (ptr, s.asked ptr)) (h.perm (State.live_perm hlive))
    · simp at hstep
  | realloc ptr newSize ans =>
    simp only [State.step] at hstep
    split at hstep
    · next hptr =>
      obtain rfl := Option.some.inj hstep
      dsimp only
      by_cases hnull : ptr = 0
      · subst hnull
        have halloc := allocInternal_laid h (hroomy fun _ hne => absurd rfl hne)
        have hcall : MPool.realloc s.pool 0 newSize ans = allocInternal s.pool newSize ans :=
          if_pos rfl
        rw [hcall, without_null h]
        by_cases hzero : newSize = 0
        · have hnone : (allocInternal s.pool newSize ans).1 = 0 := by
            unfold allocInternal
            rw [if_pos hzero]
          unfold returned at halloc
          rw [if_pos hnone] at halloc
          rw [if_pos hzero]
          exact halloc
        · rw [if_neg hzero]
          exact halloc
      · have hlive := hptr.2.resolve_left hnull
        have hlaid := h.perm (State.live_perm hlive)
        by_cases hzero : newSize = 0
        · have hcall : MPool.realloc s.pool ptr newSize ans = (0, freeInternal s.pool ptr) := by
            unfold MPool.realloc
            rw [if_neg hnull, if_pos hzero]
          rw [hcall, if_pos hzero]
          exact freeInternal_laid (x := (ptr, s.asked ptr)) hlaid
        · obtain ⟨L', hL'⟩ := realloc_laid hlaid hzero fun hne =>
            hroomy fun i _ hi => hne i hi
          rw [if_neg hzero]
          by_cases hfail : (MPool.realloc s.pool ptr newSize ans).1 = 0
          · rw [if_pos hfail] at hL' ⊢
            exact ⟨L', hL'.perm (State.live_perm hlive).symm⟩
          · rw [if_neg hfail] at hL' ⊢
            exact ⟨L', hL'⟩
    · simp at hstep
  | reset =>
    simp only [State.step] at hstep
    obtain rfl := Option.some.inj hstep
    exact reset_laid h
  | store ptr off value =>
    simp only [State.step] at hstep
    split at hstep
    · next hptr =>
      obtain rfl := Option.some.inj hstep
      have hlive := State.live_perm hptr.1
      have hx : (ptr, s.asked ptr) ∈ s.live := hlive.symm.subset mem_cons_self
      refine ⟨L, h.user_write hx (sameOutside_wr _ ?_ _)⟩
      unfold Within userSpan
      dsimp only
      omega
    · simp at hstep

theorem init_laid (n : ℕ) (mem : Mem) :
    ∃ L, Laid (State.init n mem).pool (State.init n mem).live L := by
  refine ⟨⟨fun _ => [], fun _ => [], [], fun _ => none⟩, ?_, ?_, fun i => ?_, ?_,
    List.Perm.nil, rfl⟩
  · show 0 < if n > 0 then n else 64
    split
    · assumption
    · decide
  · exact ⟨List.Pairwise.nil, fun r hr => absurd hr not_mem_nil,
      fun i a ha => absurd ha not_mem_nil, fun x hx => absurd hx not_mem_nil,
      fun i => nodup_nil, nodup_nil⟩
  · exact ⟨rfl, fun a ha => absurd ha not_mem_nil, (Nat.zero_mul _).symm, rfl, rfl,
      List.Perm.nil, fun b hb => absurd hb not_mem_nil⟩
  · exact ⟨rfl, trivial, fun x hx => absurd hx not_mem_nil,
      fun x hx => absurd hx not_mem_nil, fun x hx => absurd hx not_mem_nil⟩

/-- Every state of every run in which the expansions of the slots fit into a size_t. -/
theorem pool_sound (n : ℕ) (mem : Mem) (cmds : List Cmd)
    (h : Guarded State.step Roomy (State.init n mem) cmds) :
    Along State.step (fun s => ∃ chunks free larges, Sound s chunks free larges)
      (State.init n mem) cmds := by
  have hlaid := along_of_guarded (I := fun s : State => ∃ L, Laid s.pool s.live L)
    (fun _ _ _ h hroomy hstep => step_laid h hroomy hstep) (init_laid n mem) h
  refine along_mono (fun s hs => ?_) hlaid
  obtain ⟨L, hL⟩ := hs
  exact ⟨_, _, _, hL.sound⟩

def sampleRun : List Cmd :=
  [.alloc 20 (some 1024), .store 1056 0 7, .alloc 9000 (some 4096), .realloc 1056 9000 (some 16384),
    .alloc 0 none, .alloc 32 none, .free 4144, .reset, .alloc 17 none]

theorem pool_sound_sample :
    Along State.step (fun s => ∃ chunks free larges, Sound s chunks free larges)
      (State.init 2 fun _ => 0) sampleRun :=
  pool_sound 2 (fun _ => 0) sampleRun (by decide +kernel)

theorem expandSlot_given {p : Pool} {i : Fin 10} {n a : ℕ} {ans : Option ℕ} (hn : 0 < n)
    (hmalloc : malloc p.regions (expandBytes i n) ans = some a) :
    ∃ q, expandSlot p i n ans = some q ∧ (q.slots i).freeList = a + chunkSize ∧
      q.regions = p.regions ++ [(a, expandBytes i n)] := by
  obtain ⟨hlast, -⟩ := expand_memory (i := i) hn (malloc_some hmalloc).1 p.mem (p.slots i).chunks 0
  unfold expandSlot
  rw [hmalloc]
  refine ⟨_, rfl, ?_, rfl⟩
  dsimp only
  rw [Function.update_self, if_pos hlast]

theorem step_alloc {s : State} {size : ℕ} {ans : Option ℕ} (h : size < sizeMod) :
    s.step (.alloc size ans) = some ⟨(allocInternal s.pool size ans).2,
      returned (allocInternal s.pool size ans).1 size s.live⟩ := by
  simp only [State.step, if_pos h]

/- The blocks of the last slot are 2^64 - 16 bytes, those of the others are fewer. -/
def wrappingCount : ℕ := 2249602935818238

/-- malloc is asked for 8 bytes, and the first block lies behind them. -/
theorem block_outside_regions :
    ¬ ∀ (n : ℕ) (mem : Mem) (cmds : List Cmd), (∀ i, blockSize i * n < sizeMod) →
      ∀ s, exec State.step (State.init n mem) cmds = some s →
        ∃ chunks free larges, Sound s chunks free larges := by
  intro hall
  have hwrap : expandBytes 9 wrappingCount = 8 := by decide +kernel
  let p : Pool := (State.init wrappingCount fun _ => 0).pool
  have hmalloc : malloc p.regions (expandBytes 9 wrappingCount) (some 16) = some 16 := by
    rw [hwrap]
    decide
  obtain ⟨q, hq, hfree, hregions⟩ := expandSlot_given (p := p) (by decide) hmalloc
  have hcall : allocInternal p 8192 (some 16) = takeBlock q 9 := by
    have hsize : getSlotIndex 8192 = some 9 := by decide
    have hempty : (p.slots 9).freeList = 0 := rfl
    have hcount : p.initialBlockCount = wrappingCount := rfl
    unfold allocInternal
    rw [if_neg (by decide), hsize, hcount]
    dsimp only
    rw [if_pos hempty, hq]
  have hptr : (takeBlock q 9).1 = 48 := by
    unfold takeBlock
    dsimp only
    rw [hfree]
    decide
  have hstep : State.step (State.init wrappingCount fun _ => 0) (.alloc 8192 (some 16)) =
      some ⟨(takeBlock q 9).2, [(48, 8192)]⟩ := by
    have hanswer : State.step (State.init wrappingCount fun _ => 0) (.alloc 8192 (some 16)) =
        some ⟨(allocInternal p 8192 (some 16)).2,
          returned (allocInternal p 8192 (some 16)).1 8192 []⟩ := step_alloc (by decide)
    rw [hanswer, hcall, hptr]
    rfl
  have hrun : exec State.step (State.init wrappingCount fun _ => 0) [.alloc 8192 (some 16)] =
      some ⟨(takeBlock q 9).2, [(48, 8192)]⟩ := by
    unfold exec
    rw [hstep]
    rfl
  obtain ⟨_, _, _, hsound⟩ := hall _ _ _ (by decide +kernel) _ hrun
  obtain ⟨r, hr, hwithin⟩ := hsound.inside (48, 8192) (mem_singleton_self _)
  have hmem : r ∈ q.regions := hr
  rw [hregions, hwrap] at hmem
  have heq : r = (16, 8) := by simpa [p, State.init] using hmem
  rw [heq] at hwithin
  exact absurd hwithin.2 (by decide)

end Voxlib.MPool
