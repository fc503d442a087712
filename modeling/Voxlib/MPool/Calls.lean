import Voxlib.MPool.Larges

/-!
# Calls of the pool

Each call leads from one layout to another, as long as the bytes of a chunk are a size.
-/

namespace Voxlib.MPool
open Spans Words List

variable {p : Pool} {live : List (ℕ × ℕ)} {L : Layout}

def userSpan (x : ℕ × ℕ) : Span := (x.1, capacity x.2)

theorem capacity_large {size : ℕ} (h : getSlotIndex size = none) : capacity size = size := by
  unfold capacity
  rw [h]

theorem le_userSize_ite {size n : ℕ} {i j : Fin 10} {o : Option (Fin 10)}
    (h : (if size ≤ n then some j else o) = some i) (hn : n ≤ userSize j)
    (ho : o = some i → size ≤ userSize i) : size ≤ userSize i := by
  by_cases hle : size ≤ n
  · rw [if_pos hle] at h
    obtain rfl := Option.some.inj h
    exact hle.trans hn
  · rw [if_neg hle] at h
    exact ho h

theorem le_capacity (size : ℕ) : size ≤ capacity size := by
  cases h : getSlotIndex size with
  | none => rw [capacity_large h]
  | some i =>
    rw [capacity_slot h]
    unfold getSlotIndex at h
    iterate 10 refine le_userSize_ite h le_rfl fun h => ?_
    cases h

variable {x : ℕ × ℕ}

theorem Laid.place (h : Laid p live L) (hx : x ∈ live) :
    (∃ i, getSlotIndex x.2 = some i ∧ ∃ b ∈ blocks i p.initialBlockCount (L.chunks i),
      x.1 = b + metaSize ∧ slotIndexOf p.mem b = i) ∨ (getSlotIndex x.2 = none ∧ ∃ y ∈ L.larges,
      x.1 = y.1 + (chunkSize + largeHeaderSize + metaSize) ∧ x.2 = y.2) := by
  cases hsize : getSlotIndex x.2 with
  | some i =>
    have hused : x.1 ∈ used i live :=
      mem_map_of_mem (mem_filter.mpr ⟨hx, by simpa using hsize⟩)
    obtain ⟨b, hb, hptr⟩ := (h.slots i).used_mem hused
    exact Or.inl ⟨i, rfl, b, hb, hptr, (h.slots i).tagged b (hptr ▸ hused)⟩
  | none =>
    have hlarge : x ∈ largeLive live := mem_filter.mpr ⟨hx, by simpa using hsize⟩
    obtain ⟨y, hy, heq⟩ := mem_map.mp (h.large_live.symm.subset hlarge)
    obtain ⟨hptr, hval⟩ := Prod.ext_iff.mp heq
    exact Or.inr ⟨rfl, y, hy, hptr.symm, hval.symm⟩

theorem userSpan_slot {i : Fin 10} {b : ℕ} (hsize : getSlotIndex x.2 = some i)
    (hptr : x.1 = b + metaSize) : userSpan x = (b + metaSize, userSize i) := by
  unfold userSpan
  rw [capacity_slot hsize, hptr]

theorem userSpan_large {y : ℕ × ℕ} (hsize : getSlotIndex x.2 = none)
    (hptr : x.1 = y.1 + (chunkSize + largeHeaderSize + metaSize)) (hval : x.2 = y.2) :
    userSpan x = (y.1 + (chunkSize + largeHeaderSize + metaSize), y.2) := by
  unfold userSpan
  rw [capacity_large hsize, hptr, hval]

theorem user_within_block (i : Fin 10) (b : ℕ) :
    Within (b + metaSize, userSize i) (b, blockSize i) := by
  unfold Within blockSize
  dsimp only
  omega

theorem user_within_large (y : ℕ × ℕ) :
    Within (y.1 + (chunkSize + largeHeaderSize + metaSize), y.2) (largeSpan y) := by
  unfold Within largeSpan
  dsimp only
  omega

theorem within_self (s : Span) : Within s s := ⟨le_refl _, le_refl _⟩

theorem node_within (i : Fin 10) (n a : ℕ) : Within (a, chunkSize) (chunkSpan i n a) := by
  unfold Within chunkSpan
  dsimp only
  omega

section
variable (h : Laid p live L)
include h

theorem Laid.inside (hx : x ∈ live) : ∃ r ∈ p.regions, Within (userSpan x) r := by
  rcases h.place hx with ⟨i, hsize, b, hb, hptr, -⟩ | ⟨hsize, y, hy, hptr, hval⟩
  · obtain ⟨a, ha, hwithin⟩ := block_span hb
    rw [userSpan_slot hsize hptr]
    exact ⟨_, (h.owned.chunk i a ha).2, (user_within_block i b).trans hwithin⟩
  · rw [userSpan_large hsize hptr hval]
    exact ⟨_, (h.owned.large y hy).2, user_within_large y⟩

theorem Laid.node_apart (hx : x ∈ live) {j : Fin 10} {a : ℕ} (ha : a ∈ L.chunks j) :
    Apart (userSpan x) (a, chunkSize) := by
  rcases h.place hx with ⟨i, hsize, b, hb, hptr, -⟩ | ⟨hsize, y, hy, hptr, hval⟩
  · rw [userSpan_slot hsize hptr]
    exact (h.owned.block_node_apart hb ha).within (user_within_block i b) (within_self _)
  · rw [userSpan_large hsize hptr hval]
    exact (h.owned.chunk_large_apart ha hy).symm.within (user_within_large y) (node_within _ _ _)

theorem Laid.header_apart (hx : x ∈ live) {z : ℕ × ℕ} (hz : z ∈ L.larges) :
    Apart (userSpan x) (z.1, chunkSize + largeHeaderSize + metaSize) := by
  have hheader : Within (z.1, chunkSize + largeHeaderSize + metaSize) (largeSpan z) := by
    unfold Within largeSpan
    dsimp only
    omega
  rcases h.place hx with ⟨i, hsize, b, hb, hptr, -⟩ | ⟨hsize, y, hy, hptr, hval⟩
  · rw [userSpan_slot hsize hptr]
    exact (h.owned.block_large_apart hb hz).within (user_within_block i b) hheader
  · rw [userSpan_large hsize hptr hval]
    by_cases hyz : y = z
    · rw [hyz]
      exact Or.inr (le_refl _)
    · exact (h.owned.larges_apart hy hz hyz).within (user_within_large y) hheader

theorem Laid.block_apart (hx : x ∈ live) {j : Fin 10} {c : ℕ}
    (hc : c ∈ blocks j p.initialBlockCount (L.chunks j))
    (hne : getSlotIndex x.2 = some j → x.1 ≠ c + metaSize) :
    Apart (userSpan x) (c, blockSize j) := by
  rcases h.place hx with ⟨i, hsize, b, hb, hptr, -⟩ | ⟨hsize, y, hy, hptr, hval⟩
  · rw [userSpan_slot hsize hptr]
    have hbc : i ≠ j ∨ b ≠ c := by
      by_contra hsame
      rw [not_or, not_not, not_not] at hsame
      exact hne (hsame.1 ▸ hsize) (hsame.2 ▸ hptr)
    exact (h.owned.blocks_apart hb hc hbc).within (user_within_block i b) (within_self _)
  · rw [userSpan_large hsize hptr hval]
    exact (h.owned.block_large_apart hc hy).symm.within (user_within_large y) (within_self _)

theorem Laid.word_apart (hx : x ∈ live) {j : Fin 10} {c : ℕ}
    (hc : c ∈ blocks j p.initialBlockCount (L.chunks j)) : Apart (userSpan x) (c, metaSize) := by
  by_cases hsame : x.1 = c + metaSize
  · exact Or.inr (le_of_eq hsame.symm)
  · refine (h.block_apart hx hc fun _ => hsame).within (within_self _) ?_
    unfold Within blockSize
    dsimp only
    omega

theorem Laid.user_write (hx : x ∈ live) {m' : Mem} (hm : SameOutside (userSpan x) p.mem m') :
    Laid { p with mem := m' } live L := by
  refine ⟨h.count, h.owned, fun i => ?_, ?_, h.large_live, h.total⟩
  · refine (h.slots i).frame (fun a ha => ⟨?_, ?_⟩) fun b hb => ?_
    · exact hm.at (h.node_apart hx ha) (first_within (by decide))
    · exact hm.at (h.node_apart hx ha) (by unfold Within chunkSize; dsimp only; omega)
    · exact hm.at (h.word_apart hx hb) (first_within (by decide))
  · refine h.larges.frame fun y hy k hk => hm.at (h.header_apart hx hy) ?_
    unfold Within chunkSize largeHeaderSize metaSize
    dsimp only
    omega

theorem Laid.used_nodup (i : Fin 10) : (used i live).Nodup := by
  have hall := (h.slots i).shared.nodup_iff.mpr
    ((h.owned.blocks_nodup i).map fun _ _ => Nat.add_right_cancel)
  exact (nodup_append.mp hall).2.1

theorem Laid.largeLive_nodup : (largeLive live).Nodup := by
  refine h.large_live.nodup_iff.mp ?_
  have hnodup : L.larges.Nodup := List.Nodup.of_map _ h.owned.larges_nodup
  refine hnodup.map fun x y heq => ?_
  obtain ⟨hptr, hval⟩ := Prod.ext_iff.mp heq
  exact Prod.ext (Nat.add_right_cancel hptr) hval

theorem Laid.live_apart : live.Pairwise fun x y => Apart (userSpan x) (userSpan y) := by
  rw [pairwise_iff_forall_sublist]
  intro x y hsub
  have hx : x ∈ live := hsub.subset mem_cons_self
  have hy : y ∈ live := hsub.subset (mem_cons_of_mem x mem_cons_self)
  rcases h.place hy with ⟨j, hsize, c, hc, hptr, -⟩ | ⟨hsize, z, hz, hptr, hval⟩
  · have hne : getSlotIndex x.2 = some j → x.1 ≠ c + metaSize := by
      -- both would be one entry of the live blocks of the slot
      intro hx2 heq
      have hfilter := hsub.filter fun w => getSlotIndex w.2 = some j
      rw [filter_cons_of_pos (by simpa using hx2), filter_cons_of_pos (by simpa using hsize)]
        at hfilter
      have hpair := (h.used_nodup j).sublist (hfilter.map Prod.fst)
      simp [heq, hptr] at hpair
    rw [userSpan_slot hsize hptr]
    exact (h.block_apart hx hc hne).within (within_self _) (user_within_block j c)
  · rw [userSpan_large hsize hptr hval]
    rcases h.place hx with ⟨i, hsize', b, hb, hptr', -⟩ | ⟨hsize', z', hz', hptr', hval'⟩
    · rw [userSpan_slot hsize' hptr']
      exact (h.owned.block_large_apart hb hz).within (user_within_block i b) (user_within_large z)
    · rw [userSpan_large hsize' hptr' hval']
      refine (h.owned.larges_apart hz' hz ?_).within (user_within_large z') (user_within_large z)
      rintro rfl
      have hfilter := hsub.filter fun w => getSlotIndex w.2 = none
      rw [filter_cons_of_pos (by simpa using hsize'),
        filter_cons_of_pos (by simpa using hsize)] at hfilter
      have hpair := h.largeLive_nodup.sublist hfilter
      have hxy : x = y := Prod.ext (hptr'.trans hptr.symm) (hval'.trans hval.symm)
      simp [hxy] at hpair

end

/-- A slot is expanded only by as many bytes as a size_t counts. -/
def Fits (p : Pool) (size : ℕ) (ans : Option ℕ) : Prop :=
  ∀ i, size ≠ 0 → getSlotIndex size = some i → (p.slots i).freeList = 0 →
    (malloc p.regions (expandBytes i p.initialBlockCount) ans).isSome →
    blockSize i * p.initialBlockCount + chunkSize < sizeMod

instance (p : Pool) (size : ℕ) (ans : Option ℕ) : Decidable (Fits p size ans) :=
  inferInstanceAs (Decidable (∀ _ : Fin 10, _))

theorem allocInternal_laid (h : Laid p live L) {size : ℕ} {ans : Option ℕ}
    (hfits : Fits p size ans) :
    ∃ L', Laid (allocInternal p size ans).2 (returned (allocInternal p size ans).1 size live) L' := by
  have hfail : ∃ L', Laid p (returned 0 size live) L' := ⟨L, h⟩
  have hgiven : ∀ {r : ℕ × Pool}, r.1 ≠ 0 → (∃ L', Laid r.2 ((r.1, size) :: live) L') →
      ∃ L', Laid r.2 (returned r.1 size live) L' := by
    intro r hr hlaid
    unfold returned
    rw [if_neg hr]
    exact hlaid
  unfold allocInternal
  by_cases hzero : size = 0
  · rw [if_pos hzero]
    exact hfail
  · rw [if_neg hzero]
    cases hsize : getSlotIndex size with
    | none =>
      dsimp only
      by_cases hbig : size > sizeMod - 1 - (chunkSize + largeHeaderSize + metaSize)
      · rw [if_pos hbig]
        exact hfail
      · rw [if_neg hbig]
        cases hmalloc : malloc p.regions (chunkSize + largeHeaderSize + metaSize + size) ans with
        | none => exact hfail
        | some a =>
          obtain ⟨hne, hlaid⟩ := putLarge_laid h hsize (malloc_some hmalloc)
          exact hgiven hne hlaid
    | some i =>
      dsimp only
      by_cases hempty : (p.slots i).freeList = 0
      · rw [if_pos hempty]
        cases hexpand : expandSlot p i p.initialBlockCount ans with
        | none => exact hfail
        | some q =>
          obtain ⟨⟨a, hlaid⟩, hfree⟩ :=
            expandSlot_laid h hexpand (hfits i hzero hsize hempty (expandSlot_answered hexpand))
          obtain ⟨hne, htake⟩ := takeBlock_laid hlaid hfree hsize
          exact hgiven hne htake
      · rw [if_neg hempty]
        obtain ⟨hne, htake⟩ := takeBlock_laid h hempty hsize
        exact hgiven hne htake

theorem Laid.live_ne_zero (h : Laid p live L) (hx : x ∈ live) : x.1 ≠ 0 := by
  rcases h.place hx with ⟨i, -, b, -, hptr, -⟩ | ⟨-, y, -, hptr, -⟩
  · unfold metaSize at hptr
    omega
  · unfold metaSize at hptr
    omega

/-- The index in front of a live block is the one of its size. -/
theorem Laid.index_of_live (h : Laid p live L) (hx : x ∈ live) :
    slotIndexOf p.mem (x.1 - metaSize) = ((getSlotIndex x.2).map Fin.val).getD largeIndex := by
  rcases h.place hx with ⟨i, hsize, b, -, hptr, htag⟩ | ⟨hsize, y, hy, hptr, -⟩
  · rw [hsize, hptr, Nat.add_sub_cancel, htag]
    rfl
  · have hblock : x.1 - metaSize = y.1 + chunkSize + largeHeaderSize := by omega
    rw [hsize, hblock, h.larges.tagged y hy]
    rfl

theorem freeInternal_laid (h : Laid p (x :: live) L) : ∃ L', Laid (freeInternal p x.1) live L' := by
  have hx : x ∈ x :: live := mem_cons_self
  have hne := h.live_ne_zero hx
  have hindex := h.index_of_live hx
  cases hsize : getSlotIndex x.2 with
  | none =>
    rw [hsize] at hindex
    have hbranch : freeInternal p x.1 = freeLarge p (x.1 - metaSize) := by
      unfold freeInternal
      rw [if_neg hne]
      exact if_pos hindex
    rw [hbranch]
    exact freeLarge_laid h hsize
  | some i =>
    rw [hsize] at hindex
    have hlarge : i.val ≠ largeIndex := Nat.ne_of_lt (Nat.lt_of_lt_of_le i.isLt (by decide))
    have hbranch : freeInternal p x.1 = putBlock p i (x.1 - metaSize) := by
      unfold freeInternal
      simp only [if_neg hne, hindex, Option.map_some, Option.getD_some, if_neg hlarge,
        dif_pos i.isLt]
    rw [hbranch]
    rcases h.place hx with ⟨j, -, b, -, hptr, -⟩ | ⟨hnone, -⟩
    · have hback : x.1 - metaSize = b := by rw [hptr, Nat.add_sub_cancel]
      have hxb : x = (b + metaSize, x.2) := Prod.ext hptr rfl
      rw [hback]
      rw [hxb] at h
      exact putBlock_laid h hsize
    · rw [hsize] at hnone
      exact nomatch hnone

theorem memcpy_sameOutside (m : Mem) (dst src : ℕ) {n len : ℕ} (h : n ≤ len) :
    SameOutside (dst, len) m (memcpy m dst src n) := by
  intro x hx
  refine if_neg fun hin => hx ?_
  unfold Within
  dsimp only
  omega

theorem Laid.resize {ptr old new : ℕ} {i : Fin 10} (h : Laid p ((ptr, old) :: live) L)
    (hold : getSlotIndex old = some i) (hnew : getSlotIndex new = some i) :
    Laid p ((ptr, new) :: live) L := by
  refine ⟨h.count, h.owned, fun j => ?_, h.larges, ?_, ?_⟩
  · have hslot := h.slots j
    rw [used_cons, hold] at hslot
    rw [used_cons, hnew]
    exact hslot
  · have hlive := h.large_live
    rw [largeLive_cons, if_neg (by rw [hold]; simp)] at hlive
    rw [largeLive_cons, if_neg (by rw [hnew]; simp)]
    exact hlive
  · rw [h.total, map_cons, map_cons, capacity_slot hold, capacity_slot hnew]

/- The size that vox_mpool_realloc takes the old block for. -/
theorem oldSize_of_live {idx : ℕ} (h : Laid p live L) (hx : x ∈ live)
    (hidx : slotIndexOf p.mem (x.1 - metaSize) = idx) :
    (if hlt : idx < 10 then userSize ⟨idx, hlt⟩ else p.mem (x.1 - metaSize - largeHeaderSize)) =
      capacity x.2 := by
  have hindex := h.index_of_live hx
  rw [hidx] at hindex
  rcases h.place hx with ⟨i, hsize, -⟩ | ⟨hsize, y, hy, hptr, hval⟩
  · rw [hsize] at hindex
    have hval : idx = i.val := hindex
    subst hval
    rw [capacity_slot hsize, dif_pos i.isLt]
  · rw [hsize] at hindex
    have hval' : idx = largeIndex := hindex
    have hheader : x.1 - metaSize - largeHeaderSize = y.1 + chunkSize := by omega
    subst hval'
    rw [dif_neg (by decide), capacity_large hsize, hheader, h.larges.size y hy, hval]

theorem copySize_spec (old new : ℕ) :
    (if capacity old = 0 ∨ new < capacity old then new else capacity old) ≤ new ∧
    (new ≠ 0 → min old new ≤
      if capacity old = 0 ∨ new < capacity old then new else capacity old) := by
  have hle := le_capacity old
  split
  · exact ⟨le_refl _, fun _ => min_le_right _ _⟩
  · constructor
    · omega
    · intro _
      exact le_trans (min_le_left _ _) hle

/-- A live block serves the new size as well, or a new block is asked for and what fits of the old
one is copied into it. -/
theorem realloc_cases {ptr old new : ℕ} (h : Laid p ((ptr, old) :: live) L) (hnew : new ≠ 0)
    (ans : Option ℕ) : (∃ i, getSlotIndex old = some i ∧ getSlotIndex new = some i ∧
      realloc p ptr new ans = (ptr, p)) ∨
    (∀ i, getSlotIndex old = some i → getSlotIndex new ≠ some i) ∧ ∃ n ≤ new, min old new ≤ n ∧
      realloc p ptr new ans = if (allocInternal p new ans).1 = 0 then (0, p)
        else ((allocInternal p new ans).1, freeInternal { (allocInternal p new ans).2 with
          mem := memcpy (allocInternal p new ans).2.mem (allocInternal p new ans).1 ptr n } ptr) := by
  have hx : (ptr, old) ∈ (ptr, old) :: live := mem_cons_self
  have hne : ptr ≠ 0 := h.live_ne_zero hx
  have hindex := h.index_of_live hx
  dsimp only at hindex
  generalize hidx : slotIndexOf p.mem (ptr - metaSize) = idx at hindex
  have hold := oldSize_of_live h hx hidx
  have hvalid : ¬ (idx ≠ largeIndex ∧ ¬ idx < 10) := by
    intro ⟨hlarge, hlt⟩
    cases hsize : getSlotIndex old with
    | none => exact hlarge (by rw [hindex, hsize]; rfl)
    | some i => exact hlt (by rw [hindex, hsize]; exact i.isLt)
  unfold realloc
  simp only [if_neg hne, if_neg hnew, hidx, if_neg hvalid, hold]
  by_cases hsame : (getSlotIndex new).map Fin.val = some idx
  · obtain ⟨i, hi, hival⟩ := Option.map_eq_some_iff.mp hsame
    refine .inl ⟨i, ?_, hi, if_pos hsame⟩
    cases hsize : getSlotIndex old with
    | none =>
      rw [hsize] at hindex
      have hlt := i.isLt
      rw [hival, hindex] at hlt
      exact absurd hlt (by decide)
    | some j =>
      rw [hsize] at hindex
      exact congrArg some (Fin.ext (hival.trans hindex)).symm
  · obtain ⟨hn, hmin⟩ := copySize_spec old new
    refine .inr ⟨fun i holdi hnewi => ?_, _, hn, hmin hnew, if_neg hsame⟩
    rw [holdi] at hindex
    exact hsame (by rw [hnewi, hindex]; rfl)

theorem realloc_laid {ptr old new : ℕ} {ans : Option ℕ} (h : Laid p ((ptr, old) :: live) L)
    (hnew : new ≠ 0)
    (hfits : (∀ i, getSlotIndex old = some i → getSlotIndex new ≠ some i) → Fits p new ans) :
    ∃ L', Laid (realloc p ptr new ans).2 (if (realloc p ptr new ans).1 = 0 then (ptr, old) :: live
       else ((realloc p ptr new ans).1, new) :: live) L' := by
  rcases realloc_cases h hnew ans with ⟨i, hold, hi, heq⟩ | ⟨hmoves, n, hn, -, heq⟩
  · rw [heq]
    simp only [if_neg (h.live_ne_zero mem_cons_self)]
    exact ⟨L, h.resize hold hi⟩
  · obtain ⟨L₁, halloc⟩ := allocInternal_laid h (hfits hmoves)
    rw [heq]
    generalize allocInternal p new ans = r at halloc
    by_cases hr : r.1 = 0
    · simp only [if_pos hr, if_true]
      exact ⟨L, h⟩
    · simp only [if_neg hr]
      unfold returned at halloc
      rw [if_neg hr] at halloc
      have hcopied := halloc.user_write mem_cons_self
        (memcpy_sameOutside r.2.mem r.1 ptr (le_trans hn (le_capacity new)))
      exact freeInternal_laid (x := (ptr, old)) (hcopied.perm (List.Perm.swap _ _ _))

end Voxlib.MPool
