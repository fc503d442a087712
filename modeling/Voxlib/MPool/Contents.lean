import Voxlib.MPool.Runs

/-!
# What is in the live blocks

The pool writes only in front of its blocks and into new ones, so live blocks keep their words.
-/

namespace Voxlib.MPool
open Run Spans Words List Option

variable {p : Pool} {live : List (ℕ × ℕ)} {L : Layout}

/-- vox_mpool_get_size (vox_mpool.c:350-374). -/
def getSize (p : Pool) (ptr : ℕ) : ℕ :=
  if ptr = 0 then 0
  else
    let block := ptr - metaSize
    let idx := slotIndexOf p.mem block
    if idx = largeIndex then p.mem (block - largeHeaderSize)
    else if h : idx < 10 then userSize ⟨idx, h⟩
    else 0

def Untouched (live : List (ℕ × ℕ)) (m m' : Mem) : Prop :=
  ∀ x ∈ live, ∀ w, Within (w, 1) (userSpan x) → m' w = m w

theorem Untouched.refl (live : List (ℕ × ℕ)) (m : Mem) : Untouched live m m := fun _ _ _ _ => rfl

theorem Untouched.trans {m m' m'' : Mem} (h : Untouched live m m') (h' : Untouched live m' m'') :
    Untouched live m m'' := fun x hx w hw => (h' x hx w hw).trans (h x hx w hw)

theorem Untouched.subset {live' : List (ℕ × ℕ)} {m m' : Mem} (h : Untouched live m m')
    (hs : live' ⊆ live) : Untouched live' m m' := fun x hx => h x (hs hx)

theorem untouched_of_outside {r : Span} {m m' : Mem} (hm : SameOutside r m m')
    (hr : ∀ x ∈ live, Apart r (userSpan x)) : Untouched live m m' :=
  fun x hx _ hw => hm.at (hr x hx) hw

variable {x : ℕ × ℕ}

theorem Laid.apart_of_fresh (h : Laid p live L) {n a : ℕ} (hfresh : Fresh p.regions n a)
    (hx : x ∈ live) : Apart (a, n) (userSpan x) := by
  obtain ⟨r, hr, hwithin⟩ := h.inside hx
  exact (hfresh.2.2.2 r hr).symm.within (within_self _) hwithin

theorem takeBlock_untouched (h : Laid p live L) {i : Fin 10} (hfree : (p.slots i).freeList ≠ 0) :
    Untouched live p.mem (takeBlock p i).2.mem := by
  have hi := h.slots i
  cases hlist : L.free i with
  | nil =>
    rw [hlist] at hi
    exact absurd hi.free_chain hfree
  | cons b rest =>
    rw [hlist] at hi
    have hhead : (p.slots i).freeList = b := hi.free_chain.1
    have hb := hi.free_mem mem_cons_self
    have hin : Within (b, 1) (b, metaSize) := first_within (by decide)
    unfold takeBlock
    dsimp only
    rw [hhead]
    exact untouched_of_outside (sameOutside_wr _ hin _) fun x hx => (h.word_apart hx hb).symm

variable {ans : Option ℕ}

theorem expandSlot_untouched {q : Pool} {i : Fin 10} (h : Laid p live L)
    (he : expandSlot p i p.initialBlockCount ans = some q)
    (hfit : blockSize i * p.initialBlockCount + chunkSize < sizeMod) :
    Untouched live p.mem q.mem := by
  unfold expandSlot at he
  cases hmalloc : malloc p.regions (expandBytes i p.initialBlockCount) ans with
  | none =>
    rw [hmalloc] at he
    cases he
  | some a =>
    rw [hmalloc] at he
    have hfresh := malloc_some hmalloc
    obtain ⟨hlast, m', hm', hsame, -⟩ := expand_memory (i := i) h.count hfresh.1 p.mem
      (p.slots i).chunks (p.slots i).freeList
    dsimp only at he
    simp only [if_pos hlast, hm'] at he
    obtain rfl := some.inj he
    rw [expandBytes_eq hfit] at hfresh
    exact untouched_of_outside hsame fun x hx => h.apart_of_fresh hfresh hx

theorem putLarge_untouched (h : Laid p live L) {a size : ℕ}
    (hfresh : Fresh p.regions (chunkSize + largeHeaderSize + metaSize + size) a) :
    Untouched live p.mem (putLarge p a size).2.mem := by
  intro x hx w hw
  have hapart := h.apart_of_fresh hfresh hx
  have hne : ∀ k < 48, w ≠ a + k := by
    intro k hk heq
    have hin : Within (a + k, 1) (a, chunkSize + largeHeaderSize + metaSize + size) := by
      unfold Within chunkSize largeHeaderSize metaSize
      dsimp only
      omega
    exact ne_of_apart hapart hin hw heq.symm
  have hhead : p.largeChunks ≠ 0 → w ≠ p.largeChunks + 8 := by
    intro hnz heq
    obtain ⟨z, hz, hzeq⟩ := h.larges.head_mem hnz
    have hin : Within (z.1 + 8, 1) (z.1, chunkSize + largeHeaderSize + metaSize) := by
      unfold Within chunkSize largeHeaderSize metaSize
      dsimp only
      omega
    exact ne_of_apart (h.header_apart hx hz) hw hin (by rw [heq, hzeq])
  have h0 : w ≠ a := hne 0 (by decide)
  have h24 := hne 24 (by decide)
  have h32 := hne 32 (by decide)
  have h40 := hne 40 (by decide)
  simp only [putLarge, setIndex, chunkSize, largeHeaderSize, Nat.add_assoc]
  by_cases hnz : p.largeChunks = 0
  · rw [if_neg (not_not.mpr hnz), wr_other _ (hne 8 (by decide)), wr_other _ h0,
      wr_other _ (hne 16 (by decide)), wr_other _ h40, wr_other _ h32, wr_other _ h24]
  · rw [if_pos hnz, wr_other _ (hhead hnz), wr_other _ (hne 8 (by decide)), wr_other _ h0,
      wr_other _ (hne 16 (by decide)), wr_other _ h40, wr_other _ h32, wr_other _ h24]

theorem allocInternal_untouched (h : Laid p live L) {size : ℕ} (hfits : Fits p size ans) :
    Untouched live p.mem (allocInternal p size ans).2.mem := by
  have hrefl := Untouched.refl live p.mem
  unfold allocInternal
  by_cases hzero : size = 0
  · rw [if_pos hzero]
    exact hrefl
  rw [if_neg hzero]
  cases hsize : getSlotIndex size with
  | none =>
    dsimp only
    split
    · exact hrefl
    · cases hmalloc : malloc p.regions (chunkSize + largeHeaderSize + metaSize + size) ans with
      | none => exact hrefl
      | some a => exact putLarge_untouched h (malloc_some hmalloc)
  | some i =>
    dsimp only
    by_cases hempty : (p.slots i).freeList = 0
    · rw [if_pos hempty]
      cases hexpand : expandSlot p i p.initialBlockCount ans with
      | none => exact hrefl
      | some q =>
        have hfit := hfits i hzero hsize hempty (expandSlot_answered hexpand)
        obtain ⟨⟨a, hlaid⟩, hfree⟩ := expandSlot_laid h hexpand hfit
        exact (expandSlot_untouched h hexpand hfit).trans (takeBlock_untouched hlaid hfree)
    · rw [if_neg hempty]
      exact takeBlock_untouched h hempty

theorem putBlock_untouched {b : ℕ} {i : Fin 10} (h : Laid p live L)
    (hb : b ∈ blocks i p.initialBlockCount (L.chunks i)) :
    Untouched live p.mem (putBlock p i b).mem := by
  have hin : Within (b, 1) (b, metaSize) := first_within (by decide)
  exact untouched_of_outside (sameOutside_wr _ hin _) fun x hx => (h.word_apart hx hb).symm

theorem freeLarge_untouched {ptr size : ℕ} (h : Laid p ((ptr, size) :: live) L)
    (hsize : getSlotIndex size = none) :
    Untouched live p.mem (freeLarge p (ptr - metaSize)).mem := by
  obtain ⟨x, hx, rfl, rfl⟩ := h.large_of_live hsize
  obtain ⟨front, back, hL⟩ := append_of_mem hx
  have hheader : x.1 + (chunkSize + largeHeaderSize + metaSize) - metaSize - largeHeaderSize =
      x.1 + chunkSize := by omega
  have hlarges := h.larges
  have hsep := h.owned.separate
  have hnodup := h.owned.larges_nodup
  rw [hL] at hlarges hsep hnodup
  obtain ⟨-, hout⟩ := hlarges.unlink hsep hnodup rfl rfl rfl
  intro z hz w hw
  have hlive := mem_cons_of_mem (x.1 + (chunkSize + largeHeaderSize + metaSize), x.2) hz
  unfold freeLarge
  dsimp only
  rw [hheader, h.larges.node x hx]
  apply hout
  intro y hy
  rw [← hL] at hy
  have hapart := h.header_apart hlive hy
  have hlink : Within (y.1, 1) (y.1, chunkSize + largeHeaderSize + metaSize) ∧
      Within (y.1 + 8, 1) (y.1, chunkSize + largeHeaderSize + metaSize) := by
    unfold Within chunkSize largeHeaderSize metaSize
    dsimp only
    omega
  exact ⟨ne_of_apart hapart hw hlink.1, ne_of_apart hapart hw hlink.2⟩

theorem freeInternal_of_live (h : Laid p live L) (hx : x ∈ live) :
    (getSlotIndex x.2 = none ∧ freeInternal p x.1 = freeLarge p (x.1 - metaSize)) ∨
    ∃ i, getSlotIndex x.2 = some i ∧ freeInternal p x.1 = putBlock p i (x.1 - metaSize) := by
  have hne := h.live_ne_zero hx
  have hindex := h.index_of_live hx
  unfold freeInternal
  cases hsize : getSlotIndex x.2 with
  | none =>
    left
    rw [hsize] at hindex
    rw [if_neg hne]
    exact ⟨rfl, if_pos hindex⟩
  | some i =>
    right
    rw [hsize] at hindex
    have hlarge : i.val ≠ largeIndex := Nat.ne_of_lt (Nat.lt_of_lt_of_le i.isLt (by decide))
    refine ⟨i, rfl, ?_⟩
    simp only [if_neg hne, hindex, map_some, getD_some, if_neg hlarge,
      dif_pos i.isLt]

theorem freeInternal_untouched (h : Laid p (x :: live) L) :
    Untouched live p.mem (freeInternal p x.1).mem := by
  have hx : x ∈ x :: live := mem_cons_self
  rcases freeInternal_of_live h hx with ⟨hsize, hcall⟩ | ⟨i, hsize, hcall⟩
  · rw [hcall]
    exact freeLarge_untouched h hsize
  · rw [hcall]
    rcases h.place hx with ⟨j, hj, b, hb, hptr, -⟩ | ⟨hnone, -⟩
    · obtain rfl := some.inj (hsize.symm.trans hj)
      rw [hptr, Nat.add_sub_cancel]
      exact (putBlock_untouched h hb).subset (subset_cons_self x live)
    · rw [hsize] at hnone
      cases hnone

theorem getSize_of_live (h : Laid p live L) (hx : x ∈ live) : getSize p x.1 = capacity x.2 := by
  have hne := h.live_ne_zero hx
  have hindex := h.index_of_live hx
  unfold getSize
  dsimp only
  rw [if_neg hne, hindex]
  rcases h.place hx with ⟨i, hsize, -⟩ | ⟨hsize, y, hy, hptr, hval⟩
  · have hlarge : i.val ≠ largeIndex := Nat.ne_of_lt (Nat.lt_of_lt_of_le i.isLt (by decide))
    rw [capacity_slot hsize]
    simp only [hsize, map_some, getD_some, if_neg hlarge, dif_pos i.isLt]
  · have hheader : x.1 - metaSize - largeHeaderSize = y.1 + chunkSize := by omega
    rw [capacity_large hsize, hsize, hheader, h.larges.size y hy, hval]
    exact if_pos rfl

/-- What vox_mpool_realloc does to a live block and to the others. -/
inductive Reallocated (p : Pool) (live : List (ℕ × ℕ)) (ptr old new : ℕ) : ℕ → Pool → Prop where
  | moved {q : ℕ} {p' : Pool} (hne : q ≠ 0) (hroom : new ≤ getSize p' q)
      (hcopy : ∀ k < min old new, p'.mem (q + k) = p.mem (ptr + k))
      (hothers : Untouched live p.mem p'.mem)
      (hsizes : ∀ x ∈ live, getSize p' x.1 = getSize p x.1) : Reallocated p live ptr old new q p'
  | refused : Reallocated p live ptr old new 0 p

theorem memcpy_at (m : Mem) (dst src n : ℕ) {k : ℕ} (hk : k < n) :
    memcpy m dst src n (dst + k) = m (src + k) := by
  unfold memcpy
  rw [if_pos (by omega), Nat.add_sub_cancel_left]

/- The new block is given, the old one is still live: it is copied and released. -/
theorem moved_spec {r : ℕ × Pool} {ptr old new n : ℕ} {L₁ : Layout}
    (hbefore : Laid p ((ptr, old) :: live) L) (h : Laid r.2 ((r.1, new) :: (ptr, old) :: live) L₁)
    (hkept : Untouched ((ptr, old) :: live) p.mem r.2.mem) (hn : n ≤ new) (hmin : min old new ≤ n) :
    Reallocated p live ptr old new r.1
      (freeInternal { r.2 with mem := memcpy r.2.mem r.1 ptr n } ptr) := by
  have hnew : (r.1, new) ∈ (r.1, new) :: (ptr, old) :: live := mem_cons_self
  have hcopy := memcpy_sameOutside r.2.mem r.1 ptr (le_trans hn (le_capacity new))
  have hlaid : Laid { r.2 with mem := memcpy r.2.mem r.1 ptr n }
      ((ptr, old) :: (r.1, new) :: live) L₁ :=
    (h.user_write hnew hcopy).perm (List.Perm.swap _ _ _)
  have hcopied : Untouched ((ptr, old) :: live) r.2.mem (memcpy r.2.mem r.1 ptr n) :=
    untouched_of_outside hcopy fun x hx => (pairwise_cons.mp h.live_apart).1 x hx
  obtain ⟨L₂, hfinal⟩ := freeInternal_laid hlaid
  have hfreed : Untouched ((r.1, new) :: live) (memcpy r.2.mem r.1 ptr n)
      (freeInternal { r.2 with mem := memcpy r.2.mem r.1 ptr n } ptr).mem :=
    freeInternal_untouched hlaid
  apply Reallocated.moved
  · exact h.live_ne_zero hnew
  · rw [getSize_of_live hfinal mem_cons_self]
    exact le_capacity new
  · intro k hk
    have hk' := lt_min_iff.mp hk
    have hcapOld := le_capacity old
    have hcapNew := le_capacity new
    have hto : Within (r.1 + k, 1) (userSpan (r.1, new)) := by
      unfold Within userSpan
      dsimp only
      omega
    have hfrom : Within (ptr + k, 1) (userSpan (ptr, old)) := by
      unfold Within userSpan
      dsimp only
      omega
    rw [hfreed _ mem_cons_self _ hto, memcpy_at _ _ _ _ (by omega),
      hkept _ mem_cons_self _ hfrom]
  · have hsub : live ⊆ (ptr, old) :: live := subset_cons_self _ _
    have hsub' : live ⊆ (r.1, new) :: live := subset_cons_self _ _
    exact ((hkept.subset hsub).trans (hcopied.subset hsub)).trans (hfreed.subset hsub')
  · intro x hx
    rw [getSize_of_live hfinal (mem_cons_of_mem _ hx),
      getSize_of_live hbefore (mem_cons_of_mem _ hx)]

theorem realloc_spec {ptr old new : ℕ} (h : Laid p ((ptr, old) :: live) L) (hnew : new ≠ 0)
    (hfits : (∀ i, getSlotIndex old = some i → getSlotIndex new ≠ some i) → Fits p new ans) :
    Reallocated p live ptr old new (realloc p ptr new ans).1 (realloc p ptr new ans).2 := by
  have hx : (ptr, old) ∈ (ptr, old) :: live := mem_cons_self
  rcases realloc_cases h hnew ans with ⟨i, hold, hi, heq⟩ | ⟨hmoves, n, hn, hmin, heq⟩
  · -- the block serves the new size as well
    rw [heq]
    apply Reallocated.moved (h.live_ne_zero hx)
    · rw [getSize_of_live h hx, capacity_slot hold, ← capacity_slot hi]
      exact le_capacity new
    · exact fun _ _ => rfl
    · exact Untouched.refl live p.mem
    · exact fun _ _ => rfl
  · obtain ⟨L₁, halloc⟩ := allocInternal_laid h (hfits hmoves)
    have hkept := allocInternal_untouched h (hfits hmoves)
    rw [heq]
    generalize allocInternal p new ans = r at halloc hkept
    by_cases hr : r.1 = 0
    · rw [if_pos hr]
      exact .refused
    · rw [if_neg hr]
      unfold returned at halloc
      rw [if_neg hr] at halloc
      exact moved_spec h halloc hkept hn hmin

/- What a call of vox_mpool_realloc on a live block comes to; with the size 0
   it is a release. -/
structure Reallocates (s t : State) (ptr new q : ℕ) : Prop where
  sound : ∃ chunks free larges, Sound t chunks free larges
  released : new = 0 → q = 0 ∧ t.live = without s.live ptr ∧
    Untouched (without s.live ptr) s.pool.mem t.pool.mem
  kept : new ≠ 0 → Reallocated s.pool (without s.live ptr) ptr (s.asked ptr) new q t.pool ∧
    t.live = if q = 0 then s.live else (q, new) :: without s.live ptr

theorem step_realloc {s : State} {ptr new : ℕ} (hlive : s.isLive ptr) (hnew : new < sizeMod) :
    s.step (.realloc ptr new ans) = some ⟨(realloc s.pool ptr new ans).2,
      if new = 0 then without s.live ptr else if (realloc s.pool ptr new ans).1 = 0 then s.live
      else ((realloc s.pool ptr new ans).1, new) :: without s.live ptr⟩ := by
  unfold State.step
  exact if_pos ⟨hnew, Or.inr hlive⟩

/-- In every state of a run vox_mpool_realloc keeps the contents of the block
and of all others, or refuses. -/
theorem realloc_keeps_contents (n : ℕ) (mem : Mem) (cmds : List Cmd)
    (h : Guarded State.step Roomy (State.init n mem) cmds) :
    Along State.step (fun s => ∀ ptr new ans, s.isLive ptr → new < sizeMod →
      Roomy s (.realloc ptr new ans) → ∃ t, s.step (.realloc ptr new ans) = some t ∧
        Reallocates s t ptr new (realloc s.pool ptr new ans).1) (State.init n mem) cmds := by
  have hlaid := along_of_guarded (I := fun s : State => ∃ L, Laid s.pool s.live L)
    (fun _ _ _ h hroomy hstep => step_laid h hroomy hstep) (init_laid n mem) h
  apply along_mono _ hlaid
  intro s hs ptr new ans hlive hlt hroomy
  have hstep : s.step (.realloc ptr new ans) = some ⟨(realloc s.pool ptr new ans).2,
      if new = 0 then without s.live ptr
      else if (realloc s.pool ptr new ans).1 = 0 then s.live
      else ((realloc s.pool ptr new ans).1, new) :: without s.live ptr⟩ := step_realloc hlive hlt
  obtain ⟨L', hL'⟩ := step_laid hs hroomy hstep
  obtain ⟨L, hL⟩ := hs
  have hl := hL.perm (State.live_perm hlive)
  have hne : ptr ≠ 0 := hl.live_ne_zero (x := (ptr, s.asked ptr)) mem_cons_self
  refine ⟨_, hstep, ⟨_, _, _, hL'.sound⟩, ?_, ?_⟩
  · intro hzero
    have hcall : realloc s.pool ptr new ans = (0, freeInternal s.pool ptr) := by
      unfold realloc
      rw [if_neg hne, if_pos hzero]
    dsimp only
    rw [if_pos hzero, hcall]
    exact ⟨rfl, rfl, freeInternal_untouched hl⟩
  · intro hzero
    dsimp only
    rw [if_neg hzero]
    refine ⟨realloc_spec hl hzero ?_, rfl⟩
    exact fun hmoves => hroomy fun i _ hi => hmoves i hi

theorem realloc_keeps_contents_sample :
    Along State.step (fun s => ∀ ptr new ans, s.isLive ptr → new < sizeMod →
      Roomy s (.realloc ptr new ans) → ∃ t, s.step (.realloc ptr new ans) = some t ∧
        Reallocates s t ptr new (realloc s.pool ptr new ans).1) (State.init 2 fun _ => 0)
      sampleRun :=
  realloc_keeps_contents 2 (fun _ => 0) sampleRun (by decide +kernel)

/-- With the size 0 the answer is NULL, and the block is not live any more. -/
theorem realloc_zero_releases :
    ∃ s t : State, exec State.step (State.init 2 fun _ => 0) [.alloc 20 (some 1024)] = some s ∧
      s.isLive 1056 ∧ s.step (.realloc 1056 0 none) = some t ∧
      (realloc s.pool 1056 0 none).1 = 0 ∧ ¬ t.isLive 1056 := by
  have hrun : (exec State.step (State.init 2 fun _ => 0) [.alloc 20 (some 1024)]).map State.live =
      some [(1056, 20)] := by
    decide +kernel
  obtain ⟨s, hs, hlive⟩ := map_eq_some_iff.mp hrun
  have hptr : s.isLive 1056 := by
    unfold State.isLive
    rw [hlive]
    decide
  refine ⟨s, _, hs, hptr, step_realloc hptr (by decide), ?_, ?_⟩
  · unfold realloc
    rw [if_neg (by decide), if_pos rfl]
  · unfold State.isLive
    dsimp only
    rw [if_pos rfl, hlive]
    decide

end Voxlib.MPool
