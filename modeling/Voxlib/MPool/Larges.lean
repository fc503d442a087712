import Voxlib.MPool.Blocks

/-!
# Large blocks

The list of large chunks is linked in both directions.
-/

namespace Voxlib.MPool
open Spans Words List

/- A word of the node or the headers belongs to one block and is one of its fields. -/
def Separate (larges : List (ℕ × ℕ)) : Prop :=
  ∀ x ∈ larges, ∀ y ∈ larges, ∀ k < 48, ∀ l < 48, x.1 + k = y.1 + l → x = y ∧ k = l

variable {regions : List Span}

theorem Owned.separate {n : ℕ} {L : Layout} (h : Owned regions n L) : Separate L.larges := by
  intro x hx y hy k hk l hl heq
  have hword : ∀ (z : ℕ × ℕ) (d : ℕ), d < 48 → Within (z.1 + d, 1) (largeSpan z) := by
    intro z d hd
    unfold Within largeSpan chunkSize largeHeaderSize metaSize
    dsimp only
    omega
  by_cases hxy : x = y
  · exact ⟨hxy, by rw [hxy] at heq; omega⟩
  · exact absurd heq (ne_of_apart (h.larges_apart hx hy hxy) (hword x k hk) (hword y l hl))

variable {larges front back : List (ℕ × ℕ)} {m : Mem} {head : ℕ}

variable {x : ℕ × ℕ}

theorem Separate.wr_field (h : Separate larges) {y : ℕ × ℕ} (hx : x ∈ larges) (hy : y ∈ larges)
    {k l : ℕ} (hk : k < 48) (hl : l < 48) (hne : x = y → k ≠ l) (v : ℕ) :
    wr m (y.1 + l) v (x.1 + k) = m (x.1 + k) := by
  refine wr_other m (fun heq => ?_) v
  obtain ⟨hxy, hkl⟩ := h x hx y hy k hk l hl heq
  exact hne hxy hkl

theorem LargesOk.relink (h : LargesOk m head larges) {m' : Mem} {head' : ℕ}
    {larges' : List (ℕ × ℕ)} (hsub : larges' ⊆ larges)
    (hsame : ∀ x ∈ larges', ∀ k < 48, chunkSize ≤ k → m' (x.1 + k) = m (x.1 + k))
    (hchain : Chain m' head' (larges'.map Prod.fst))
    (hprevs : Prevs m' 8 0 (larges'.map Prod.fst)) : LargesOk m' head' larges' := by
  refine ⟨hchain, hprevs, fun x hx => ?_, fun x hx => ?_, fun x hx => ?_⟩
  · rw [hsame x hx chunkSize (by decide) (le_refl _)]
    exact h.size x (hsub hx)
  · rw [Nat.add_assoc, hsame x hx (chunkSize + 8) (by decide) (by decide), ← Nat.add_assoc]
    exact h.node x (hsub hx)
  · unfold slotIndexOf
    rw [Nat.add_assoc, hsame x hx (chunkSize + largeHeaderSize) (by decide) (by decide),
      ← Nat.add_assoc]
    exact h.tagged x (hsub hx)

theorem base_notMem (hnodup : (larges.map Prod.fst).Nodup) (h : larges = front ++ x :: back) :
    x.1 ∉ front.map Prod.fst ∧ x.1 ∉ back.map Prod.fst := by
  rw [h, map_append, map_cons] at hnodup
  have hx := (nodup_cons.mp (perm_middle.nodup_iff.mp hnodup)).1
  rw [mem_append, not_or] at hx
  exact hx

theorem skip_next (h : LargesOk m head (front ++ x :: back)) (hsep : Separate (front ++ x :: back))
    (hnodup : ((front ++ x :: back).map Prod.fst).Nodup) :
    ∃ m' head', (if m (x.1 + 8) ≠ 0 then wr m (m (x.1 + 8)) (m x.1) else m) = m' ∧
      (if m (x.1 + 8) ≠ 0 then head else m x.1) = head' ∧
      Chain m' head' ((front ++ back).map Prod.fst) ∧
      (∀ y ∈ front ++ x :: back, ∀ k < 48, k ≠ 0 → m' (y.1 + k) = m (y.1 + k)) ∧
      m' x.1 = m x.1 ∧ ∀ w, (∀ y ∈ front ++ x :: back, w ≠ y.1) → m' w = m w := by
  have hchain := h.chain
  have hprevs := h.prevs
  rw [map_append, map_cons] at hprevs
  have hprev := (prevs_append.mp hprevs).2.1
  rcases eq_nil_or_concat' front with rfl | ⟨front', q, rfl⟩
  · have hzero : m (x.1 + 8) = 0 := hprev
    rw [hzero]
    exact ⟨m, m x.1, rfl, rfl, hchain.2.2, fun _ _ _ _ _ => rfl, rfl, fun _ _ => rfl⟩
  · have hq : m (x.1 + 8) = q.1 := by simpa using hprev
    have hmem : q ∈ front' ++ [q] ++ x :: back := by simp
    have hq0 : q.1 ≠ 0 := hchain.ne_zero (mem_map_of_mem hmem)
    rw [hq, if_pos hq0, if_pos hq0]
    have hsplit : front' ++ [q] ++ x :: back = front' ++ q :: (x :: back) := by simp
    obtain ⟨hfront, hback⟩ := base_notMem hnodup hsplit
    rw [map_cons, mem_cons, not_or] at hback
    refine ⟨_, _, rfl, rfl, ?_, fun y hy k hk hne => ?_, wr_other m (Ne.symm hback.1) _,
      fun w hw => wr_other m (hw q hmem) _⟩
    · simp only [map_append, map_cons, map_nil] at hchain ⊢
      exact hchain.bypass hfront hback.2
    · exact hsep.wr_field hy hmem hk (by decide : 0 < 48) (fun _ => hne) _

theorem LargesOk.unlink (h : LargesOk m head (front ++ x :: back))
    (hsep : Separate (front ++ x :: back)) (hnodup : ((front ++ x :: back).map Prod.fst).Nodup)
    {m₁ m₂ : Mem} {head' : ℕ}
    (hm₁ : (if m (x.1 + 8) ≠ 0 then wr m (m (x.1 + 8)) (m x.1) else m) = m₁)
    (hhead : (if m (x.1 + 8) ≠ 0 then head else m x.1) = head')
    (hm₂ : (if m₁ x.1 ≠ 0 then wr m₁ (m₁ x.1 + 8) (m₁ (x.1 + 8)) else m₁) = m₂) :
    LargesOk m₂ head' (front ++ back) ∧
      ∀ w, (∀ y ∈ front ++ x :: back, w ≠ y.1 ∧ w ≠ y.1 + 8) → m₂ w = m w := by
  obtain ⟨m', head₂, hm', hhead₂, hchain, hfields, hnext, hout⟩ := skip_next h hsep hnodup
  obtain rfl : m' = m₁ := hm'.symm.trans hm₁
  obtain rfl : head₂ = head' := hhead₂.symm.trans hhead
  have hx : x ∈ front ++ x :: back := by simp
  have hsub : front ++ back ⊆ front ++ x :: back :=
    append_subset.mpr ⟨subset_append_left _ _,
      fun y hy => mem_append_right _ (mem_cons_of_mem _ hy)⟩
  have hprevs : Prevs m' 8 0 ((front ++ x :: back).map Prod.fst) := by
    refine h.prevs.frame fun a ha => ?_
    obtain ⟨y, hy, rfl⟩ := mem_map.mp ha
    exact hfields y hy 8 (by decide) (by decide)
  have hseg := h.chain
  rw [map_append, map_cons] at hseg
  obtain ⟨mid, -, -, -, hrest⟩ := seg_append.mp hseg
  cases back with
  | nil =>
    have hzero : m' x.1 = 0 := hnext.trans hrest
    rw [hzero] at hm₂
    obtain rfl : m' = m₂ := by simpa using hm₂
    rw [map_append] at hprevs
    refine ⟨h.relink hsub (fun y hy k hk hge => ?_) hchain ?_, fun w hw => hout w fun y hy =>
      (hw y hy).1⟩
    · exact hfields y (hsub hy) k hk (by unfold chunkSize at hge; omega)
    · rw [append_nil]
      exact (prevs_append.mp hprevs).1
  | cons b back =>
    have hb : m' x.1 = b.1 := hnext.trans hrest.1
    have hb0 : b.1 ≠ 0 := hrest.2.1
    have hmem : b ∈ front ++ x :: b :: back := by simp
    rw [hb, if_pos hb0] at hm₂
    have hsplit : front ++ x :: b :: back = (front ++ [x]) ++ b :: back := by simp
    obtain ⟨hfront, hback⟩ := base_notMem hnodup hsplit
    rw [map_append, mem_append, not_or] at hfront
    have hsame : ∀ y ∈ front ++ x :: b :: back, ∀ k < 48, k ≠ 8 → m₂ (y.1 + k) = m' (y.1 + k) := by
      intro y hy k hk hne
      rw [← hm₂]
      exact hsep.wr_field hy hmem hk (by decide) (fun _ => hne) _
    refine ⟨h.relink hsub (fun y hy k hk hge => ?_) (hchain.frame fun a ha => ?_) ?_, fun w hw => ?_⟩
    · rw [hsame y (hsub hy) k hk (by unfold chunkSize at hge; omega),
        hfields y (hsub hy) k hk (by unfold chunkSize at hge; omega)]
    · obtain ⟨y, hy, rfl⟩ := mem_map.mp ha
      exact hsame y (hsub hy) 0 (by decide) (by decide)
    · rw [← hm₂]
      simp only [map_append, map_cons] at hprevs ⊢
      exact hprevs.bypass hfront.1 hback
    · rw [← hm₂, wr_other _ (hw b hmem).2, hout w fun y hy => (hw y hy).1]

variable {p : Pool} {live : List (ℕ × ℕ)} {L : Layout}

theorem Laid.large_of_live {ptr size : ℕ} (h : Laid p ((ptr, size) :: live) L)
    (hsize : getSlotIndex size = none) :
    ∃ x ∈ L.larges, ptr = x.1 + (chunkSize + largeHeaderSize + metaSize) ∧ size = x.2 := by
  have hlive := h.large_live
  rw [largeLive_cons, if_pos hsize] at hlive
  obtain ⟨x, hx, heq⟩ := mem_map.mp (hlive.symm.subset mem_cons_self)
  obtain ⟨hptr, hval⟩ := Prod.ext_iff.mp heq
  exact ⟨x, hx, hptr.symm, hval.symm⟩

theorem Laid.slots_frame (h : Laid p live L) {m' : Mem}
    (hm : ∀ w, (∀ y ∈ L.larges, w ≠ y.1 ∧ w ≠ y.1 + 8) → m' w = p.mem w) (i : Fin 10) :
    SlotOk m' p.initialBlockCount i (p.slots i) (L.chunks i) (L.free i) (used i live) := by
  have hlink : ∀ y : ℕ × ℕ, Within (y.1, 1) (largeSpan y) ∧ Within (y.1 + 8, 1) (largeSpan y) := by
    intro y
    unfold Within largeSpan chunkSize
    dsimp only
    omega
  have hnode : ∀ a ∈ L.chunks i, ∀ d < chunkSize, m' (a + d) = p.mem (a + d) := by
    intro a ha d hd
    have hin : Within (a + d, 1) (chunkSpan i p.initialBlockCount a) := by
      unfold Within chunkSpan
      dsimp only
      omega
    refine hm _ fun y hy => ?_
    have hapart := h.owned.chunk_large_apart ha hy
    exact ⟨ne_of_apart hapart hin (hlink y).1, ne_of_apart hapart hin (hlink y).2⟩
  refine (h.slots i).frame (fun a ha => ⟨hnode a ha 0 (by decide), hnode a ha 16 (by decide)⟩)
    fun b hb => hm _ fun y hy => ?_
  have hapart := h.owned.block_large_apart hb hy
  have hin := first_within (b := b) (blockSize_pos i)
  exact ⟨ne_of_apart hapart hin (hlink y).1, ne_of_apart hapart hin (hlink y).2⟩

theorem mem_mfree {a : ℕ} {r : Span} (hr : r ∈ regions) (hne : r.1 ≠ a) : r ∈ mfree regions a := by
  unfold mfree
  rw [mem_eraseP_of_neg (by simpa using hne)]
  exact hr

theorem Owned.drop {n : ℕ} (h : Owned regions n L) (hL : L.larges = front ++ x :: back) :
    Owned (mfree regions x.1) n { L with larges := front ++ back } := by
  have hx : x ∈ L.larges := by simp [hL]
  have hnodup := h.larges_nodup
  have hbase := base_notMem hnodup hL
  rw [hL, map_append, map_cons] at hnodup
  refine ⟨h.apart.sublist eraseP_sublist, fun r hr => h.nonzero r (mem_of_mem_eraseP hr),
    fun i a ha => ?_, fun y hy => ?_, h.chunks_nodup, ?_⟩
  · obtain ⟨howner, hin⟩ := h.chunk i a ha
    refine ⟨howner, mem_mfree hin fun heq => ?_⟩
    have hax : a = x.1 := heq
    rw [hax, (h.large x hx).1] at howner
    exact nomatch howner
  · have hy' : y ∈ L.larges := by
      rw [hL]
      rcases mem_append.mp hy with hy | hy
      · exact mem_append_left _ hy
      · exact mem_append_right _ (mem_cons_of_mem _ hy)
    obtain ⟨howner, hin⟩ := h.large y hy'
    refine ⟨howner, mem_mfree hin fun heq => ?_⟩
    have hyx : y.1 = x.1 := heq
    rcases mem_append.mp hy with hy | hy
    · exact hbase.1 (hyx ▸ mem_map_of_mem hy)
    · exact hbase.2 (hyx ▸ mem_map_of_mem hy)
  · show ((front ++ back).map Prod.fst).Nodup
    rw [map_append]
    exact (nodup_cons.mp (perm_middle.nodup_iff.mp hnodup)).2

theorem freeLarge_laid {ptr size : ℕ} (h : Laid p ((ptr, size) :: live) L)
    (hsize : getSlotIndex size = none) : ∃ L', Laid (freeLarge p (ptr - metaSize)) live L' := by
  obtain ⟨x, hx, rfl, rfl⟩ := h.large_of_live hsize
  obtain ⟨front, back, hL⟩ := append_of_mem hx
  have hheader : x.1 + (chunkSize + largeHeaderSize + metaSize) - metaSize - largeHeaderSize =
      x.1 + chunkSize := by omega
  have hlarges := h.larges
  have hsep := h.owned.separate
  have hnodup := h.owned.larges_nodup
  rw [hL] at hlarges hsep hnodup
  obtain ⟨hok, hout⟩ := hlarges.unlink hsep hnodup rfl rfl rfl
  refine ⟨{ L with larges := front ++ back }, ?_⟩
  unfold freeLarge
  dsimp only
  rw [hheader, h.larges.node x hx, h.larges.size x hx, Nat.add_sub_cancel]
  refine ⟨h.count, h.owned.drop hL, fun i => ?_, hok, ?_, ?_⟩
  · have hused : used i ((x.1 + (chunkSize + largeHeaderSize + metaSize), x.2) :: live) =
        used i live := by
      rw [used_cons, if_neg (by rw [hsize]; simp)]
    have hslot := h.slots_frame (by rw [hL]; exact hout) i
    rw [hused] at hslot
    exact hslot
  · have hlive := h.large_live
    rw [largeLive_cons, if_pos hsize, hL, map_append, map_cons] at hlive
    show ((front ++ back).map _).Perm _
    rw [map_append]
    exact perm_cons _ |>.mp (perm_middle.symm.trans hlive)
  · have htotal := h.total
    rw [map_cons, sum_cons] at htotal
    have hcap : capacity x.2 = x.2 := by
      unfold capacity
      rw [hsize]
    show p.totalUsed - x.2 = _
    rw [htotal, hcap, Nat.add_sub_cancel_left]

theorem Owned.put {n : ℕ} (h : Owned regions n L) (hx : x.1 ≠ 0)
    (hfresh : ∀ r ∈ regions, Apart r (largeSpan x)) : Owned (regions ++ [largeSpan x]) n
      { L with larges := x :: L.larges, owner := Function.update L.owner x.1 none } := by
  obtain ⟨hchunk, hlarge⟩ := h.base_ne (Nat.add_pos_left (by decide) _) hfresh
  refine ⟨pairwise_snoc h.apart hfresh, fun r hr => ?_, fun i a ha => ?_, fun y hy => ?_,
    h.chunks_nodup, ?_⟩
  · rcases mem_append.mp hr with hr | hr
    · exact h.nonzero r hr
    · rw [mem_singleton.mp hr]
      exact hx
  · obtain ⟨howner, hin⟩ := h.chunk i a ha
    exact ⟨(Function.update_of_ne (hchunk i a ha) _ _).trans howner, mem_append_left _ hin⟩
  · rcases mem_cons.mp hy with rfl | hy
    · exact ⟨Function.update_self _ _ _, mem_append_right _ (mem_singleton_self _)⟩
    · obtain ⟨howner, hin⟩ := h.large y hy
      exact ⟨(Function.update_of_ne (hlarge y hy) _ _).trans howner, mem_append_left _ hin⟩
  · show (x.1 :: L.larges.map Prod.fst).Nodup
    refine nodup_cons.mpr ⟨fun hmem => ?_, h.larges_nodup⟩
    obtain ⟨y, hy, heq⟩ := mem_map.mp hmem
    exact hlarge y hy heq

theorem LargesOk.put (h : LargesOk m head larges) (hsep : Separate (x :: larges))
    (hnodup : ((x :: larges).map Prod.fst).Nodup) (hx : x.1 ≠ 0) (hnext : m x.1 = head)
    (hprev : m (x.1 + 8) = 0) (hsize : m (x.1 + chunkSize) = x.2)
    (hnode : m (x.1 + chunkSize + 8) = x.1)
    (htag : slotIndexOf m (x.1 + chunkSize + largeHeaderSize) = largeIndex) :
    LargesOk (if head ≠ 0 then wr m (head + 8) x.1 else m) x.1 (x :: larges) := by
  have hfields : LargesOk m head larges → ∀ y ∈ x :: larges, m (y.1 + chunkSize) = y.2 ∧
      m (y.1 + chunkSize + 8) = y.1 ∧
      slotIndexOf m (y.1 + chunkSize + largeHeaderSize) = largeIndex := by
    intro h y hy
    rcases mem_cons.mp hy with rfl | hy
    · exact ⟨hsize, hnode, htag⟩
    · exact ⟨h.size y hy, h.node y hy, h.tagged y hy⟩
  cases larges with
  | nil =>
    have hzero : head = 0 := h.chain
    rw [if_neg (by simpa using hzero)]
    have hf := hfields h
    exact ⟨⟨rfl, hx, hnext.trans hzero⟩, ⟨hprev, trivial⟩, fun y hy => (hf y hy).1,
      fun y hy => (hf y hy).2.1, fun y hy => (hf y hy).2.2⟩
  | cons y larges =>
    have hhead : head = y.1 := h.chain.1
    have hy0 : y.1 ≠ 0 := h.chain.2.1
    have hy : y ∈ x :: y :: larges := by simp
    have hxm : x ∈ x :: y :: larges := mem_cons_self
    simp only [map_cons, nodup_cons, mem_cons, not_or] at hnodup
    have hxy : x ≠ y := fun heq => hnodup.1.1 (congrArg Prod.fst heq)
    rw [hhead, if_pos hy0]
    have hsame : ∀ z ∈ x :: y :: larges, ∀ k < 48, k ≠ 8 →
        wr m (y.1 + 8) x.1 (z.1 + k) = m (z.1 + k) := fun z hz k hk hne =>
      hsep.wr_field hz hy hk (by decide) (fun _ => hne) x.1
    have hall : ∀ z ∈ x :: y :: larges, wr m (y.1 + 8) x.1 (z.1 + chunkSize) = z.2 ∧
        wr m (y.1 + 8) x.1 (z.1 + chunkSize + 8) = z.1 ∧
        slotIndexOf (wr m (y.1 + 8) x.1) (z.1 + chunkSize + largeHeaderSize) = largeIndex := by
      intro z hz
      obtain ⟨hs, hn, ht⟩ := hfields h z hz
      refine ⟨?_, ?_, ?_⟩
      · rw [hsame z hz chunkSize (by decide) (by decide), hs]
      · rw [Nat.add_assoc, hsame z hz (chunkSize + 8) (by decide) (by decide), ← Nat.add_assoc, hn]
      · unfold slotIndexOf
        rw [Nat.add_assoc, hsame z hz (chunkSize + largeHeaderSize) (by decide) (by decide),
          ← Nat.add_assoc]
        exact ht
    refine ⟨⟨rfl, hx, ?_⟩, ⟨?_, ?_⟩, fun z hz => (hall z hz).1, fun z hz => (hall z hz).2.1,
      fun z hz => (hall z hz).2.2⟩
    · have hnext' : wr m (y.1 + 8) x.1 x.1 = head :=
        (hsame x hxm 0 (by decide) (by decide)).trans hnext
      rw [hnext']
      refine h.chain.frame fun a ha => ?_
      obtain ⟨z, hz, rfl⟩ := mem_map.mp ha
      exact hsame z (mem_cons_of_mem x hz) 0 (by decide) (by decide)
    · rw [hsep.wr_field hxm hy (by decide) (by decide) (fun heq => absurd heq hxy), hprev]
    · refine ⟨wr_same _ _ _, h.prevs.2.frame fun a ha => wr_other m ?_ x.1⟩
      rintro heq
      exact hnodup.2.1 (Nat.add_right_cancel heq ▸ ha)

theorem LargesOk.head_mem (h : LargesOk m head larges) (hhead : head ≠ 0) :
    ∃ x ∈ larges, x.1 = head := by
  cases larges with
  | nil => exact absurd h.chain hhead
  | cons x larges => exact ⟨x, mem_cons_self, h.chain.1.symm⟩

theorem putLarge_laid (h : Laid p live L) {a size : ℕ} (hsize : getSlotIndex size = none)
    (hfresh : Fresh p.regions (chunkSize + largeHeaderSize + metaSize + size) a) :
    (putLarge p a size).1 ≠ 0 ∧
      ∃ L', Laid (putLarge p a size).2 (((putLarge p a size).1, size) :: live) L' := by
  obtain ⟨ha, -, -, hapart⟩ := hfresh
  have hself : ∀ s : Span, Within s s := fun s => ⟨le_refl _, le_refl _⟩
  have hregion : ∀ {s r : Span}, r ∈ p.regions → Within s r → Apart (largeSpan (a, size)) s :=
    fun hr hs => (hapart _ hr).symm.within (hself _) hs
  have howned := h.owned.put (x := (a, size)) ha hapart
  -- the writes to the block itself, and behind them the one to the old head
  generalize hm : wr (wr (wr (setIndex (wr (wr p.mem (a + chunkSize) size) (a + chunkSize + 8) a)
    (a + chunkSize + largeHeaderSize) largeIndex) (a + 16) (a + chunkSize)) a p.largeChunks)
    (a + 8) 0 = m
  have hsame : SameOutside (largeSpan (a, size)) p.mem m := by
    have hin : ∀ k < 48, Within (a + k, 1) (largeSpan (a, size)) := by
      intro k hk
      unfold Within largeSpan chunkSize largeHeaderSize metaSize
      dsimp only
      omega
    rw [← hm]
    refine ((((((sameOutside_wr _ (hin 24 (by decide)) _).trans
      (sameOutside_wr _ (hin 32 (by decide)) _)).trans
      (sameOutside_wr _ (hin 40 (by decide)) _)).trans
      (sameOutside_wr _ (hin 16 (by decide)) _)).trans
      (sameOutside_wr _ (hin 0 (by decide)) _)).trans
      (sameOutside_wr _ (hin 8 (by decide)) _))
  have hvalues : m a = p.largeChunks ∧ m (a + 8) = 0 ∧ m (a + chunkSize) = size ∧
      m (a + chunkSize + 8) = a ∧ slotIndexOf m (a + chunkSize + largeHeaderSize) = largeIndex := by
    have hoff : ∀ {k l : ℕ}, k ≠ l → a + k ≠ a + l := fun hne heq =>
      hne (Nat.add_left_cancel heq)
    have h0 : ∀ {k : ℕ}, k ≠ 0 → a + k ≠ a := fun hne => hoff hne
    rw [← hm]
    simp only [Nat.add_assoc]
    refine ⟨?_, wr_same _ _ _, ?_, ?_, ?_⟩
    · rw [wr_other _ (h0 (by decide)).symm, wr_same]
    · rw [wr_other _ (hoff (by decide)), wr_other _ (h0 (by decide)), wr_other _ (hoff (by decide)),
        setIndex, wr_other _ (hoff (by decide)), wr_other _ (hoff (by decide)), wr_same]
    · rw [wr_other _ (hoff (by decide)), wr_other _ (h0 (by decide)), wr_other _ (hoff (by decide)),
        setIndex, wr_other _ (hoff (by decide)), wr_same]
    · unfold slotIndexOf
      rw [wr_other _ (hoff (by decide)), wr_other _ (h0 (by decide)), wr_other _ (hoff (by decide))]
      exact slotIndexOf_setIndex _ _ (by decide)
  obtain ⟨hnext, hprev, hsz, hnode, htag⟩ := hvalues
  have hslots : ∀ j, SlotOk m p.initialBlockCount j (p.slots j) (L.chunks j) (L.free j)
      (used j live) := by
    intro j
    refine (h.slots j).elsewhere hsame (fun b hb => ?_) fun b hb => ?_
    · refine hregion (h.owned.chunk j b hb).2 ?_
      unfold Within chunkSpan
      dsimp only
      omega
    · obtain ⟨c, hc, hwithin⟩ := block_span hb
      exact hregion (h.owned.chunk j c hc).2 hwithin
  have hlarges : LargesOk m p.largeChunks L.larges :=
    h.larges.elsewhere hsame fun x hx => hregion (h.owned.large x hx).2 (hself _)
  have hslots' : ∀ j, SlotOk (if p.largeChunks ≠ 0 then wr m (p.largeChunks + 8) a else m)
      p.initialBlockCount j (p.slots j) (L.chunks j) (L.free j) (used j live) := by
    intro j
    have hL : Laid { p with mem := m } live L :=
      ⟨h.count, h.owned, hslots, hlarges, h.large_live, h.total⟩
    refine hL.slots_frame (fun w hw => ?_) j
    split
    · next hhead =>
      obtain ⟨x, hx, heq⟩ := hlarges.head_mem hhead
      exact wr_other m (heq ▸ (hw x hx).2) a
    · rfl
  refine ⟨Nat.succ_ne_zero _, _, h.count, howned, fun j => ?_, ?_, ?_, ?_⟩
  · rw [used_cons, if_neg (by rw [hsize]; simp)]
    simp only [putLarge, hm]
    exact hslots' j
  · simp only [putLarge, hm]
    exact hlarges.put howned.separate howned.larges_nodup ha hnext hprev hsz hnode htag
  · rw [largeLive_cons, if_pos hsize, map_cons]
    exact h.large_live.cons _
  · have hcap : capacity size = size := by
      unfold capacity
      rw [hsize]
    rw [map_cons, sum_cons, hcap, ← h.total, Nat.add_comm]
    rfl

end Voxlib.MPool
