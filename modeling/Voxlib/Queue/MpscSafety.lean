import Voxlib.Queue.Mpsc

/-!
# What the MPSC queue guarantees under any interleaving
-/

namespace Voxlib.Queue.Mpsc
open Run List Option

variable {T E : Type}

theorem setSlot_slot (q : MpscQueue E) (p r : ℕ) (x : Slot E) :
    (q.setSlot p x).slot r = if r &&& q.mask = p &&& q.mask then x else q.slot r := by
  simp only [MpscQueue.slot, MpscQueue.setSlot, Function.update_apply]

@[simp] theorem setSlot_slot_same (q : MpscQueue E) (p : ℕ) (x : Slot E) :
    (q.setSlot p x).slot p = x := by
  simp [setSlot_slot]

@[simp] theorem setSlot_capacity (q : MpscQueue E) (p : ℕ) (x : Slot E) :
    (q.setSlot p x).capacity = q.capacity := rfl

@[simp] theorem setSlot_mask (q : MpscQueue E) (p : ℕ) (x : Slot E) :
    (q.setSlot p x).mask = q.mask := rfl

@[simp] theorem setSlot_tail (q : MpscQueue E) (p : ℕ) (x : Slot E) :
    (q.setSlot p x).atomicTail = q.atomicTail := rfl

@[simp] theorem setSlot_head (q : MpscQueue E) (p : ℕ) (x : Slot E) :
    (q.setSlot p x).atomicHead = q.atomicHead := rfl

theorem window_unique {p r c t : ℕ} (hm : p % c = r % c) (hp : p < t) (hr : r < t)
    (hpt : t ≤ p + c) (hrt : t ≤ r + c) : p = r := by
  have hpd := Nat.div_add_mod p c
  have hrd := Nat.div_add_mod r c
  rcases Nat.lt_trichotomy (p / c) (r / c) with hlt | heq | hgt
  · have hmul : c * (p / c + 1) ≤ c * (r / c) := Nat.mul_le_mul_left c hlt
    rw [Nat.mul_add, Nat.mul_one] at hmul
    omega
  · rw [heq] at hpd
    omega
  · have hmul : c * (r / c + 1) ≤ c * (p / c) := Nat.mul_le_mul_left c hgt
    rw [Nat.mul_add, Nat.mul_one] at hmul
    omega

namespace Shared

variable {q : MpscQueue E} {h : History T E}

variable {p : ℕ}

theorem live (sh : Shared q h) (hr : ¬ Released h p) : q.atomicTail ≤ p + q.capacity := by
  by_contra hlt
  exact hr (sh.oldReleased p (by omega))

theorem same_slot (sh : Shared q h) {r : ℕ} (hm : p &&& q.mask = r &&& q.mask)
    (hp : p < q.atomicTail) (hr : r < q.atomicTail) (hpt : q.atomicTail ≤ p + q.capacity)
    (hrt : q.atomicTail ≤ r + q.capacity) : p = r := by
  rw [sh.masked, sh.masked] at hm
  exact window_unique hm hp hr hpt hrt

theorem published_lt (sh : Shared q h) (hp : Published h p) : p < q.atomicTail := by
  obtain ⟨⟨t, x⟩, hx⟩ := hp
  have hres := sh.enqueuedReserved p t x hx
  have hlen := (List.getElem?_eq_some_iff.mp hres).1
  rw [sh.tailEq] at hlen
  exact hlen

theorem reserved_lt (sh : Shared q h) {x : T × E} (hx : h.reserved[p]? = some x) :
    p < q.atomicTail := by
  have hlen := (List.getElem?_eq_some_iff.mp hx).1
  rw [sh.tailEq] at hlen
  exact hlen

theorem claimed_length (sh : Shared q h) : h.claimed.length = q.atomicHead := by
  have hlen := congrArg List.length sh.claims
  simpa using hlen

theorem claimed_lt (sh : Shared q h) {x : T × ℕ} (hx : h.claimed[p]? = some x) :
    p < q.atomicHead := by
  have hlen := (List.getElem?_eq_some_iff.mp hx).1
  rw [sh.claimed_length] at hlen
  exact hlen

theorem new_slot_ne (sh : Shared q h) {i : ℕ} (hp : p < q.atomicTail) (hi : i < q.capacity)
    (hti : q.atomicTail ≤ i) : i &&& q.mask ≠ p &&& q.mask := by
  rw [sh.masked, sh.masked, Nat.mod_eq_of_lt hi, Nat.mod_eq_of_lt (by omega)]
  omega

theorem tail_released (sh : Shared q h) (hseq : (q.slot q.atomicTail).sequence = q.atomicTail)
    (hp : p + q.capacity = q.atomicTail) : Released h p := by
  by_contra hr
  have h2 := sh.capacityTwo
  have hslot : q.slot p = q.slot q.atomicTail := by
    simp only [MpscQueue.slot, sh.masked]
    rw [← hp, Nat.add_mod_right]
  by_cases hpub : Published h p
  · obtain ⟨⟨t, x⟩, hx⟩ := hpub
    have hs := (sh.slotPublished p t x hx hr).1
    rw [hslot, hseq] at hs
    omega
  · have hs := sh.slotReserved p (by omega) hpub
    rw [hslot, hseq] at hs
    omega

end Shared

theorem published_append {h : History T E} {l : List (ℕ × T × E)} {p : ℕ} :
    Published { h with enqueued := h.enqueued ++ l } p ↔ Published h p ∨ ∃ x, (p, x) ∈ l := by
  simp only [Published, mem_append, exists_or]

theorem released_append {h : History T E} {l : List (ℕ × T × Option E)} {p : ℕ} :
    Released { h with returned := h.returned ++ l } p ↔ Released h p ∨ ∃ x, (p, x) ∈ l := by
  simp only [Released, mem_append, exists_or]

theorem reserved_append {h : History T E} {p : ℕ} {x y : T × E} (hx : h.reserved[p]? = some x) :
    (h.reserved ++ [y])[p]? = some x := by
  rw [List.getElem?_append_left (List.getElem?_eq_some_iff.mp hx).1]
  exact hx

theorem claimed_append {h : History T E} {p : ℕ} {x y : T × ℕ} (hx : h.claimed[p]? = some x) :
    (h.claimed ++ [y])[p]? = some x := by
  rw [List.getElem?_append_left (List.getElem?_eq_some_iff.mp hx).1]
  exact hx

variable {q : MpscQueue E} {h : History T E}

theorem shared_reserve (sh : Shared q h) (t : T) (elem : E)
    (hseq : (q.slot q.atomicTail).sequence = q.atomicTail) :
    Shared { q with atomicTail := q.atomicTail + 1 }
      { h with reserved := h.reserved ++ [(t, elem)] } where
  capacityTwo := sh.capacityTwo
  masked := sh.masked
  tailEq := by
    show (h.reserved ++ [(t, elem)]).length = q.atomicTail + 1
    rw [length_append, sh.tailEq]
    rfl
  headLe := Nat.le_succ_of_le sh.headLe
  claims := sh.claims
  enqueuedReserved := fun p t' x hx => reserved_append (sh.enqueuedReserved p t' x hx)
  enqueuedNodup := sh.enqueuedNodup
  releasedLt := sh.releasedLt
  releasedPublished := sh.releasedPublished
  returnedEnqueued := sh.returnedEnqueued
  returnedNodup := sh.returnedNodup
  oldReleased := by
    intro p hp
    change p + q.capacity < q.atomicTail + 1 at hp
    by_cases heq : p + q.capacity = q.atomicTail
    · exact sh.tail_released hseq heq
    · exact sh.oldReleased p (by omega)
  slotNew := fun i hi hti => sh.slotNew i hi (Nat.le_of_succ_le hti)
  slotReserved := by
    intro p hp hpub
    change p < q.atomicTail + 1 at hp
    by_cases heq : p = q.atomicTail
    · subst heq
      exact hseq
    · exact sh.slotReserved p (by omega) hpub
  slotPublished := sh.slotPublished
  slotReleased := fun p hr hp => sh.slotReleased p hr (Nat.le_of_succ_le hp)

theorem pcOk_reserve (t' : T) (c : Pc E) (x : T × E) (hc : PcOk q h t' c) :
    PcOk { q with atomicTail := q.atomicTail + 1 }
      { h with reserved := h.reserved ++ [x] } t' c := by
  cases c with
  | idle => trivial
  | enqLoadTail _ => trivial
  | enqLoadSequence _ p => exact Nat.le_succ_of_le hc
  | enqExchangeTail _ p =>
    have hp : p ≤ q.atomicTail := hc.1
    refine ⟨Nat.le_succ_of_le hp, ?_⟩
    intro heq
    change q.atomicTail + 1 = p at heq
    omega
  | enqWriteData _ p => exact ⟨reserved_append hc.1, hc.2⟩
  | enqStoreSequence _ p => exact ⟨reserved_append hc.1, hc.2⟩
  | deqLoadHead => trivial
  | deqLoadTail p => exact hc
  | deqLoadSequence p => exact ⟨hc.1, Nat.lt_succ_of_lt hc.2⟩
  | deqExchangeHead p => exact ⟨hc.1, Nat.lt_succ_of_lt hc.2.1, hc.2.2⟩
  | deqReadData p => exact hc
  | deqStoreSequence p e => exact hc

theorem shared_write (sh : Shared q h) (pos : ℕ) (elem : E) (hpos : pos < q.atomicTail)
    (hpub : ¬ Published h pos) :
    Shared (q.setSlot pos { q.slot pos with data := some elem }) h := by
  have hrel : ¬ Released h pos := fun hr => hpub (sh.releasedPublished pos hr)
  have hseq : ∀ p, ((q.setSlot pos { q.slot pos with data := some elem }).slot p).sequence =
      (q.slot p).sequence := by
    intro p
    rw [setSlot_slot]
    split
    · rename_i hm
      simp only [MpscQueue.slot, hm]
    · rfl
  refine { sh with slotNew := ?_, slotReserved := ?_, slotPublished := ?_, slotReleased := ?_ }
  · intro i hi hti
    rw [hseq]
    exact sh.slotNew i hi hti
  · intro p hp hpp
    rw [hseq]
    exact sh.slotReserved p hp hpp
  · intro p t x hx hr
    have hold := sh.slotPublished p t x hx hr
    refine ⟨by rw [hseq]; exact hold.1, ?_⟩
    -- a published position of the same slot would be `pos` itself
    have hne : ¬ p &&& q.mask = pos &&& q.mask := by
      intro hm
      have hp := sh.published_lt ⟨_, hx⟩
      have heq := sh.same_slot hm hp hpos (sh.live hr) (sh.live hrel)
      exact hpub (heq ▸ ⟨_, hx⟩)
    rw [setSlot_slot, if_neg hne]
    exact hold.2
  · intro p hr hp
    rw [hseq]
    exact sh.slotReleased p hr hp

theorem pcOk_write (sh : Shared q h) (t t' : T) (pos : ℕ) (elem : E) (hne : t' ≠ t)
    (hres : h.reserved[pos]? = some (t, elem)) (hpub : ¬ Published h pos) (c : Pc E)
    (hc : PcOk q h t' c) : PcOk (q.setSlot pos { q.slot pos with data := some elem }) h t' c := by
  have hpos := sh.reserved_lt hres
  have hrel : ¬ Released h pos := fun hr => hpub (sh.releasedPublished pos hr)
  cases c with
  | enqExchangeTail _ p =>
    refine ⟨hc.1, fun htail => ?_⟩
    have hp := hc.2 htail
    rw [setSlot_slot]
    split
    · rename_i hm
      simp only [MpscQueue.slot, hm] at hp ⊢
      exact hp
    · exact hp
  | enqStoreSequence _ p =>
    refine ⟨hc.1, hc.2.1, ?_⟩
    have hpr : ¬ Released h p := fun hr => hc.2.1 (sh.releasedPublished p hr)
    have hslot : ¬ p &&& q.mask = pos &&& q.mask := by
      intro hm
      have heq := sh.same_slot hm (sh.reserved_lt hc.1) hpos (sh.live hpr) (sh.live hrel)
      have hown := hc.1
      rw [heq, hres] at hown
      exact hne (congrArg Prod.fst (some.inj hown)).symm
    rw [setSlot_slot, if_neg hslot]
    exact hc.2.2
  | idle => trivial
  | enqLoadTail _ => trivial
  | enqLoadSequence _ _ => exact hc
  | enqWriteData _ _ => exact hc
  | deqLoadHead => trivial
  | deqLoadTail _ => exact hc
  | deqLoadSequence _ => exact hc
  | deqExchangeHead _ => exact hc
  | deqReadData _ => exact hc
  | deqStoreSequence _ _ => exact hc

theorem shared_publish (sh : Shared q h) (t : T) (pos : ℕ) (elem : E)
    (hres : h.reserved[pos]? = some (t, elem)) (hpub : ¬ Published h pos)
    (hdata : (q.slot pos).data = some elem) :
    Shared (q.setSlot pos { q.slot pos with sequence := pos + 1 })
      { h with enqueued := h.enqueued ++ [(pos, t, elem)] } := by
  have hpos := sh.reserved_lt hres
  have hrel : ¬ Released h pos := fun hr => hpub (sh.releasedPublished pos hr)
  have hother : ∀ p, p < q.atomicTail → q.atomicTail ≤ p + q.capacity → p ≠ pos →
      (q.setSlot pos { q.slot pos with sequence := pos + 1 }).slot p = q.slot p := by
    intro p hp hlive hne
    rw [setSlot_slot, if_neg]
    intro hm
    exact hne (sh.same_slot hm hp hpos hlive (sh.live hrel))
  have hnpub : ∀ p, ¬ Published { h with enqueued := h.enqueued ++ [(pos, t, elem)] } p →
      ¬ Published h p ∧ p ≠ pos := by
    intro p hp
    rw [published_append] at hp
    refine ⟨fun hh => hp (Or.inl hh), ?_⟩
    rintro rfl
    exact hp (Or.inr ⟨_, mem_singleton.mpr rfl⟩)
  refine { sh with
    enqueuedReserved := ?_, enqueuedNodup := ?_, releasedPublished := ?_, returnedEnqueued := ?_
    slotNew := ?_, slotReserved := ?_, slotPublished := ?_, slotReleased := ?_ }
  · intro p t' x hx
    rcases mem_append.mp hx with hx | hx
    · exact sh.enqueuedReserved p t' x hx
    · cases mem_singleton.mp hx
      exact hres
  · rw [map_append, map_singleton, nodup_append]
    refine ⟨sh.enqueuedNodup, nodup_singleton _, ?_⟩
    intro p hp r hr
    rw [mem_singleton.mp hr]
    rintro rfl
    obtain ⟨⟨p', x⟩, hx, rfl⟩ := mem_map.mp hp
    exact hpub ⟨x, hx⟩
  · intro p hr
    exact published_append.mpr (Or.inl (sh.releasedPublished p hr))
  · intro p c e he
    obtain ⟨t', x, hx, hex⟩ := sh.returnedEnqueued p c e he
    exact ⟨t', x, mem_append_left _ hx, hex⟩
  · intro i hi hti
    rw [setSlot_slot, if_neg (sh.new_slot_ne hpos hi hti)]
    exact sh.slotNew i hi hti
  · intro p hp hp'
    obtain ⟨hpp, hne⟩ := hnpub p hp'
    have hpr : ¬ Released h p := fun hr => hpp (sh.releasedPublished p hr)
    rw [hother p hp (sh.live hpr) hne]
    exact sh.slotReserved p hp hpp
  · intro p t' x hx hr
    rcases mem_append.mp hx with hx | hx
    · have hne : p ≠ pos := fun heq => hpub (heq ▸ ⟨_, hx⟩)
      rw [hother p (sh.published_lt ⟨_, hx⟩) (sh.live hr) hne]
      exact sh.slotPublished p t' x hx hr
    · cases mem_singleton.mp hx
      rw [setSlot_slot_same]
      exact ⟨rfl, hdata⟩
  · intro p hr hp
    have hpp := sh.releasedPublished p hr
    have hne : p ≠ pos := fun heq => hpub (heq ▸ hpp)
    rw [hother p (sh.published_lt hpp) hp hne]
    exact sh.slotReleased p hr hp

theorem setSequence_data (q : MpscQueue E) (pos v p : ℕ) :
    ((q.setSlot pos { q.slot pos with sequence := v }).slot p).data = (q.slot p).data := by
  rw [setSlot_slot]
  split
  · rename_i hm
    simp only [MpscQueue.slot, hm]
  · rfl

theorem pcOk_publish (sh : Shared q h) (t t' : T) (pos : ℕ) (elem : E) (hne : t' ≠ t)
    (hres : h.reserved[pos]? = some (t, elem)) (hpub : ¬ Published h pos) (c : Pc E)
    (hc : PcOk q h t' c) : PcOk (q.setSlot pos { q.slot pos with sequence := pos + 1 })
      { h with enqueued := h.enqueued ++ [(pos, t, elem)] } t' c := by
  have hpos := sh.reserved_lt hres
  have hmono : ∀ p, Published h p →
      Published { h with enqueued := h.enqueued ++ [(pos, t, elem)] } p :=
    fun p hp => published_append.mpr (Or.inl hp)
  -- a position that another thread reserved is not the one published here
  have hown : ∀ p x, h.reserved[p]? = some (t', x) → ¬ Published h p →
      ¬ Published { h with enqueued := h.enqueued ++ [(pos, t, elem)] } p := by
    intro p x hx hp hp'
    rcases published_append.mp hp' with hp' | ⟨y, hy⟩
    · exact hp hp'
    · have heq : p = pos := congrArg Prod.fst (mem_singleton.mp hy)
      rw [heq, hres] at hx
      exact hne (congrArg Prod.fst (some.inj hx)).symm
  cases c with
  | enqExchangeTail _ p =>
    refine ⟨hc.1, fun htail => ?_⟩
    have hp := hc.2 htail
    rw [setSlot_slot, if_neg]
    · exact hp
    · intro hm
      have hslot := sh.slotReserved pos hpos hpub
      have hsame : q.slot p = q.slot pos := by simp only [MpscQueue.slot, hm]
      rw [hsame, hslot] at hp
      change q.atomicTail = p at htail
      omega
  | enqWriteData _ p => exact ⟨hc.1, hown p _ hc.1 hc.2⟩
  | enqStoreSequence _ p => exact ⟨hc.1, hown p _ hc.1 hc.2.1, by rw [setSequence_data]; exact hc.2.2⟩
  | deqExchangeHead p => exact ⟨hc.1, hc.2.1, fun hp => hmono p (hc.2.2 hp)⟩
  | deqReadData p => exact ⟨hc.1, hc.2.1, hmono p hc.2.2⟩
  | deqStoreSequence p e =>
    obtain ⟨hcl, hrel, t'', x, hx, hex⟩ := hc
    exact ⟨hcl, hrel, t'', x, mem_append_left _ hx, hex⟩
  | idle => trivial
  | enqLoadTail _ => trivial
  | enqLoadSequence _ _ => exact hc
  | deqLoadHead => trivial
  | deqLoadTail _ => exact hc
  | deqLoadSequence _ => exact hc

theorem shared_claim (sh : Shared q h) (t : T) (hlt : q.atomicHead < q.atomicTail) :
    Shared { q with atomicHead := q.atomicHead + 1 }
      { h with claimed := h.claimed ++ [(t, q.atomicHead)] } := by
  refine { sh with headLe := hlt, claims := ?_, releasedLt := ?_ }
  · show (h.claimed ++ [(t, q.atomicHead)]).map Prod.snd = List.range (q.atomicHead + 1)
    rw [map_append, sh.claims, range_succ]
    rfl
  · intro p hp
    exact Nat.lt_succ_of_lt (sh.releasedLt p hp)

theorem pcOk_claim (t' : T) (c : Pc E) (x : T × ℕ) (hc : PcOk q h t' c) :
    PcOk { q with atomicHead := q.atomicHead + 1 }
      { h with claimed := h.claimed ++ [x] } t' c := by
  cases c with
  | deqLoadTail p => exact Nat.le_succ_of_le hc
  | deqLoadSequence p => exact ⟨Nat.le_succ_of_le hc.1, hc.2⟩
  | deqExchangeHead p =>
    have hp : p ≤ q.atomicHead := hc.1
    refine ⟨Nat.le_succ_of_le hp, hc.2.1, ?_⟩
    intro heq
    change q.atomicHead + 1 = p at heq
    omega
  | deqReadData p => exact ⟨claimed_append hc.1, hc.2⟩
  | deqStoreSequence p e => exact ⟨claimed_append hc.1, hc.2⟩
  | idle => trivial
  | enqLoadTail _ => trivial
  | enqLoadSequence _ _ => exact hc
  | enqExchangeTail _ _ => exact hc
  | enqWriteData _ _ => exact hc
  | enqStoreSequence _ _ => exact hc
  | deqLoadHead => trivial

theorem shared_release (sh : Shared q h) (t : T) (pos : ℕ) (elem : Option E)
    (hcl : h.claimed[pos]? = some (t, pos)) (hrel : ¬ Released h pos)
    (helem : ∃ p x, (pos, p, x) ∈ h.enqueued ∧ elem = some x) :
    Shared (q.setSlot pos { q.slot pos with sequence := pos + q.capacity })
      { h with returned := h.returned ++ [(pos, t, elem)] } := by
  obtain ⟨tp, x, hx, hex⟩ := helem
  have hpub : Published h pos := ⟨_, hx⟩
  have hpos := sh.published_lt hpub
  have hother : ∀ p, p < q.atomicTail → q.atomicTail ≤ p + q.capacity → p ≠ pos →
      (q.setSlot pos { q.slot pos with sequence := pos + q.capacity }).slot p = q.slot p := by
    intro p hp hlive hne
    rw [setSlot_slot, if_neg]
    intro hm
    exact hne (sh.same_slot hm hp hpos hlive (sh.live hrel))
  have hcases : ∀ p, Released { h with returned := h.returned ++ [(pos, t, elem)] } p →
      Released h p ∨ p = pos := by
    intro p hp
    rcases released_append.mp hp with hp | ⟨y, hy⟩
    · exact Or.inl hp
    · exact Or.inr (congrArg Prod.fst (mem_singleton.mp hy))
  have hmono : ∀ p, Released h p →
      Released { h with returned := h.returned ++ [(pos, t, elem)] } p :=
    fun p hp => released_append.mpr (Or.inl hp)
  refine { sh with
    releasedLt := ?_, releasedPublished := ?_, returnedEnqueued := ?_, returnedNodup := ?_
    oldReleased := ?_, slotNew := ?_, slotReserved := ?_, slotPublished := ?_, slotReleased := ?_ }
  · intro p hp
    rcases hcases p hp with hp | rfl
    · exact sh.releasedLt p hp
    · exact sh.claimed_lt hcl
  · intro p hp
    rcases hcases p hp with hp | rfl
    · exact sh.releasedPublished p hp
    · exact hpub
  · intro p c e he
    rcases mem_append.mp he with he | he
    · exact sh.returnedEnqueued p c e he
    · cases mem_singleton.mp he
      exact ⟨tp, x, hx, hex⟩
  · rw [map_append, map_singleton, nodup_append]
    refine ⟨sh.returnedNodup, nodup_singleton _, ?_⟩
    intro p hp r hr
    rw [mem_singleton.mp hr]
    rintro rfl
    obtain ⟨⟨p', y⟩, hy, rfl⟩ := mem_map.mp hp
    exact hrel ⟨y, hy⟩
  · intro p hp
    exact hmono p (sh.oldReleased p hp)
  · intro i hi hti
    rw [setSlot_slot, if_neg (sh.new_slot_ne hpos hi hti)]
    exact sh.slotNew i hi hti
  · intro p hp hpp
    have hpr : ¬ Released h p := fun hr => hpp (sh.releasedPublished p hr)
    have hne : p ≠ pos := fun heq => hpp (heq ▸ hpub)
    rw [hother p hp (sh.live hpr) hne]
    exact sh.slotReserved p hp hpp
  · intro p t' y hy hr
    have hpr : ¬ Released h p := fun hh => hr (hmono p hh)
    have hne : p ≠ pos := by
      rintro rfl
      exact hr (released_append.mpr (Or.inr ⟨_, mem_singleton.mpr rfl⟩))
    rw [hother p (sh.published_lt ⟨_, hy⟩) (sh.live hpr) hne]
    exact sh.slotPublished p t' y hy hpr
  · intro p hr hp
    by_cases heq : p = pos
    · subst heq
      rw [setSlot_slot_same]
      rfl
    · rcases hcases p hr with hr | hr
      · rw [hother p (sh.published_lt (sh.releasedPublished p hr)) hp heq]
        exact sh.slotReleased p hr hp
      · exact absurd hr heq

theorem pcOk_release (sh : Shared q h) (t t' : T) (pos : ℕ) (elem : Option E) (hne : t' ≠ t)
    (hcl : h.claimed[pos]? = some (t, pos)) (hrel : ¬ Released h pos) (hpub : Published h pos)
    (c : Pc E) (hc : PcOk q h t' c) :
    PcOk (q.setSlot pos { q.slot pos with sequence := pos + q.capacity })
      { h with returned := h.returned ++ [(pos, t, elem)] } t' c := by
  -- a position that another thread claimed is not the one released here
  have hown : ∀ p, h.claimed[p]? = some (t', p) → ¬ Released h p →
      ¬ Released { h with returned := h.returned ++ [(pos, t, elem)] } p := by
    intro p hx hp hp'
    rcases released_append.mp hp' with hp' | ⟨y, hy⟩
    · exact hp hp'
    · have heq : p = pos := congrArg Prod.fst (mem_singleton.mp hy)
      rw [heq, hcl] at hx
      exact hne (congrArg Prod.fst (some.inj hx)).symm
  cases c with
  | enqExchangeTail _ p =>
    refine ⟨hc.1, fun htail => ?_⟩
    have hp := hc.2 htail
    rw [setSlot_slot, if_neg]
    · exact hp
    · intro hm
      -- the slot of the tail would show `pos + 1`, so the capacity would be 1
      obtain ⟨⟨tp, x⟩, hx⟩ := hpub
      have hslot := (sh.slotPublished pos tp x hx hrel).1
      have hsame : q.slot p = q.slot pos := by simp only [MpscQueue.slot, hm]
      rw [hsame, hslot] at hp
      rw [sh.masked, sh.masked, ← hp] at hm
      have h2 := sh.capacityTwo
      have hdiv := Nat.div_add_mod pos q.capacity
      have hlt := Nat.mod_lt pos (show 0 < q.capacity by omega)
      rw [Nat.add_mod, Nat.mod_eq_of_lt (show 1 < q.capacity by omega)] at hm
      by_cases hwrap : pos % q.capacity + 1 < q.capacity
      · rw [Nat.mod_eq_of_lt hwrap] at hm
        omega
      · have hfull : pos % q.capacity + 1 = q.capacity := by omega
        rw [hfull, Nat.mod_self] at hm
        omega
  | enqStoreSequence _ p => exact ⟨hc.1, hc.2.1, by rw [setSequence_data]; exact hc.2.2⟩
  | deqReadData p => exact ⟨hc.1, hown p hc.1 hc.2.1, hc.2.2⟩
  | deqStoreSequence p e => exact ⟨hc.1, hown p hc.1 hc.2.1, hc.2.2⟩
  | idle => trivial
  | enqLoadTail _ => trivial
  | enqLoadSequence _ _ => exact hc
  | enqWriteData _ _ => exact hc
  | deqLoadHead => trivial
  | deqLoadTail _ => exact hc
  | deqLoadSequence _ => exact hc
  | deqExchangeHead _ => exact hc

section Steps
variable [DecidableEq T]

variable {s : State T E}

theorem goto_inv (h : Inv s) (t : T) (c : Pc E) (hc : PcOk s.queue s.hist t c) :
    Inv (s.goto t c) := by
  refine ⟨h.shared, ?_⟩
  intro t'
  by_cases ht : t' = t
  · subst ht
    simpa [State.goto] using hc
  · simpa [State.goto, ht] using h.pcs t'

theorem update_inv {q : MpscQueue E} {h : History T E} (t : T) (c : Pc E) (sh : Shared q h)
    (hc : PcOk q h t c) (hothers : ∀ t', t' ≠ t → PcOk q h t' (s.pc t')) :
    Inv { queue := q, pc := Function.update s.pc t c, hist := h } := by
  refine ⟨sh, ?_⟩
  intro t'
  by_cases ht : t' = t
  · subst ht
    simpa using hc
  · simpa [ht] using hothers t' ht

theorem access_inv {s' : State T E} (h : Inv s) (t : T) (hs : access s t = some s') : Inv s' := by
  have hpc := h.pcs t
  have sh := h.shared
  unfold access at hs
  cases hc : s.pc t with
  | idle => simp [hc] at hs
  | enqLoadTail elem =>
    simp only [hc, Option.some.injEq] at hs
    exact hs ▸ goto_inv h t _ le_rfl
  | enqLoadSequence elem pos =>
    rw [hc] at hpc
    simp only [hc] at hs
    split at hs
    · rename_i hdiff
      have hseq : (s.queue.slot pos).sequence = pos := by omega
      exact some.inj hs ▸ goto_inv h t _ ⟨hpc, fun _ => hseq⟩
    · split at hs
      · exact some.inj hs ▸ goto_inv h t _ trivial
      · exact some.inj hs ▸ goto_inv h t _ trivial
  | enqExchangeTail elem pos =>
    rw [hc] at hpc
    simp only [hc] at hs
    split at hs
    · rename_i htail
      have hseq := hpc.2 htail
      subst htail
      have hlen : (s.hist.reserved ++ [(t, elem)])[s.queue.atomicTail]? = some (t, elem) := by
        rw [← sh.tailEq]
        simp
      have hnpub : ¬ Published s.hist s.queue.atomicTail :=
        fun hp => absurd (sh.published_lt hp) (lt_irrefl _)
      rw [← some.inj hs]
      exact update_inv t _ (shared_reserve sh t elem hseq) ⟨hlen, hnpub⟩
        fun t' _ => pcOk_reserve t' _ _ (h.pcs t')
    · exact some.inj hs ▸ goto_inv h t _ trivial
  | enqWriteData elem pos =>
    rw [hc] at hpc
    simp only [hc, Option.some.injEq] at hs
    rw [← hs]
    exact update_inv t _ (shared_write sh pos elem (sh.reserved_lt hpc.1) hpc.2)
      ⟨hpc.1, hpc.2, by simp⟩
      fun t' ht => pcOk_write sh t t' pos elem ht hpc.1 hpc.2 _ (h.pcs t')
  | enqStoreSequence elem pos =>
    rw [hc] at hpc
    simp only [hc, Option.some.injEq] at hs
    rw [← hs]
    exact update_inv t _ (shared_publish sh t pos elem hpc.1 hpc.2.1 hpc.2.2) trivial
      fun t' ht => pcOk_publish sh t t' pos elem ht hpc.1 hpc.2.1 _ (h.pcs t')
  | deqLoadHead =>
    simp only [hc, Option.some.injEq] at hs
    exact hs ▸ goto_inv h t _ le_rfl
  | deqLoadTail pos =>
    rw [hc] at hpc
    simp only [hc] at hs
    split at hs
    · exact some.inj hs ▸ goto_inv h t _ trivial
    · rename_i hne
      have hle : pos ≤ s.queue.atomicHead := hpc
      have hlt : pos < s.queue.atomicTail := lt_of_le_of_ne (hle.trans sh.headLe) hne
      exact some.inj hs ▸ goto_inv h t _ ⟨hle, hlt⟩
  | deqLoadSequence pos =>
    rw [hc] at hpc
    simp only [hc] at hs
    split at hs
    · exact some.inj hs ▸ goto_inv h t _ trivial
    · rename_i hdiff
      have hready : s.queue.atomicHead = pos → Published s.hist pos := by
        intro _
        by_contra hnp
        have hslot := sh.slotReserved pos hpc.2 hnp
        omega
      exact some.inj hs ▸ goto_inv h t _ ⟨hpc.1, hpc.2, hready⟩
  | deqExchangeHead pos =>
    rw [hc] at hpc
    simp only [hc] at hs
    split at hs
    · rename_i hhead
      have hpub := hpc.2.2 hhead
      have hlt := hpc.2.1
      subst hhead
      have hlen : (s.hist.claimed ++ [(t, s.queue.atomicHead)])[s.queue.atomicHead]? =
          some (t, s.queue.atomicHead) := by
        rw [← sh.claimed_length]
        simp
      have hnrel : ¬ Released s.hist s.queue.atomicHead :=
        fun hr => absurd (sh.releasedLt _ hr) (lt_irrefl _)
      rw [← some.inj hs]
      exact update_inv t _ (shared_claim sh t hlt) ⟨hlen, hnrel, hpub⟩
        fun t' _ => pcOk_claim t' _ _ (h.pcs t')
    · exact some.inj hs ▸ goto_inv h t _ trivial
  | deqReadData pos =>
    rw [hc] at hpc
    simp only [hc, Option.some.injEq] at hs
    obtain ⟨⟨p, x⟩, hx⟩ := hpc.2.2
    have hdata := (sh.slotPublished pos p x hx hpc.2.1).2
    exact hs ▸ goto_inv h t _ ⟨hpc.1, hpc.2.1, p, x, hx, hdata⟩
  | deqStoreSequence pos elem =>
    rw [hc] at hpc
    simp only [hc, Option.some.injEq] at hs
    obtain ⟨hcl, hrel, helem⟩ := hpc
    have hpub : Published s.hist pos := helem.elim fun p hp => hp.elim fun x hx => ⟨_, hx.1⟩
    rw [← hs]
    exact update_inv t _ (shared_release sh t pos elem hcl hrel helem) trivial
      fun t' ht => pcOk_release sh t t' pos elem ht hcl hrel hpub _ (h.pcs t')

theorem step_inv {s' : State T E} {a : T × Command E} (h : Inv s) (hs : step s a = some s') :
    Inv s' := by
  obtain ⟨t, c⟩ := a
  cases c with
  | callEnqueue elem =>
    simp only [step] at hs
    split at hs
    · exact some.inj hs ▸ goto_inv h t _ trivial
    · cases hs
  | callDequeue =>
    simp only [step] at hs
    split at hs
    · exact some.inj hs ▸ goto_inv h t _ trivial
    · cases hs
  | access => exact access_inv h t hs

theorem run_inv {s' : State T E} {as : List (T × Command E)} (h : Inv s)
    (hs : exec step s as = some s') : Inv s' := by
  induction as generalizing s with
  | nil => exact some.inj hs ▸ h
  | cons a as ih =>
    obtain ⟨m, hm, hrest⟩ := bind_eq_some_iff.mp hs
    exact ih (step_inv h hm) hrest

end Steps

def stored (h : History T E) : List ℕ :=
  (List.range h.reserved.length).filter fun p => p ∉ h.returned.map Prod.fst

structure Safe (s : State T E) : Prop where
  /-- Enqueues that returned 0 hold different positions, and each position is
  returned by at most one dequeue. -/
  enqueuedOnce : (s.hist.enqueued.map Prod.fst).Nodup
  returnedOnce : (s.hist.returned.map Prod.fst).Nodup
  /-- A dequeue returns the element of an enqueue that returned 0, at the
  position this enqueue had reserved. -/
  returnedEnqueued : ∀ p c e, (p, c, e) ∈ s.hist.returned →
    ∃ t x, (p, t, x) ∈ s.hist.enqueued ∧ s.hist.reserved[p]? = some (t, x) ∧ e = some x
  /-- An enqueued element stays in its slot until it is returned. -/
  kept : ∀ p t x, (p, t, x) ∈ s.hist.enqueued → p ∉ s.hist.returned.map Prod.fst →
    (s.queue.slot p).data = some x
  /-- The `i`-th exchange of the head takes the `i`-th reserved position. -/
  claimOrder : ∀ i c p, s.hist.claimed[i]? = some (c, p) → p = i ∧ i < s.hist.reserved.length
  /-- A dequeue that is about to return NULL sees every reserved position claimed. -/
  nullOnlyEmpty : ∀ c pos, s.pc c = .deqLoadTail pos → pos = s.queue.atomicTail →
    ∀ p, p < s.hist.reserved.length → ∃ c', s.hist.claimed[p]? = some (c', p)
  bounded : (stored s.hist).length ≤ s.queue.capacity

theorem stored_bounded {s : State T E} (h : Inv s) : (stored s.hist).length ≤ s.queue.capacity := by
  have sh := h.shared
  have hnodup : (stored s.hist).Nodup := List.Nodup.filter _ nodup_range
  have hsub : stored s.hist ⊆ List.range' (s.queue.atomicTail - s.queue.capacity)
      (s.queue.atomicTail - (s.queue.atomicTail - s.queue.capacity)) := by
    intro p hp
    obtain ⟨hrange, hnot⟩ := mem_filter.mp hp
    rw [mem_range, sh.tailEq] at hrange
    have hnrel : ¬ Released s.hist p := by
      rintro ⟨x, hx⟩
      have hmem : p ∈ s.hist.returned.map Prod.fst := mem_map.mpr ⟨_, hx, rfl⟩
      simp [hmem] at hnot
    have hlive := sh.live hnrel
    rw [mem_range'_1]
    omega
  have hlen := (subperm_of_subset hnodup hsub).length_le
  rw [length_range'] at hlen
  omega

theorem claimed_position {s : State T E} (h : Inv s) {i : ℕ} {c : T} {p : ℕ}
    (hcl : s.hist.claimed[i]? = some (c, p)) : p = i := by
  have hsnd : (s.hist.claimed.map Prod.snd)[i]? = some p := by
    rw [List.getElem?_map, hcl]
    rfl
  rw [h.shared.claims, List.getElem?_range (h.shared.claimed_lt hcl)] at hsnd
  exact (some.inj hsnd).symm

theorem inv_safe {s : State T E} (h : Inv s) : Safe s where
  enqueuedOnce := h.shared.enqueuedNodup
  returnedOnce := h.shared.returnedNodup
  returnedEnqueued := by
    intro p c e he
    obtain ⟨t, x, hx, hex⟩ := h.shared.returnedEnqueued p c e he
    exact ⟨t, x, hx, h.shared.enqueuedReserved p t x hx, hex⟩
  kept := by
    intro p t x hx hnot
    have hnrel : ¬ Released s.hist p := by
      rintro ⟨y, hy⟩
      exact hnot (mem_map.mpr ⟨_, hy, rfl⟩)
    exact (h.shared.slotPublished p t x hx hnrel).2
  claimOrder := by
    intro i c p hcl
    refine ⟨claimed_position h hcl, ?_⟩
    rw [h.shared.tailEq]
    exact lt_of_lt_of_le (h.shared.claimed_lt hcl) h.shared.headLe
  nullOnlyEmpty := by
    intro c pos hc hpos p hp
    have hle : pos ≤ s.queue.atomicHead := by
      have hpc := h.pcs c
      rw [hc] at hpc
      exact hpc
    rw [h.shared.tailEq] at hp
    have hlt : p < s.hist.claimed.length := by
      rw [h.shared.claimed_length]
      omega
    obtain ⟨⟨c', p'⟩, hcl⟩ : ∃ x, s.hist.claimed[p]? = some x := ⟨_, List.getElem?_eq_getElem hlt⟩
    have hpp := claimed_position h hcl
    exact ⟨c', by rw [hcl, hpp]⟩
  bounded := stored_bounded h

/-- Every state that any number of threads reach by any interleaving of
their accesses, from a fresh queue of capacity at least 2, is safe. -/
theorem mpsc_safe [DecidableEq T] (capacity : ℕ) (h2 : 2 ≤ capacity) (hmax : capacity ≤ 2 ^ 63)
    (as : List (T × Command E)) (s : State T E)
    (hs : exec step (State.init T E capacity) as = some s) : Safe s :=
  inv_safe (run_inv (init_inv h2 hmax) hs)

def twoProducers : List (ℕ × Command ℕ) :=
  [(0, .callEnqueue 7), (1, .callEnqueue 8), (0, .access), (1, .access), (0, .access),
   (0, .access), (1, .access), (1, .access), (0, .access), (0, .access), (2, .callDequeue),
   (2, .access), (2, .access), (2, .access), (2, .access), (2, .access), (2, .access)]

theorem mpsc_safe_two_producers : ∃ s, exec step (State.init ℕ ℕ 2) twoProducers = some s ∧
      s.hist.returned = [(0, 2, some 7)] ∧ Safe s := by
  have hrun : (exec step (State.init ℕ ℕ 2) twoProducers).isSome = true := by rfl
  have hret : (exec step (State.init ℕ ℕ 2) twoProducers).map (fun s => s.hist.returned) =
      some [(0, 2, some 7)] := by rfl
  obtain ⟨s, hs⟩ := isSome_iff_exists.mp hrun
  rw [hs] at hret
  exact ⟨s, hs, some.inj hret, mpsc_safe 2 (by decide) (by decide) twoProducers s hs⟩

end Voxlib.Queue.Mpsc
