import Voxlib.Timer

/-!
# Which timers are in the heap

Active timers are in the heap once, but those that are `away`: taken out while they are still
marked active.
-/

namespace Voxlib.Timer
open Run MHeap Option

def Booked (l : Loop) : Prop :=
  (∀ i, (l.timer i).active = true → l.timers.elements.count i = 1) ∧
  ∀ i ∈ l.timers.elements, (l.timer i).active = true

structure LoopInv (l : Loop) (away : Set ℕ) : Prop where
  sameLoop : ∀ i, (l.timer i).loop = l.self
  roomy : 0 < l.timers.capacity ∧ l.timers.elements.length ≤ l.timers.capacity
  nodup : l.timers.elements.Nodup
  heapActive : ∀ i ∈ l.timers.elements, (l.timer i).active = true
  activeHeap : ∀ i, (l.timer i).active = true → i ∈ l.timers.elements ∨ i ∈ away
  callback : ∀ i, (l.timer i).active = true → (l.timer i).callback.isSome = true

variable {l : Loop}

theorem LoopInv.booked (h : LoopInv l ∅) : Booked l := by
  constructor
  · intro i hi
    rcases h.activeHeap i hi with hmem | haway
    · exact List.count_eq_one_of_mem h.nodup hmem
    · cases haway
  · exact h.heapActive

variable {A : Set ℕ}

theorem LoopInv.mono {B : Set ℕ} (h : LoopInv l A) (hAB : A ⊆ B) : LoopInv l B where
  sameLoop := h.sameLoop
  roomy := h.roomy
  nodup := h.nodup
  heapActive := h.heapActive
  activeHeap i hi := (h.activeHeap i hi).imp_right (fun ha => hAB ha)
  callback := h.callback

theorem init_inv (self loopTime : ℕ) : LoopInv (Loop.init self loopTime) ∅ := by
  constructor <;> simp [Loop.init]

structure Dropped (h h' : Heap ℕ) (i : ℕ) : Prop where
  nodup : h'.elements.Nodup
  mem : ∀ j, j ∈ h'.elements ↔ j ∈ h.elements ∧ j ≠ i
  capacity : h'.capacity = h.capacity
  length : h'.elements.length ≤ h.elements.length

variable {h : Heap ℕ} {i : ℕ}

theorem dropped_of_perm {h' : Heap ℕ} (hp : (i :: h'.elements).Perm h.elements)
    (hcap : h'.capacity = h.capacity) (hnd : h.elements.Nodup) : Dropped h h' i := by
  have hcons : (i :: h'.elements).Nodup := hp.nodup_iff.mpr hnd
  obtain ⟨hi, hnd'⟩ := List.nodup_cons.mp hcons
  have hlen := hp.length_eq
  simp only [List.length_cons] at hlen
  constructor
  · exact hnd'
  · intro j
    rw [← hp.mem_iff, List.mem_cons]
    constructor
    · intro hj
      have hji : j ≠ i := fun he => hi (he ▸ hj)
      exact ⟨Or.inr hj, hji⟩
    · intro hj
      exact hj.1.resolve_left hj.2
  · exact hcap
  · omega

theorem dropped_of_not_mem (hi : i ∉ h.elements) (hnd : h.elements.Nodup) : Dropped h h i := by
  constructor
  · exact hnd
  · intro j
    constructor
    · intro hj
      exact ⟨hj, fun he => hi (he ▸ hj)⟩
    · exact fun hj => hj.1
  · rfl
  · exact le_rfl

theorem heapRemove_spec (l : Loop) (i : ℕ) (hnd : l.timers.elements.Nodup) :
    ∃ h, l.heapRemove i = { l with timers := h } ∧ Dropped l.timers h i := by
  unfold Loop.heapRemove
  cases hr : remove (timerCmp l.timer) l.timers i with
  | none => exact ⟨l.timers, rfl, dropped_of_not_mem (remove_none hr) hnd⟩
  | some h => exact ⟨h, rfl, dropped_of_perm (remove_perm hr) (remove_capacity hr) hnd⟩

theorem LoopInv.drop (hinv : LoopInv l A) (hd : Dropped l.timers h i) :
    LoopInv { l with timers := h } (insert i A) := by
  have hroom := hinv.roomy
  have hcap := hd.capacity
  have hlen := hd.length
  constructor
  · exact hinv.sameLoop
  · dsimp only
    omega
  · exact hd.nodup
  · intro j hj
    exact hinv.heapActive j ((hd.mem j).mp hj).1
  · intro j hj
    by_cases hji : j = i
    · right
      exact Set.mem_insert_iff.mpr (Or.inl hji)
    · rcases hinv.activeHeap j hj with hmem | haway
      · left
        exact (hd.mem j).mpr ⟨hmem, hji⟩
      · right
        exact Set.mem_insert_of_mem i haway
  · exact hinv.callback

theorem LoopInv.switchOff {t : VoxTimer} (hinv : LoopInv l A) (hi : i ∉ l.timers.elements)
    (hloop : t.loop = l.self) (hoff : t.active = false) : LoopInv (l.setTimer i t) (A \ {i}) := by
  constructor
  · intro j
    rw [setTimer_timer]
    split
    · exact hloop
    · exact hinv.sameLoop j
  · exact hinv.roomy
  · exact hinv.nodup
  · intro j hj
    have hji : j ≠ i := fun he => hi (he ▸ hj)
    rw [setTimer_timer, if_neg hji]
    exact hinv.heapActive j hj
  · intro j hj
    rw [setTimer_timer] at hj
    split at hj
    · simp [hoff] at hj
    · rename_i hji
      exact (hinv.activeHeap j hj).imp_right fun haway => ⟨haway, hji⟩
  · intro j hj
    rw [setTimer_timer] at hj ⊢
    split at hj
    · simp [hoff] at hj
    · rename_i hji
      rw [if_neg hji]
      exact hinv.callback j hj

theorem LoopInv.putIn {t : VoxTimer} {cmp : ℕ → ℕ → ℤ} {alloc : Bool} (hinv : LoopInv l A)
    (hi : i ∉ l.timers.elements) (hloop : t.loop = l.self) (hon : t.active = true)
    (hcb : t.callback.isSome = true) (hp : push cmp alloc l.timers i = some h) :
    LoopInv { l.setTimer i t with timers := h } (A \ {i}) := by
  have hperm := push_perm hp
  have hmem : ∀ j, j ∈ h.elements ↔ j = i ∨ j ∈ l.timers.elements := by
    intro j
    rw [hperm.mem_iff, List.mem_cons]
  constructor
  · intro j
    change ((l.setTimer i t).timer j).loop = _
    rw [setTimer_timer]
    split
    · exact hloop
    · exact hinv.sameLoop j
  · exact push_room hp hinv.roomy.1 hinv.roomy.2
  · exact hperm.nodup_iff.mpr (List.nodup_cons.mpr ⟨hi, hinv.nodup⟩)
  · intro j hj
    change ((l.setTimer i t).timer j).active = true
    rw [setTimer_timer]
    split
    · exact hon
    · rename_i hji
      exact hinv.heapActive j (((hmem j).mp hj).resolve_left hji)
  · intro j hj
    change ((l.setTimer i t).timer j).active = true at hj
    rw [setTimer_timer] at hj
    split at hj
    · rename_i hji
      left
      exact (hmem j).mpr (Or.inl hji)
    · rename_i hji
      rcases hinv.activeHeap j hj with hold | haway
      · left
        exact (hmem j).mpr (Or.inr hold)
      · right
        exact ⟨haway, hji⟩
  · intro j hj
    change ((l.setTimer i t).timer j).active = true at hj
    change ((l.setTimer i t).timer j).callback.isSome = true
    rw [setTimer_timer] at hj ⊢
    split
    · exact hcb
    · rename_i hji
      rw [if_neg hji] at hj
      exact hinv.callback j hj

theorem timerStop_inv (i : ℕ) (hinv : LoopInv l A) : LoopInv (timerStop l i).2 A := by
  unfold timerStop
  split
  · obtain ⟨h, hh, hd⟩ := heapRemove_spec (l.setTimer i { l.timer i with active := false }) i
      hinv.nodup
    rw [hh]
    have hout := (hinv.drop hd).switchOff (t := { l.timer i with active := false })
      (fun hi => ((hd.mem i).mp hi).2 rfl) (hinv.sameLoop i) rfl
    exact hout.mono (by simp)
  · exact hinv

theorem timerStop_out (hinv : LoopInv l A) : i ∉ (timerStop l i).2.timers.elements := by
  unfold timerStop
  split
  · obtain ⟨h, hh, hd⟩ := heapRemove_spec (l.setTimer i { l.timer i with active := false }) i
      hinv.nodup
    rw [hh]
    exact fun hi => ((hd.mem i).mp hi).2 rfl
  · rename_i hoff
    exact fun hi => hoff (hinv.heapActive i hi)

theorem stopIfActive_inv (i : ℕ) (hinv : LoopInv l A) :
    LoopInv (if (l.timer i).active then (timerStop l i).2 else l) A ∧
      i ∉ (if (l.timer i).active then (timerStop l i).2 else l).timers.elements := by
  split
  · exact ⟨timerStop_inv i hinv, timerStop_out hinv⟩
  · rename_i hoff
    exact ⟨hinv, fun hi => hoff (hinv.heapActive i hi)⟩

variable (alloc : Bool)

theorem heapPush_inv {t : VoxTimer} (hinv : LoopInv l A) (hi : i ∉ l.timers.elements)
    (hloop : t.loop = l.self) (hon : t.active = true) (hcb : t.callback.isSome = true) :
    LoopInv ((l.setTimer i t).heapPush alloc i).2 (A \ {i}) := by
  unfold Loop.heapPush
  split
  · rename_i h hp
    exact hinv.putIn hi hloop hon hcb hp
  · dsimp only
    rw [setTimer_setTimer]
    apply hinv.switchOff hi
    · rw [setTimer_same]
      exact hloop
    · rfl

theorem timerStart_inv (i timeoutMs repeatMs : ℕ) (cb : Option ℕ) (data : ℕ) (hinv : LoopInv l A) :
    LoopInv (timerStart alloc l i timeoutMs repeatMs cb data).2 A := by
  unfold timerStart
  cases cb with
  | none => exact hinv
  | some f =>
    obtain ⟨hstop, hout⟩ := stopIfActive_inv i hinv
    dsimp only
    have hpush := heapPush_inv (t := { (if (l.timer i).active then (timerStop l i).2 else l).timer i
      with
      timeout := ((if (l.timer i).active then (timerStop l i).2 else l).loopTime
        + timeoutMs * 1000) % 2 ^ 64
      repeatUs := repeatMs * 1000 % 2 ^ 64
      callback := some f
      userData := data
      active := true }) alloc hstop hout (hstop.sameLoop i) rfl rfl
    exact hpush.mono Set.sdiff_subset

theorem timerAgain_inv (i : ℕ) (hinv : LoopInv l A) : LoopInv (timerAgain alloc l i).2 A := by
  unfold timerAgain
  split
  · exact hinv
  · rename_i hon
    simp only [Bool.not_eq_true', Bool.not_eq_false] at hon
    split
    · exact hinv
    · obtain ⟨h, hh, hd⟩ := heapRemove_spec l i hinv.nodup
      rw [hh]
      have hpush := heapPush_inv (t := { l.timer i with
        timeout := (l.loopTime + (l.timer i).repeatUs) % 2 ^ 64 }) alloc (hinv.drop hd)
        (fun hi => ((hd.mem i).mp hi).2 rfl) (hinv.sameLoop i) hon (hinv.callback i hon)
      exact hpush.mono (by simp)

theorem timerSetRepeat_inv (i repeatMs : ℕ) (hinv : LoopInv l A) :
    LoopInv (timerSetRepeat l i repeatMs) A := by
  unfold timerSetRepeat
  have hsame : ∀ j, ((l.setTimer i { l.timer i with
      repeatUs := repeatMs * 1000 % 2 ^ 64 }).timer j).active = (l.timer j).active ∧
      ((l.setTimer i { l.timer i with
      repeatUs := repeatMs * 1000 % 2 ^ 64 }).timer j).callback = (l.timer j).callback ∧
      ((l.setTimer i { l.timer i with
      repeatUs := repeatMs * 1000 % 2 ^ 64 }).timer j).loop = (l.timer j).loop := by
    intro j
    rw [setTimer_timer]
    split
    · rename_i hji
      subst hji
      exact ⟨rfl, rfl, rfl⟩
    · exact ⟨rfl, rfl, rfl⟩
  constructor
  · intro j
    rw [(hsame j).2.2]
    exact hinv.sameLoop j
  · exact hinv.roomy
  · exact hinv.nodup
  · intro j hj
    rw [(hsame j).1]
    exact hinv.heapActive j hj
  · intro j hj
    rw [(hsame j).1] at hj
    exact hinv.activeHeap j hj
  · intro j hj
    rw [(hsame j).1] at hj
    rw [(hsame j).2.1]
    exact hinv.callback j hj

/- The timer whose callback runs is out of the heap. -/
def away (s : State) : Set ℕ :=
  match s.ctl with
  | .inCallback _ i => {i}
  | _ => ∅

def StateInv (s : State) : Prop := LoopInv s.loop (away s)

theorem rearm_inv (now : ℕ) (hinv : LoopInv l A) (hi : i ∉ l.timers.elements)
    (hroom : 0 < (l.timer i).repeatUs → (l.timer i).active = true → CanPush alloc l.timers) :
    LoopInv (rearm alloc l now i) (A \ {i}) := by
  unfold rearm
  split
  · rename_i hrep
    obtain ⟨h, hp⟩ := push_of_canPush (timerCmp (l.setTimer i { l.timer i with
      timeout := (now + (l.timer i).repeatUs) % 2 ^ 64 }).timer) i (hroom hrep.1 hrep.2)
    dsimp only [setTimer_timers]
    rw [hp]
    exact hinv.putIn (t := { l.timer i with
      timeout := (now + (l.timer i).repeatUs) % 2 ^ 64 }) hi (hinv.sameLoop i) hrep.2
      (hinv.callback i hrep.2) hp
  · exact hinv.switchOff hi (hinv.sameLoop i) rfl

theorem expireRoot_inv {s : State} (now : ℕ) (hinv : LoopInv s.loop ∅) :
    StateInv (expireRoot alloc s now) := by
  unfold expireRoot StateInv
  split
  · exact hinv
  · rename_i i h hp
    have hd := dropped_of_perm (pop_perm hp) (pop_capacity hp) hinv.nodup
    have hroot : i ∈ s.loop.timers.elements := List.mem_of_mem_head? (pop_head hp)
    have hon := hinv.heapActive i hroot
    rw [if_neg (by simp [hon])]
    split
    · exact hinv
    · have hcb := hinv.callback i hon
      obtain ⟨f, hf⟩ := isSome_iff_exists.mp hcb
      rw [hf]
      exact (hinv.drop hd).mono (by simp [away])

/- What the claim needs of a run: a callback returns with its timer out of the
   heap, and a repeating timer can be pushed again. -/
def ReturnsClean (s : State) : Action → Prop
  | .tick alloc =>
    match s.ctl with
    | .inCallback _ i => i ∉ s.loop.timers.elements ∧
        (0 < (s.loop.timer i).repeatUs → (s.loop.timer i).active = true →
          CanPush alloc s.loop.timers)
    | _ => True
  | _ => True

theorem onLoop_inv {s t : State} (h : onLoop s l = some t) (hinv : LoopInv l (away s)) :
    StateInv t := by
  unfold onLoop at h
  split at h
  · rw [← some.inj h]
    exact hinv
  · cases h

theorem tick_inv {s t : State} {alloc : Bool} (hinv : StateInv s)
    (hok : ReturnsClean s (.tick alloc)) (h : tick alloc s = some t) : StateInv t := by
  unfold tick at h
  unfold StateInv away at hinv
  unfold ReturnsClean at hok
  cases hctl : s.ctl with
  | idle => simp [hctl] at h
  | looping now =>
    simp only [hctl, Option.some.injEq] at h hinv
    rw [← h]
    exact expireRoot_inv alloc now hinv
  | inCallback now i =>
    simp only [hctl, Option.some.injEq] at h hinv hok
    rw [← h]
    exact (rearm_inv alloc now hinv hok.1 hok.2).mono (by simp)

theorem step_inv (s : State) (a : Action) (t : State) (hinv : StateInv s) (hok : ReturnsClean s a)
    (h : step s a = some t) : StateInv t := by
  cases a with
  | start i timeoutMs repeatMs cb data alloc =>
    exact onLoop_inv h (timerStart_inv alloc i timeoutMs repeatMs cb data hinv)
  | stop i => exact onLoop_inv h (timerStop_inv i hinv)
  | again i alloc => exact onLoop_inv h (timerAgain_inv alloc i hinv)
  | setRepeat i repeatMs => exact onLoop_inv h (timerSetRepeat_inv i repeatMs hinv)
  | updateTime now =>
    simp only [step] at h
    split at h
    · rw [← some.inj h]
      exact ⟨hinv.sameLoop, hinv.roomy, hinv.nodup, hinv.heapActive, hinv.activeHeap,
        hinv.callback⟩
    · cases h
  | process =>
    simp only [step] at h
    split at h
    · rename_i hctl
      rw [← some.inj h]
      unfold StateInv away at hinv
      rw [hctl] at hinv
      exact hinv
    · cases h
  | tick alloc => exact tick_inv hinv hok h

def State.init (self loopTime : ℕ) : State := { loop := Loop.init self loopTime }

theorem timers_booked_between_calls (self loopTime : ℕ) (as : List Action)
    (hg : Guarded step ReturnsClean (State.init self loopTime) as) :
    Along step (fun s => s.ctl = .idle → Booked s.loop) (State.init self loopTime) as := by
  have h0 : StateInv (State.init self loopTime) := init_inv self loopTime
  apply along_mono _ (along_of_guarded step_inv h0 hg)
  intro s hinv hidle
  unfold StateInv away at hinv
  rw [hidle] at hinv
  exact hinv.booked

/- A repeating timer fires, its callback starts another timer and returns. -/
theorem timers_booked_repeating :
    ∃ s, exec step (State.init 7 0) [.start 0 0 1 (some 1) 0 true, .process, .tick true,
        .start 1 5 0 (some 1) 0 true, .tick true, .tick true] = some s ∧
      s.ctl = .idle ∧ s.loop.timers.elements = [1, 0] ∧ Booked s.loop := by
  have hrun : (exec step (State.init 7 0) [.start 0 0 1 (some 1) 0 true, .process, .tick true,
      .start 1 5 0 (some 1) 0 true, .tick true, .tick true]).isSome = true := by rfl
  obtain ⟨s, hs⟩ := isSome_iff_exists.mp hrun
  have hidle : s.ctl = .idle := by
    rw [← some.inj hs]
    rfl
  have helem : s.loop.timers.elements = [1, 0] := by
    rw [← some.inj hs]
    rfl
  have hg : Guarded step ReturnsClean (State.init 7 0) [.start 0 0 1 (some 1) 0 true, .process,
      .tick true, .start 1 5 0 (some 1) 0 true, .tick true, .tick true] :=
    ⟨trivial, _, rfl, trivial, _, rfl, trivial, _, rfl, trivial, _, rfl,
      ⟨by decide, fun _ _ => Or.inl (by decide)⟩, _, rfl, trivial, _, rfl, trivial⟩
  exact ⟨s, hs, hidle, helem, along_last (timers_booked_between_calls 7 0 _ hg) hs hidle⟩

/- Restarted in its own callback, a repeating timer is in the heap twice, and a
   one-shot timer is switched off. -/
theorem restart_in_own_callback :
    (∃ s, exec step (State.init 7 0) [.start 0 0 1 (some 1) 0 true, .process, .tick true,
        .start 0 0 1 (some 1) 0 true, .tick true, .tick true] = some s ∧
      s.ctl = .idle ∧ s.loop.timers.elements.count 0 = 2 ∧ ¬ Booked s.loop) ∧
    (∃ s, exec step (State.init 7 0) [.start 0 0 0 (some 1) 0 true, .process, .tick true,
        .start 0 5 0 (some 1) 0 true, .tick true, .tick true, .tick true] = some s ∧
      s.ctl = .idle ∧ (s.loop.timer 0).active = false) := by
  constructor
  · have hrun : (exec step (State.init 7 0) [.start 0 0 1 (some 1) 0 true, .process, .tick true,
        .start 0 0 1 (some 1) 0 true, .tick true, .tick true]).isSome = true := by rfl
    obtain ⟨s, hs⟩ := isSome_iff_exists.mp hrun
    have hcount : s.loop.timers.elements.count 0 = 2 := by
      rw [← some.inj hs]
      rfl
    have hon : (s.loop.timer 0).active = true := by
      rw [← some.inj hs]
      rfl
    have hidle : s.ctl = .idle := by
      rw [← some.inj hs]
      rfl
    have hnot : ¬ Booked s.loop := by
      intro hb
      have hone := hb.1 0 hon
      omega
    exact ⟨s, hs, hidle, hcount, hnot⟩
  · exact ⟨_, rfl, rfl, rfl⟩

end Voxlib.Timer
