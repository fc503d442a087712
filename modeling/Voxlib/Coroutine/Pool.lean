import Voxlib.Lib.Run

/-!
# The coroutine pool (coroutine/vox_coroutine_pool.c)

Slots are numbered as they are created; allocations succeed. The limit counts all slots ever
created.
-/

namespace Voxlib.CoroutinePool
open Run List

/-- struct vox_coroutine_pool, and the slots that were created and not destroyed. -/
structure Pool where
  maxCount : ℕ
  freeList : List ℕ := []
  totalCreated : ℕ := 0
  totalAcquired : ℕ := 0
  totalReleased : ℕ := 0
  currentInUse : ℕ := 0
  peakInUse : ℕ := 0
  slots : List ℕ := []
  deriving DecidableEq

-- create_slot (vox_coroutine_pool.c:112-138)
def createSlot (p : Pool) : ℕ × Pool :=
  (p.totalCreated,
    { p with slots := p.slots ++ [p.totalCreated], totalCreated := p.totalCreated + 1 })

-- destroy_slot (vox_coroutine_pool.c:141-151)
def destroySlot (p : Pool) (slot : ℕ) : Pool := { p with slots := p.slots.erase slot }

def Pool.full (p : Pool) : Bool := 0 < p.maxCount ∧ p.maxCount ≤ p.totalCreated

def Pool.take (p : Pool) : Pool :=
  { p with
    totalAcquired := p.totalAcquired + 1
    currentInUse := p.currentInUse + 1
    peakInUse := max p.peakInUse (p.currentInUse + 1) }

-- vox_coroutine_pool_acquire (vox_coroutine_pool.c:249-283)
def acquire (p : Pool) : Option ℕ × Pool :=
  match p.freeList with
  | slot :: rest => (some slot, { p with freeList := rest }.take)
  | [] =>
    if p.full then (none, p)
    else
      let (slot, p) := createSlot p
      (some slot, p.take)

-- vox_coroutine_pool_release (vox_coroutine_pool.c:286-298)
def release (p : Pool) (slot : ℕ) : Pool :=
  { p with
    freeList := p.freeList ++ [slot]
    totalReleased := p.totalReleased + 1
    currentInUse := p.currentInUse - 1 }

-- vox_coroutine_pool_warmup (vox_coroutine_pool.c:315-337)
def warmup (p : Pool) : ℕ → Pool
  | 0 => p
  | count + 1 =>
    if p.full then p
    else
      let (slot, p) := createSlot p
      warmup { p with freeList := p.freeList ++ [slot] } count

/-- vox_coroutine_pool_shrink (vox_coroutine_pool.c:340-357): the slots from the back of the list
are destroyed until `keepCount` are left. -/
def shrink (p : Pool) (keepCount : ℕ) : Pool :=
  (p.freeList.drop keepCount).reverse.foldl destroySlot
    { p with freeList := p.freeList.take keepCount }

-- vox_coroutine_pool_create (vox_coroutine_pool.c:178-225)
def create (maxCount initialCount : ℕ) : Pool := warmup { maxCount := maxCount } initialCount

/-- The pool and the slots its users hold, one entry for each acquisition. -/
structure World where
  pool : Pool
  held : List ℕ
  deriving DecidableEq

inductive Action where
  | warmup (count : ℕ)
  | acquire
  | release (slot : ℕ)
  | shrink (keepCount : ℕ)
  deriving DecidableEq

def step (w : World) : Action → Option World
  | .warmup count => some { w with pool := warmup w.pool count }
  | .acquire => some ⟨(acquire w.pool).2, (acquire w.pool).1.toList ++ w.held⟩
  | .release slot =>
    if slot ∈ w.held then some ⟨release w.pool slot, w.held.erase slot⟩ else none
  | .shrink keepCount => some { w with pool := shrink w.pool keepCount }

/-- Every slot is free or held, once; the counters and the limit agree with the slots. -/
structure Accounted (w : World) : Prop where
  places : w.pool.freeList ++ w.held ~ w.pool.slots
  once : w.pool.slots.Nodup
  inUse : w.pool.currentInUse = w.held.length
  limit : 0 < w.pool.maxCount → w.pool.slots.length ≤ w.pool.maxCount

/-- An acquisition fails only with an empty free list and `max_count` live slots. -/
def Right (w : World) : Action → Prop
  | .acquire => (acquire w.pool).1 = none →
      w.pool.freeList = [] ∧ w.pool.slots.length = w.pool.maxCount
  | _ => True

/-- Where a slot has to be created, there is no limit, or fewer than `max_count` were created
so far, or none was destroyed. -/
def Calm (w : World) : Action → Prop
  | .acquire => w.pool.freeList = [] → w.pool.maxCount = 0 ∨ w.pool.totalCreated < w.pool.maxCount ∨
      w.pool.totalCreated = w.pool.slots.length
  | _ => True

structure Inv (w : World) : Prop where
  places : w.pool.freeList ++ w.held ~ w.pool.slots
  once : w.pool.slots.Nodup
  old : ∀ s ∈ w.pool.slots, s < w.pool.totalCreated
  fewer : w.pool.slots.length ≤ w.pool.totalCreated
  inUse : w.pool.currentInUse = w.held.length
  limit : 0 < w.pool.maxCount → w.pool.totalCreated ≤ w.pool.maxCount

variable {w : World}

theorem Inv.accounted (h : Inv w) : Accounted w :=
  ⟨h.places, h.once, h.inUse, fun hmax => h.fewer.trans (h.limit hmax)⟩

theorem full_iff (p : Pool) : p.full = true ↔ 0 < p.maxCount ∧ p.maxCount ≤ p.totalCreated :=
  decide_eq_true_iff

theorem Inv.created (h : Inv w) (hroom : ¬ w.pool.full = true) {free' held' : List ℕ} {p' : Pool}
    (hslots : p'.slots = w.pool.slots ++ [w.pool.totalCreated])
    (hcreated : p'.totalCreated = w.pool.totalCreated + 1) (hmax : p'.maxCount = w.pool.maxCount)
    (hfree : p'.freeList = free')
    (hplaces : free' ++ held' ~ w.pool.freeList ++ w.held ++ [w.pool.totalCreated])
    (hinUse : p'.currentInUse = held'.length) : Inv ⟨p', held'⟩ := by
  rw [full_iff] at hroom
  refine ⟨?_, ?_, fun s hs => ?_, ?_, hinUse, fun hpos => ?_⟩
  · rw [hfree, hslots]
    exact hplaces.trans (h.places.append_right _)
  · rw [hslots, nodup_append]
    refine ⟨h.once, nodup_singleton _, fun s hs t ht heq => ?_⟩
    rw [mem_singleton.mp ht] at heq
    exact absurd (h.old s hs) (by omega)
  · rw [hslots, mem_append, mem_singleton] at hs
    rw [hcreated]
    rcases hs with hs | rfl
    · exact (h.old s hs).trans (Nat.lt_succ_self _)
    · exact Nat.lt_succ_self _
  · have := h.fewer
    rw [hslots, hcreated, length_append, length_singleton]
    omega
  · rw [hmax] at hpos
    rw [hcreated, hmax]
    omega

theorem warmup_inv (count : ℕ) (h : Inv w) : Inv { w with pool := warmup w.pool count } := by
  induction count generalizing w with
  | zero => exact h
  | succ count ih =>
    rw [warmup]
    split_ifs with hfull
    · exact h
    · refine ih (w := { w with pool := { (createSlot w.pool).2 with
        freeList := w.pool.freeList ++ [w.pool.totalCreated] } }) ?_
      refine h.created hfull rfl rfl rfl rfl ?_ h.inUse
      rw [append_assoc, append_assoc]
      exact perm_append_comm.append_left _

theorem acquire_inv (h : Inv w) :
    Inv ⟨(acquire w.pool).2, (acquire w.pool).1.toList ++ w.held⟩ := by
  have hinUse := h.inUse
  have hplaces := h.places
  rw [acquire]
  cases hfree : w.pool.freeList with
  | cons slot rest =>
    rw [hfree] at hplaces
    refine ⟨(perm_middle).trans hplaces, h.once, h.old, h.fewer, ?_, h.limit⟩
    simp [Pool.take, hinUse]
  | nil =>
    dsimp only
    split_ifs with hfull
    · exact h
    · refine Inv.created h hfull rfl rfl rfl hfree ?_
        (by simp [createSlot, Pool.take, hinUse])
      rw [hfree]
      exact (perm_append_singleton _ _).symm

theorem release_inv (h : Inv w) {slot : ℕ} (hslot : slot ∈ w.held) :
    Inv ⟨release w.pool slot, w.held.erase slot⟩ := by
  refine ⟨?_, h.once, h.old, h.fewer, ?_, h.limit⟩
  · have hback := (perm_cons_erase hslot).symm
    show w.pool.freeList ++ [slot] ++ w.held.erase slot ~ _
    rw [append_assoc]
    exact (hback.append_left _).trans h.places
  · show w.pool.currentInUse - 1 = _
    rw [length_erase_of_mem hslot, h.inUse]

theorem destroy_fold (gone : List ℕ) (p : Pool) {left : List ℕ} (h : gone ++ left ~ p.slots) :
    ∃ slots, gone.foldl destroySlot p = { p with slots := slots } ∧ left ~ slots ∧
      slots <+ p.slots := by
  induction gone generalizing p with
  | nil => exact ⟨p.slots, rfl, h, Sublist.refl _⟩
  | cons slot gone ih =>
    have hrest : gone ++ left ~ (destroySlot p slot).slots := by
      have herase := h.erase slot
      rwa [cons_append, erase_cons_head] at herase
    obtain ⟨slots, hfold, hleft, hsub⟩ := ih _ hrest
    exact ⟨slots, hfold, hleft, hsub.trans erase_sublist⟩

theorem shrink_inv (h : Inv w) (keepCount : ℕ) :
    Inv { w with pool := shrink w.pool keepCount } := by
  have hsplit : (w.pool.freeList.drop keepCount).reverse ++
      (w.pool.freeList.take keepCount ++ w.held) ~ w.pool.slots := by
    refine Perm.trans ?_ h.places
    rw [← append_assoc]
    refine Perm.append_right _ ((reverse_perm _).append_right _ |>.trans ?_)
    exact perm_append_comm.trans (by rw [take_append_drop])
  obtain ⟨slots, hfold, hleft, hsub⟩ :=
    destroy_fold _ { w.pool with freeList := w.pool.freeList.take keepCount } hsplit
  rw [shrink, hfold]
  exact ⟨hleft, hsub.nodup h.once, fun s hs => h.old s (hsub.subset hs),
    hsub.length_le.trans h.fewer, h.inUse, h.limit⟩

theorem step_inv {a : Action} {v : World} (h : Inv w) (hstep : step w a = some v) : Inv v := by
  cases a with
  | warmup count => exact Option.some.inj hstep ▸ warmup_inv count h
  | acquire => exact Option.some.inj hstep ▸ acquire_inv h
  | release slot =>
    rw [step] at hstep
    split_ifs at hstep with hslot
    exact Option.some.inj hstep ▸ release_inv h hslot
  | shrink keepCount => exact Option.some.inj hstep ▸ shrink_inv h keepCount

theorem create_inv (maxCount initialCount : ℕ) : Inv ⟨create maxCount initialCount, []⟩ :=
  warmup_inv (w := ⟨{ maxCount := maxCount }, []⟩) initialCount
    ⟨.refl _, nodup_nil, fun _ h => absurd h not_mem_nil, Nat.le_refl _, rfl, fun _ => Nat.zero_le _⟩

theorem right_iff_calm (h : Inv w) (a : Action) : Right w a ↔ Calm w a := by
  cases a with
  | warmup | release | shrink => exact Iff.rfl
  | acquire =>
    have hfewer := h.fewer
    have hlimit := h.limit
    rw [Right, Calm, acquire]
    cases hfree : w.pool.freeList with
    | cons slot rest => simp
    | nil =>
      dsimp only
      by_cases hfull : w.pool.full = true
      · rw [if_pos hfull]
        rw [full_iff] at hfull
        simp only [true_imp_iff, true_and]
        omega
      · rw [if_neg hfull]
        rw [full_iff] at hfull
        simp only [reduceCtorEq, false_imp_iff, true_imp_iff, true_iff]
        omega

/-- In every run the accounts are right in every state, and the acquisitions that fail are right
when they are calm. -/
theorem pool_run_right_iff (maxCount initialCount : ℕ) (as : List Action) (v : World)
    (hrun : exec step ⟨create maxCount initialCount, []⟩ as = some v) :
    Along step Accounted ⟨create maxCount initialCount, []⟩ as ∧
      (Guarded step Right ⟨create maxCount initialCount, []⟩ as ↔
        Guarded step Calm ⟨create maxCount initialCount, []⟩ as) := by
  have hinv := along_of_exec (fun _ _ _ h hstep => step_inv h hstep)
    (create_inv maxCount initialCount) hrun
  exact ⟨along_mono (fun _ h => h.accounted) hinv,
    guarded_congr (fun _ a h => right_iff_calm h a) hinv⟩

theorem pool_run_right_regrown : Along step Accounted ⟨create 2 1, []⟩
      [.acquire, .release 0, .shrink 0, .warmup 5, .acquire] ∧
    (Guarded step Right ⟨create 2 1, []⟩ [.acquire, .release 0, .shrink 0, .warmup 5, .acquire] ↔
      Guarded step Calm ⟨create 2 1, []⟩ [.acquire, .release 0, .shrink 0, .warmup 5, .acquire]) :=
  pool_run_right_iff 2 1 _ ⟨_, _⟩ rfl

/-- A pool of one slot that was shrunk never gives out a slot again. -/
theorem shrunk_pool_is_dead : ∃ v, exec step ⟨create 1 1, []⟩ [.shrink 0] = some v ∧
    v.pool.slots = [] ∧ ¬ Right v .acquire :=
  ⟨_, rfl, rfl, fun h => absurd (h rfl).2 (by decide)⟩

end Voxlib.CoroutinePool
