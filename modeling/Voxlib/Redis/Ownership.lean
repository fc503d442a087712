import Voxlib.Lib.Places
import Voxlib.Redis.Pool

/-!
# Who owns a client of the Redis pool

vox_redis_pool_release takes a client for an initial one when the idle list is not full.
-/

namespace Voxlib.RedisPool
open Places List Option

def World.Live (w : World) (c : ℕ) : Prop :=
  c < w.nextClient ∧ c ∉ w.gone ∧ c ∉ w.dialing ∧ c ∉ w.temps.map Prod.fst

structure Safe (w : World) : Prop where
  owned : ∀ c, w.Live c →
    w.held.count c = 1 ∧ w.pool.idle.count c = 0 ∨ w.held.count c = 0 ∧ w.pool.idle.count c = 1
  temporary : w.pool.destroyed = false →
    ∀ c, w.pool.inUse.count c = if some c ∈ w.pool.clients then 0 else w.held.count c
  initialKept : w.pool.destroyed = false → ∀ c < w.pool.initialSize, c ∉ w.gone
  once : w.gone.Nodup
  bounded : ((List.range w.nextClient).filter (fun c => c ∉ w.gone)).length ≤ w.pool.maxSize

structure Inv (w : World) : Prop where
  intact : w.pool.destroyed = false
  clients : w.pool.clients = (List.range w.pool.initialSize).map some
  made : w.pool.initialSize ≤ w.nextClient
  places : ∀ c, w.pool.idle.count c + w.held.count c + w.dialing.count c +
    (w.temps.map Prod.fst).count c + w.gone.count c = if c < w.nextClient then 1 else 0
  idleLow : ∀ c ∈ w.pool.idle, c < w.pool.initialSize
  dialingLow : ∀ c ∈ w.dialing, c < w.pool.initialSize
  tempsHigh : ∀ c ∈ w.temps.map Prod.fst, w.pool.initialSize ≤ c
  goneHigh : ∀ c ∈ w.gone, w.pool.initialSize ≤ c
  temporary : ∀ c, w.pool.inUse.count c = if c < w.pool.initialSize then 0 else w.held.count c
  pending : w.pool.pendingTemp = w.temps.length
  bounded : w.pool.initialSize + w.pool.inUse.length + w.pool.pendingTemp ≤ w.pool.maxSize

variable {w : World}

theorem Inv.mem_clients (h : Inv w) (c : ℕ) : some c ∈ w.pool.clients ↔ c < w.pool.initialSize := by
  rw [h.clients]
  simp

theorem Inv.gone_count (h : Inv w) (c : ℕ) : w.gone.count c ≤ 1 := by
  have hc := h.places c
  split at hc <;> omega

variable {c : ℕ}

section
variable (h : Inv w)
include h

theorem Inv.alive_mem (hmade : c < w.nextClient) (hgone : c ∉ w.gone) :
    c ∈ List.range w.pool.initialSize ++ w.pool.inUse ++ w.temps.map Prod.fst := by
  rw [mem_append, mem_append, mem_range]
  by_cases hlow : c < w.pool.initialSize
  · exact .inl (.inl hlow)
  · have hplaces := h.places c
    have hidle : w.pool.idle.count c = 0 :=
      count_eq_zero_of_not_mem fun hin => hlow (h.idleLow c hin)
    have hdialing : w.dialing.count c = 0 :=
      count_eq_zero_of_not_mem fun hin => hlow (h.dialingLow c hin)
    rw [if_pos hmade, hidle, hdialing, count_eq_zero_of_not_mem hgone] at hplaces
    by_cases htemp : c ∈ w.temps.map Prod.fst
    · exact .inr htemp
    · rw [count_eq_zero_of_not_mem htemp] at hplaces
      refine .inl (.inr (count_pos_iff.mp ?_))
      rw [h.temporary, if_neg hlow]
      omega

theorem Inv.alive_le {gone : List ℕ} (hsub : w.gone ⊆ gone) :
    ((List.range w.nextClient).filter (fun c => c ∉ gone)).length ≤ w.pool.maxSize := by
  have hle := length_le_of_counts
    (l := (List.range w.nextClient).filter (fun c => c ∉ gone))
    (m := List.range w.pool.initialSize ++ w.pool.inUse ++ w.temps.map Prod.fst)
    (fun c => nodup_iff_count_le_one.mp (nodup_range.filter _) c)
    (fun c hc => by
      simp only [mem_filter, mem_range, decide_eq_true_eq] at hc
      exact h.alive_mem hc.1 fun hin => hc.2 (hsub hin))
  have hbounded := h.bounded
  have hpending := h.pending
  simp only [length_append, length_range, length_map] at hle
  omega

theorem Inv.safe : Safe w := by
  refine ⟨?_, ?_, ?_, nodup_iff_count_le_one.mpr h.gone_count, h.alive_le fun _ hc => hc⟩
  · rintro c ⟨hmade, hgone, hdialing, htemps⟩
    have hplaces := h.places c
    rw [if_pos hmade, count_eq_zero_of_not_mem hgone, count_eq_zero_of_not_mem hdialing,
      count_eq_zero_of_not_mem htemps] at hplaces
    omega
  · intro _ c
    rw [h.temporary]
    simp only [h.mem_clients]
  · intro _ c hlow hin
    have hhigh := h.goneHigh c hin
    omega

theorem Inv.idle_room (hlow : c < w.pool.initialSize) (hidle : c ∉ w.pool.idle) :
    w.pool.idle.length < w.pool.initialSize := by
  have hle := length_le_of_counts (l := c :: w.pool.idle) (m := List.range w.pool.initialSize)
    (fun x => by
      have hx := h.places x
      rw [count_cons]
      by_cases hcx : c = x
      · rw [← hcx, count_eq_zero_of_not_mem hidle]
        simp
      · simp only [beq_iff_eq, hcx, if_false]
        split at hx <;> omega)
    (fun x hx => by
      rcases mem_cons.mp hx with rfl | hx
      · exact mem_range.mpr hlow
      · exact mem_range.mpr (h.idleLow x hx))
  rw [length_cons, length_range] at hle
  exact hle

theorem Inv.owing (n : ℕ) : Inv { w with owed := n } :=
  ⟨h.intact, h.clients, h.made, h.places, h.idleLow, h.dialingLow, h.tempsHigh, h.goneHigh,
    h.temporary, h.pending, h.bounded⟩

theorem giveIdle_inv {idle : List ℕ} (hidle : w.pool.idle = c :: idle) (waiting : List ℕ)
    (requests : ℕ) : Inv (({ w with
      pool := { w.pool with idle := idle, waiting := waiting }
      requests := requests }).give c) := by
  have hlow := h.idleLow
  refine ⟨h.intact, h.clients, h.made, ?_, ?_, h.dialingLow, h.tempsHigh, h.goneHigh, ?_,
    h.pending, h.bounded⟩
  · intro x
    refine Eq.trans ?_ (h.places x)
    simp only [hidle, count_cons, World.give]
    omega
  · exact fun x hx => hlow x (by rw [hidle]; exact mem_cons_of_mem _ hx)
  · intro x
    have hx := h.temporary x
    simp only [count_cons, World.give] at hx ⊢
    grind

theorem acquireAsync_inv : Inv (acquireAsync w) := by
  cases hidle : w.pool.idle with
  | cons c idle =>
    simp only [acquireAsync, hidle]
    exact giveIdle_inv h hidle _ _
  | nil =>
    simp only [acquireAsync, hidle]
    refine ⟨h.intact, h.clients, h.made, ?_, ?_, h.dialingLow, h.tempsHigh, h.goneHigh,
      h.temporary, h.pending, h.bounded⟩
    · intro x
      have hx := h.places x
      rwa [hidle] at hx
    · exact fun x hx => absurd hx not_mem_nil

theorem serveOneWaiter_inv : Inv (serveOneWaiter w) := by
  cases hwait : w.pool.waiting with
  | nil =>
    simp only [serveOneWaiter, hwait]
    exact h
  | cons r waiting =>
    cases hidle : w.pool.idle with
    | cons c idle =>
      simp only [serveOneWaiter, hwait, hidle]
      exact giveIdle_inv h hidle waiting w.requests
    | nil =>
      simp only [serveOneWaiter, hwait, hidle]
      by_cases hroom : w.pool.hasRoom = true
      · rw [if_pos hroom]
        have hlt : w.pool.initialSize + w.pool.inUse.length + w.pool.pendingTemp <
            w.pool.maxSize := by
          simpa [Pool.hasRoom, hidle] using hroom
        have hmade := h.made
        have hpending := h.pending
        refine ⟨h.intact, h.clients, Nat.le_succ_of_le hmade, ?_, ?_, h.dialingLow, ?_, h.goneHigh,
          h.temporary, ?_, ?_⟩
        · intro x
          have hx := h.places x
          simp only [hidle, map_append, map_cons, map_nil, count_append,
            count_cons, count_nil, beq_iff_eq] at hx ⊢
          grind
        · exact fun x hx => absurd hx not_mem_nil
        · intro x hx
          simp only [map_append, map_cons, map_nil, mem_append,
            mem_singleton] at hx
          rcases hx with hx | rfl
          · exact h.tempsHigh x hx
          · exact hmade
        · show w.pool.pendingTemp + 1 = (w.temps ++ [_]).length
          rw [length_append, length_singleton]
          omega
        · show w.pool.initialSize + w.pool.inUse.length + (w.pool.pendingTemp + 1) ≤ w.pool.maxSize
          omega
      · rw [if_neg hroom]
        exact h

theorem backToIdle_inv (hheld : c ∈ w.held) (hlow : c < w.pool.initialSize) :
    Inv { w with held := w.held.erase c, pool := { w.pool with idle := w.pool.idle ++ [c] } } := by
  have hcount := count_erase_add hheld
  refine ⟨h.intact, h.clients, h.made, ?_, ?_, h.dialingLow, h.tempsHigh, h.goneHigh, ?_,
    h.pending, h.bounded⟩
  · intro x
    have hx := h.places x
    have hcx := hcount x
    simp only [count_append, count_cons, count_nil, beq_iff_eq] at hx ⊢
    omega
  · intro x hx
    rcases mem_append.mp hx with hx | hx
    · exact h.idleLow x hx
    · rwa [mem_singleton.mp hx]
  · intro x
    have hx := h.temporary x
    have hcx := hcount x
    show w.pool.inUse.count x = if x < w.pool.initialSize then 0 else (w.held.erase c).count x
    grind

theorem dropTemp_inv (hheld : c ∈ w.held) (hhigh : w.pool.initialSize ≤ c) : Inv { w with
      held := w.held.erase c
      pool := { w.pool with inUse := w.pool.inUse.erase c }
      gone := w.gone ++ [c]
      owed := w.owed + 1 } := by
  have hcount := count_erase_add hheld
  have hinUse : c ∈ w.pool.inUse := by
    rw [← count_pos_iff, h.temporary, if_neg (by omega)]
    exact count_pos_iff.mpr hheld
  have herase := count_erase_add hinUse
  refine ⟨h.intact, h.clients, h.made, ?_, h.idleLow, h.dialingLow, h.tempsHigh, ?_, ?_,
    h.pending, ?_⟩
  · intro x
    have hx := h.places x
    have hcx := hcount x
    simp only [count_append, count_cons, count_nil, beq_iff_eq] at hx ⊢
    omega
  · intro x hx
    rcases mem_append.mp hx with hx | hx
    · exact h.goneHigh x hx
    · rwa [mem_singleton.mp hx]
  · intro x
    have hx := h.temporary x
    have hcx := hcount x
    have hux := herase x
    show (w.pool.inUse.erase c).count x = if x < w.pool.initialSize then 0 else
      (w.held.erase c).count x
    grind
  · have hbounded := h.bounded
    have hlen := length_erase_of_mem hinUse
    show w.pool.initialSize + (w.pool.inUse.erase c).length + w.pool.pendingTemp ≤ w.pool.maxSize
    omega

end

/-- The release of a temporary client finds all the initial clients idle. -/
def Action.Fits (w : World) : Action → Prop
  | .release c => some c ∈ w.pool.clients ∨ w.pool.initialSize ≤ w.pool.idle.length
  | _ => True

instance (w : World) : (a : Action) → Decidable (a.Fits w)
  | .release c =>
    inferInstanceAs (Decidable (some c ∈ w.pool.clients ∨ w.pool.initialSize ≤ w.pool.idle.length))
  | .acquireAsync | .initialConnected _ | .tempConnected _ | .serve | .destroy =>
    inferInstanceAs (Decidable True)

theorem release_inv (h : Inv w) (hheld : c ∈ w.held)
    (hfits : some c ∈ w.pool.clients ∨ w.pool.initialSize ≤ w.pool.idle.length) :
    Inv (release w c) := by
  have hnotIdle : c ∉ w.pool.idle := by
    intro hin
    have hc := h.places c
    have hidle := count_pos_iff.mpr hin
    have hout := count_pos_iff.mpr hheld
    split at hc <;> omega
  simp only [release]
  by_cases hlow : c < w.pool.initialSize
  · rw [if_pos (h.idle_room hlow hnotIdle)]
    exact serveOneWaiter_inv (backToIdle_inv h hheld hlow)
  · have hfull : w.pool.initialSize ≤ w.pool.idle.length :=
      hfits.resolve_left fun hin => hlow ((h.mem_clients c).mp hin)
    rw [if_neg (by omega)]
    exact dropTemp_inv h hheld (Nat.le_of_not_lt hlow)

theorem initialConnected_inv (h : Inv w) (hdialing : c ∈ w.dialing) :
    Inv (initialConnected w c) := by
  have hlow := h.dialingLow c hdialing
  have hcount := count_erase_add hdialing
  have hnotIdle : c ∉ w.pool.idle := by
    intro hin
    have hc := h.places c
    have hidle := count_pos_iff.mpr hin
    have hout := count_pos_iff.mpr hdialing
    split at hc <;> omega
  have hroom := h.idle_room hlow hnotIdle
  have hpush : ¬ w.pool.initialSize ≤ w.pool.idle.length := Nat.not_le_of_lt hroom
  simp only [initialConnected, pushIdle, if_neg hpush]
  refine ⟨h.intact, h.clients, h.made, ?_, ?_, ?_, h.tempsHigh, h.goneHigh, h.temporary,
    h.pending, h.bounded⟩
  · intro x
    have hx := h.places x
    have hcx := hcount x
    simp only [count_append, count_cons, count_nil, beq_iff_eq] at hx ⊢
    omega
  · intro x hx
    rcases mem_append.mp hx with hx | hx
    · exact h.idleLow x hx
    · rwa [mem_singleton.mp hx]
  · exact fun x hx => h.dialingLow x (mem_of_mem_erase hx)

theorem tempConnected_inv {d : ℕ × ℕ} (h : Inv w) (hd : d ∈ w.temps) : Inv (tempConnected w d) := by
  have hperm := perm_cons_erase hd
  have htemps (x : ℕ) : (w.temps.map Prod.fst).count x =
      ((w.temps.erase d).map Prod.fst).count x + if d.1 = x then 1 else 0 := by
    rw [(hperm.map Prod.fst).count_eq x]
    simp [count_cons]
  have hhigh : w.pool.initialSize ≤ d.1 := h.tempsHigh d.1 (mem_map_of_mem hd)
  have hpending := h.pending
  have hlen := length_erase_of_mem hd
  have hpos : 0 < w.temps.length := length_pos_of_mem hd
  have hbounded := h.bounded
  refine ⟨h.intact, h.clients, h.made, ?_, h.idleLow, h.dialingLow, ?_, h.goneHigh, ?_, ?_, ?_⟩
  · intro x
    have hx := h.places x
    have htx := htemps x
    refine Eq.trans ?_ hx
    simp only [tempConnected, World.give, count_cons, beq_iff_eq]
    omega
  · intro x hx
    obtain ⟨e, he, rfl⟩ := mem_map.mp hx
    exact h.tempsHigh e.1 (mem_map_of_mem (mem_of_mem_erase he))
  · intro x
    have hx := h.temporary x
    simp only [tempConnected, World.give, count_cons, count_append, count_nil,
      beq_iff_eq] at hx ⊢
    grind
  · show w.pool.pendingTemp - 1 = (w.temps.erase d).length
    omega
  · show w.pool.initialSize + (w.pool.inUse ++ [d.1]).length + (w.pool.pendingTemp - 1) ≤
      w.pool.maxSize
    rw [length_append, length_singleton]
    omega

theorem destroy_safe (h : Inv w) : Safe (destroy w) := by
  have hslots : w.pool.clients.filterMap id = List.range w.pool.initialSize := by
    rw [h.clients]
    simp
  have htemporary : w.pool.inUse.filter (fun c => some c ∉ w.pool.clients) = w.pool.inUse := by
    refine filter_eq_self.mpr fun c hc => decide_eq_true fun hin => ?_
    have hcount := h.temporary c
    rw [if_pos ((h.mem_clients c).mp hin)] at hcount
    exact not_mem_of_count_eq_zero hcount hc
  have hgone : (destroy w).gone =
      w.gone ++ w.pool.inUse ++ List.range w.pool.initialSize := by
    simp only [destroy, hslots, htemporary]
  have hkeeps : w.gone ⊆ (destroy w).gone := by
    rw [hgone, append_assoc]
    exact subset_append_left _ _
  have hclosed : (destroy w).pool.destroyed ≠ false := Bool.noConfusion
  refine ⟨?_, fun hintact => absurd hintact hclosed, fun hintact => absurd hintact hclosed, ?_,
    h.alive_le hkeeps⟩
  · rintro c ⟨hmade, hnotGone, -, htemps⟩
    refine absurd ?_ hnotGone
    have hmem := h.alive_mem hmade fun hin => hnotGone (hkeeps hin)
    rw [hgone]
    simp only [mem_append] at hmem ⊢
    tauto
  · rw [nodup_iff_count_le_one, hgone]
    intro c
    have hplaces := h.places c
    have htemps := h.temporary c
    rw [count_append, count_append, htemps, count_range]
    by_cases hlow : c < w.pool.initialSize
    · have hgone' : w.gone.count c = 0 := count_eq_zero_of_not_mem fun hin => by
        have hhigh := h.goneHigh c hin
        omega
      rw [hgone', if_pos hlow, if_pos hlow]
    · rw [if_neg hlow, if_neg hlow]
      split at hplaces <;> omega

theorem create_inv {initialSize maxSize : ℕ} (h : create initialSize maxSize = some w) : Inv w := by
  simp only [create] at h
  split at h
  · cases h
  · next hsizes =>
    obtain rfl := some.inj h
    refine ⟨rfl, rfl, le_rfl, ?_, ?_, fun c hc => mem_range.mp hc, ?_, ?_, ?_, rfl, ?_⟩
    · intro c
      simp [count_range]
    · exact fun c hc => absurd hc not_mem_nil
    · exact fun c hc => absurd hc not_mem_nil
    · exact fun c hc => absurd hc not_mem_nil
    · intro c
      simp
    · show initialSize + 0 + 0 ≤ maxSize
      omega

def Good (w : World) : Prop := Inv w ∨ w.pool.destroyed = true ∧ Safe w

theorem step_good {w' : World} {a : Action} (h : Good w) (hfits : a.Fits w)
    (hstep : step w a = some w') : Good w' := by
  rcases h with h | ⟨hdestroyed, -⟩
  · simp only [step, h.intact, Bool.false_eq_true, if_false] at hstep
    cases a with
    | acquireAsync =>
      obtain rfl := some.inj hstep
      exact .inl (acquireAsync_inv h)
    | release c =>
      simp only [ite_none_right_eq_some, Option.some.injEq] at hstep
      obtain ⟨hheld, rfl⟩ := hstep
      exact .inl (release_inv h hheld hfits)
    | initialConnected c =>
      simp only [ite_none_right_eq_some, Option.some.injEq] at hstep
      obtain ⟨hc, rfl⟩ := hstep
      exact .inl (initialConnected_inv h hc)
    | tempConnected d =>
      simp only [ite_none_right_eq_some, Option.some.injEq] at hstep
      obtain ⟨hd, rfl⟩ := hstep
      exact .inl (tempConnected_inv h hd)
    | serve =>
      simp only [ite_none_right_eq_some, Option.some.injEq] at hstep
      obtain ⟨-, rfl⟩ := hstep
      exact .inl (serveOneWaiter_inv (h.owing _))
    | destroy =>
      obtain rfl := some.inj hstep
      exact .inr ⟨rfl, destroy_safe h⟩
  · simp only [step, hdestroyed, if_true, reduceCtorEq] at hstep

/-- In every run in which temporary clients are released while all the initial ones are idle,
every state keeps what the pool promises. -/
theorem redis_pool_ownership (initialSize maxSize : ℕ) (w : World) (actions : List Action)
    (hcreate : create initialSize maxSize = some w)
    (hrun : Run.Guarded step (fun w a => a.Fits w) w actions) : Run.Along step Safe w actions := by
  have hsafe (w : World) (h : Good w) : Safe w := by
    rcases h with h | h
    · exact h.safe
    · exact h.2
  exact Run.along_mono hsafe
    (Run.along_of_guarded (fun _ _ _ h hfits hstep => step_good h hfits hstep)
      (.inl (create_inv hcreate)) hrun)

/- The start of a run in which connect_cb makes two requests of a pool with one initial client:
   the first one gets it, the second one a temporary client. -/
def twoCallers : List Action :=
  [.initialConnected 0, .acquireAsync, .acquireAsync, .serve, .tempConnected (1, 1), .serve]

/- The initial client comes back first. -/
theorem redis_pool_ownership_in_order : ∃ w, create 1 2 = some w ∧
    Run.Along step Safe w (twoCallers ++ [.release 0, .release 1, .serve, .destroy]) :=
  ⟨_, rfl, redis_pool_ownership 1 2 _ (twoCallers ++ [.release 0, .release 1, .serve, .destroy])
    rfl (by decide)⟩

/- The temporary client comes back first: it is filed as idle, and the release of the initial
   client finds the idle list full and destroys it. -/
theorem temporary_released_first : ∃ w w', create 1 2 = some w ∧
    Run.exec step w (twoCallers ++ [.release 1, .release 0]) = some w' ∧ ¬ Safe w' :=
  ⟨_, _, rfl, rfl, fun h => h.initialKept rfl 0 (by decide) (by decide)⟩

end Voxlib.RedisPool
