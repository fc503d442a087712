import Voxlib.Db.Pool
import Voxlib.Lib.Places

/-!
# Who owns a connection of the database pool
-/

namespace Voxlib.DbPool
open Places List Option

def World.inWork (w : World) : List ℕ := w.dones.filterMap Prod.fst

def World.inFlight (w : World) : List ℕ := w.workers ++ w.dones.map Prod.snd

/-- A connection that was made, was not disconnected and has left the work that made it. -/
def World.Live (w : World) (c : ℕ) : Prop := c < w.nextConn ∧ c ∉ w.gone ∧ c ∉ w.inWork

structure Safe (w : World) : Prop where
  owned : ∀ c, w.Live c →
    w.held.count c = 1 ∧ w.pool.idle.count c = 0 ∨ w.held.count c = 0 ∧ w.pool.idle.count c = 1
  idleInitial : ∀ c ∈ w.pool.idle, c ∈ w.pool.conns
  temporary : ∀ c, w.pool.inUse.count c = if c ∈ w.pool.conns then 0 else w.held.count c
  bounded : w.pool.initialSize + (w.held.filter (fun c => c ∉ w.pool.conns)).length +
    w.pool.pendingTemp ≤ w.pool.maxSize
  fifo : w.served ++ w.pool.waiting = List.range w.requests
  once : ∀ r, w.called.count r + w.pool.waiting.count r + w.inFlight.count r =
    if r < w.requests then 1 else 0
  idleEmpty : w.pool.waiting ≠ [] → w.pool.idle = []

structure Inv (w : World) : Prop where
  conns : w.pool.conns = List.range w.pool.initialSize
  made : w.pool.initialSize ≤ w.nextConn
  places : ∀ c, w.pool.idle.count c + w.held.count c + w.inWork.count c + w.gone.count c =
    if c < w.nextConn then 1 else 0
  idleLow : ∀ c ∈ w.pool.idle, c < w.pool.initialSize
  workHigh : ∀ c ∈ w.inWork, w.pool.initialSize ≤ c
  temporary : ∀ c, w.pool.inUse.count c = if c < w.pool.initialSize then 0 else w.held.count c
  pending : w.pool.pendingTemp = w.workers.length + w.dones.length + w.connecting
  bounded : w.pool.initialSize + w.pool.inUse.length + w.pool.pendingTemp ≤ w.pool.maxSize
  fifo : w.served ++ w.pool.waiting = List.range w.requests
  once : ∀ r, w.called.count r + w.pool.waiting.count r + w.inFlight.count r =
    if r < w.requests then 1 else 0
  idleEmpty : w.pool.waiting ≠ [] → w.pool.idle = []

variable {w : World}

section
variable (h : Inv w)
include h

theorem Inv.safe : Safe w := by
  have hmem (c : ℕ) : c ∈ w.pool.conns ↔ c < w.pool.initialSize := by
    rw [h.conns, mem_range]
  have htemps : (w.held.filter (fun c => c ∉ w.pool.conns)).length = w.pool.inUse.length := by
    refine (perm_iff_count.mpr fun c => ?_).length_eq
    rw [h.temporary]
    by_cases hc : c < w.pool.initialSize
    · rw [if_pos hc]
      exact count_eq_zero_of_not_mem fun hin => by
        simp only [mem_filter, hmem, decide_not, Bool.not_eq_true', decide_eq_false_iff_not]
          at hin
        exact hin.2 hc
    · rw [if_neg hc]
      exact count_filter (by simp [hmem, hc])
  refine ⟨?_, ?_, ?_, ?_, h.fifo, h.once, h.idleEmpty⟩
  · rintro c ⟨hmade, hgone, hwork⟩
    have hplaces := h.places c
    rw [if_pos hmade, count_eq_zero_of_not_mem hgone,
      count_eq_zero_of_not_mem hwork] at hplaces
    omega
  · exact fun c hc => (hmem c).mpr (h.idleLow c hc)
  · intro c
    rw [h.temporary]
    simp only [hmem]
  · rw [htemps]
    exact h.bounded

theorem acquireAsync_inv : Inv (acquireAsync w) := by
  have hfifo := h.fifo
  cases hidle : w.pool.idle with
  | cons c idle =>
    have hwait : w.pool.waiting = [] := by
      by_contra hne
      rw [h.idleEmpty hne] at hidle
      cases hidle
    have hlow := h.idleLow
    simp only [acquireAsync, hidle, World.give]
    refine ⟨h.conns, h.made, ?_, ?_, h.workHigh, ?_, h.pending, h.bounded, ?_, ?_, ?_⟩
    · intro x
      have hx := h.places x
      simp only [hidle, count_cons, World.inWork] at hx ⊢
      omega
    · exact fun x hx => hlow x (by rw [hidle]; exact mem_cons_of_mem _ hx)
    · intro x
      have hx := h.temporary x
      simp only [count_cons] at hx ⊢
      grind
    · rw [hwait, append_nil] at hfifo ⊢
      rw [hfifo, range_succ]
    · intro r
      have hr := h.once r
      simp only [count_append, count_cons, count_nil, World.inFlight] at hr ⊢
      grind
    · intro hne
      exact absurd hwait hne
  | nil =>
    simp only [acquireAsync, hidle]
    refine ⟨h.conns, h.made, ?_, ?_, h.workHigh, h.temporary, h.pending, h.bounded, ?_, ?_, ?_⟩
    · intro x
      have hx := h.places x
      rwa [hidle] at hx
    · exact fun x hx => absurd hx not_mem_nil
    · show w.served ++ (w.pool.waiting ++ [w.requests]) = _
      rw [← append_assoc, hfifo, range_succ]
    · intro r
      have hr := h.once r
      simp only [count_append, count_cons, count_nil, World.inFlight] at hr ⊢
      grind
    · exact fun _ => rfl

/-- A waiter finds an idle connection: it is the only idle one, and the waiter is the first. -/
theorem serve_idle_inv {c r : ℕ} {waiting : List ℕ} (hwait : w.pool.waiting = r :: waiting)
    (hidle : w.pool.idle = []) (hheld : c ∈ w.held) : Inv (serveOneWaiter
      { w with held := w.held.erase c, pool := { w.pool with idle := w.pool.idle ++ [c] } }) := by
  simp only [serveOneWaiter, hwait, hidle, nil_append, World.give]
  have hcount := count_erase_add hheld
  refine ⟨h.conns, h.made, ?_, ?_, h.workHigh, ?_, h.pending, h.bounded, ?_, ?_, ?_⟩
  · intro x
    have hx := h.places x
    have hcx := hcount x
    simp only [hidle, count_cons, count_nil, World.inWork, beq_iff_eq] at hx ⊢
    omega
  · exact fun x hx => absurd hx not_mem_nil
  · intro x
    have hx := h.temporary x
    simp only [count_cons, beq_iff_eq]
    rwa [← hcount x]
  · have hfifo := h.fifo
    rw [hwait] at hfifo
    simpa using hfifo
  · intro q
    have hq := h.once q
    simp only [hwait, count_append, count_cons, count_nil, World.inFlight,
      beq_iff_eq] at hq ⊢
    omega
  · exact fun _ => rfl

theorem serveOneWaiter_inv : Inv (serveOneWaiter w) := by
  cases hwait : w.pool.waiting with
  | nil =>
    simp only [serveOneWaiter, hwait]
    exact h
  | cons r waiting =>
    have hidle : w.pool.idle = [] := h.idleEmpty (by rw [hwait]; exact cons_ne_nil r waiting)
    simp only [serveOneWaiter, hwait, hidle]
    by_cases hroom : w.pool.hasRoom = true
    · rw [if_pos hroom]
      have hlt : w.pool.initialSize + w.pool.inUse.length + w.pool.pendingTemp < w.pool.maxSize := by
        simpa [Pool.hasRoom, hidle] using hroom
      refine ⟨h.conns, h.made, ?_, ?_, h.workHigh, h.temporary, ?_, ?_, ?_, ?_, ?_⟩
      · intro x
        have hx := h.places x
        rwa [hidle] at hx
      · exact fun x hx => absurd hx not_mem_nil
      · have hpending := h.pending
        simp only [length_append, length_singleton]
        omega
      · show w.pool.initialSize + w.pool.inUse.length + (w.pool.pendingTemp + 1) ≤ w.pool.maxSize
        omega
      · have hfifo := h.fifo
        rw [hwait] at hfifo
        simpa using hfifo
      · intro q
        have hq := h.once q
        simp only [hwait, count_append, count_cons, count_nil, World.inFlight,
          beq_iff_eq] at hq ⊢
        omega
      · exact fun _ => rfl
    · rw [if_neg hroom]
      exact h

theorem Inv.owing (n : ℕ) : Inv { w with owed := n } :=
  ⟨h.conns, h.made, h.places, h.idleLow, h.workHigh, h.temporary, h.pending, h.bounded, h.fifo,
    h.once, h.idleEmpty⟩

theorem release_inv {c : ℕ} (hheld : c ∈ w.held) : Inv (release w c) := by
  have hcount := count_erase_add hheld
  simp only [release]
  by_cases hlow : c < w.pool.initialSize
  · have hinitial : w.pool.isInitialConn c = true := by
      rw [Pool.isInitialConn, h.conns]
      simpa using hlow
    rw [if_pos hinitial]
    by_cases hwait : w.pool.waiting = []
    · simp only [serveOneWaiter, hwait]
      refine ⟨h.conns, h.made, ?_, ?_, h.workHigh, ?_, h.pending, h.bounded, ?_, ?_, ?_⟩
      · intro x
        have hx := h.places x
        have hcx := hcount x
        simp only [count_append, count_cons, count_nil, World.inWork,
          beq_iff_eq] at hx ⊢
        omega
      · intro x hx
        rcases mem_append.mp hx with hx | hx
        · exact h.idleLow x hx
        · rwa [mem_singleton.mp hx]
      · intro x
        have hx := h.temporary x
        have hcx := hcount x
        show w.pool.inUse.count x = _
        simp only at hx ⊢
        grind
      · exact hwait ▸ h.fifo
      · exact hwait ▸ h.once
      · exact fun hne => absurd rfl hne
    · obtain ⟨r, waiting, hcons⟩ := exists_cons_of_ne_nil hwait
      exact serve_idle_inv h hcons (h.idleEmpty hwait) hheld
  · have htemp : ¬ w.pool.isInitialConn c = true := by
      rw [Pool.isInitialConn, h.conns]
      simpa using hlow
    have hinUse : c ∈ w.pool.inUse := by
      rw [← count_pos_iff, h.temporary, if_neg hlow]
      exact count_pos_iff.mpr hheld
    have herase := count_erase_add hinUse
    rw [if_neg htemp]
    refine ⟨h.conns, h.made, ?_, h.idleLow, h.workHigh, ?_, h.pending, ?_, h.fifo, h.once,
      h.idleEmpty⟩
    · intro x
      have hx := h.places x
      have hcx := hcount x
      simp only [count_append, count_cons, count_nil, World.inWork,
        beq_iff_eq] at hx ⊢
      omega
    · intro x
      have hx := h.temporary x
      have hcx := hcount x
      have hux := herase x
      show (w.pool.inUse.erase c).count x = if x < w.pool.initialSize then 0 else
        (w.held.erase c).count x
      grind
    · have hbounded := h.bounded
      have hlen := length_erase_of_mem hinUse
      show w.pool.initialSize + (w.pool.inUse.erase c).length + w.pool.pendingTemp ≤
        w.pool.maxSize
      omega

theorem acquireSync_inv : Inv (acquireSync w) := by
  cases hidle : w.pool.idle with
  | cons c idle =>
    have hlow := h.idleLow
    simp only [acquireSync, hidle, World.give]
    refine ⟨h.conns, h.made, ?_, ?_, h.workHigh, ?_, h.pending, h.bounded, h.fifo, h.once, ?_⟩
    · intro x
      have hx := h.places x
      simp only [hidle, count_cons, World.inWork] at hx ⊢
      omega
    · exact fun x hx => hlow x (by rw [hidle]; exact mem_cons_of_mem _ hx)
    · intro x
      have hx := h.temporary x
      simp only [count_cons] at hx ⊢
      grind
    · intro hne
      have hnil := h.idleEmpty hne
      rw [hidle] at hnil
      cases hnil
  | nil =>
    simp only [acquireSync, hidle]
    by_cases hroom : w.pool.hasRoom = true
    · rw [if_pos hroom]
      have hlt : w.pool.initialSize + w.pool.inUse.length + w.pool.pendingTemp < w.pool.maxSize := by
        simpa [Pool.hasRoom, hidle] using hroom
      have hpending := h.pending
      refine ⟨h.conns, h.made, ?_, ?_, h.workHigh, h.temporary, ?_, ?_, h.fifo, h.once, ?_⟩
      · intro x
        have hx := h.places x
        rwa [hidle] at hx
      · exact fun x hx => absurd hx not_mem_nil
      · show w.pool.pendingTemp + 1 = w.workers.length + w.dones.length + (w.connecting + 1)
        omega
      · show w.pool.initialSize + w.pool.inUse.length + (w.pool.pendingTemp + 1) ≤ w.pool.maxSize
        omega
      · exact fun _ => rfl
    · rw [if_neg hroom]
      exact h

theorem syncFailed_inv (hconnecting : 0 < w.connecting) : Inv (syncConnected w false) := by
  have hpending := h.pending
  have hbounded := h.bounded
  refine ⟨h.conns, h.made, h.places, h.idleLow, h.workHigh, h.temporary, ?_, ?_, h.fifo, h.once,
    h.idleEmpty⟩
  · show w.pool.pendingTemp - 1 = w.workers.length + w.dones.length + (w.connecting - 1)
    omega
  · show w.pool.initialSize + w.pool.inUse.length + (w.pool.pendingTemp - 1) ≤ w.pool.maxSize
    omega

theorem syncConnected_inv (hconnecting : 0 < w.connecting) : Inv (syncConnected w true) := by
  have hpending := h.pending
  have hbounded := h.bounded
  have hmade := h.made
  refine ⟨h.conns, Nat.le_succ_of_le hmade, ?_, h.idleLow, h.workHigh, ?_, ?_, ?_, h.fifo, h.once,
    h.idleEmpty⟩
  · intro x
    have hx := h.places x
    simp only [syncConnected, if_true, World.giveTemp, World.give, count_cons, World.inWork,
      beq_iff_eq] at hx ⊢
    grind
  · intro x
    have hx := h.temporary x
    simp only [syncConnected, if_true, World.giveTemp, World.give, count_cons,
      count_append, count_nil, beq_iff_eq] at hx ⊢
    grind
  · show w.pool.pendingTemp - 1 = w.workers.length + w.dones.length + (w.connecting - 1)
    omega
  · show w.pool.initialSize + (w.pool.inUse ++ [w.nextConn]).length + (w.pool.pendingTemp - 1) ≤
      w.pool.maxSize
    rw [length_append, length_singleton]
    omega

theorem tempWorker_inv {r : ℕ} {ok : Bool} (hr : r ∈ w.workers) : Inv (tempWorker w r ok) := by
  have hpending := h.pending
  have hmade := h.made
  have hcount := count_erase_add hr
  have hlen := length_erase_of_mem hr
  have hpos : 0 < w.workers.length := length_pos_of_mem hr
  cases ok with
  | true =>
    refine ⟨h.conns, Nat.le_succ_of_le hmade, ?_, h.idleLow, ?_, h.temporary, ?_, h.bounded, h.fifo,
      ?_, h.idleEmpty⟩
    · intro x
      have hx := h.places x
      simp only [tempWorker, if_true, World.inWork, filterMap_append, filterMap_cons,
        filterMap_nil, count_append, count_cons, count_nil,
        beq_iff_eq] at hx ⊢
      grind
    · intro x hx
      simp only [tempWorker, if_true, World.inWork, filterMap_append, filterMap_cons,
        filterMap_nil, mem_append, mem_singleton] at hx
      rcases hx with hx | rfl
      · exact h.workHigh x hx
      · exact hmade
    · show w.pool.pendingTemp = (w.workers.erase r).length + (w.dones ++ [_]).length + w.connecting
      rw [length_append, length_singleton]
      omega
    · intro q
      have hq := h.once q
      have hcq := hcount q
      simp only [tempWorker, if_true, World.inFlight, map_append, map_cons, map_nil,
        count_append, count_cons, count_nil, beq_iff_eq] at hq ⊢
      omega
  | false =>
    refine ⟨h.conns, hmade, ?_, h.idleLow, ?_, h.temporary, ?_, h.bounded, h.fifo, ?_,
      h.idleEmpty⟩
    · intro x
      have hx := h.places x
      simpa [tempWorker, World.inWork] using hx
    · intro x hx
      exact h.workHigh x (by simpa [tempWorker, World.inWork] using hx)
    · show w.pool.pendingTemp = (w.workers.erase r).length + (w.dones ++ [_]).length + w.connecting
      rw [length_append, length_singleton]
      omega
    · intro q
      have hq := h.once q
      have hcq := hcount q
      simp only [tempWorker, Bool.false_eq_true, if_false, World.inFlight, map_append,
        map_cons, map_nil, count_append, count_cons, count_nil,
        beq_iff_eq] at hq ⊢
      omega

end

theorem dones_erase {d : Option ℕ × ℕ} (hd : d ∈ w.dones) :
    (∀ x, w.inWork.count x = ((w.dones.erase d).filterMap Prod.fst).count x +
      if d.1 = some x then 1 else 0) ∧
    ∀ q, (w.dones.map Prod.snd).count q = ((w.dones.erase d).map Prod.snd).count q +
      if d.2 = q then 1 else 0 := by
  have hperm := perm_cons_erase hd
  constructor
  · intro x
    rw [World.inWork, (hperm.filterMap Prod.fst).count_eq x]
    cases hc : d.1 with
    | none => simp [hc]
    | some c => simp [hc, count_cons]
  · intro q
    rw [(hperm.map Prod.snd).count_eq q]
    simp [count_cons]

theorem tempDone_inv {d : Option ℕ × ℕ} (h : Inv w) (hd : d ∈ w.dones) : Inv (tempDone w d) := by
  have hpending := h.pending
  have hbounded := h.bounded
  obtain ⟨hwork, hrequests⟩ := dones_erase hd
  have hlen := length_erase_of_mem hd
  have hpos : 0 < w.dones.length := length_pos_of_mem hd
  obtain ⟨conn, r⟩ := d
  have honce : ∀ q, (w.called ++ [r]).count q + w.pool.waiting.count q +
      (w.workers ++ (w.dones.erase (conn, r)).map Prod.snd).count q =
        if q < w.requests then 1 else 0 := by
    intro q
    have hq := h.once q
    have hrq := hrequests q
    simp only [World.inFlight, count_append, count_cons, count_nil,
      beq_iff_eq] at hq hrq ⊢
    omega
  cases conn with
  | none =>
    refine ⟨h.conns, h.made, ?_, h.idleLow, ?_, h.temporary, ?_, ?_, h.fifo, honce, h.idleEmpty⟩
    · intro x
      have hx := h.places x
      have hwx := hwork x
      simp only [reduceCtorEq, if_false, Nat.add_zero] at hwx
      rw [hwx] at hx
      exact hx
    · intro x hx
      refine h.workHigh x (count_pos_iff.mp ?_)
      have hpos' : 0 < ((w.dones.erase (none, r)).filterMap Prod.fst).count x :=
        count_pos_iff.mpr hx
      have hwx := hwork x
      omega
    · show w.pool.pendingTemp - 1 =
        w.workers.length + (w.dones.erase (none, r)).length + w.connecting
      omega
    · show w.pool.initialSize + w.pool.inUse.length + (w.pool.pendingTemp - 1) ≤ w.pool.maxSize
      omega
  | some c =>
    have hin : c ∈ w.inWork := by
      rw [← count_pos_iff, hwork c, if_pos rfl]
      omega
    have hhigh := h.workHigh c hin
    refine ⟨h.conns, h.made, ?_, h.idleLow, ?_, ?_, ?_, ?_, h.fifo, honce, h.idleEmpty⟩
    · intro x
      have hx := h.places x
      have hwx := hwork x
      simp only [tempDone, World.giveTemp, World.give, World.inWork, count_cons, beq_iff_eq,
        Option.some.injEq] at hx hwx ⊢
      refine Eq.trans ?_ hx
      rw [hwx]
      omega
    · intro x hx
      refine h.workHigh x (count_pos_iff.mp ?_)
      have hpos' : 0 < ((w.dones.erase (some c, r)).filterMap Prod.fst).count x :=
        count_pos_iff.mpr hx
      have hwx := hwork x
      omega
    · intro x
      have hx := h.temporary x
      simp only [tempDone, World.giveTemp, World.give, count_cons, count_append,
        count_nil, beq_iff_eq] at hx ⊢
      grind
    · show w.pool.pendingTemp - 1 =
        w.workers.length + (w.dones.erase (some c, r)).length + w.connecting
      omega
    · show w.pool.initialSize + (w.pool.inUse ++ [c]).length + (w.pool.pendingTemp - 1) ≤
        w.pool.maxSize
      rw [length_append, length_singleton]
      omega

theorem create_inv {initialSize maxSize : ℕ} (h : create initialSize maxSize = some w) : Inv w := by
  simp only [create] at h
  split at h
  · cases h
  · next hsizes =>
    obtain rfl := some.inj h
    refine ⟨rfl, le_rfl, ?_, fun c hc => mem_range.mp hc, ?_, ?_, rfl, ?_, rfl, ?_, ?_⟩
    · intro c
      simp [World.inWork, count_range]
    · exact fun c hc => absurd hc not_mem_nil
    · intro c
      simp
    · show initialSize + 0 + 0 ≤ maxSize
      omega
    · intro r
      simp [World.inFlight]
    · exact fun hne => absurd rfl hne

theorem step_inv {w' : World} {a : Action} (h : Inv w) (hstep : step w a = some w') : Inv w' := by
  cases a with
  | acquireAsync =>
    obtain rfl := some.inj hstep
    exact acquireAsync_inv h
  | acquireSync =>
    obtain rfl := some.inj hstep
    exact acquireSync_inv h
  | syncConnected ok =>
    simp only [step, ite_none_right_eq_some, Option.some.injEq] at hstep
    obtain ⟨hconnecting, rfl⟩ := hstep
    cases ok with
    | true => exact syncConnected_inv h hconnecting
    | false => exact syncFailed_inv h hconnecting
  | release c =>
    simp only [step, ite_none_right_eq_some, Option.some.injEq] at hstep
    obtain ⟨hheld, rfl⟩ := hstep
    exact release_inv h hheld
  | tempWorker r ok =>
    simp only [step, ite_none_right_eq_some, Option.some.injEq] at hstep
    obtain ⟨hr, rfl⟩ := hstep
    exact tempWorker_inv h hr
  | tempDone d =>
    simp only [step, ite_none_right_eq_some, Option.some.injEq] at hstep
    obtain ⟨hd, rfl⟩ := hstep
    exact tempDone_inv h hd
  | serve =>
    simp only [step, ite_none_right_eq_some, Option.some.injEq] at hstep
    obtain ⟨-, rfl⟩ := hstep
    exact serveOneWaiter_inv (h.owing _)

/-- In every run of a pool its connections are owned, its temporary connections are counted and
its waiters are served as promised, in every state on the way. -/
theorem pool_ownership (initialSize maxSize : ℕ) (w w' : World) (actions : List Action)
    (hcreate : create initialSize maxSize = some w)
    (hrun : Run.exec step w actions = some w') : Safe w' :=
  (Run.exec_invariant (fun _ _ _ h hstep => step_inv h hstep) (create_inv hcreate) hrun).safe

/- One connection and two callers: the second one waits until the first one releases. -/
theorem pool_ownership_handover : ∃ w w', create 1 2 = some w ∧
    Run.exec step w [.acquireAsync, .acquireAsync, .release 0] = some w' ∧ Safe w' :=
  ⟨_, _, rfl, rfl, pool_ownership 1 2 _ _ [.acquireAsync, .acquireAsync, .release 0] rfl rfl⟩

end Voxlib.DbPool
