import Voxlib.Db.Pool
import Voxlib.Lib.Locking

/-!
# The lock of the database pool (vox_db_pool.c)

Every vox_mutex_lock and vox_mutex_unlock, change, callback and decision stands
where it stands in the source; pings, connects and allocations are answers from
outside. pool_serve_one_waiter_locked may come back without the lock; its callers
unlock all the same.
-/

namespace Voxlib.DbPool
open Locking

inductive Point where
  | plain
  /-- `if (pool->destroyed)` behind the ping of pool_pop_idle_locked. -/
  | afterPing
  /-- `if (idle)` in pool_serve_one_waiter_locked. -/
  | serveIdle (conn : Option ℕ)
  /-- The allocation of the context in pool_serve_one_waiter_locked. -/
  | serveCtx
  /-- The loop over waiting_list in vox_db_pool_destroy. -/
  | destroyWaiting

inductive Proc where
  | popIdle
  | serveOneWaiter
  | dropWaiting

abbrev PoolCode := Code Pool Point Proc (Option ℕ)

def Pool.popIdle (p : Pool) : Pool := { p with idle := p.idle.tail }
def Pool.pushIdle (c : ℕ) (p : Pool) : Pool := { p with idle := p.idle ++ [c] }
def Pool.pushInUse (c : ℕ) (p : Pool) : Pool := { p with inUse := p.inUse ++ [c] }
def Pool.removeInUse (c : ℕ) (p : Pool) : Pool := { p with inUse := p.inUse.erase c }
def Pool.popWaiting (p : Pool) : Pool := { p with waiting := p.waiting.tail }
def Pool.pushWaiting (r : ℕ) (p : Pool) : Pool := { p with waiting := p.waiting ++ [r] }
def Pool.unpopWaiting (r : ℕ) (p : Pool) : Pool := { p with waiting := r :: p.waiting }
def Pool.emptySlot (c : ℕ) (p : Pool) : Pool := { p with conns := p.conns.erase c }
def Pool.pendingUp (p : Pool) : Pool := { p with pendingTemp := p.pendingTemp + 1 }
def Pool.pendingDown (p : Pool) : Pool := { p with pendingTemp := p.pendingTemp - 1 }

-- pool_pop_idle_locked (vox_db_pool.c:85-120)
def popIdleCode (next : Option ℕ → PoolCode) : PoolCode :=
  .read .plain fun p =>
    match p.idle with
    | [] => next none
    | c :: _ =>
      .write Pool.popIdle <| .unlock <| .ask .plain fun pingOk => .lock <|
        .read .afterPing fun p =>
          if p.destroyed then .unlock (next none)
          else if pingOk then next (some c)
          else
            .ask .plain fun again =>
              if again then .write (Pool.pushIdle c) (.call .popIdle next)
              else .write (Pool.emptySlot c) (.call .popIdle next)

/- `vox_mutex_lock; pool_serve_one_waiter_locked; vox_mutex_unlock`. -/
def serveAndUnlock (next : PoolCode) : PoolCode :=
  .lock <| .call .serveOneWaiter fun _ => .unlock next

-- pool_serve_one_waiter_locked (vox_db_pool.c:259-309)
def serveOneWaiterCode (next : Option ℕ → PoolCode) : PoolCode :=
  .read .plain fun p =>
    if p.destroyed ∨ p.waiting = [] then next none
    else
      .call .popIdle fun idle => .read (.serveIdle idle) fun p =>
        match idle with
        | some _ => .write Pool.popWaiting <| .unlock <| .callback <| next none
        | none =>
          if p.hasRoom then
            .write Pool.pendingUp <| .write Pool.popWaiting <| .ask .serveCtx fun ctx =>
              if ctx then
                .unlock <| .ask .plain fun queued =>
                  if queued then next none
                  else
                    .lock <| .write Pool.pendingDown <| .unlock <| .callback <|
                      serveAndUnlock (next none)
              else
                .write Pool.pendingDown <| .write (Pool.unpopWaiting (p.waiting.headD 0)) <|
                  next none
          else next none

/- The loop over waiting_list (vox_db_pool.c:381-387). -/
def dropWaitingCode (next : Option ℕ → PoolCode) : PoolCode :=
  .read .destroyWaiting fun p =>
    match p.waiting with
    | [] => next none
    | _ :: _ => .write Pool.popWaiting <| .callback <| .call .dropWaiting next

-- vox_db_pool_acquire_async (vox_db_pool.c:422-454)
def acquireAsyncCode (r : ℕ) : PoolCode :=
  .lock <| .read .plain fun p =>
    if p.destroyed then .unlock .done
    else
      .call .popIdle fun idle =>
        match idle with
        | some _ => .unlock <| .callback .done
        | none =>
          .ask .plain fun waiter =>
            if waiter then .write (Pool.pushWaiting r) <| .unlock .done
            else .unlock <| .callback .done

-- vox_db_pool_acquire_sync (vox_db_pool.c:675-722); `c` is the connection it may make
def acquireSyncCode (c : ℕ) : PoolCode :=
  .lock <| .read .plain fun p =>
    if p.destroyed then .unlock .done
    else
      .call .popIdle fun idle =>
        match idle with
        | some _ => .unlock .done
        | none =>
          .read .plain fun p =>
            if p.hasRoom then
              .write Pool.pendingUp <| .unlock <| .ask .plain fun conn =>
                .lock <| .write Pool.pendingDown <|
                  if conn then
                    .ask .plain fun node =>
                      if node then .write (Pool.pushInUse c) <| .unlock .done else .unlock .done
                  else .unlock .done
            else .unlock .done

-- vox_db_pool_release (vox_db_pool.c:456-494)
def releaseCode (c : ℕ) : PoolCode :=
  .lock <| .read .plain fun p =>
    if p.destroyed then .unlock .done
    else if p.isInitialConn c then
      .ask .plain fun node =>
        .write (if node then Pool.pushIdle c else Pool.emptySlot c) <|
          .call .serveOneWaiter fun _ => .unlock .done
    else .write (Pool.removeInUse c) <| .unlock <| serveAndUnlock .done

-- pool_temp_fail_cb (vox_db_pool.c:144-164)
def tempFailCode : PoolCode :=
  .lock <| .read .plain fun p =>
    if p.destroyed then .unlock <| .callback <| serveAndUnlock .done
    else .write Pool.pendingDown <| .unlock <| .callback <| serveAndUnlock .done

-- pool_temp_done_cb (vox_db_pool.c:175-231)
def tempDoneCode (conn : Option ℕ) : PoolCode :=
  .lock <| .read .plain fun p =>
    if p.destroyed then .write Pool.pendingDown <| .unlock .done
    else
      match conn with
      | none => .write Pool.pendingDown <| .unlock <| .callback <| serveAndUnlock .done
      | some c =>
        .write Pool.pendingDown <| .ask .plain fun node =>
          if node then
            .write (Pool.pushInUse c) <| .unlock <| .callback <| serveAndUnlock .done
          else .unlock <| .callback <| serveAndUnlock .done

-- vox_db_pool_destroy (vox_db_pool.c:377-420)
def destroyCode : PoolCode :=
  .lock <| .write (fun p => { p with destroyed := true }) <| .call .dropWaiting fun _ =>
    .write (fun p => { p with idle := [] }) <| .write (fun p => { p with inUse := [] }) <|
      .unlock .done

/- vox_db_pool_current_size and vox_db_pool_available (vox_db_pool.c:530-536). -/
def countCode : PoolCode := .lock <| .read .plain fun _ => .unlock .done

inductive Entry where
  | acquireAsync (r : ℕ)
  | acquireSync (c : ℕ)
  | release (c : ℕ)
  | tempFail
  | tempDone (conn : Option ℕ)
  | destroy
  | count

def program : Program Pool Point Proc (Option ℕ) Entry where
  entry
    | .acquireAsync r => acquireAsyncCode r
    | .acquireSync c => acquireSyncCode c
    | .release c => releaseCode c
    | .tempFail => tempFailCode
    | .tempDone conn => tempDoneCode conn
    | .destroy => destroyCode
    | .count => countCode
  body
    | .popIdle => popIdleCode
    | .serveOneWaiter => serveOneWaiterCode
    | .dropWaiting => dropWaitingCode

/-- No waiter is served: neither an idle connection nor a new one is at hand for it. The pool is
not destroyed during a ping, nor while somebody waits. -/
def admits : Admits Pool Point where
  read
    | .afterPing, p => p.destroyed = false
    | .serveIdle idle, _ => idle = none
    | .destroyWaiting, p => p.waiting = []
    | _, _ => True
  ask
    | .serveCtx, ctx => ctx = false
    | _, _ => True

variable {next : Option ℕ → PoolCode}

section
variable (h : ∀ r, Clean admits true (next r))
include h

theorem popIdle_clean : Clean admits true (popIdleCode next) := by
  intro p _
  beta_reduce
  cases p.idle with
  | nil => exact h none
  | cons c idle =>
    refine ⟨rfl, rfl, fun pingOk _ => ⟨rfl, fun p hp => ?_⟩⟩
    have hintact : p.destroyed = false := hp
    beta_reduce
    rw [hintact, if_neg (by decide)]
    cases pingOk with
    | true => exact h (some c)
    | false =>
      intro again _
      cases again with
      | true => exact ⟨rfl, rfl, h⟩
      | false => exact ⟨rfl, rfl, h⟩

theorem serveOneWaiter_clean : Clean admits true (serveOneWaiterCode next) := by
  intro p _
  beta_reduce
  by_cases hnone : p.destroyed ∨ p.waiting = []
  · rw [if_pos hnone]
    exact h none
  · rw [if_neg hnone]
    refine ⟨rfl, fun idle p hidle => ?_⟩
    have hnoIdle : idle = none := hidle
    subst hnoIdle
    show Clean admits true (if p.hasRoom then _ else _)
    by_cases hroom : p.hasRoom = true
    · rw [if_pos hroom]
      refine ⟨rfl, rfl, fun ctx hctx => ?_⟩
      have hnoCtx : ctx = false := hctx
      subst hnoCtx
      exact ⟨rfl, rfl, h none⟩
    · rw [if_neg hroom]
      exact h none

theorem dropWaiting_clean : Clean admits true (dropWaitingCode next) := by
  intro p hp
  have hempty : p.waiting = [] := hp
  beta_reduce
  rw [hempty]
  exact h none

end

theorem serveAndUnlock_clean {next : PoolCode} (h : Clean admits false next) :
    Clean admits false (serveAndUnlock next) := ⟨rfl, rfl, fun _ => ⟨rfl, h⟩⟩

theorem entry_clean (e : Entry) : Clean admits false (program.entry e) := by
  cases e with
  | acquireAsync r =>
    refine ⟨rfl, fun p _ => ?_⟩
    beta_reduce
    cases p.destroyed with
    | true => exact ⟨rfl, rfl⟩
    | false =>
      refine ⟨rfl, fun idle => ?_⟩
      cases idle with
      | some c => exact ⟨rfl, rfl, rfl⟩
      | none =>
        intro waiter _
        cases waiter with
        | true => exact ⟨rfl, rfl, rfl⟩
        | false => exact ⟨rfl, rfl, rfl⟩
  | acquireSync c =>
    refine ⟨rfl, fun p _ => ?_⟩
    beta_reduce
    cases p.destroyed with
    | true => exact ⟨rfl, rfl⟩
    | false =>
      refine ⟨rfl, fun idle => ?_⟩
      cases idle with
      | some c => exact ⟨rfl, rfl⟩
      | none =>
        intro p _
        beta_reduce
        cases p.hasRoom with
        | false => exact ⟨rfl, rfl⟩
        | true =>
          refine ⟨rfl, rfl, fun conn _ => ⟨rfl, rfl, ?_⟩⟩
          cases conn with
          | false => exact ⟨rfl, rfl⟩
          | true =>
            intro node _
            cases node with
            | true => exact ⟨rfl, rfl, rfl⟩
            | false => exact ⟨rfl, rfl⟩
  | release c =>
    refine ⟨rfl, fun p _ => ?_⟩
    beta_reduce
    cases p.destroyed with
    | true => exact ⟨rfl, rfl⟩
    | false =>
      cases p.isInitialConn c with
      | true => exact fun node _ => ⟨rfl, rfl, fun _ => ⟨rfl, rfl⟩⟩
      | false => exact ⟨rfl, rfl, serveAndUnlock_clean rfl⟩
  | tempFail =>
    refine ⟨rfl, fun p _ => ?_⟩
    beta_reduce
    cases p.destroyed with
    | true => exact ⟨rfl, rfl, serveAndUnlock_clean rfl⟩
    | false => exact ⟨rfl, rfl, rfl, serveAndUnlock_clean rfl⟩
  | tempDone conn =>
    refine ⟨rfl, fun p _ => ?_⟩
    beta_reduce
    cases p.destroyed with
    | true => exact ⟨rfl, rfl, rfl⟩
    | false =>
      cases conn with
      | none => exact ⟨rfl, rfl, rfl, serveAndUnlock_clean rfl⟩
      | some c =>
        refine ⟨rfl, fun node _ => ?_⟩
        cases node with
        | true => exact ⟨rfl, rfl, rfl, serveAndUnlock_clean rfl⟩
        | false => exact ⟨rfl, rfl, serveAndUnlock_clean rfl⟩
  | destroy => exact ⟨rfl, rfl, rfl, fun _ => ⟨rfl, rfl, rfl, rfl⟩⟩
  | count => exact ⟨rfl, fun p _ => ⟨rfl, rfl⟩⟩

theorem program_clean : CleanProgram admits program where
  entry := entry_clean
  body q next h := by
    cases q with
    | popIdle => exact popIdle_clean h
    | serveOneWaiter => exact serveOneWaiter_clean h
    | dropWaiting => exact dropWaiting_clean h

/- One connection: a caller gets it, a second one waits, and the release gives it to the waiter
   and unlocks a second time. -/
def releaseToWaiter : List (Move Entry) :=
  .start 1 (.acquireAsync 0) :: List.replicate 11 (.run 1 true) ++
    .start 2 (.acquireAsync 1) :: List.replicate 7 (.run 2 true) ++
    .start 3 (.release 0) :: List.replicate 18 (.run 3 true)

end Voxlib.DbPool
