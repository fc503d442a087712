import Voxlib.Db.Locks
import Voxlib.Redis.Pool

/-!
# The lock of the Redis pool (vox_redis_pool.c)
-/

namespace Voxlib.RedisPool
open Locking

inductive Point where
  | plain
  /-- `if (idle)` in pool_serve_one_waiter_locked. -/
  | serveIdle
  /-- `if (!client)` in pool_serve_one_waiter_locked. -/
  | serveClient
  /-- The result of vox_redis_client_connect in pool_serve_one_waiter_locked. -/
  | serveConnect
  /-- The loop over waiting_list in vox_redis_pool_destroy. -/
  | destroyWaiting

inductive Proc where
  | serveOneWaiter
  | dropWaiting

abbrev PoolCode := Code Pool Point Proc Unit

def Pool.popIdle (p : Pool) : Pool := { p with idle := p.idle.tail }
def Pool.pushIdle (c : ℕ) (p : Pool) : Pool := { p with idle := p.idle ++ [c] }
def Pool.pushInUse (c : ℕ) (p : Pool) : Pool := { p with inUse := p.inUse ++ [c] }
def Pool.removeInUse (c : ℕ) (p : Pool) : Pool := { p with inUse := p.inUse.erase c }
def Pool.popWaiting (p : Pool) : Pool := { p with waiting := p.waiting.tail }
def Pool.pushWaiting (r : ℕ) (p : Pool) : Pool := { p with waiting := p.waiting ++ [r] }
def Pool.unpopWaiting (r : ℕ) (p : Pool) : Pool := { p with waiting := r :: p.waiting }
def Pool.pendingUp (p : Pool) : Pool := { p with pendingTemp := p.pendingTemp + 1 }
def Pool.pendingDown (p : Pool) : Pool := { p with pendingTemp := p.pendingTemp - 1 }

/- `vox_mutex_lock; pool_serve_one_waiter_locked; vox_mutex_unlock`. -/
def serveAndUnlock (next : PoolCode) : PoolCode :=
  .lock <| .call .serveOneWaiter fun _ => .unlock next

-- pool_serve_one_waiter_locked (vox_redis_pool.c:183-245)
def serveOneWaiterCode (next : PoolCode) : PoolCode :=
  .read .plain fun p =>
    if p.destroyed ∨ p.waiting = [] then next
    else
      .read .serveIdle fun p =>
        match p.idle with
        | _ :: _ =>
          .write Pool.popIdle <| .write Pool.popWaiting <| .unlock <| .callback next
        | [] =>
          if p.hasRoom then
            .write Pool.pendingUp <| .write Pool.popWaiting <| .ask .plain fun ctx =>
              if ctx then
                .ask .serveClient fun client =>
                  if client then
                    .unlock <| .ask .serveConnect fun connected =>
                      if connected then .lock next
                      else
                        .lock <| .write Pool.pendingDown <| .unlock <| .callback <|
                          serveAndUnlock next
                  else .write Pool.pendingDown <| .callback next
              else
                .write Pool.pendingDown <| .write (Pool.unpopWaiting (p.waiting.headD 0)) next
          else next

/- The loop over waiting_list (vox_redis_pool.c:368-374). -/
def dropWaitingCode (next : PoolCode) : PoolCode :=
  .read .destroyWaiting fun p =>
    match p.waiting with
    | [] => next
    | _ :: _ => .write Pool.popWaiting <| .callback <| .call .dropWaiting fun _ => next

-- vox_redis_pool_acquire_async (vox_redis_pool.c:418-450)
def acquireAsyncCode (r : ℕ) : PoolCode :=
  .lock <| .read .plain fun p =>
    if p.destroyed then .unlock .done
    else
      match p.idle with
      | _ :: _ => .write Pool.popIdle <| .unlock <| .callback .done
      | [] =>
        .ask .plain fun waiter =>
          if waiter then .write (Pool.pushWaiting r) <| .unlock .done
          else .unlock <| .callback .done

-- vox_redis_pool_release (vox_redis_pool.c:452-495)
def releaseCode (c : ℕ) : PoolCode :=
  .lock <| .read .plain fun p =>
    if p.destroyed then .unlock .done
    else if p.idle.length < p.initialSize then
      .ask .plain fun node =>
        .write (if node then Pool.pushIdle c else (Pool.emptySlot · c)) <|
          .call .serveOneWaiter fun _ => .unlock .done
    else .write (Pool.removeInUse c) <| .unlock <| serveAndUnlock .done

-- pool_temp_connect_cb (vox_redis_pool.c:124-181)
def tempConnectCode (c : ℕ) (connected : Bool) : PoolCode :=
  .lock <| .read .plain fun p =>
    if p.destroyed then .write Pool.pendingDown <| .unlock <| .callback .done
    else
      .write Pool.pendingDown <|
        if connected then
          .ask .plain fun node =>
            if node then
              .write (Pool.pushInUse c) <| .unlock <| .callback <| serveAndUnlock .done
            else .unlock <| .callback <| serveAndUnlock .done
        else .unlock <| .callback <| serveAndUnlock .done

/- The end of pool_initial_connect_cb (vox_redis_pool.c:277-300). -/
def initialConnectEnd : PoolCode :=
  .ask .plain fun hasCb => .read .plain fun p =>
    if p.initialSize ≤ p.initialDone ∧ ¬ p.connectCbFired ∧ hasCb then
      .write (fun p => { p with connectCbFired := true }) <| .unlock <| .callback <|
        serveAndUnlock .done
    else .unlock <| serveAndUnlock .done

-- pool_initial_connect_cb (vox_redis_pool.c:247-297)
def initialConnectCode (c : ℕ) (connected : Bool) : PoolCode :=
  .read .plain fun p =>
    if p.destroyed then .done
    else
      .lock <| .write (fun p => { p with initialDone := p.initialDone + 1 }) <|
        .read .plain fun p => .ask .plain fun node =>
          .write (if connected ∧ p.idle.length < p.initialSize ∧ node then Pool.pushIdle c
            else (Pool.emptySlot · c)) initialConnectEnd

-- vox_redis_pool_destroy (vox_redis_pool.c:361-416)
def destroyCode : PoolCode :=
  .lock <| .write (fun p => { p with destroyed := true }) <| .call .dropWaiting fun _ =>
    .write (fun p => { p with idle := [] }) <| .write (fun p => { p with inUse := [] }) <|
      .unlock .done

/- vox_redis_pool_current_size and vox_redis_pool_available (vox_redis_pool.c:505-524). -/
def countCode : PoolCode := .lock <| .read .plain fun _ => .unlock .done

inductive Entry where
  | acquireAsync (r : ℕ)
  | release (c : ℕ)
  | tempConnect (c : ℕ) (connected : Bool)
  | initialConnect (c : ℕ) (connected : Bool)
  | destroy
  | count

def program : Program Pool Point Proc Unit Entry where
  entry
    | .acquireAsync r => acquireAsyncCode r
    | .release c => releaseCode c
    | .tempConnect c connected => tempConnectCode c connected
    | .initialConnect c connected => initialConnectCode c connected
    | .destroy => destroyCode
    | .count => countCode
  body
    | .serveOneWaiter, next => serveOneWaiterCode (next ())
    | .dropWaiting, next => dropWaitingCode (next ())

/-- No waiter is given an idle client, the clients for waiters are created and their connects
started, and the pool is not destroyed while somebody waits. -/
def admits : Admits Pool Point where
  read
    | .serveIdle, p => p.idle = []
    | .destroyWaiting, p => p.waiting = []
    | _, _ => True
  ask
    | .serveClient, client => client = true
    | .serveConnect, connected => connected = true
    | _, _ => True

variable {next : PoolCode}

theorem serveAndUnlock_clean (h : Clean admits false next) :
    Clean admits false (serveAndUnlock next) := ⟨rfl, rfl, fun _ => ⟨rfl, h⟩⟩

theorem serveOneWaiter_clean (h : Clean admits true next) :
    Clean admits true (serveOneWaiterCode next) := by
  intro p _
  beta_reduce
  by_cases hnone : p.destroyed ∨ p.waiting = []
  · rw [if_pos hnone]
    exact h
  · rw [if_neg hnone]
    intro p hp
    have hidle : p.idle = [] := hp
    beta_reduce
    rw [hidle]
    cases p.hasRoom with
    | false => exact h
    | true =>
      refine ⟨rfl, rfl, fun ctx _ => ?_⟩
      cases ctx with
      | false => exact ⟨rfl, rfl, h⟩
      | true =>
        intro client hclient
        have hcreated : client = true := hclient
        subst hcreated
        refine ⟨rfl, fun connected hconnected => ?_⟩
        have hstarted : connected = true := hconnected
        subst hstarted
        exact ⟨rfl, h⟩

theorem dropWaiting_clean (h : Clean admits true next) :
    Clean admits true (dropWaitingCode next) := by
  intro p hp
  have hempty : p.waiting = [] := hp
  beta_reduce
  rw [hempty]
  exact h

theorem initialConnectEnd_clean : Clean admits true initialConnectEnd := by
  intro hasCb _ p _
  beta_reduce
  by_cases hfire : p.initialSize ≤ p.initialDone ∧ ¬ p.connectCbFired ∧ hasCb
  · rw [if_pos hfire]
    exact ⟨rfl, rfl, rfl, serveAndUnlock_clean rfl⟩
  · rw [if_neg hfire]
    exact ⟨rfl, serveAndUnlock_clean rfl⟩

theorem entry_clean (e : Entry) : Clean admits false (program.entry e) := by
  cases e with
  | acquireAsync r =>
    refine ⟨rfl, fun p _ => ?_⟩
    beta_reduce
    cases p.destroyed with
    | true => exact ⟨rfl, rfl⟩
    | false =>
      cases p.idle with
      | cons c idle => exact ⟨rfl, rfl, rfl, rfl⟩
      | nil =>
        intro waiter _
        cases waiter with
        | true => exact ⟨rfl, rfl, rfl⟩
        | false => exact ⟨rfl, rfl, rfl⟩
  | release c =>
    refine ⟨rfl, fun p _ => ?_⟩
    beta_reduce
    cases p.destroyed with
    | true => exact ⟨rfl, rfl⟩
    | false =>
      by_cases hroom : p.idle.length < p.initialSize
      · rw [if_neg (by decide), if_pos hroom]
        exact fun node _ => ⟨rfl, rfl, fun _ => ⟨rfl, rfl⟩⟩
      · rw [if_neg (by decide), if_neg hroom]
        exact ⟨rfl, rfl, serveAndUnlock_clean rfl⟩
  | tempConnect c connected =>
    refine ⟨rfl, fun p _ => ?_⟩
    beta_reduce
    cases p.destroyed with
    | true => exact ⟨rfl, rfl, rfl, rfl⟩
    | false =>
      cases connected with
      | false => exact ⟨rfl, rfl, rfl, serveAndUnlock_clean rfl⟩
      | true =>
        refine ⟨rfl, fun node _ => ?_⟩
        cases node with
        | true => exact ⟨rfl, rfl, rfl, serveAndUnlock_clean rfl⟩
        | false => exact ⟨rfl, rfl, serveAndUnlock_clean rfl⟩
  | initialConnect c connected =>
    intro p _
    beta_reduce
    cases p.destroyed with
    | true => exact rfl
    | false => exact ⟨rfl, rfl, fun p _ node _ => ⟨rfl, initialConnectEnd_clean⟩⟩
  | destroy => exact ⟨rfl, rfl, rfl, fun _ => ⟨rfl, rfl, rfl, rfl⟩⟩
  | count => exact ⟨rfl, fun p _ => ⟨rfl, rfl⟩⟩

theorem program_clean : CleanProgram admits program where
  entry := entry_clean
  body q next h := by
    cases q with
    | serveOneWaiter => exact serveOneWaiter_clean (h ())
    | dropWaiting => exact dropWaiting_clean (h ())

def freshDb : DbPool.Pool := ⟨1, 1, [0], [0], [], [], 0, false⟩
def freshRedis : Pool := ⟨1, 1, [some 0], [], [], [], 0, 0, false, false⟩

/- A caller is given the connection; the initial client of the other pool connects. -/
def dbAcquire : List (Move DbPool.Entry) :=
  .start 0 (.acquireAsync 0) :: List.replicate 11 (.run 0 true)
def redisConnect : List (Move Entry) :=
  .start 0 (.initialConnect 0 true) :: List.replicate 15 (.run 0 true)

end Voxlib.RedisPool
