import Voxlib.Lib.Run

/-!
# The Redis connection pool (vox_redis_pool.c)

A step is a critical section with what its thread does right behind it;
allocations and connects succeed. Clients are numbered in order. A function that
runs a callback and then serves one more waiter leaves that last part owed.
vox_redis_pool_destroy frees the pool, so nothing follows it.
-/

namespace Voxlib.RedisPool

-- struct vox_redis_pool (vox_redis_pool.c:15-40)
structure Pool where
  initialSize : ℕ
  maxSize : ℕ
  clients : List (Option ℕ)
  idle : List ℕ
  inUse : List ℕ
  waiting : List ℕ
  initialDone : ℕ
  pendingTemp : ℕ
  connectCbFired : Bool
  destroyed : Bool
  deriving DecidableEq

/-- The pool, the connects under way and what its callers have seen of it. -/
structure World where
  pool : Pool
  /-- Initial clients whose connect callback is still to come. -/
  dialing : List ℕ
  /-- Contexts of pool_temp_connect_cb: the client and the request. -/
  temps : List (ℕ × ℕ)
  /-- Activations that have one waiter left to serve. -/
  owed : ℕ
  /-- One entry for each client that a caller was given and has not released. -/
  held : List ℕ
  /-- Clients that were destroyed, in that order. -/
  gone : List ℕ
  nextClient : ℕ
  requests : ℕ
  deriving DecidableEq

/- `total + pool->pending_temp < pool->max_size` (vox_redis_pool.c:202-206). -/
def Pool.hasRoom (p : Pool) : Bool :=
  p.idle.length + (p.initialSize - p.idle.length) + p.inUse.length + p.pendingTemp < p.maxSize

def World.give (w : World) (c : ℕ) : World := { w with held := c :: w.held }

-- pool_serve_one_waiter_locked (vox_redis_pool.c:183-245)
def serveOneWaiter (w : World) : World :=
  match w.pool.waiting with
  | [] => w
  | r :: waiting =>
    match w.pool.idle with
    | c :: idle =>
      ({ w with pool := { w.pool with idle := idle, waiting := waiting } }).give c
    | [] =>
      if w.pool.hasRoom then
        { w with
          pool := { w.pool with waiting := waiting, pendingTemp := w.pool.pendingTemp + 1 }
          temps := w.temps ++ [(w.nextClient, r)]
          nextClient := w.nextClient + 1 }
      else w

-- vox_redis_pool_acquire_async (vox_redis_pool.c:418-450)
def acquireAsync (w : World) : World :=
  match w.pool.idle with
  | c :: idle =>
    ({ w with pool := { w.pool with idle := idle }, requests := w.requests + 1 }).give c
  | [] =>
    { w with
      pool := { w.pool with waiting := w.pool.waiting ++ [w.requests] }
      requests := w.requests + 1 }

-- vox_redis_pool_release (vox_redis_pool.c:452-495)
def release (w : World) (c : ℕ) : World :=
  let w := { w with held := w.held.erase c }
  if w.pool.idle.length < w.pool.initialSize then
    serveOneWaiter { w with pool := { w.pool with idle := w.pool.idle ++ [c] } }
  else
    { w with
      pool := { w.pool with inUse := w.pool.inUse.erase c }
      gone := w.gone ++ [c]
      owed := w.owed + 1 }

def Pool.emptySlot (p : Pool) (c : ℕ) : Pool :=
  { p with clients := p.clients.map fun slot => if slot = some c then none else slot }

-- pool_push_idle_locked (vox_redis_pool.c:99-111) and its failure (lines 256-265)
def pushIdle (w : World) (c : ℕ) : World :=
  if w.pool.initialSize ≤ w.pool.idle.length then
    { w with pool := w.pool.emptySlot c, gone := w.gone ++ [c] }
  else { w with pool := { w.pool with idle := w.pool.idle ++ [c] } }

-- pool_initial_connect_cb, up to connect_cb (vox_redis_pool.c:247-291)
def initialConnected (w : World) (c : ℕ) : World :=
  let w := pushIdle
    { w with
      pool := { w.pool with initialDone := w.pool.initialDone + 1 }
      dialing := w.dialing.erase c } c
  let allDone := w.pool.initialSize ≤ w.pool.initialDone
  { w with
    pool := { w.pool with connectCbFired := w.pool.connectCbFired || allDone }
    owed := w.owed + 1 }

-- pool_temp_connect_cb (vox_redis_pool.c:124-181)
def tempConnected (w : World) (d : ℕ × ℕ) : World :=
  ({ w with
    pool := { w.pool with pendingTemp := w.pool.pendingTemp - 1, inUse := w.pool.inUse ++ [d.1] }
    temps := w.temps.erase d
    owed := w.owed + 1 }).give d.1

-- vox_redis_pool_destroy (vox_redis_pool.c:361-416)
def destroy (w : World) : World :=
  let temporary := w.pool.inUse.filter fun c => some c ∉ w.pool.clients
  { w with
    pool := { w.pool with
      destroyed := true, waiting := [], idle := [], inUse := []
      clients := w.pool.clients.map fun _ => none }
    gone := w.gone ++ temporary ++ w.pool.clients.filterMap id }

inductive Action where
  | acquireAsync
  | release (c : ℕ)
  | initialConnected (c : ℕ)
  | tempConnected (d : ℕ × ℕ)
  /-- The activation that owes it serves one waiter. -/
  | serve
  | destroy
  deriving DecidableEq

def step (w : World) (a : Action) : Option World :=
  if w.pool.destroyed then none
  else
    match a with
    | .acquireAsync => some (acquireAsync w)
    | .release c => if c ∈ w.held then some (release w c) else none
    | .initialConnected c => if c ∈ w.dialing then some (initialConnected w c) else none
    | .tempConnected d => if d ∈ w.temps then some (tempConnected w d) else none
    | .serve =>
      if 0 < w.owed then some (serveOneWaiter { w with owed := w.owed - 1 }) else none
    | .destroy => some (destroy w)

-- vox_redis_pool_create (vox_redis_pool.c:303-359)
def create (initialSize maxSize : ℕ) : Option World :=
  if initialSize = 0 ∨ maxSize < initialSize then none
  else
    some
      { pool :=
          { initialSize := initialSize, maxSize := maxSize
            clients := (List.range initialSize).map some
            idle := [], inUse := [], waiting := [], initialDone := 0, pendingTemp := 0
            connectCbFired := false, destroyed := false }
        dialing := List.range initialSize, temps := [], owed := 0, held := [], gone := []
        nextClient := initialSize, requests := 0 }

end Voxlib.RedisPool
