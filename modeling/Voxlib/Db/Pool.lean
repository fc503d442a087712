import Voxlib.Lib.Run

/-!
# The database connection pool (vox_db_pool.c)

A step is a critical section with what its thread does right behind it;
allocations and pings succeed. Connections and requests are numbered in order. A
function that runs a callback and then serves one more waiter leaves that last
part owed.
-/

namespace Voxlib.DbPool

-- struct vox_db_pool (vox_db_pool.c:18-40)
structure Pool where
  initialSize : ℕ
  maxSize : ℕ
  conns : List ℕ
  idle : List ℕ
  inUse : List ℕ
  waiting : List ℕ
  pendingTemp : ℕ
  destroyed : Bool
  deriving DecidableEq

/-- The pool, the work queued for it and what its callers have seen of it. -/
structure World where
  pool : Pool
  /-- Contexts of pool_temp_worker_cb: the request to connect for. -/
  workers : List ℕ
  /-- Contexts of pool_temp_done_cb: the connection, if there is one, and the request. -/
  dones : List (Option ℕ × ℕ)
  /-- Calls of acquire_sync inside vox_db_connect. -/
  connecting : ℕ
  /-- Activations that have one waiter left to serve. -/
  owed : ℕ
  /-- One entry for each connection that a caller was given and has not released. -/
  held : List ℕ
  /-- Connections that were disconnected. -/
  gone : List ℕ
  nextConn : ℕ
  /-- The number of acquire_async calls so far. -/
  requests : ℕ
  /-- Requests in the order in which they got a connection or the start of one. -/
  served : List ℕ
  /-- Requests in the order in which their callbacks ran. -/
  called : List ℕ
  deriving DecidableEq

-- pool_is_initial_conn (vox_db_pool.c:63-69)
def Pool.isInitialConn (p : Pool) (c : ℕ) : Bool := p.conns.contains c

/- `total + pool->pending_temp < pool->max_size` (vox_db_pool.c:276-280, 693-697). -/
def Pool.hasRoom (p : Pool) : Bool :=
  p.idle.length + (p.initialSize - p.idle.length) + p.inUse.length + p.pendingTemp < p.maxSize

def World.give (w : World) (c : ℕ) : World := { w with held := c :: w.held }

-- pool_serve_one_waiter_locked (vox_db_pool.c:259-309)
def serveOneWaiter (w : World) : World :=
  match w.pool.waiting with
  | [] => w
  | r :: waiting =>
    match w.pool.idle with
    | c :: idle =>
      ({ w with
        pool := { w.pool with idle := idle, waiting := waiting }
        served := w.served ++ [r]
        called := w.called ++ [r] }).give c
    | [] =>
      if w.pool.hasRoom then
        { w with
          pool := { w.pool with waiting := waiting, pendingTemp := w.pool.pendingTemp + 1 }
          workers := w.workers ++ [r]
          served := w.served ++ [r] }
      else w

-- vox_db_pool_acquire_async (vox_db_pool.c:422-454)
def acquireAsync (w : World) : World :=
  match w.pool.idle with
  | c :: idle =>
    ({ w with
      pool := { w.pool with idle := idle }
      requests := w.requests + 1
      served := w.served ++ [w.requests]
      called := w.called ++ [w.requests] }).give c
  | [] =>
    { w with
      pool := { w.pool with waiting := w.pool.waiting ++ [w.requests] }
      requests := w.requests + 1 }

-- vox_db_pool_release (vox_db_pool.c:456-494)
def release (w : World) (c : ℕ) : World :=
  let w := { w with held := w.held.erase c }
  if w.pool.isInitialConn c then
    serveOneWaiter { w with pool := { w.pool with idle := w.pool.idle ++ [c] } }
  else
    { w with
      pool := { w.pool with inUse := w.pool.inUse.erase c }
      gone := w.gone ++ [c]
      owed := w.owed + 1 }

/- vox_db_pool_acquire_sync up to its vox_db_connect (vox_db_pool.c:675-702). -/
def acquireSync (w : World) : World :=
  match w.pool.idle with
  | c :: idle => ({ w with pool := { w.pool with idle := idle } }).give c
  | [] =>
    if w.pool.hasRoom then
      { w with
        pool := { w.pool with pendingTemp := w.pool.pendingTemp + 1 }
        connecting := w.connecting + 1 }
    else w

def World.giveTemp (w : World) (c : ℕ) : World :=
  ({ w with pool := { w.pool with inUse := w.pool.inUse ++ [c] } }).give c

/- The rest of vox_db_pool_acquire_sync (vox_db_pool.c:702-721). -/
def syncConnected (w : World) (ok : Bool) : World :=
  let w := { w with
    pool := { w.pool with pendingTemp := w.pool.pendingTemp - 1 }
    connecting := w.connecting - 1 }
  if ok then { w with nextConn := w.nextConn + 1 }.giveTemp w.nextConn else w

-- pool_temp_worker_cb (vox_db_pool.c:235-257)
def tempWorker (w : World) (r : ℕ) (ok : Bool) : World :=
  let w := { w with workers := w.workers.erase r }
  if ok then
    { w with dones := w.dones ++ [(some w.nextConn, r)], nextConn := w.nextConn + 1 }
  else { w with dones := w.dones ++ [(none, r)] }

-- pool_temp_done_cb (vox_db_pool.c:175-231)
def tempDone (w : World) (d : Option ℕ × ℕ) : World :=
  let w := { w with
    pool := { w.pool with pendingTemp := w.pool.pendingTemp - 1 }
    dones := w.dones.erase d
    called := w.called ++ [d.2]
    owed := w.owed + 1 }
  match d.1 with
  | some c => w.giveTemp c
  | none => w

inductive Action where
  | acquireAsync
  | acquireSync
  | syncConnected (ok : Bool)
  | release (c : ℕ)
  | tempWorker (r : ℕ) (ok : Bool)
  | tempDone (d : Option ℕ × ℕ)
  /-- The activation that owes it serves one waiter. -/
  | serve
  deriving DecidableEq

def step (w : World) : Action → Option World
  | .acquireAsync => some (acquireAsync w)
  | .acquireSync => some (acquireSync w)
  | .syncConnected ok => if 0 < w.connecting then some (syncConnected w ok) else none
  | .release c => if c ∈ w.held then some (release w c) else none
  | .tempWorker r ok => if r ∈ w.workers then some (tempWorker w r ok) else none
  | .tempDone d => if d ∈ w.dones then some (tempDone w d) else none
  | .serve =>
    if 0 < w.owed then some (serveOneWaiter { w with owed := w.owed - 1 }) else none

-- vox_db_pool_create (vox_db_pool.c:313-373)
def create (initialSize maxSize : ℕ) : Option World :=
  if initialSize = 0 ∨ maxSize < initialSize then none
  else
    some
      { pool :=
          { initialSize := initialSize, maxSize := maxSize, conns := List.range initialSize,
            idle := List.range initialSize, inUse := [], waiting := [], pendingTemp := 0
            destroyed := false }
        workers := [], dones := [], connecting := 0, owed := 0, held := [], gone := []
        nextConn := initialSize, requests := 0, served := [], called := [] }

end Voxlib.DbPool
