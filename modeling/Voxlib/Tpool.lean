import Voxlib.Lib.Run

/-!
# The thread pool (vox_tpool.c)

A step is one atomic access of one thread. The semaphore is a counter; the queue
is the list of all tasks that were enqueued and the number of those that were
dequeued. The history records what the calls did.
-/

namespace Voxlib.Tpool
open Run Option

/- vox_tpool_state_t (vox_tpool.c:26-30) -/
inductive PoolState where
  | running
  | shuttingDown
  | shutdown
  deriving DecidableEq, Repr

/- vox_tpool_task_t (vox_tpool.c:33-37): which of its two functions are not NULL. -/
structure Task where
  taskFunc : Bool
  completeFunc : Bool
  deriving DecidableEq, Repr

/- The fields of struct vox_tpool that the threads share. -/
structure Pool where
  state : PoolState := .running
  tasks : List Task := []
  head : ℕ := 0
  semaphore : ℕ := 0
  runningTasks : BitVec 32 := 0
  totalTasks : BitVec 32 := 0
  completedTasks : BitVec 32 := 0
  failedTasks : BitVec 32 := 0
  deriving DecidableEq, Repr

/- The local variables of vox_tpool_wait. `before` and `settled` are for the
   history: the tasks that were accepted before the call, and whether in one of
   the agreeing rounds so far total_tasks had not changed since it was loaded. -/
structure Waiting where
  inShutdown : Bool
  stableCount : ℕ := 0
  before : List ℕ := []
  settled : Bool := false
  deriving DecidableEq, Repr

/- Where a caller is in vox_tpool_submit (vox_tpool.c:360-403), vox_tpool_wait
   (406-452) or vox_tpool_shutdown (455-486), named by its next access. -/
inductive CallerPc where
  | idle
  | submitLoadState (task : Task)
  | submitEnqueue (task : Task)
  | submitTotal (pos : ℕ)
  | submitPost (pos : ℕ)
  | waitHead (v : Waiting)
  | waitTail (v : Waiting) (head : ℕ)
  | waitRunning (v : Waiting) (pending : ℕ)
  | waitTotal (v : Waiting) (pending : ℕ) (running : BitVec 32)
  | waitCompleted (v : Waiting) (pending : ℕ) (running total : BitVec 32)
  | waitFailed (v : Waiting) (pending : ℕ) (running total completed : BitVec 32)
  | shutdownExchange
  | shutdownStore
  | shutdownPost (left : ℕ)
  | shutdownJoin
  deriving DecidableEq, Repr

/- Where a worker is in worker_thread_func (vox_tpool.c:112-194). -/
inductive WorkerPc where
  | semaphoreWait
  | loadState
  | dequeue
  | emptyLoadState
  | emptyHead
  | emptyTail (head : ℕ)
  | emptyRunning
  | incrementRunning (pos : ℕ) (task : Task)
  | runTask (pos : ℕ) (task : Task)
  | callComplete (pos : ℕ) (task : Task) (result : ℤ)
  | countResult (pos : ℕ) (result : ℤ)
  | decrementRunning (pos : ℕ)
  | exited
  deriving DecidableEq, Repr

/- What the calls did: the tasks whose submit returned 0, those a worker took,
   ran and reported, how often each counter was incremented, the tasks accepted
   before a wait that has returned, and whether a shutdown has returned. -/
structure History (W : Type) where
  accepted : List ℕ := []
  dequeued : List (W × ℕ) := []
  ran : List (W × ℕ) := []
  called : List (W × ℕ) := []
  counted : ℕ := 0
  completed : ℕ := 0
  failed : ℕ := 0
  waited : List ℕ := []
  shutdownReturned : Bool := false

structure State (C W : Type) where
  pool : Pool
  caller : C → CallerPc
  worker : W → WorkerPc
  hist : History W

def State.init (C W : Type) : State C W := ⟨{}, fun _ => .idle, fun _ => .semaphoreWait, {}⟩

inductive Command where
  | callSubmit (task : Task)
  | callWait
  | callShutdown
  /- The allocation of a task fails or the queue is full. -/
  | refuse
  | access
  deriving DecidableEq, Repr

inductive Action (C W : Type) where
  | call (c : C) (command : Command)
  | work (w : W)
  deriving DecidableEq, Repr

section Steps
variable {C W : Type} [DecidableEq C] [DecidableEq W]

def State.goto (s : State C W) (c : C) (pc : CallerPc) : State C W :=
  { s with caller := Function.update s.caller c pc }

def State.workerGoto (s : State C W) (w : W) (pc : WorkerPc) : State C W :=
  { s with worker := Function.update s.worker w pc }

/- vox_queue_size (vox_queue.c:402-427) from the head and the tail as loaded. -/
def queueSize (head tail : ℕ) : ℕ := tail - head

/- The test of vox_tpool_wait behind its loads (vox_tpool.c:429-446); `settles`
   says whether total_tasks is still what was loaded. -/
def waitRound (v : Waiting) (pending : ℕ) (running total completed failed : BitVec 32)
    (settles : Bool) : Bool × Waiting :=
  if total = 0 then (pending = 0 && running = 0, v)
  else if pending = 0 ∧ running = 0 ∧ completed + failed = total then
    (v.stableCount + 1 ≥ 3,
      { v with stableCount := v.stableCount + 1, settled := v.settled || settles })
  else (false, { v with stableCount := 0, settled := false })

/- vox_tpool_wait returns, to its caller or to vox_tpool_shutdown. -/
def State.waitReturns (s : State C W) (c : C) (v : Waiting) : State C W :=
  if v.inShutdown then s.goto c .shutdownStore
  else { s.goto c .idle with hist := { s.hist with waited := s.hist.waited ++ v.before } }

variable [Fintype W]

def access (s : State C W) (c : C) : Option (State C W) :=
  match s.caller c with
  | .idle => none
  | .submitLoadState task =>
    if s.pool.state ≠ .running then some (s.goto c .idle) else some (s.goto c (.submitEnqueue task))
  | .submitEnqueue task =>
    some { s.goto c (.submitTotal s.pool.tasks.length) with
      pool := { s.pool with tasks := s.pool.tasks ++ [task] } }
  | .submitTotal pos =>
    some { s.goto c (.submitPost pos) with
      pool := { s.pool with totalTasks := s.pool.totalTasks + 1 }
      hist := { s.hist with counted := s.hist.counted + 1 } }
  | .submitPost pos =>
    some { s.goto c .idle with
      pool := { s.pool with semaphore := s.pool.semaphore + 1 }
      hist := { s.hist with accepted := s.hist.accepted ++ [pos] } }
  | .waitHead v => some (s.goto c (.waitTail v s.pool.head))
  | .waitTail v head => some (s.goto c (.waitRunning v (queueSize head s.pool.tasks.length)))
  | .waitRunning v pending => some (s.goto c (.waitTotal v pending s.pool.runningTasks))
  | .waitTotal v pending running =>
    some (s.goto c (.waitCompleted v pending running s.pool.totalTasks))
  | .waitCompleted v pending running total =>
    some (s.goto c (.waitFailed v pending running total s.pool.completedTasks))
  | .waitFailed v pending running total completed =>
    let r := waitRound v pending running total completed s.pool.failedTasks
      (s.pool.totalTasks = total)
    if r.1 then some (s.waitReturns c r.2) else some (s.goto c (.waitHead r.2))
  | .shutdownExchange =>
    if s.pool.state = .shutdown then
      some { s.goto c .idle with
        pool := { s.pool with state := .shuttingDown }
        hist := { s.hist with shutdownReturned := true } }
    else
      some { s.goto c (.waitHead { inShutdown := true, before := s.hist.accepted }) with
        pool := { s.pool with state := .shuttingDown } }
  | .shutdownStore =>
    some { s.goto c (.shutdownPost (Fintype.card W)) with
      pool := { s.pool with state := .shutdown } }
  | .shutdownPost left =>
    if left = 0 then some (s.goto c .shutdownJoin)
    else some { s.goto c (.shutdownPost (left - 1)) with
      pool := { s.pool with semaphore := s.pool.semaphore + 1 } }
  | .shutdownJoin =>
    if ∀ w, s.worker w = .exited then
      some { s.goto c .idle with hist := { s.hist with shutdownReturned := true } }
    else none

def work (s : State C W) (w : W) : Option (State C W) :=
  match s.worker w with
  | .semaphoreWait =>
    if s.pool.semaphore = 0 then none
    else some { s.workerGoto w .loadState with
      pool := { s.pool with semaphore := s.pool.semaphore - 1 } }
  | .loadState =>
    if s.pool.state = .shutdown then some (s.workerGoto w .exited)
    else some (s.workerGoto w .dequeue)
  | .dequeue =>
    match s.pool.tasks[s.pool.head]? with
    | none => some (s.workerGoto w .emptyLoadState)
    | some task =>
      some { s.workerGoto w (.incrementRunning s.pool.head task) with
        pool := { s.pool with head := s.pool.head + 1 }
        hist := { s.hist with dequeued := s.hist.dequeued ++ [(w, s.pool.head)] } }
  | .emptyLoadState =>
    if s.pool.state = .shuttingDown ∨ s.pool.state = .shutdown then
      some (s.workerGoto w .emptyHead)
    else some (s.workerGoto w .semaphoreWait)
  | .emptyHead => some (s.workerGoto w (.emptyTail s.pool.head))
  | .emptyTail head =>
    if head = s.pool.tasks.length then some (s.workerGoto w .emptyRunning)
    else some (s.workerGoto w .semaphoreWait)
  | .emptyRunning =>
    if s.pool.runningTasks = 0 then some (s.workerGoto w .exited)
    else some (s.workerGoto w .semaphoreWait)
  | .incrementRunning pos task =>
    some { s.workerGoto w (.runTask pos task) with
      pool := { s.pool with runningTasks := s.pool.runningTasks + 1 } }
  | .runTask pos task =>
    if task.taskFunc then
      some { s.workerGoto w (.callComplete pos task 0) with
        hist := { s.hist with ran := s.hist.ran ++ [(w, pos)] } }
    else some (s.workerGoto w (.callComplete pos task (-1)))
  | .callComplete pos task result =>
    if task.completeFunc then
      some { s.workerGoto w (.countResult pos result) with
        hist := { s.hist with called := s.hist.called ++ [(w, pos)] } }
    else some (s.workerGoto w (.countResult pos result))
  | .countResult pos result =>
    if result = 0 then
      some { s.workerGoto w (.decrementRunning pos) with
        pool := { s.pool with completedTasks := s.pool.completedTasks + 1 }
        hist := { s.hist with completed := s.hist.completed + 1 } }
    else
      some { s.workerGoto w (.decrementRunning pos) with
        pool := { s.pool with failedTasks := s.pool.failedTasks + 1 }
        hist := { s.hist with failed := s.hist.failed + 1 } }
  | .decrementRunning _ =>
    some { s.workerGoto w .semaphoreWait with
      pool := { s.pool with runningTasks := s.pool.runningTasks - 1 } }
  | .exited => none

/- One step: an idle caller calls, a busy one goes on, or a worker does. A NULL
   task function is refused at once. -/
def step (s : State C W) : Action C W → Option (State C W)
  | .call c (.callSubmit task) =>
    match s.caller c with
    | .idle => if task.taskFunc then some (s.goto c (.submitLoadState task)) else some s
    | _ => none
  | .call c .callWait =>
    match s.caller c with
    | .idle => some (s.goto c (.waitHead { inShutdown := false, before := s.hist.accepted }))
    | _ => none
  | .call c .callShutdown =>
    match s.caller c with
    | .idle => some (s.goto c .shutdownExchange)
    | _ => none
  | .call c .refuse =>
    match s.caller c with
    | .submitEnqueue _ => some (s.goto c .idle)
    | _ => none
  | .call c .access => access s c
  | .work w => work s w

inductive Moves (p : Pool) : WorkerPc → WorkerPc → Prop where
  | quit (h : p.state = .shutdown) : Moves p .loadState .exited
  | look (h : p.state ≠ .shutdown) : Moves p .loadState .dequeue
  | noTask (h : p.tasks[p.head]? = none) : Moves p .dequeue .emptyLoadState
  | closing (h : p.state = .shuttingDown ∨ p.state = .shutdown) : Moves p .emptyLoadState .emptyHead
  | goOn (h : ¬ (p.state = .shuttingDown ∨ p.state = .shutdown)) :
    Moves p .emptyLoadState .semaphoreWait
  | readHead : Moves p .emptyHead (.emptyTail p.head)
  | drained {head : ℕ} (h : head = p.tasks.length) : Moves p (.emptyTail head) .emptyRunning
  | filled {head : ℕ} (h : head ≠ p.tasks.length) : Moves p (.emptyTail head) .semaphoreWait
  | leave (h : p.runningTasks = 0) : Moves p .emptyRunning .exited
  | stay (h : p.runningTasks ≠ 0) : Moves p .emptyRunning .semaphoreWait

inductive Works (s : State C W) (w : W) : WorkerPc → State C W → Prop where
  | move {pc pc' : WorkerPc} (h : Moves s.pool pc pc') : Works s w pc (s.workerGoto w pc')
  | wake (h : s.pool.semaphore ≠ 0) :
    Works s w .semaphoreWait { s.workerGoto w .loadState with
      pool := { s.pool with semaphore := s.pool.semaphore - 1 } }
  | take {task : Task} (h : s.pool.tasks[s.pool.head]? = some task) :
    Works s w .dequeue { s.workerGoto w (.incrementRunning s.pool.head task) with
      pool := { s.pool with head := s.pool.head + 1 }
      hist := { s.hist with dequeued := s.hist.dequeued ++ [(w, s.pool.head)] } }
  | start (pos : ℕ) (task : Task) :
    Works s w (.incrementRunning pos task) { s.workerGoto w (.runTask pos task) with
      pool := { s.pool with runningTasks := s.pool.runningTasks + 1 } }
  | run {pos : ℕ} {task : Task} (h : task.taskFunc = true) :
    Works s w (.runTask pos task) { s.workerGoto w (.callComplete pos task 0) with
      hist := { s.hist with ran := s.hist.ran ++ [(w, pos)] } }
  | skip {pos : ℕ} {task : Task} (h : ¬ task.taskFunc = true) :
    Works s w (.runTask pos task) (s.workerGoto w (.callComplete pos task (-1)))
  | report {pos : ℕ} {task : Task} {result : ℤ} (h : task.completeFunc = true) :
    Works s w (.callComplete pos task result) { s.workerGoto w (.countResult pos result) with
      hist := { s.hist with called := s.hist.called ++ [(w, pos)] } }
  | silent {pos : ℕ} {task : Task} {result : ℤ} (h : ¬ task.completeFunc = true) :
    Works s w (.callComplete pos task result) (s.workerGoto w (.countResult pos result))
  | succeed {pos : ℕ} {result : ℤ} (h : result = 0) :
    Works s w (.countResult pos result) { s.workerGoto w (.decrementRunning pos) with
      pool := { s.pool with completedTasks := s.pool.completedTasks + 1 }
      hist := { s.hist with completed := s.hist.completed + 1 } }
  | fail {pos : ℕ} {result : ℤ} (h : result ≠ 0) :
    Works s w (.countResult pos result) { s.workerGoto w (.decrementRunning pos) with
      pool := { s.pool with failedTasks := s.pool.failedTasks + 1 }
      hist := { s.hist with failed := s.hist.failed + 1 } }
  | finish (pos : ℕ) :
    Works s w (.decrementRunning pos) { s.workerGoto w .semaphoreWait with
      pool := { s.pool with runningTasks := s.pool.runningTasks - 1 } }

omit [DecidableEq C] [Fintype W] in
/-- The invariants look at the steps of a worker through this only. -/
theorem work_cases {s s' : State C W} {w : W} (hs : work s w = some s') :
    Works s w (s.worker w) s' := by
  unfold work at hs
  cases hpc : s.worker w with
  | semaphoreWait =>
    rw [hpc] at hs
    obtain ⟨hsem, hs⟩ := ite_none_left_eq_some.mp hs
    obtain rfl := some.inj hs
    exact .wake hsem
  | loadState =>
    rw [hpc] at hs
    dsimp only at hs
    split at hs
    · next h =>
      obtain rfl := some.inj hs
      exact .move (.quit h)
    · next h =>
      obtain rfl := some.inj hs
      exact .move (.look h)
  | dequeue =>
    rw [hpc] at hs
    dsimp only at hs
    cases htask : s.pool.tasks[s.pool.head]? with
    | none =>
      rw [htask] at hs
      obtain rfl := some.inj hs
      exact .move (.noTask htask)
    | some task =>
      rw [htask] at hs
      obtain rfl := some.inj hs
      exact .take htask
  | emptyLoadState =>
    rw [hpc] at hs
    dsimp only at hs
    split at hs
    · next h =>
      obtain rfl := some.inj hs
      exact .move (.closing h)
    · next h =>
      obtain rfl := some.inj hs
      exact .move (.goOn h)
  | emptyHead =>
    rw [hpc] at hs
    obtain rfl := some.inj hs
    exact .move .readHead
  | emptyTail head =>
    rw [hpc] at hs
    dsimp only at hs
    split at hs
    · next h =>
      obtain rfl := some.inj hs
      exact .move (.drained h)
    · next h =>
      obtain rfl := some.inj hs
      exact .move (.filled h)
  | emptyRunning =>
    rw [hpc] at hs
    dsimp only at hs
    split at hs
    · next h =>
      obtain rfl := some.inj hs
      exact .move (.leave h)
    · next h =>
      obtain rfl := some.inj hs
      exact .move (.stay h)
  | incrementRunning pos task =>
    rw [hpc] at hs
    obtain rfl := some.inj hs
    exact .start pos task
  | runTask pos task =>
    rw [hpc] at hs
    dsimp only at hs
    split at hs
    · next h =>
      obtain rfl := some.inj hs
      exact .run h
    · next h =>
      obtain rfl := some.inj hs
      exact .skip h
  | callComplete pos task result =>
    rw [hpc] at hs
    dsimp only at hs
    split at hs
    · next h =>
      obtain rfl := some.inj hs
      exact .report h
    · next h =>
      obtain rfl := some.inj hs
      exact .silent h
  | countResult pos result =>
    rw [hpc] at hs
    dsimp only at hs
    split at hs
    · next h =>
      obtain rfl := some.inj hs
      exact .succeed h
    · next h =>
      obtain rfl := some.inj hs
      exact .fail h
  | decrementRunning pos =>
    rw [hpc] at hs
    obtain rfl := some.inj hs
    exact .finish pos
  | exited =>
    rw [hpc] at hs
    cases hs

end Steps

/- Sample runs number two threads by `Fin 2`. -/
scoped instance neZeroTwo : NeZero 2 := ⟨by decide⟩

end Voxlib.Tpool
