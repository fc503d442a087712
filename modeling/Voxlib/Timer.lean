import Voxlib.Lib.Run
import Voxlib.MHeap

/-!
# Timers of one loop (vox_timer.c, vox_loop.c)

Timers are memory cells named by numbers, the loop's heap holds such numbers.
`vox_timer_process_expired` runs as single steps so that a callback can be
interrupted by any user call: it looks at the root, pops it, starts the
callback, and when the callback returns re-arms or ends the timer.
-/

namespace Voxlib.Timer
open Run MHeap

/-- `struct vox_timer` (vox_timer.h:25-32), in the order of its fields. -/
structure VoxTimer where
  loop : ℕ
  timeout : ℕ := 0
  repeatUs : ℕ := 0
  callback : Option ℕ := none
  userData : ℕ := 0
  active : Bool := false
  deriving Repr, DecidableEq

/-- The timer part of `struct vox_loop`; `self` is the address of the loop. -/
structure Loop where
  self : ℕ
  loopTime : ℕ
  timers : Heap ℕ
  timer : ℕ → VoxTimer

/- A loop as created (vox_loop.c:217-224), all its timers initialised by
   `vox_timer_init`. -/
def Loop.init (self loopTime : ℕ) : Loop :=
  ⟨self, loopTime, ⟨[], 64⟩, fun _ => { loop := self }⟩

/- The comparator that the loop installs (vox_loop.c:118-128) reads the first
   word of the two timers as their deadline. The first field of `vox_timer` is
   the loop pointer. -/
def firstWord (t : VoxTimer) : ℕ := t.loop

def timerCmp (timer : ℕ → VoxTimer) (a b : ℕ) : ℤ :=
  if firstWord (timer a) < firstWord (timer b) then -1
  else if firstWord (timer a) > firstWord (timer b) then 1
  else 0

def Loop.setTimer (l : Loop) (i : ℕ) (t : VoxTimer) : Loop :=
  { l with timer := Function.update l.timer i t }

/- `vox_mheap_remove(timers, timer)`; the result is ignored by the callers. -/
def Loop.heapRemove (l : Loop) (i : ℕ) : Loop :=
  match remove (timerCmp l.timer) l.timers i with
  | some h => { l with timers := h }
  | none => l

/- The end of `vox_timer_start` and `vox_timer_again`: a timer that cannot be
   pushed is switched off. -/
def Loop.heapPush (l : Loop) (alloc : Bool) (i : ℕ) : ℤ × Loop :=
  match push (timerCmp l.timer) alloc l.timers i with
  | some h => (0, { l with timers := h })
  | none => (-1, l.setTimer i { l.timer i with active := false })

-- vox_timer_stop (vox_timer.c:80-95)
def timerStop (l : Loop) (i : ℕ) : ℤ × Loop :=
  if (l.timer i).active then
    (0, (l.setTimer i { l.timer i with active := false }).heapRemove i)
  else (-1, l)

-- vox_timer_start (vox_timer.c:42-77), uint64_t arithmetic
def timerStart (alloc : Bool) (l : Loop) (i timeoutMs repeatMs : ℕ) (cb : Option ℕ) (data : ℕ) :
    ℤ × Loop :=
  match cb with
  | none => (-1, l)
  | some f =>
    let l₁ := if (l.timer i).active then (timerStop l i).2 else l
    let l₂ := l₁.setTimer i { l₁.timer i with
      timeout := (l₁.loopTime + timeoutMs * 1000) % 2 ^ 64
      repeatUs := repeatMs * 1000 % 2 ^ 64
      callback := some f
      userData := data
      active := true }
    l₂.heapPush alloc i

-- vox_timer_again (vox_timer.c:98-130)
def timerAgain (alloc : Bool) (l : Loop) (i : ℕ) : ℤ × Loop :=
  if !(l.timer i).active then (-1, l)
  else if (l.timer i).repeatUs = 0 then (-1, l)
  else
    let l₁ := l.heapRemove i
    let l₂ := l₁.setTimer i { l₁.timer i with
      timeout := (l₁.loopTime + (l₁.timer i).repeatUs) % 2 ^ 64 }
    l₂.heapPush alloc i

-- vox_timer_set_repeat (vox_timer.c:146-153)
def timerSetRepeat (l : Loop) (i repeatMs : ℕ) : Loop :=
  l.setTimer i { l.timer i with repeatUs := repeatMs * 1000 % 2 ^ 64 }

/- The end of one round of `vox_timer_process_expired` (vox_timer.c:206-212):
   the result of the push is ignored. -/
def rearm (alloc : Bool) (l : Loop) (now i : ℕ) : Loop :=
  if 0 < (l.timer i).repeatUs ∧ (l.timer i).active = true then
    let l₁ := l.setTimer i { l.timer i with timeout := (now + (l.timer i).repeatUs) % 2 ^ 64 }
    match push (timerCmp l₁.timer) alloc l₁.timers i with
    | some h => { l₁ with timers := h }
    | none => l₁
  else l.setTimer i { l.timer i with active := false }

-- where `vox_timer_process_expired` stands
inductive Ctl where
  | idle
  | looping (now : ℕ)
  | inCallback (now timer : ℕ)
  deriving DecidableEq, Repr

/- `fired` records the callbacks of the running or last call of
   `vox_timer_process_expired`, each with the deadline it was run for. -/
structure State where
  loop : Loop
  ctl : Ctl := .idle
  fired : List (ℕ × ℕ) := []

/- The top of the `while` loop (vox_timer.c:184-203). -/
def expireRoot (alloc : Bool) (s : State) (now : ℕ) : State :=
  match pop (timerCmp s.loop.timer) s.loop.timers with
  | none => { s with ctl := .idle }
  | some (i, h) =>
    if !(s.loop.timer i).active then { s with loop := { s.loop with timers := h } }
    else if (s.loop.timer i).timeout > now then { s with ctl := .idle }
    else
      let l := { s.loop with timers := h }
      match (s.loop.timer i).callback with
      | some _ =>
        { loop := l, ctl := .inCallback now i
          fired := s.fired ++ [(i, (s.loop.timer i).timeout)] }
      | none => { s with loop := rearm alloc l now i }

/- One step of `vox_timer_process_expired`; in a callback it is the return. -/
def tick (alloc : Bool) (s : State) : Option State :=
  match s.ctl with
  | .idle => none
  | .looping now => some (expireRoot alloc s now)
  | .inCallback now i => some { s with loop := rearm alloc s.loop now i, ctl := .looping now }

inductive Action where
  | start (i timeoutMs repeatMs : ℕ) (cb : Option ℕ) (data : ℕ) (alloc : Bool)
  | stop (i : ℕ)
  | again (i : ℕ) (alloc : Bool)
  | setRepeat (i repeatMs : ℕ)
  | updateTime (now : ℕ)
  | process
  | tick (alloc : Bool)
  deriving DecidableEq, Repr

/- User code runs outside `vox_timer_process_expired` and in callbacks. -/
def userRuns (s : State) : Bool :=
  match s.ctl with
  | .looping _ => false
  | _ => true

def onLoop (s : State) (l : Loop) : Option State :=
  if userRuns s then some { s with loop := l } else none

def step (s : State) : Action → Option State
  | .start i t r cb data alloc => onLoop s (timerStart alloc s.loop i t r cb data).2
  | .stop i => onLoop s (timerStop s.loop i).2
  | .again i alloc => onLoop s (timerAgain alloc s.loop i).2
  | .setRepeat i r => onLoop s (timerSetRepeat s.loop i r)
  | .updateTime now =>
    if s.ctl = .idle ∧ s.loop.loopTime ≤ now then
      some { s with loop := { s.loop with loopTime := now } }
    else none
  | .process =>
    if s.ctl = .idle then some { s with ctl := .looping s.loop.loopTime, fired := [] } else none
  | .tick alloc => tick alloc s

variable (l : Loop)

theorem setTimer_timer (i j : ℕ) (t : VoxTimer) :
    (l.setTimer i t).timer j = if j = i then t else l.timer j := by
  simp [Loop.setTimer, Function.update_apply]

@[simp] theorem setTimer_same (i : ℕ) (t : VoxTimer) : (l.setTimer i t).timer i = t := by
  simp [Loop.setTimer]

@[simp] theorem setTimer_setTimer (i : ℕ) (t t' : VoxTimer) :
    (l.setTimer i t).setTimer i t' = l.setTimer i t' := by
  simp [Loop.setTimer]

@[simp] theorem setTimer_timers (i : ℕ) (t : VoxTimer) : (l.setTimer i t).timers = l.timers := rfl

@[simp] theorem setTimer_self (i : ℕ) (t : VoxTimer) : (l.setTimer i t).self = l.self := rfl

@[simp] theorem setTimer_loopTime (i : ℕ) (t : VoxTimer) :
    (l.setTimer i t).loopTime = l.loopTime := rfl

end Voxlib.Timer
