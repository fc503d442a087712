import Voxlib.Lib.Run

/-!
# A TCP handle without IOCP (vox_tcp.c)

The handle, the event callback and the calls of user code, as single steps. The
control state is what the event callback still has to do (`Cont`) and the number
of user callbacks on top of it (`depth`). The socket's answers are part of the
actions. Allocation and backend updates succeed.
-/

namespace Voxlib.Tcp
open Run

/- The bits of vox_backend.h:36-39. -/
structure Events where
  read : Bool := false
  write : Bool := false
  error : Bool := false
  hangup : Bool := false
  deriving DecidableEq, Repr

def Events.none : Events := {}

-- struct vox_tcp_write_req (vox_tcp.c:23-29); `id` numbers the calls
structure WriteReq where
  id : ℕ
  buf : List UInt8
  offset : ℕ
  cb : Bool
  deriving DecidableEq, Repr

structure VoxTcp where
  fdValid : Bool := false
  connected : Bool := false
  reading : Bool := false
  connectCb : Bool := false
  readCb : Bool := false
  backendRegistered : Bool := false
  backendEvents : Events := {}
  writeQueue : List WriteReq := []
  deriving DecidableEq, Repr

/- tcp_register_backend, tcp_update_backend and tcp_unregister_backend
   (vox_tcp.c:544-661). -/
def registerBackend (t : VoxTcp) (ev : Events) : VoxTcp :=
  if t.fdValid then { t with backendRegistered := true, backendEvents := ev } else t

def updateBackend (t : VoxTcp) (ev : Events) : VoxTcp :=
  if !t.backendRegistered then registerBackend t ev else { t with backendEvents := ev }

def unregisterBackend (t : VoxTcp) : VoxTcp :=
  if !t.backendRegistered then t
  else { t with backendRegistered := false, backendEvents := Events.none }

/- Replace the event set, an empty one by leaving the backend. -/
def setEvents (t : VoxTcp) (ev : Events) : VoxTcp :=
  if ev = Events.none then unregisterBackend t else updateBackend t ev

-- vox_tcp_read_start (vox_tcp.c:1382-1434)
def readStart (t : VoxTcp) (cb : Bool) : ℤ × VoxTcp :=
  if !t.fdValid then (-1, t)
  else if t.reading then (0, t)
  else
    (0, updateBackend { t with reading := true, readCb := cb }
      { t.backendEvents with read := true })

-- vox_tcp_read_stop (vox_tcp.c:1437-1476)
def readStop (t : VoxTcp) : VoxTcp :=
  if !t.reading then t
  else
    setEvents { t with reading := false, readCb := false } { t.backendEvents with read := false }

/- What vox_socket_send answers when `offered` bytes are offered. -/
inductive Send where
  | accepts (n : ℕ)
  | wouldBlock
  | error
  deriving DecidableEq, Repr

def Send.count : Send → ℕ
  | .accepts n => n
  | _ => 0

def Send.valid (offered : ℕ) : Send → Bool
  | .accepts n => n ≤ offered
  | _ => true

/- What vox_socket_create and vox_socket_connect answer. -/
inductive Connect where
  | noSocket
  | refused
  | inProgress
  | immediate
  deriving DecidableEq, Repr

/- What the allocation callback and vox_socket_recv answer. -/
inductive Recv where
  | noBuffer
  | data
  | eof
  | wouldBlock
  | error
  deriving DecidableEq, Repr

/- What vox_tcp_backend_event_cb has left to do. -/
inductive Cont where
  | idle
  | connectDone
  | errorDone
  | readDone (eof : Bool) (events : Events)
  | queue (req : Option ℕ) (hangup : Bool)
  | hangupDone
  deriving DecidableEq, Repr

/- `calls` are the writes that return 0, in the order in which they were made,
   `accepted` the bytes the socket took, `started` the write callbacks with
   their status. -/
structure State where
  tcp : VoxTcp := {}
  depth : ℕ := 0
  cont : Cont := .idle
  calls : List (List UInt8 × Bool) := []
  accepted : List UInt8 := []
  started : List (ℕ × ℤ) := []
  deriving DecidableEq, Repr

def State.call (s : State) (cb : Bool) : State :=
  if cb then { s with depth := s.depth + 1 } else s

def State.callWrite (s : State) (id : ℕ) (cb : Bool) (status : ℤ) : State :=
  if cb then { s with depth := s.depth + 1, started := s.started ++ [(id, status)] } else s

-- vox_tcp_connect (vox_tcp.c:1235-1375)
def connect (s : State) (cb : Bool) (r : Connect) : ℤ × State :=
  if s.tcp.fdValid then (-1, s)
  else if s.tcp.connected then (-1, s)
  else
    match r with
    | .noSocket => (-1, s)
    | .refused => (-1, { s with tcp := { s.tcp with connectCb := cb } })
    | .inProgress =>
      let t := { s.tcp with fdValid := true, connectCb := cb }
      (0, { s with tcp := registerBackend t { write := true, error := true } })
    | .immediate =>
      let t := { s.tcp with fdValid := true, connectCb := cb, connected := true }
      (0, State.call { s with tcp := registerBackend t { read := true } } cb)

/- The part of vox_tcp_write after the checks when no request is pending
   (vox_tcp.c:1580-1631). A hard error is treated like would-block. -/
def writeDirect (s : State) (buf : List UInt8) (cb : Bool) (r : Send) : State :=
  let nwritten := r.count
  let id := s.calls.length
  let s₁ := { s with
    calls := s.calls ++ [(buf, cb)]
    accepted := s.accepted ++ buf.take nwritten }
  if nwritten = buf.length then s₁.callWrite id cb 0
  else
    let t := { s₁.tcp with writeQueue := [⟨id, buf, nwritten, cb⟩] }
    { s₁ with tcp := updateBackend t { t.backendEvents with write := true } }

/- The part for a queue that is not empty (vox_tcp.c:1495-1530). -/
def writeQueued (s : State) (buf : List UInt8) (cb : Bool) : State :=
  let t := { s.tcp with writeQueue := s.tcp.writeQueue ++ [⟨s.calls.length, buf, 0, cb⟩] }
  { s with
    calls := s.calls ++ [(buf, cb)]
    tcp := if !t.backendEvents.write
      then updateBackend t { t.backendEvents with write := true } else t }

-- vox_tcp_write (vox_tcp.c:1479-1632)
def write (s : State) (buf : List UInt8) (cb : Bool) (r : Send) : ℤ × State :=
  if buf.length = 0 then (-1, s)
  else if !s.tcp.fdValid then (-1, s)
  else if !s.tcp.connected then (-1, s)
  else if s.tcp.writeQueue ≠ [] then (0, writeQueued s buf cb)
  else (0, writeDirect s buf cb r)

-- the hangup part (vox_tcp.c:541-547)
def hangupPart (s : State) (hangup : Bool) : State :=
  if hangup then
    if s.tcp.readCb then State.call { s with cont := .hangupDone } true
    else { s with tcp := readStop s.tcp, cont := .idle }
  else { s with cont := .idle }

/- The end of tcp_process_write_queue (vox_tcp.c:819-832). -/
def endQueue (s : State) (hangup : Bool) : State :=
  let ev := { s.tcp.backendEvents with write := false }
  let t :=
    if s.tcp.writeQueue = [] then
      if ev ≠ s.tcp.backendEvents then setEvents s.tcp ev else s.tcp
    else s.tcp
  hangupPart { s with tcp := t } hangup

/- tcp_process_write_queue up to its loop (vox_tcp.c:663-728). -/
def startQueue (s : State) (hangup : Bool) : State :=
  match s.tcp.writeQueue with
  | [] => hangupPart s hangup
  | req :: _ => { s with cont := .queue (some req.id) hangup }

/- The three places of the loop that take the request out of the list:
   `next` is read before the callback runs. -/
def completeReq (s : State) (hangup : Bool) (req : WriteReq) (rest : List WriteReq) (status : ℤ) :
    State :=
  State.callWrite { s with
    tcp := { s.tcp with writeQueue := rest }
    cont := .queue (rest.head?.map WriteReq.id) hangup } req.id req.cb status

/- One round of the loop of tcp_process_write_queue (vox_tcp.c:731-817) at the
   request `id`. -/
def queueRound (s : State) (hangup : Bool) (id : ℕ) (r : Send) : Option State :=
  let before := s.tcp.writeQueue.takeWhile (fun q => q.id ≠ id)
  match s.tcp.writeQueue.dropWhile (fun q => q.id ≠ id) with
  | [] => none
  | req :: rest =>
    let remaining := req.buf.length - req.offset
    if remaining = 0 then some (completeReq s hangup req rest 0)
    else
      match r with
      | .wouldBlock => some (endQueue s hangup)
      | .error => some (completeReq s hangup req rest (-1))
      | .accepts n =>
        if n ≤ remaining then
          let s₁ := { s with accepted := s.accepted ++ (req.buf.drop req.offset).take n }
          if req.offset + n ≥ req.buf.length then some (completeReq s₁ hangup req rest 0)
          else
            some (endQueue { s₁ with tcp := { s₁.tcp with
              writeQueue := before ++ { req with offset := req.offset + n } :: rest } } hangup)
        else none

/- The write and hangup parts (vox_tcp.c:534-547). -/
def writePart (s : State) (ev : Events) : State :=
  if ev.write then startQueue s ev.hangup else hangupPart s ev.hangup

/- The read part (vox_tcp.c:468-532). -/
def readPart (s : State) (ev : Events) (r : Recv) : State :=
  if ev.read ∧ s.tcp.reading = true ∧ s.tcp.readCb = true then
    match r with
    | .noBuffer => writePart s ev
    | .data => State.call { s with cont := .readDone false ev } true
    | .eof => State.call { s with cont := .readDone true ev } true
    | .error => State.call { s with cont := .readDone false ev } true
    | .wouldBlock => { s with cont := .idle }
  else writePart s ev

/- vox_tcp_backend_event_cb (vox_tcp.c:373-541); `soError` is the answer of
   getsockopt(SO_ERROR). -/
def eventCb (s : State) (ev : Events) (soError : Bool) (r : Recv) : State :=
  if ev.error then
    if s.tcp.connectCb then State.call { s with cont := .errorDone } true else s
  else if s.tcp.connectCb ∧ s.tcp.connected = false then
    if soError then
      State.call { s with tcp := { s.tcp with connected := false, connectCb := false } } true
    else
      State.call { s with
        tcp := { s.tcp with connected := true, connectCb := false }
        cont := .connectDone } true
  else readPart s ev r

/- After a successful connect callback (vox_tcp.c:436-460). -/
def connectEvents (current : Events) : Events :=
  if current = { write := true } ∨ current = { write := true, error := true } then Events.none
  else { current with write := false }

def connectDone (t : VoxTcp) : VoxTcp :=
  if connectEvents t.backendEvents ≠ t.backendEvents
  then setEvents t (connectEvents t.backendEvents) else t

/- The event callback goes on when no user callback runs any more. -/
def continueCb (s : State) : Option State :=
  match s.cont with
  | .idle => none
  | .connectDone => some { s with tcp := connectDone s.tcp, cont := .idle }
  | .errorDone => some { s with tcp := { s.tcp with connectCb := false }, cont := .idle }
  | .readDone eof ev =>
    some (writePart { s with tcp := if eof then readStop s.tcp else s.tcp } ev)
  | .queue none hangup => some (endQueue s hangup)
  | .queue (some _) _ => none
  | .hangupDone => some { s with tcp := readStop s.tcp, cont := .idle }

inductive Action where
  | connect (cb : Bool) (r : Connect)
  | readStart (cb : Bool)
  | readStop
  | write (buf : List UInt8) (cb : Bool) (r : Send)
  | event (ev : Events) (soError : Bool) (r : Recv)
  | ret
  | cont
  | send (r : Send)
  deriving DecidableEq, Repr

def State.userRuns (s : State) : Bool := s.depth ≠ 0 ∨ s.cont = .idle

/- Between two events no callback runs and the event callback has returned. -/
def State.between (s : State) : Bool := s.depth = 0 ∧ s.cont = .idle

def step (s : State) : Action → Option State
  | .connect cb r => if s.userRuns then some (connect s cb r).2 else none
  | .readStart cb => if s.userRuns then some { s with tcp := (readStart s.tcp cb).2 } else none
  | .readStop => if s.userRuns then some { s with tcp := readStop s.tcp } else none
  | .write buf cb r =>
    if s.userRuns ∧ r.valid buf.length then some (write s buf cb r).2 else none
  | .event ev soError r => if s.between then some (eventCb s ev soError r) else none
  | .ret => if s.depth ≠ 0 then some { s with depth := s.depth - 1 } else none
  | .cont => if s.depth = 0 then continueCb s else none
  | .send r =>
    match s.cont with
    | .queue (some id) hangup => if s.depth = 0 then queueRound s hangup id r else none
    | _ => none

end Voxlib.Tcp
