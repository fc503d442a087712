import Voxlib.WebSocket.Messages

/-!
# WebSocket connections of the HTTP server (vox_http_ws.c)

vox_http_ws_internal_feed takes the complete frames out of the parser's buffer, puts fragments
together and answers PING and CLOSE.
-/

namespace Voxlib.Http.Ws
open CStr Wire WebSocket Stream List

/-- What leaves the connection: the calls of its callbacks, the frames it writes, and that it
closes the connection below it. -/
inductive Event
  | message (data : Bytes) (isText : Bool)
  | error (msg : Bytes)
  | close (code : ℕ) (reason : Bytes)
  | write (frame : Bytes)
  | connClose
  deriving DecidableEq

/-- vox_http_ws_conn_t; `buffer` is that of the parser. -/
structure WsConn where
  buffer : Bytes := []
  frag : Bytes := []
  fragActive : Bool := false
  fragIsText : Bool := false
  closeSent : Bool := false
  events : List Event := []

def WsConn.emit (ws : WsConn) (e : Event) : WsConn := { ws with events := ws.events ++ [e] }

/- vox_http_ws_report_error. -/
def WsConn.reportError (ws : WsConn) (msg : String) : WsConn := ws.emit (.error (lit msg))

variable (mem : Memory)

/-- vox_http_ws_send_frame (vox_http_ws.c:101-114). -/
def sendFrame (ws : WsConn) (opcode : UInt8) (data : Bytes) : WsConn :=
  match buildFrame mem.alloc opcode data false fun _ => 0 with
  | none => ws
  | some frame => ws.emit (.write frame)

/-- vox_http_ws_send_close_frame (vox_http_ws.c:116-130). -/
def sendCloseFrame (ws : WsConn) (code : ℕ) (reason : Bytes) : WsConn :=
  if ws.closeSent then ws
  else
    let ws := { ws with closeSent := true }
    match buildCloseFrame mem.alloc code reason with
    | none => ws
    | some frame => ws.emit (.write frame)

/- vox_string_append_data on frag, which is skipped for no data. -/
def appendFrag (ws : WsConn) (payload : Bytes) : WsConn :=
  if 0 < payload.length ∧ mem.grow (ws.frag.length + payload.length) then
    { ws with frag := ws.frag ++ payload }
  else ws

/-- A CLOSE frame (vox_http_ws.c:264-315); the call ends with -1 after it. -/
def handleClose (ws : WsConn) (payload : Bytes) : WsConn :=
  let code := if payload.length < 2 then 1000 else ofU16 (payload.getD 0 0) (payload.getD 1 0)
  if payload.length = 1 then ws.reportError "ws protocol error: invalid close payload length"
  else if 2 ≤ payload.length ∧ ¬ isValidCloseCode code then
    ws.reportError "ws protocol error: invalid close code"
  else if 2 < payload.length ∧ ¬ validateUtf8 (payload.drop 2) then
    ws.reportError "ws protocol error: invalid UTF-8 in close reason"
  else
    let reason :=
      if 2 < payload.length ∧ mem.alloc (payload.length - 2 + 1) then cstr (payload.drop 2)
      else []
    (sendCloseFrame mem (ws.emit (.close code reason)) code reason).emit .connClose

/-- A CONTINUATION frame (vox_http_ws.c:324-352), and if the loop goes on after it. -/
def handleContinuation (ws : WsConn) (fin : Bool) (payload : Bytes) : WsConn × Bool :=
  if ¬ ws.fragActive then (ws.reportError "ws protocol error: unexpected continuation", false)
  else
    let ws := appendFrag mem ws payload
    if ¬ fin then (ws, true)
    else if ws.fragIsText ∧ ¬ validateUtf8 ws.frag then
      (ws.reportError "ws protocol error: invalid UTF-8", false)
    else
      let ws := { ws with fragActive := false }
      ({ ws.emit (.message ws.frag ws.fragIsText) with frag := [] }, true)

/-- A TEXT or BINARY frame (vox_http_ws.c:354-376). -/
def handleData (ws : WsConn) (isText fin : Bool) (payload : Bytes) : WsConn × Bool :=
  if ¬ fin then
    (appendFrag mem { ws with fragActive := true, fragIsText := isText, frag := [] } payload, true)
  else if isText ∧ ¬ validateUtf8 payload then
    (ws.reportError "ws protocol error: invalid UTF-8", false)
  else (ws.emit (.message payload isText), true)

/-- The kinds of frames (vox_http_ws.c:263-383). -/
def handleFrame (ws : WsConn) (opcode : UInt8) (fin : Bool) (payload : Bytes) : WsConn × Bool :=
  if opcode = 0x8 then (handleClose mem ws payload, false)
  else if opcode = 0x9 then (sendFrame mem ws 0xA payload, true)
  else if opcode = 0xA then (ws, true)
  else if opcode = 0x0 then handleContinuation mem ws fin payload
  else if opcode = 0x1 ∨ opcode = 0x2 then handleData mem ws (opcode = 0x1) fin payload
  else (ws.reportError "ws protocol error: unknown opcode", false)

/-- One turn of the loop over the frames in the buffer `cur` (vox_http_ws.c:247-387, 390-393). -/
def framePass (ws : WsConn) (cur : Bytes) : Flow WsConn UInt8 :=
  let (frameLen, frame) := parseFrame cur {}
  if frameLen < 0 then
    .fail { ws.reportError "ws protocol error: invalid frame" with buffer := cur }
  else if frameLen = 0 then .wait ws cur
  else if ¬ frame.masked then
    .fail { ws.reportError "ws protocol error: unmasked client frame" with buffer := cur }
  else if 0 < frame.payloadLen ∧ ¬ mem.alloc frame.payloadLen then
    .fail { ws with buffer := cur }
  else
    match handleFrame mem ws frame.opcode frame.fin (frame.content cur) with
    | (ws, true) => .go ws (cur.drop frameLen.toNat)
    | (ws, false) => .fail { ws with buffer := cur.drop frameLen.toNat }

/-- vox_http_ws_internal_feed (vox_http_ws.c:234-397). The buffer is in hand during the loop. -/
def feed (ws : WsConn) (data : Bytes) : ℤ × WsConn :=
  if data = [] then (0, ws)
  else if ¬ mem.grow (ws.buffer.length + data.length) then (-1, ws)
  else
    match settle (framePass mem) (fun _ => 0) { ws with buffer := [] } (ws.buffer ++ data) with
    | .wait ws left => (0, { ws with buffer := left })
    | .go ws left => (0, { ws with buffer := left })
    | .fail ws => (-1, ws)

/-- A call for each read, until one of them fails and the connection is closed. -/
def feeds (ws : WsConn) : List Bytes → ℤ × WsConn
  | [] => (0, ws)
  | data :: reads =>
    if (feed mem ws data).1 ≠ 0 then feed mem ws data
    else feeds (feed mem ws data).2 reads

def controlEvents (c : Control) : List Event :=
  if c.isPing then [.write (frameBytes true 0xA c.payload false fun _ => 0)] else []

def fragmentEvents (f : Fragment) : List Event := f.controls.flatMap controlEvents

def messageEvents (m : Message) : List Event :=
  fragmentEvents m.first ++ m.more.flatMap fragmentEvents ++ [.message m.payload m.isText]

def clientEvents (messages : List Message) (controls : List Control) : List Event :=
  messages.flatMap messageEvents ++ controls.flatMap controlEvents

variable {mem} {ws : WsConn}

variable {t : WsConn}

/-- A masked frame that the loop goes on after. -/
theorem takes_masked (halloc : ∀ n, mem.alloc n = true) {opcode : UInt8} {fin : Bool}
    {payload : Bytes} {key : MaskKey} (hop : opcode.toNat < 16)
    (hcontrol : 8 ≤ opcode.toNat → fin = true ∧ payload.length ≤ 125)
    (hmax : (frameBytes fin opcode payload true key).length ≤ 2 ^ 31 - 1)
    (h : handleFrame mem ws opcode fin payload = (t, true)) :
    Takes (framePass mem) ws (frameBytes fin opcode payload true key) t := by
  refine takes_frame hop hcontrol hmax (fun cur hparse => ?_) fun x f hparse hfields => ?_
  · simp only [framePass, hparse]
    rw [if_neg (by decide), if_pos trivial]
  · have hpos : 0 < (frameBytes fin opcode payload true key).length := Nat.succ_pos _
    simp only [framePass, hparse, hfields.content, hfields.opcode, hfields.fin, hfields.masked,
      halloc, h, Int.toNat_natCast, drop_left']
    rw [if_neg (by omega), if_neg (by omega), if_neg (by simp), if_neg (by simp)]

def WsConn.emits (ws : WsConn) (es : List Event) : WsConn := { ws with events := ws.events ++ es }

theorem emits_append (ws : WsConn) (es fs : List Event) :
    (ws.emits es).emits fs = ws.emits (es ++ fs) := by
  simp [WsConn.emits, append_assoc]

theorem emits_nil (ws : WsConn) : ws.emits [] = ws := by
  simp [WsConn.emits]

section
variable (halloc : ∀ n, mem.alloc n = true)
include halloc

theorem takes_control (ws : WsConn) (c : Control) (hmax : c.frame.length ≤ 2 ^ 31 - 1) :
    Takes (framePass mem) ws c.frame (ws.emits (controlEvents c)) := by
  have hop : (if c.isPing then (0x9 : UInt8) else 0xA).toNat < 16 := by
    cases c.isPing <;> decide
  refine takes_masked halloc hop (fun _ => ⟨rfl, c.short⟩) hmax ?_
  cases hping : c.isPing with
  | false =>
    have hevents : controlEvents c = [] := if_neg (by simp [hping])
    rw [hevents, emits_nil]
    rfl
  | true =>
    have hbuilt : buildFrame mem.alloc 0xA c.payload false (fun _ => 0) =
        some (frameBytes true 0xA c.payload false fun _ => 0) := by
      rw [buildFrame, if_neg (by simp [halloc])]
      rfl
    have hevents : controlEvents c = [.write (frameBytes true 0xA c.payload false fun _ => 0)] :=
      if_pos hping
    have hsent : sendFrame mem ws 0xA c.payload = ws.emits (controlEvents c) := by
      rw [sendFrame, hbuilt, hevents]
      rfl
    rw [← hsent]
    rfl

theorem frames_controls (ws : WsConn) (controls : List Control)
    (hmax : ∀ f ∈ controls.map Control.frame, f.length ≤ 2 ^ 31 - 1) :
    Frames (framePass mem) ws (controls.map Control.frame)
      (ws.emits (controls.flatMap controlEvents)) := by
  induction controls generalizing ws with
  | nil =>
    rw [flatMap_nil, emits_nil]
    exact .nil ws
  | cons c controls ih =>
    have hc := takes_control halloc ws c (hmax _ (mem_cons_self ..))
    have hrest := ih (ws.emits (controlEvents c)) fun f hf =>
      hmax f (mem_cons_of_mem _ hf)
    rw [emits_append] at hrest
    exact .cons hc hrest

theorem frames_fragment (f : Fragment) {opcode : UInt8} {fin : Bool} (hop : opcode.toNat < 8)
    (hmax : ∀ b ∈ f.frames opcode fin, b.length ≤ 2 ^ 31 - 1)
    (h : handleFrame mem (ws.emits (fragmentEvents f)) opcode fin f.payload = (t, true)) :
    Frames (framePass mem) ws (f.frames opcode fin) t := by
  have hcontrols := frames_controls halloc ws f.controls fun b hb =>
    hmax b (mem_append_left _ hb)
  have hlast := takes_masked halloc (by omega) (fun h8 => absurd h8 (by omega))
    (hmax _ (mem_append_right _ (mem_singleton_self _))) h
  exact hcontrols.append (.cons hlast (.nil t))

end

theorem appendFrag_eq (hgrow : ∀ n, mem.grow n = true) (ws : WsConn) (payload : Bytes) :
    appendFrag mem ws payload = { ws with frag := ws.frag ++ payload } := by
  unfold appendFrag
  by_cases hp : 0 < payload.length
  · rw [if_pos ⟨hp, hgrow _⟩]
  · obtain rfl : payload = [] := eq_nil_of_length_eq_zero (by omega)
    rw [if_neg fun h => hp h.1, append_nil]

def WsConn.finish (ws : WsConn) : WsConn := { ws with frag := [], fragActive := false }

theorem frames_more (halloc : ∀ n, mem.alloc n = true) (hgrow : ∀ n, mem.grow n = true)
    (ws : WsConn) (g : Fragment) (rest : List Fragment) (hactive : ws.fragActive = true)
    (hutf8 : ws.fragIsText = true →
      validateUtf8 (ws.frag ++ (g.payload ++ rest.flatMap Fragment.payload)) = true)
    (hmax : ∀ b ∈ fragmentFrames 0x0 g rest, b.length ≤ 2 ^ 31 - 1) :
    Frames (framePass mem) ws (fragmentFrames 0x0 g rest)
      (ws.emits (fragmentEvents g ++ rest.flatMap fragmentEvents ++
        [.message (ws.frag ++ (g.payload ++ rest.flatMap Fragment.payload)) ws.fragIsText])).finish
    := by
  induction rest generalizing ws g with
  | nil =>
    rw [flatMap_nil, append_nil] at hutf8
    rw [flatMap_nil, flatMap_nil, append_nil, append_nil, ← emits_append]
    refine frames_fragment halloc g (by decide) hmax ?_
    have hvalid : ¬ ((ws.emits (fragmentEvents g)).fragIsText = true ∧
        ¬ validateUtf8 ((ws.emits (fragmentEvents g)).frag ++ g.payload) = true) :=
      fun h => h.2 (hutf8 h.1)
    have hbegun : ¬ ¬ (ws.emits (fragmentEvents g)).fragActive = true := not_not.mpr hactive
    show handleContinuation mem (ws.emits (fragmentEvents g)) true g.payload = _
    rw [handleContinuation, if_neg hbegun, appendFrag_eq hgrow]
    dsimp only
    rw [if_neg (by simp), if_neg hvalid]
    rfl
  | cons k rest ih =>
    -- the fragment only makes the collected part longer
    have hstep : handleFrame mem (ws.emits (fragmentEvents g)) 0x0 false g.payload =
        ({ ws.emits (fragmentEvents g) with frag := ws.frag ++ g.payload }, true) := by
      have hbegun : ¬ ¬ (ws.emits (fragmentEvents g)).fragActive = true := not_not.mpr hactive
      show handleContinuation mem (ws.emits (fragmentEvents g)) false g.payload = _
      rw [handleContinuation, if_neg hbegun, appendFrag_eq hgrow]
      rfl
    have hfirst := frames_fragment halloc g (by decide)
      (fun b hb => hmax b (mem_append_left _ hb)) hstep
    have hmore := ih { ws.emits (fragmentEvents g) with frag := ws.frag ++ g.payload } k hactive
      (fun htext => by
        have hvalid := hutf8 htext
        rw [flatMap_cons, ← append_assoc] at hvalid
        exact hvalid)
      fun b hb => hmax b (mem_append_right _ hb)
    have hframes := hfirst.append hmore
    simp only [WsConn.emits, WsConn.finish, flatMap_cons, append_assoc]
      at hframes ⊢
    exact hframes

structure Idle (ws : WsConn) : Prop where
  frag : ws.frag = []
  inactive : ws.fragActive = false
  buffer : ws.buffer = []

theorem frames_message (halloc : ∀ n, mem.alloc n = true) (hgrow : ∀ n, mem.grow n = true)
    (m : Message) (hidle : Idle ws) (hutf8 : m.isText = true → validateUtf8 m.payload = true)
    (hmax : ∀ b ∈ m.frames, b.length ≤ 2 ^ 31 - 1) :
    ∃ t, Frames (framePass mem) ws m.frames t ∧ Idle t ∧
      t.events = ws.events ++ messageEvents m := by
  obtain ⟨isText, first, more⟩ := m
  have hop : (if isText then (0x1 : UInt8) else 0x2).toNat < 8 := by
    cases isText <;> decide
  have hdata (fin : Bool) : handleFrame mem (ws.emits (fragmentEvents first))
      (if isText then 0x1 else 0x2) fin first.payload =
        handleData mem (ws.emits (fragmentEvents first)) isText fin first.payload := by
    cases isText <;> rfl
  cases more with
  | nil =>
    have hvalid : ¬ (isText = true ∧ ¬ validateUtf8 first.payload = true) := fun h => by
      have hall := hutf8 h.1
      rw [Message.payload, flatMap_nil, append_nil] at hall
      exact h.2 hall
    refine ⟨(ws.emits (fragmentEvents first)).emit (.message first.payload isText), ?_, ?_, ?_⟩
    · refine frames_fragment halloc first hop hmax ?_
      rw [hdata, handleData, if_neg (by simp), if_neg hvalid]
    · exact ⟨hidle.frag, hidle.inactive, hidle.buffer⟩
    · simp [messageEvents, Message.payload, WsConn.emits, WsConn.emit]
  | cons g rest =>
    have hstep : handleFrame mem (ws.emits (fragmentEvents first))
        (if isText then 0x1 else 0x2) false first.payload = ({ ws.emits (fragmentEvents first) with
          fragActive := true, fragIsText := isText, frag := first.payload }, true) := by
      rw [hdata, handleData, if_pos (by simp), appendFrag_eq hgrow]
      rfl
    have hfirst := frames_fragment halloc first hop
      (fun b hb => hmax b (mem_append_left _ hb)) hstep
    have hmore := frames_more halloc hgrow { ws.emits (fragmentEvents first) with
      fragActive := true, fragIsText := isText, frag := first.payload } g rest rfl
      (fun htext => by
        have hall := hutf8 htext
        rw [Message.payload, flatMap_cons] at hall
        exact hall)
      fun b hb => hmax b (mem_append_right _ hb)
    refine ⟨_, hfirst.append hmore, ⟨rfl, rfl, hidle.buffer⟩, ?_⟩
    simp [messageEvents, Message.payload, WsConn.emits, WsConn.finish, append_assoc]

theorem frames_messages (halloc : ∀ n, mem.alloc n = true) (hgrow : ∀ n, mem.grow n = true)
    (messages : List Message) (hidle : Idle ws)
    (hutf8 : ∀ m ∈ messages, m.isText = true → validateUtf8 m.payload = true)
    (hmax : ∀ b ∈ messages.flatMap Message.frames, b.length ≤ 2 ^ 31 - 1) :
    ∃ t, Frames (framePass mem) ws (messages.flatMap Message.frames) t ∧ Idle t ∧
      t.events = ws.events ++ messages.flatMap messageEvents := by
  induction messages generalizing ws with
  | nil => exact ⟨ws, .nil ws, hidle, (append_nil _).symm⟩
  | cons m messages ih =>
    rw [flatMap_cons] at hmax
    obtain ⟨t, hframes, hmid, hevents⟩ := frames_message halloc hgrow m hidle
      (hutf8 m (mem_cons_self ..)) fun b hb => hmax b (mem_append_left _ hb)
    obtain ⟨u, hrest, hlast, hall⟩ := ih hmid
      (fun k hk => hutf8 k (mem_cons_of_mem _ hk))
      fun b hb => hmax b (mem_append_right _ hb)
    refine ⟨u, hframes.append hrest, hlast, ?_⟩
    rw [hall, hevents, flatMap_cons, append_assoc]

theorem sendFrame_buffer (ws : WsConn) (opcode : UInt8) (data : Bytes) :
    (sendFrame mem ws opcode data).buffer = ws.buffer := by
  unfold sendFrame
  split <;> rfl

theorem appendFrag_buffer (ws : WsConn) (payload : Bytes) :
    (appendFrag mem ws payload).buffer = ws.buffer := by
  unfold appendFrag
  split <;> rfl

theorem handleContinuation_buffer (ws : WsConn) (fin : Bool) (payload : Bytes) :
    (handleContinuation mem ws fin payload).1.buffer = ws.buffer := by
  unfold handleContinuation
  split
  · rfl
  dsimp only
  split
  · exact appendFrag_buffer ws payload
  split
  · exact appendFrag_buffer ws payload
  · exact appendFrag_buffer ws payload

theorem handleData_buffer (ws : WsConn) (isText fin : Bool) (payload : Bytes) :
    (handleData mem ws isText fin payload).1.buffer = ws.buffer := by
  unfold handleData
  split
  · exact appendFrag_buffer _ payload
  split
  · rfl
  · rfl

theorem handleFrame_buffer {opcode : UInt8} {fin : Bool} {payload : Bytes}
    (h : handleFrame mem ws opcode fin payload = (t, true)) : t.buffer = ws.buffer := by
  unfold handleFrame at h
  split at h
  · cases h
  split at h
  · cases h
    exact sendFrame_buffer ws _ _
  split at h
  · cases h
    rfl
  split at h
  · have hbuffer : (handleContinuation mem ws fin payload).1.buffer = ws.buffer :=
      handleContinuation_buffer ws fin payload
    rwa [h] at hbuffer
  split at h
  · have hbuffer : (handleData mem ws (opcode = 0x1) fin payload).1.buffer = ws.buffer :=
      handleData_buffer ws _ fin payload
    rwa [h] at hbuffer
  · cases h

theorem framePass_buffer (ws : WsConn) (cur : Bytes) (h : ws.buffer = []) :
    (framePass mem ws cur).Holds fun t => t.buffer = [] := by
  unfold framePass
  dsimp only
  split
  · trivial
  split
  · exact h
  split
  · trivial
  split
  · trivial
  split
  · next hgo => exact (handleFrame_buffer hgo).trans h
  · trivial

theorem framePass_nil (ws : WsConn) : framePass mem ws [] = .wait ws [] := rfl

variable {left : Bytes}

theorem feed_wait (hgrow : ∀ n, mem.grow n = true) {rest data : Bytes} (hbuffer : ws.buffer = [])
    (hdata : data ≠ []) (h : settle (framePass mem) (fun _ => 0) ws (left ++ data) = .wait t rest) :
    feed mem { ws with buffer := left } data = (0, { t with buffer := rest }) := by
  have hws : { ws with buffer := [] } = ws := by rw [← hbuffer]
  rw [feed, if_neg hdata, if_neg (by simp [hgrow])]
  dsimp only
  rw [hws, h]

def Fed (mem : Memory) (ws : WsConn) (reads : List Bytes) : Flow WsConn UInt8 → Prop
  | .wait t rest => t.buffer = [] ∧ feeds mem ws reads = (0, { t with buffer := rest })
  | .go _ _ => True
  | .fail t => feeds mem ws reads = (-1, t)

variable {reads : List Bytes}

section
variable (hgrow : ∀ n, mem.grow n = true)
include hgrow

theorem feeds_fed (hbuffer : ws.buffer = []) (hreads : ∀ r ∈ reads, r ≠ []) :
    Fed mem { ws with buffer := left } reads
      (deliver (settle (framePass mem) fun _ => 0) ws left reads) := by
  induction reads generalizing ws left with
  | nil => exact ⟨hbuffer, rfl⟩
  | cons data reads ih =>
    have hdata := hreads data (mem_cons_self ..)
    have hws : { ws with buffer := [] } = ws := by rw [← hbuffer]
    rw [deliver]
    cases hcall : settle (framePass mem) (fun _ => 0) ws (left ++ data) with
    | wait u rest =>
      have hkept := passes_holds (@framePass_buffer mem)
        ((left ++ data).length + 0 + 1) hbuffer (left ++ data)
      have hfeed := feed_wait hgrow hbuffer hdata hcall
      rw [settle] at hcall
      rw [hcall] at hkept
      have hnext : feeds mem { ws with buffer := left } (data :: reads) =
          feeds mem { u with buffer := rest } reads := by
        rw [feeds, hfeed, if_neg (by simp)]
      have hrest : Fed mem { u with buffer := rest } reads
          (deliver (settle (framePass mem) fun _ => 0) u rest reads) :=
        ih hkept fun r hr => hreads r (mem_cons_of_mem _ hr)
      unfold Fed at hrest ⊢
      rw [hnext]
      exact hrest
    | go u rest => trivial
    | fail u =>
      have hfeed : feed mem { ws with buffer := left } data = (-1, u) := by
        rw [feed, if_neg hdata, if_neg (by simp [hgrow])]
        dsimp only
        rw [hws, hcall]
      show feeds mem { ws with buffer := left } (data :: reads) = (-1, u)
      rw [feeds, hfeed, if_pos (by simp)]

theorem feeds_of_deliver (hbuffer : ws.buffer = []) (hreads : ∀ r ∈ reads, r ≠ [])
    (h : deliver (settle (framePass mem) fun _ => 0) ws left reads = .wait t []) :
    feeds mem { ws with buffer := left } reads = (0, t) := by
  have hfed : Fed mem { ws with buffer := left } reads
      (deliver (settle (framePass mem) fun _ => 0) ws left reads) := feeds_fed hgrow hbuffer hreads
  rw [h] at hfed
  obtain ⟨hnil, hfeeds⟩ := hfed
  rw [hfeeds, ← hnil]

theorem feeds_of_fail (hbuffer : ws.buffer = []) (hreads : ∀ r ∈ reads, r ≠ [])
    (h : deliver (settle (framePass mem) fun _ => 0) ws left reads = .fail t) :
    feeds mem { ws with buffer := left } reads = (-1, t) := by
  have hfed : Fed mem { ws with buffer := left } reads
      (deliver (settle (framePass mem) fun _ => 0) ws left reads) := feeds_fed hgrow hbuffer hreads
  rw [h] at hfed
  exact hfed

end

/-- Whatever the fragments of the messages, the control frames between them and the reads, every
message is delivered once, in order, and every PING is answered. -/
theorem feeds_deliver (halloc : ∀ n, mem.alloc n = true) (hgrow : ∀ n, mem.grow n = true)
    (messages : List Message) (controls : List Control)
    (hutf8 : ∀ m ∈ messages, m.isText = true → validateUtf8 m.payload = true)
    (hmax : ∀ b ∈ clientFrames messages controls, b.length ≤ 2 ^ 31 - 1) (reads : List Bytes)
    (hreads : ∀ r ∈ reads, r ≠ [])
    (hstream : reads.flatten = (clientFrames messages controls).flatten) :
    ∃ t, feeds mem {} reads = (0, t) ∧ t.events = clientEvents messages controls ∧ Idle t := by
  have hidle : Idle {} := ⟨rfl, rfl, rfl⟩
  obtain ⟨t, hframes, hlast, hevents⟩ := frames_messages halloc hgrow messages hidle hutf8
    fun b hb => hmax b (mem_append_left _ hb)
  have hall := hframes.append (frames_controls halloc t controls fun b hb =>
    hmax b (mem_append_right _ hb))
  have hdeliver := deliver_frames framePass_nil hall reads hstream hall.partial_nil
  refine ⟨_, feeds_of_deliver hgrow rfl hreads hdeliver, ?_, hlast.frag, hlast.inactive,
    hlast.buffer⟩
  rw [WsConn.emits, hevents]
  rfl

def sampleMessage : Message where
  isText := true
  first := ⟨[], lit "h", fun _ => 7⟩
  more := [⟨[⟨true, lit "p", fun i => UInt8.ofNat i, by decide⟩], lit "i", fun _ => 9⟩]

theorem hi_in_fragments_delivered : ∃ t,
    feeds ⟨fun _ => true, fun _ => true⟩ {} [[0x01, 0x81, 7], [7, 7, 7, 0x6F, 0x89, 0x81, 0, 1],
      [2, 3, 0x70, 0x80, 0x81, 9, 9, 9, 9, 0x60]] = (0, t) ∧
      t.events = [.write [0x8A, 1, 0x70], .message (lit "hi") true] ∧ Idle t :=
  feeds_deliver (fun _ => rfl) (fun _ => rfl) [sampleMessage] [] (by decide) (by decide) _
    (by decide) (by decide)

end Voxlib.Http.Ws
