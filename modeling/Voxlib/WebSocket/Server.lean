import Voxlib.WebSocket.Handshake

/-!
# The WebSocket server (vox_websocket_server.c)

Reads are collected up to the blank line of the upgrade request; later ones go to the frame
parser.
-/

namespace Voxlib.WebSocket.Server
open CStr Wire Stream List

/-- The calls of the callbacks, what is written to the client, and that the handle below is
destroyed. -/
inductive Event
  | connection
  | message (data : Bytes) (isText : Bool)
  | close (code : ℕ) (reason : Bytes)
  | error (msg : Bytes)
  | write (bytes : Bytes)
  | destroy
  deriving DecidableEq

inductive ConnState
  | handshaking
  | opened
  | closing
  | closed
  deriving DecidableEq

/-- vox_ws_connection_t; `buffer` is that of the parser, and `destroyed` says that there is no
handle below any more. -/
structure Conn where
  state : ConnState := .handshaking
  handshakeBuffer : Bytes := []
  handshakeComplete : Bool := false
  buffer : Bytes := []
  closeSent : Bool := false
  destroyed : Bool := false
  events : List Event := []

def Conn.emits (conn : Conn) (es : List Event) : Conn := { conn with events := conn.events ++ es }

/- vox_tcp_destroy or vox_tls_destroy. -/
def Conn.destroy (conn : Conn) : Conn := { conn.emits [.destroy] with destroyed := true }

structure Setup where
  mem : Memory
  send : Bool
  path : Bytes

variable (srv : Setup)

/- vox_tcp_write or vox_tls_write of a frame. -/
def Conn.write (conn : Conn) (frame : Option Bytes) : Conn :=
  match frame with
  | none => conn
  | some frame => if srv.send then conn.emits [.write frame] else conn

/-- vox_ws_connection_close (vox_websocket_server.c:698-716). -/
def connectionClose (conn : Conn) (code : ℕ) (reason : Bytes) : Conn :=
  if conn.closeSent then conn
  else
    { conn with closeSent := true, state := .closing }.write srv
      (buildCloseFrame srv.mem.alloc code reason)

/-- ws_handle_handshake (vox_websocket_server.c:329-434). -/
def handleHandshake (conn : Conn) (data : Bytes) : ℤ × Conn :=
  let conn :=
    if srv.mem.grow (conn.handshakeBuffer.length + data.length) then
      { conn with handshakeBuffer := conn.handshakeBuffer ++ data }
    else conn
  let buf := conn.handshakeBuffer
  match strstr endMark (cstr buf) with
  | none => if buf.length > 8192 then (-1, conn) else (0, conn)
  | some endMarker =>
    match answer srv.mem srv.path buf endMarker with
    | none => (-1, conn)
    | some out =>
      if ¬ srv.send then (-1, conn)
      else
        (1, { conn.emits [.write out, .connection] with
          handshakeComplete := true, state := .opened, handshakeBuffer := [] })

/-- A CLOSE frame (vox_websocket_server.c:470-520); the connection is given up after it. -/
def handleClose (conn : Conn) (payload : Bytes) : Conn :=
  let code := if payload.length < 2 then 1000 else ofU16 (payload.getD 0 0) (payload.getD 1 0)
  if payload.length = 1 then connectionClose srv conn 1002 (lit "Invalid close frame")
  else if 2 ≤ payload.length ∧ ¬ isValidCloseCode code then
    connectionClose srv conn 1002 (lit "Invalid close code")
  else if 2 < payload.length ∧ ¬ validateUtf8 (payload.drop 2) then
    connectionClose srv conn 1007 (lit "Invalid UTF-8 in close reason")
  else
    let reason :=
      if 2 < payload.length ∧ srv.mem.alloc (payload.length - 2 + 1) then cstr (payload.drop 2)
      else []
    let conn := conn.emits [.close code reason]
    { connectionClose srv conn code reason with state := .closed }

/-- ws_handle_frame behind the copy of the payload (vox_websocket_server.c:452-536), and if the
loop goes on after it. -/
def handleFrame (conn : Conn) (opcode : UInt8) (payload : Bytes) : Conn × Bool :=
  if opcode = 0x1 then
    if ¬ validateUtf8 payload then (connectionClose srv conn 1007 (lit "Invalid UTF-8"), false)
    else (conn.emits [.message payload true], true)
  else if opcode = 0x2 then (conn.emits [.message payload false], true)
  else if opcode = 0x8 then (handleClose srv conn payload, false)
  else if opcode = 0x9 then
    (conn.write srv (buildFrame srv.mem.alloc 0xA payload false fun _ => 0), true)
  else
    -- PONG and CONTINUATION frames, and the opcodes without a meaning
    (conn, true)

/-- One turn of the loop over the frames in the buffer `cur` (vox_websocket_server.c:575-588). -/
def framePass (conn : Conn) (cur : Bytes) : Flow Conn UInt8 :=
  let (frameLen, frame) := parseFrame cur {}
  if frameLen < 0 then .fail { conn with buffer := cur }
  else if frameLen = 0 then .wait conn cur
  else if 0 < frame.payloadLen ∧ ¬ srv.mem.alloc frame.payloadLen then
    .fail { conn with buffer := cur }
  else
    match handleFrame srv conn frame.opcode (frame.content cur) with
    | (conn, true) => .go conn (cur.drop frameLen.toNat)
    | (conn, false) => .fail { conn with buffer := cur }

/-- ws_on_tcp_read and ws_on_tls_read (vox_websocket_server.c:540-641): a read of some bytes, or
`none` for one that failed. A destroyed handle reads no more. -/
def onRead (conn : Conn) (read : Option Bytes) : Conn :=
  if conn.destroyed then conn
  else
    match read with
    | none => (conn.emits [.error (lit "Connection closed")]).destroy
    | some data =>
      if data = [] then conn
      else if ¬ conn.handshakeComplete then
        let (ret, conn) := handleHandshake srv conn data
        if ret < 0 then conn.destroy else conn
      else if ¬ srv.mem.grow (conn.buffer.length + data.length) then conn.destroy
      else
        match settle (framePass srv) (fun _ => 0) { conn with buffer := [] }
          (conn.buffer ++ data) with
        | .wait conn left => { conn with buffer := left }
        | .go conn left => { conn with buffer := left }
        | .fail conn => conn.destroy

def onReads (conn : Conn) (reads : List Bytes) : Conn :=
  reads.foldl (fun conn data => onRead srv conn (some data)) conn

def delivered (events : List Event) : List (Bytes × Bool) :=
  events.filterMap fun e =>
    match e with
    | .message data isText => some (data, isText)
    | _ => none

variable {srv} {conn : Conn} {r : Request}

theorem handshake_part (hgrow : ∀ n, srv.mem.grow n = true) {data rest : Bytes}
    (hbytes : conn.handshakeBuffer ++ data ++ rest = r.bytes) (hrest : rest ≠ [])
    (hlimit : (conn.handshakeBuffer ++ data).length ≤ 8192) : handleHandshake srv conn data =
      (0, { conn with handshakeBuffer := conn.handshakeBuffer ++ data }) := by
  have hplain : ∀ c ∈ conn.handshakeBuffer ++ data, c ≠ 0 := fun c hc =>
    r.bytes_ne_zero c (hbytes ▸ mem_append_left _ hc)
  have hnone : strstr endMark (conn.handshakeBuffer ++ data) = none := by
    cases hfound : strstr endMark (conn.handshakeBuffer ++ data) with
    | none => rfl
    | some i =>
      -- the end of the request would be found before it
      obtain ⟨hwhole, hle⟩ := strstr_append hfound rest
      rw [hbytes, r.endMarker] at hwhole
      have hindex : r.bytes.length - 4 = i := Option.some.inj hwhole
      have hlen := congrArg List.length hbytes
      have hpos := length_pos_of_ne_nil hrest
      rw [length_append] at hlen
      omega
  rw [handleHandshake, if_pos (hgrow _)]
  dsimp only
  rw [cstr_eq hplain, hnone]
  dsimp only
  rw [if_neg (by omega)]

def Conn.upgraded (conn : Conn) (out : Bytes) : Conn :=
  { conn.emits [.write out, .connection] with
    handshakeComplete := true, state := .opened, handshakeBuffer := [] }

theorem handshake_whole (halloc : ∀ n, srv.mem.alloc n = true)
    (hgrow : ∀ n, srv.mem.grow n = true) (hsend : srv.send = true) (hr : r.Upgrades srv.path)
    {data : Bytes} (hbytes : conn.handshakeBuffer ++ data = r.bytes) :
    ∃ out, handleHandshake srv conn data = (1, conn.upgraded out) := by
  obtain ⟨out, hout⟩ := answer_request halloc hgrow hr
  refine ⟨out, ?_⟩
  rw [handleHandshake, if_pos (hgrow _)]
  dsimp only
  rw [hbytes, cstr_eq r.bytes_ne_zero, r.endMarker]
  dsimp only
  rw [hout]
  dsimp only
  rw [if_neg (by simp [hsend])]
  rfl

theorem onReads_empty (conn : Conn) {reads : List Bytes} (h : reads.flatten = []) :
    onReads srv conn reads = conn := by
  induction reads with
  | nil => rfl
  | cons data reads ih =>
    obtain ⟨rfl, hreads⟩ : data = [] ∧ reads.flatten = [] := append_eq_nil_iff.mp h
    have hread : onRead srv conn (some []) = conn := by simp [onRead]
    rw [onReads, foldl_cons, hread]
    exact ih hreads

/-- The reads of the request, of which the last one ends with it, upgrade the connection. -/
theorem onReads_handshake (halloc : ∀ n, srv.mem.alloc n = true)
    (hgrow : ∀ n, srv.mem.grow n = true) (hsend : srv.send = true) (hr : r.Upgrades srv.path)
    (conn : Conn) (reads : List Bytes) (hbytes : conn.handshakeBuffer ++ reads.flatten = r.bytes)
    (hreads : reads.flatten ≠ []) (halive : conn.destroyed = false)
    (hopen : conn.handshakeComplete = false)
    (hlimit : ∀ front back, reads = front ++ back → back.flatten ≠ [] →
      (conn.handshakeBuffer ++ front.flatten).length ≤ 8192) :
    ∃ out, onReads srv conn reads = conn.upgraded out := by
  induction reads generalizing conn with
  | nil => exact absurd rfl hreads
  | cons data reads ih =>
    rw [flatten_cons] at hbytes hreads
    rw [onReads, foldl_cons, ← onReads]
    by_cases hdata : data = []
    · subst hdata
      have hread : onRead srv conn (some []) = conn := by simp [onRead]
      rw [hread]
      exact ih conn hbytes hreads halive hopen fun front back heq => hlimit ([] :: front) back (by
        rw [heq]
        rfl)
    have hread : onRead srv conn (some data) =
        let (ret, conn) := handleHandshake srv conn data
        if ret < 0 then conn.destroy else conn := by
      rw [onRead, if_neg (by simp [halive])]
      dsimp only
      rw [if_neg hdata, if_pos (by simp [hopen])]
    by_cases hrest : reads.flatten = []
    · rw [hrest, append_nil] at hbytes
      obtain ⟨out, hout⟩ := handshake_whole halloc hgrow hsend hr hbytes
      refine ⟨out, ?_⟩
      rw [hread, hout]
      exact onReads_empty _ hrest
    · have hpart := handshake_part hgrow (by rw [append_assoc, hbytes]) hrest (by
        simpa using hlimit [data] reads rfl hrest)
      rw [hread, hpart]
      obtain ⟨out, hout⟩ := ih { conn with handshakeBuffer := conn.handshakeBuffer ++ data }
        (by rw [append_assoc, hbytes]) hrest halive hopen fun front back heq hback => by
          have hle := hlimit (data :: front) back (by rw [heq]; rfl) hback
          rw [append_assoc]
          exact hle
      exact ⟨out, hout⟩

theorem takes_masked (halloc : ∀ n, srv.mem.alloc n = true) {opcode : UInt8} (fin : Bool)
    {payload : Bytes} {key : MaskKey} (hop : opcode.toNat < 16)
    (hcontrol : 8 ≤ opcode.toNat → fin = true ∧ payload.length ≤ 125)
    (hmax : (frameBytes fin opcode payload true key).length ≤ 2 ^ 31 - 1) {t : Conn}
    (h : handleFrame srv conn opcode payload = (t, true)) :
    Takes (framePass srv) conn (frameBytes fin opcode payload true key) t := by
  refine takes_frame hop hcontrol hmax (fun cur hparse => ?_) fun x f hparse hfields => ?_
  · simp only [framePass, hparse]
    rw [if_neg (by decide), if_pos trivial]
  · have hpos : 0 < (frameBytes fin opcode payload true key).length := Nat.succ_pos _
    simp only [framePass, hparse, hfields.content, hfields.opcode, halloc, h, Int.toNat_natCast,
      drop_left']
    rw [if_neg (by omega), if_neg (by omega), if_neg (by simp)]

theorem emits_append (conn : Conn) (es fs : List Event) :
    (conn.emits es).emits fs = conn.emits (es ++ fs) := by
  simp [Conn.emits, append_assoc]

theorem emits_nil (conn : Conn) : conn.emits [] = conn := by
  simp [Conn.emits]

theorem delivered_append (es fs : List Event) :
    delivered (es ++ fs) = delivered es ++ delivered fs := filterMap_append

section
variable (halloc : ∀ n, srv.mem.alloc n = true)
include halloc

theorem frames_controls (conn : Conn) (controls : List Control)
    (hmax : ∀ b ∈ controls.map Control.frame, b.length ≤ 2 ^ 31 - 1) :
    ∃ es, Frames (framePass srv) conn (controls.map Control.frame) (conn.emits es) ∧
      delivered es = [] := by
  induction controls generalizing conn with
  | nil => exact ⟨[], by rw [emits_nil]; exact .nil conn, rfl⟩
  | cons c controls ih =>
    have hop : (if c.isPing then (0x9 : UInt8) else 0xA).toNat < 16 := by
      cases c.isPing <;> decide
    obtain ⟨es, hes, hnone⟩ : ∃ es, handleFrame srv conn (if c.isPing then 0x9 else 0xA) c.payload =
        (conn.emits es, true) ∧ delivered es = [] := by
      cases c.isPing with
      | false => exact ⟨[], by rw [emits_nil]; rfl, rfl⟩
      | true =>
        show ∃ es, (conn.write srv _, true) = (conn.emits es, true) ∧ _
        unfold Conn.write
        split
        · exact ⟨[], by rw [emits_nil], rfl⟩
        · next frame _ =>
          split
          · exact ⟨[.write frame], rfl, rfl⟩
          · exact ⟨[], by rw [emits_nil], rfl⟩
    have hc := takes_masked halloc true hop (fun _ => ⟨rfl, c.short⟩)
      (hmax _ (mem_cons_self ..)) hes
    obtain ⟨fs, hframes, hmore⟩ := ih (conn.emits es)
      fun b hb => hmax b (mem_cons_of_mem _ hb)
    rw [emits_append] at hframes
    exact ⟨es ++ fs, .cons hc hframes, by rw [delivered_append, hnone, hmore]; rfl⟩

theorem frames_fragment (conn : Conn) (f : Fragment) {opcode : UInt8} {fin : Bool}
    (hop : opcode.toNat < 8) {last : List Event}
    (hmax : ∀ b ∈ f.frames opcode fin, b.length ≤ 2 ^ 31 - 1)
    (h : ∀ conn, handleFrame srv conn opcode f.payload = (conn.emits last, true)) :
    ∃ es, Frames (framePass srv) conn (f.frames opcode fin) (conn.emits es) ∧
      delivered es = delivered last := by
  obtain ⟨es, hframes, hnone⟩ := frames_controls halloc conn f.controls fun b hb =>
    hmax b (mem_append_left _ hb)
  have hlast := takes_masked halloc fin (by omega) (fun h8 => absurd h8 (by omega))
    (hmax _ (mem_append_right _ (mem_singleton_self _))) (h (conn.emits es))
  rw [emits_append] at hlast
  exact ⟨es ++ last, hframes.append (.cons hlast (.nil _)), by
    rw [delivered_append, hnone]
    rfl⟩

theorem frames_more (conn : Conn) (g : Fragment) (rest : List Fragment)
    (hmax : ∀ b ∈ fragmentFrames 0x0 g rest, b.length ≤ 2 ^ 31 - 1) :
    ∃ es, Frames (framePass srv) conn (fragmentFrames 0x0 g rest) (conn.emits es) ∧
      delivered es = [] := by
  have hignored (f : Fragment) (conn : Conn) :
      handleFrame srv conn 0x0 f.payload = (conn.emits [], true) := by
    rw [emits_nil]
    rfl
  induction rest generalizing conn g with
  | nil => exact frames_fragment halloc conn g (by decide) hmax (hignored g)
  | cons k rest ih =>
    obtain ⟨es, hframes, hnone⟩ := frames_fragment halloc conn g (by decide)
      (fun b hb => hmax b (mem_append_left _ hb)) (hignored g)
    obtain ⟨fs, hmore, hrest⟩ := ih (conn.emits es) k
      fun b hb => hmax b (mem_append_right _ hb)
    rw [emits_append] at hmore
    exact ⟨es ++ fs, hframes.append hmore, by rw [delivered_append, hnone, hrest]; rfl⟩

theorem frames_message (conn : Conn) (m : Message)
    (hutf8 : m.isText = true → validateUtf8 m.first.payload = true)
    (hmax : ∀ b ∈ m.frames, b.length ≤ 2 ^ 31 - 1) :
    ∃ es, Frames (framePass srv) conn m.frames (conn.emits es) ∧
      delivered es = [(m.first.payload, m.isText)] := by
  obtain ⟨isText, first, more⟩ := m
  have hop : (if isText then (0x1 : UInt8) else 0x2).toNat < 8 := by
    cases isText <;> decide
  have hfirst (conn : Conn) : handleFrame srv conn (if isText then 0x1 else 0x2) first.payload =
      (conn.emits [.message first.payload isText], true) := by
    cases isText with
    | false => rfl
    | true =>
      show (if ¬ validateUtf8 first.payload = true then _ else _) = _
      rw [if_neg (by simpa using hutf8 rfl)]
  cases more with
  | nil => exact frames_fragment halloc conn first hop hmax hfirst
  | cons g rest =>
    obtain ⟨es, hframes, hmessage⟩ := frames_fragment halloc conn first hop
      (fun b hb => hmax b (mem_append_left _ hb)) hfirst
    obtain ⟨fs, hmore, hnone⟩ := frames_more halloc (conn.emits es) g rest
      fun b hb => hmax b (mem_append_right _ hb)
    rw [emits_append] at hmore
    exact ⟨es ++ fs, hframes.append hmore, by rw [delivered_append, hmessage, hnone]; rfl⟩

theorem frames_messages (conn : Conn) (messages : List Message)
    (hutf8 : ∀ m ∈ messages, m.isText = true → validateUtf8 m.first.payload = true)
    (hmax : ∀ b ∈ messages.flatMap Message.frames, b.length ≤ 2 ^ 31 - 1) :
    ∃ es, Frames (framePass srv) conn (messages.flatMap Message.frames) (conn.emits es) ∧
      delivered es = messages.map fun m => (m.first.payload, m.isText) := by
  induction messages generalizing conn with
  | nil => exact ⟨[], by rw [emits_nil]; exact .nil conn, rfl⟩
  | cons m messages ih =>
    rw [flatMap_cons] at hmax
    obtain ⟨es, hframes, hmessage⟩ := frames_message halloc conn m
      (hutf8 m (mem_cons_self ..)) fun b hb => hmax b (mem_append_left _ hb)
    obtain ⟨fs, hmore, hrest⟩ := ih (conn.emits es)
      (fun k hk => hutf8 k (mem_cons_of_mem _ hk))
      fun b hb => hmax b (mem_append_right _ hb)
    rw [emits_append] at hmore
    exact ⟨es ++ fs, hframes.append hmore, by rw [delivered_append, hmessage, hrest]; rfl⟩

end

structure InFrames (conn : Conn) : Prop where
  alive : conn.destroyed = false
  upgraded : conn.handshakeComplete = true
  buffer : conn.buffer = []

theorem InFrames.emits {conn : Conn} (h : InFrames conn) (es : List Event) :
    InFrames (conn.emits es) := ⟨h.alive, h.upgraded, h.buffer⟩

theorem InFrames.handleFrame {conn t : Conn} (h : InFrames conn) {opcode : UInt8}
    {payload : Bytes} (hgo : handleFrame srv conn opcode payload = (t, true)) : InFrames t := by
  have hwrite (frame : Option Bytes) : InFrames (conn.write srv frame) := by
    unfold Conn.write
    split
    · exact h
    · split
      · exact h.emits _
      · exact h
  simp only [Server.handleFrame] at hgo
  split_ifs at hgo <;> simp only [Prod.mk.injEq, Bool.false_eq_true, and_false, and_true] at hgo <;>
    rw [← hgo]
  · exact h.emits _
  · exact h.emits _
  · exact hwrite _
  · exact h

theorem framePass_inFrames (conn : Conn) (cur : Bytes) (h : InFrames conn) :
    (framePass srv conn cur).Holds InFrames := by
  unfold framePass
  dsimp only
  split
  · trivial
  split
  · exact h
  split
  · trivial
  split
  · next hgo => exact h.handleFrame hgo
  · trivial

theorem framePass_nil (conn : Conn) : framePass srv conn [] = .wait conn [] := rfl

theorem onReads_of_deliver (hgrow : ∀ n, srv.mem.grow n = true) {left : Bytes} {t : Conn}
    {reads : List Bytes} (hconn : InFrames conn) (hreads : ∀ data ∈ reads, data ≠ [])
    (h : deliver (settle (framePass srv) fun _ => 0) conn left reads = .wait t []) :
    (onReads srv { conn with buffer := left } reads).events = t.events := by
  induction reads generalizing conn left with
  | nil =>
    rw [deliver] at h
    obtain ⟨rfl, rfl⟩ : conn = t ∧ left = [] := by simpa using h
    rfl
  | cons data reads ih =>
    have hempty : { conn with buffer := [] } = conn := by rw [← hconn.buffer]
    rw [deliver] at h
    cases hcall : settle (framePass srv) (fun _ => 0) conn (left ++ data) with
    | wait u rest =>
      rw [hcall] at h
      have hread : onRead srv { conn with buffer := left } (some data) =
          { u with buffer := rest } := by
        rw [onRead, if_neg (by simp [hconn.alive])]
        dsimp only
        rw [if_neg (hreads data (mem_cons_self ..)), if_neg (by simp [hconn.upgraded]),
          if_neg (by simp [hgrow]), hempty, hcall]
      have hkept := passes_holds (@framePass_inFrames srv)
        ((left ++ data).length + 0 + 1) hconn (left ++ data)
      rw [settle] at hcall
      rw [hcall] at hkept
      rw [onReads, foldl_cons, hread]
      exact ih hkept (fun d hd => hreads d (mem_cons_of_mem _ hd)) h
    | go u rest =>
      rw [hcall] at h
      cases h
    | fail u =>
      rw [hcall] at h
      cases h

theorem onReads_filter (conn : Conn) (reads : List Bytes) :
    onReads srv conn (reads.filter fun data => data ≠ []) = onReads srv conn reads := by
  induction reads generalizing conn with
  | nil => rfl
  | cons data reads ih =>
    by_cases hdata : data = []
    · subst hdata
      have hread : onRead srv conn (some []) = conn := by simp [onRead]
      rw [filter_cons_of_neg (by simp), ih, onReads, onReads, foldl_cons, hread]
    · rw [filter_cons_of_pos (by simpa using hdata), onReads, onReads, foldl_cons,
        foldl_cons]
      exact ih _

theorem onReads_frames (halloc : ∀ n, srv.mem.alloc n = true)
    (hgrow : ∀ n, srv.mem.grow n = true) (conn : Conn) (hconn : InFrames conn) (messages : List Message)
    (controls : List Control)
    (hutf8 : ∀ m ∈ messages, m.isText = true → validateUtf8 m.first.payload = true)
    (hmax : ∀ b ∈ clientFrames messages controls, b.length ≤ 2 ^ 31 - 1) (reads : List Bytes)
    (hstream : reads.flatten = (clientFrames messages controls).flatten) :
    delivered (onReads srv conn reads).events =
      delivered conn.events ++ messages.map fun m => (m.first.payload, m.isText) := by
  obtain ⟨es, hframes, hmessages⟩ := frames_messages halloc conn messages hutf8
    fun b hb => hmax b (mem_append_left _ hb)
  obtain ⟨fs, hcontrols, hnone⟩ := frames_controls halloc (conn.emits es) controls
    fun b hb => hmax b (mem_append_right _ hb)
  have hall := hframes.append hcontrols
  have hbytes : (reads.filter fun data => data ≠ []).flatten =
      (clientFrames messages controls).flatten := by
    rw [flatten_filter_ne_nil, hstream]
  have hdeliver := deliver_frames framePass_nil hall _ hbytes hall.partial_nil
  have hevents := onReads_of_deliver hgrow hconn
    (fun data hdata => of_decide_eq_true (mem_filter.mp hdata).2) hdeliver
  have hempty : { conn with buffer := [] } = conn := by rw [← hconn.buffer]
  rw [hempty, onReads_filter] at hevents
  rw [hevents, emits_append]
  simp only [Conn.emits, delivered_append, hmessages, hnone, append_nil]

/-- If a read ends where the request ends, and every message is whole in its first frame, then the
messages are delivered once, in order. -/
theorem messages_delivered (halloc : ∀ n, srv.mem.alloc n = true)
    (hgrow : ∀ n, srv.mem.grow n = true) (hsend : srv.send = true) (r : Request)
    (hr : r.Upgrades srv.path) (messages : List Message) (controls : List Control)
    (hutf8 : ∀ m ∈ messages, m.isText = true → validateUtf8 m.payload = true)
    (hmax : ∀ b ∈ clientFrames messages controls, b.length ≤ 2 ^ 31 - 1)
    (request frames : List Bytes) (hrequest : request.flatten = r.bytes)
    (hframes : frames.flatten = (clientFrames messages controls).flatten)
    (hlimit : ∀ front back, request = front ++ back → back.flatten ≠ [] →
      front.flatten.length ≤ 8192) (hwhole : ∀ m ∈ messages, m.more.flatMap Fragment.payload = []) :
    delivered (onReads srv {} (request ++ frames)).events =
      messages.map fun m => (m.payload, m.isText) := by
  have hne : request.flatten ≠ [] := by
    rw [hrequest, Request.bytes, text]
    simp [crlf]
  have hpayload : ∀ m ∈ messages, m.first.payload = m.payload := fun m hm => by
    rw [Message.payload, hwhole m hm, append_nil]
  obtain ⟨out, hout⟩ := onReads_handshake halloc hgrow hsend hr {} request hrequest hne rfl
    rfl hlimit
  have hdelivered := onReads_frames halloc hgrow (Conn.upgraded {} out) ⟨rfl, rfl, rfl⟩ messages controls
    (fun m hm htext => by
      rw [hpayload m hm]
      exact hutf8 m hm htext) hmax frames hframes
  have hsplit : onReads srv {} (request ++ frames) =
      onReads srv (onReads srv {} request) frames := foldl_append ..
  rw [hsplit, hout, hdelivered]
  show messages.map _ = _
  exact map_congr_left fun m hm => by rw [hpayload m hm]

def sampleRequest : Request where
  target := lit "/chat"
  headers := [
    ⟨lit "Host", lit " ", lit "x", forall_mem_of_all (by decide), forall_mem_of_all (by decide),
      forall_mem_of_all (by decide), by decide⟩,
    ⟨lit "Sec-WebSocket-Key", lit " ", lit "dGhlIHNhbXBsZSBub25jZQ==",
      forall_mem_of_all (by decide), forall_mem_of_all (by decide),
      forall_mem_of_all (by decide), by decide⟩,
    ⟨lit "sec-websocket-version", [], lit "13", forall_mem_of_all (by decide),
      forall_mem_of_all (by decide), forall_mem_of_all (by decide), by decide⟩]
  target_ok := forall_mem_of_all (by decide)

def sampleSetup : Setup := ⟨⟨fun _ => true, fun _ => true⟩, true, lit "/chat"⟩

theorem sampleRequest_upgrades : sampleRequest.Upgrades sampleSetup.path where
  path := by decide
  key := ⟨lit "dGhlIHNhbXBsZSBub25jZQ==", by decide, by decide⟩
  version := by decide

def wholeMessage : Message := ⟨true, ⟨[], lit "hi", fun _ => 7⟩, []⟩
def cutMessage : Message := ⟨true, ⟨[], lit "h", fun _ => 7⟩, [⟨[], lit "i", fun _ => 9⟩]⟩

theorem hi_behind_request_delivered :
    delivered (onReads sampleSetup {} ([sampleRequest.bytes.take 9, sampleRequest.bytes.drop 9] ++
      [[0x81, 0x82, 7, 7], [7, 7, 0x6F, 0x6E]])).events = [(lit "hi", true)] :=
  messages_delivered (fun _ => rfl) (fun _ => rfl) rfl sampleRequest sampleRequest_upgrades
    [wholeMessage] [] (by decide) (by decide) _ _ (by decide) (by decide)
    (fun front back h _ => by
      have hlen := congrArg (fun l => l.flatten.length) h
      simp only [flatten_append, length_append] at hlen
      have hsize : ([sampleRequest.bytes.take 9, sampleRequest.bytes.drop 9].flatten).length ≤
        8192 := by decide
      omega) (by decide)

/-- The frames in the read that ends the request are lost, and the fragments behind the first one
are. -/
theorem messages_lost : sampleRequest.Upgrades sampleSetup.path ∧ delivered (onReads sampleSetup {}
      [sampleRequest.bytes ++ (clientFrames [wholeMessage] []).flatten]).events ≠
        [(wholeMessage.payload, wholeMessage.isText)] ∧ delivered (onReads sampleSetup {}
      [sampleRequest.bytes, (clientFrames [cutMessage] []).flatten]).events ≠
        [(cutMessage.payload, cutMessage.isText)] := by
  refine ⟨sampleRequest_upgrades, ?_, ?_⟩ <;> decide +kernel

end Voxlib.WebSocket.Server
