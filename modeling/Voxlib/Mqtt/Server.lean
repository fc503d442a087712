import Voxlib.Mqtt.Reception
import Voxlib.Mqtt.RoundTrip

/-!
# The MQTT server (vox_mqtt_server.c)

The parser callbacks of a connection as functions of the whole server. A
connection is a number that is never used again. What `conn_send` hands to the
transport is kept in `sent`, one entry for each packet.
-/

namespace Voxlib.Mqtt
open CStr Wire Stream

def slash : UInt8 := 47
def plus : UInt8 := 43
def hash : UInt8 := 35

def afterLevel (d : Bytes) : Bytes := (d.dropWhile (· ≠ slash)).drop 1

/-- The loop behind wildcard_path (vox_mqtt_server.c:133-147). Each round takes a byte of the
filter, so its length is enough fuel. -/
def wildcardPath : (fuel : ℕ) → Bytes → Bytes → Bool
  | _, [], topic => topic = []
  | 0, _ :: _, _ => false
  | fuel + 1, f :: filter, topic =>
    if f = hash then true
    else if f = plus then wildcardPath fuel (afterLevel filter) (afterLevel topic)
    else
      match topic with
      | [] => false
      | t :: topic => if f ≠ t then false else wildcardPath fuel filter topic

/-- The loop for filters without wildcards (vox_mqtt_server.c:121-131). -/
def plainPath : Bytes → Bytes → Bool
  | f :: filter, t :: topic =>
    if f = hash ∨ f = plus then wildcardPath (filter.length + 1) (f :: filter) (t :: topic)
    else if f ≠ t then false
    else plainPath filter topic
  | [], [] => true
  | f :: _, [] => f = hash
  | [], _ :: _ => false

/-- topic_match (vox_mqtt_server.c:121-153). -/
def topicMatch (filter topic : Bytes) : Bool :=
  if filter = [hash] then true else plainPath filter topic

abbrev ConnId := ℕ

/-- vox_mqtt_sub_t; on_subscribe grants QoS 1 at most. -/
structure Sub where
  filter : Bytes
  qos : ℕ
  granted : qos ≤ 1
  deriving DecidableEq

/-- vox_mqtt_srv_pending_qos2_in_t. -/
structure PendingIn where
  packetId : ℕ
  topic : Bytes
  payload : Bytes
  qos : ℕ
  retain : Bool
  deriving DecidableEq

inductive OutState where
  | waitPubrec | waitPubcomp
  deriving DecidableEq

/-- vox_mqtt_srv_pending_qos2_out_t. -/
structure PendingOut where
  packetId : ℕ
  state : OutState
  deriving DecidableEq

/-- vox_mqtt_retained_msg_t. -/
structure Retained where
  topic : Bytes
  payload : Bytes
  qos : ℕ
  deriving DecidableEq

/- vox_mqtt_connection_t; a NULL string is the empty one, a NULL will topic is none. -/
structure Conn where
  clientId : Bytes := []
  protocolVersion : ℕ := 0
  sessionExpiryInterval : ℕ := 0
  receiveMaximum : ℕ := 0
  nextPacketId : UInt16 := 0
  subscriptions : List Sub := []
  pendingQos2In : List PendingIn := []
  pendingQos2Out : List PendingOut := []
  hasWill : Bool := false
  cleanDisconnect : Bool := false
  willTopic : Option Bytes := none
  willPayload : Bytes := []
  willQos : ℕ := 0
  willRetain : Bool := false
  sent : List Bytes := []

def Conn.version (x : Conn) : Version := if x.protocolVersion = 5 then .v5 else .v311

inductive Report where
  | connect (c : ConnId) (clientId : Bytes)
  | publish (c : ConnId) (topic payload : Bytes) (qos : ℕ)
  | disconnect (c : ConnId)
  deriving DecidableEq

structure Server where
  acceptedVersions : ℕ := 0
  connections : List ConnId := []
  conns : ConnId → Conn := fun _ => {}
  retained : List Retained := []
  reported : List Report := []

/- What is outside of the server: the sizes for which vox_mpool_alloc succeeds, and the buffers
   that vox_tcp_write takes. -/
structure Env where
  alloc : ℕ → Bool
  write : Bytes → Bool

def subSize : ℕ := 40
def pendingWriteSize : ℕ := 24
def pendingInSize : ℕ := 64
def pendingOutSize : ℕ := 24
def retainedSize : ℕ := 56

def Server.modify (s : Server) (c : ConnId) (f : Conn → Conn) : Server :=
  { s with conns := Function.update s.conns c (f (s.conns c)) }

def Server.report (s : Server) (r : Report) : Server := { s with reported := s.reported ++ [r] }

section
variable (env : Env)

/-- conn_send (vox_mqtt_server.c:275-305) over TCP. -/
def connSend (s : Server) (c : ConnId) (buf : Bytes) : Server :=
  if env.alloc pendingWriteSize ∧ env.write buf then
    s.modify c fun x => { x with sent := x.sent ++ [buf] }
  else s

def encoded (enc : Bytes → ℕ × Bytes) : Bytes := (enc (List.replicate (enc []).1 0)).2

def sendEncoded (s : Server) (c : ConnId) (enc : Bytes → ℕ × Bytes) : Option Server :=
  if env.alloc (enc []).1 then some (connSend env s c (encoded enc)) else none

/- `if (++conn->next_packet_id == 0) conn->next_packet_id = 1;` -/
def nextId (n : UInt16) : UInt16 := if n + 1 = 0 then 1 else n + 1

/- A PUBLISH to a subscriber, as on_subscribe and forward_message_to_subscribers send it. -/
def publishTo (s : Server) (c : ConnId) (qos : ℕ) (retain : Bool) (topic payload : Bytes) :
    Option Server :=
  let x := s.conns c
  let enc (pid : UInt16) (buf : Bytes) :=
    encodePublishIn x.version buf (UInt8.ofNat qos) retain pid topic payload
  if (enc 0 []).1 = 0 then none
  else if ¬ env.alloc (enc 0 []).1 then none
  else if qos > 0 then
    let s := s.modify c fun x => { x with nextPacketId := nextId x.nextPacketId }
    some (connSend env s c (encoded (enc (nextId x.nextPacketId))))
  else some (connSend env s c (encoded (enc 0)))

/-- The body of the loop over the connections (vox_mqtt_server.c:534-571): the first subscription
that matches counts. -/
def forwardTo (topic payload : Bytes) (qos : ℕ) (retain : Bool) (s : Server) (c : ConnId) :
    Server :=
  match (s.conns c).subscriptions.find? fun sub => topicMatch sub.filter topic with
  | none => s
  | some sub =>
    let grantQos := if sub.qos < qos then sub.qos else qos
    match publishTo env s c grantQos retain topic payload with
    | none => s
    | some t =>
      if grantQos = 2 ∧ env.alloc pendingOutSize then
        t.modify c fun x =>
          { x with pendingQos2Out := x.pendingQos2Out ++ [⟨x.nextPacketId.toNat, .waitPubrec⟩] }
      else t

def updateRetained (rs : List Retained) (topic : Bytes) (f : Retained → Retained) : List Retained :=
  match rs with
  | [] => []
  | r :: rs => if r.topic = topic then f r :: rs else r :: updateRetained rs topic f

/-- The retained messages (vox_mqtt_server.c:574-627). -/
def retainMessage (s : Server) (topic payload : Bytes) (qos : ℕ) : Server :=
  let present := s.retained.any fun r => r.topic = topic
  if payload.length = 0 then
    { s with retained := s.retained.eraseP fun r => r.topic = topic }
  else if present then
    { s with retained := updateRetained s.retained topic fun r =>
        if env.alloc payload.length then { r with payload := payload, qos := qos }
        else { r with payload := [] } }
  else if env.alloc retainedSize then
    { s with retained := s.retained ++
        [{ topic := if env.alloc (topic.length + 1) then topic else []
           payload := if env.alloc payload.length then payload else []
           qos := qos }] }
  else s

/-- forward_message_to_subscribers (vox_mqtt_server.c:521-628). -/
def forwardMessageToSubscribers (s : Server) (c : ConnId) (topic payload : Bytes) (qos : ℕ)
    (retain : Bool) : Server :=
  let s := s.report (.publish c topic payload qos)
  let s := s.connections.foldl (forwardTo env topic payload qos retain) s
  if retain then retainMessage env s topic payload qos else s

/-- conn_close (vox_mqtt_server.c:160-241): the will goes out unless a DISCONNECT came first. -/
def connClose (s : Server) (c : ConnId) : Server :=
  let s := { s with connections := s.connections.erase c }.report (.disconnect c)
  let x := s.conns c
  let s :=
    match x.willTopic with
    | some topic =>
      if x.hasWill ∧ ¬ x.cleanDisconnect then
        forwardMessageToSubscribers env s c topic x.willPayload x.willQos x.willRetain
      else s
    | none => s
  s.modify c fun x => { x with subscriptions := [], pendingQos2In := [], pendingQos2Out := [] }

def refusedProtocol : UInt8 := 1
def reasonRefusedProtocol : UInt8 := 132

def Conn.identify (x : Conn) (a : Connect) : Conn :=
  let x := { x with protocolVersion := a.protocolVersion }
  let x :=
    if a.clientId.length > 0 then
      { x with clientId := if env.alloc (a.clientId.length + 1) then a.clientId else [] }
    else x
  if a.flags &&& flagWill ≠ 0 ∧ a.willTopic.length > 0 then
    { x with
      hasWill := true, willQos := a.flags.toNat / 8 % 4
      willRetain := a.flags &&& flagWillRetain ≠ 0
      willTopic := if env.alloc (a.willTopic.length + 1) then some a.willTopic else none
      willPayload :=
        if a.willMsg.length > 0 then (if env.alloc a.willMsg.length then a.willMsg else [])
        else x.willPayload }
  else x

def Conn.encodeConnackTo (x : Conn) (buf : Bytes) : ℕ × Bytes :=
  if x.protocolVersion = 5 then
    encodeConnackV5 buf 0 0 (UInt32.ofNat x.sessionExpiryInterval)
      (if x.receiveMaximum ≠ 0 then UInt16.ofNat x.receiveMaximum else 65535)
  else encodeConnack buf 0 0

def encodeRefusal (version : ℕ) (buf : Bytes) : ℕ × Bytes :=
  if version = 5 then encodeConnackV5 buf 0 reasonRefusedProtocol 0 0
  else encodeConnack buf 0 refusedProtocol

/-- on_connect (vox_mqtt_server.c:307-417). -/
def onConnect (s : Server) (c : ConnId) (a : Connect) : ℤ × Server :=
  let s := s.modify c fun x =>
    { x with
      sessionExpiryInterval := a.sessionExpiryInterval, receiveMaximum := a.receiveMaximum }
  if s.acceptedVersions ≠ 0 ∧ ¬ s.acceptedVersions.testBit (a.protocolVersion % 16) then
    (-1, (sendEncoded env s c (encodeRefusal a.protocolVersion)).getD s)
  else
    let s := s.modify c fun x => x.identify env a
    match sendEncoded env s c (s.conns c).encodeConnackTo with
    | none => (-1, s)
    | some s => (0, s.report (.connect c (s.conns c).clientId))

def sendRetained (c : ConnId) (filter : Bytes) (qos : ℕ) (s : Server) (r : Retained) : Server :=
  if topicMatch filter r.topic then
    (publishTo env s c (if qos < r.qos then qos else r.qos) true r.topic r.payload).getD s
  else s

def grantQos (qos : ℕ) : ℕ := if qos > 1 then 1 else qos

theorem grantQos_le (qos : ℕ) : grantQos qos ≤ 1 := by
  unfold grantQos
  split
  · exact le_refl 1
  · omega

/-- on_subscribe (vox_mqtt_server.c:419-468). -/
def onSubscribe (s : Server) (c : ConnId) (filter : Bytes) (qos : ℕ) : ℤ × Server :=
  if ¬ env.alloc subSize then (-1, s)
  else if ¬ env.alloc (filter.length + 1) then (-1, s)
  else
    let sub : Sub := ⟨filter, grantQos qos, grantQos_le qos⟩
    let s := s.modify c fun x => { x with subscriptions := x.subscriptions ++ [sub] }
    (sub.qos, s.retained.foldl (sendRetained env c filter sub.qos) s)

/-- on_subscribe_done (vox_mqtt_server.c:470-486). -/
def onSubscribeDone (s : Server) (c : ConnId) (packetId : ℕ) (codes : Bytes) : ℤ × Server :=
  let enc (buf : Bytes) := encodeSubackIn (s.conns c).version buf (UInt16.ofNat packetId) codes
  if (enc []).1 = 0 then (0, s)
  else
    match sendEncoded env s c enc with
    | none => (-1, s)
    | some s => (0, s)

/-- on_unsubscribe (vox_mqtt_server.c:497-518); version 5 gets one reason code, success. -/
def onUnsubscribe (s : Server) (c : ConnId) (packetId : ℕ) (filter : Bytes) : ℤ × Server :=
  let s := s.modify c fun x =>
    { x with subscriptions := x.subscriptions.eraseP fun sub => sub.filter = filter }
  match sendEncoded env s c
      (encodeUnsubackIn (s.conns c).version · (UInt16.ofNat packetId) [0]) with
  | none => (-1, s)
  | some s => (0, s)

def Conn.hold (x : Conn) (p : PendingIn) : Conn :=
  { x with pendingQos2In := x.pendingQos2In ++ [p] }

def Conn.release (x : Conn) (packetId : ℕ) : Conn :=
  { x with pendingQos2In := x.pendingQos2In.eraseP fun p => p.packetId = packetId }

/-- on_publish_from_client (vox_mqtt_server.c:630-681). -/
def onPublishFromClient (s : Server) (c : ConnId) (m : Publish) : ℤ × Server :=
  if m.qos = 2 then
    if ¬ env.alloc pendingInSize then (-1, s)
    else if ¬ env.alloc (m.topic.length + 1) then (-1, s)
    else if m.payload.length > 0 ∧ ¬ env.alloc m.payload.length then (-1, s)
    else
      let t := s.modify c (·.hold ⟨m.packetId, m.topic, m.payload, 2, m.retain⟩)
      match sendEncoded env t c (encodePubrec · (UInt16.ofNat m.packetId)) with
      | none => (-1, s)
      | some t => (0, t)
  else (0, forwardMessageToSubscribers env s c m.topic m.payload m.qos m.retain)

def markReceived (packetId : ℕ) : List PendingOut → List PendingOut
  | [] => []
  | p :: ps =>
    if p.packetId = packetId then { p with state := .waitPubcomp } :: ps
    else p :: markReceived packetId ps

/-- on_pubrec_from_client (vox_mqtt_server.c:683-702). -/
def onPubrecFromClient (s : Server) (c : ConnId) (packetId : ℕ) : ℤ × Server :=
  if (s.conns c).pendingQos2Out.any fun p => p.packetId = packetId then
    let s := s.modify c fun x =>
      { x with pendingQos2Out := markReceived packetId x.pendingQos2Out }
    (0, (sendEncoded env s c (encodePubrel · (UInt16.ofNat packetId))).getD s)
  else (0, s)

/-- on_pubrel_from_client (vox_mqtt_server.c:704-728). -/
def onPubrelFromClient (s : Server) (c : ConnId) (packetId : ℕ) : ℤ × Server :=
  match (s.conns c).pendingQos2In.find? fun p => p.packetId = packetId with
  | none => (0, s)
  | some p =>
    let s := s.modify c (·.release packetId)
    let s := (sendEncoded env s c (encodePubcomp · (UInt16.ofNat packetId))).getD s
    (0, forwardMessageToSubscribers env s c p.topic p.payload p.qos p.retain)

/-- on_pubcomp_from_client (vox_mqtt_server.c:730-743). -/
def onPubcompFromClient (s : Server) (c : ConnId) (packetId : ℕ) : ℤ × Server :=
  (0, s.modify c fun x =>
    { x with pendingQos2Out := x.pendingQos2Out.eraseP fun p => p.packetId = packetId })

/-- on_pingreq (vox_mqtt_server.c:745-754). -/
def onPingreq (s : Server) (c : ConnId) : ℤ × Server :=
  match sendEncoded env s c encodePingresp with
  | none => (-1, s)
  | some s => (0, s)

/-- on_disconnect_from_client (vox_mqtt_server.c:756-763). -/
def onDisconnectFromClient (s : Server) (c : ConnId) : ℤ × Server :=
  (0, s.modify c fun x => { x with cleanDisconnect := true })

/-- on_error_conn (vox_mqtt_server.c:765-770). -/
def onErrorConn (s : Server) (c : ConnId) : ℤ × Server := (0, connClose env s c)

/-- The callbacks that conn_create_common sets (vox_mqtt_server.c:773-805). -/
def serverCallbacks (c : ConnId) : Callbacks Server where
  installed k :=
    k ∈ [.onConnect, .onSubscribe, .onSubscribeDone, .onUnsubscribe, .onPublish, .onPubrec,
      .onPubrel, .onPubcomp, .onPingreq, .onDisconnect, .onError]
  run s
    | .connect a => onConnect env s c a
    | .subscribe _ filter qos => onSubscribe env s c filter qos
    | .subscribeDone id codes => onSubscribeDone env s c id codes
    | .unsubscribe id filter => onUnsubscribe env s c id filter
    | .publish m => onPublishFromClient env s c m
    | .pubrec id => onPubrecFromClient env s c id
    | .pubrel id => onPubrelFromClient env s c id
    | .pubcomp id => onPubcompFromClient s c id
    | .pingreq => onPingreq env s c
    | .disconnect => onDisconnectFromClient s c
    | .error _ => onErrorConn env s c
    | _ => (0, s)

/- `parsers c` is none when there is no connection `c`, not yet or no longer. -/
structure System where
  server : Server := {}
  parsers : ConnId → Option Parser := fun _ => none
  next : ConnId := 0

/-- conn_create_common, when there is memory for the connection (vox_mqtt_server.c:773-805). -/
def System.accept (y : System) : System where
  server :=
    { y.server with
      connections := y.server.connections ++ [y.next]
      conns := Function.update y.server.conns y.next {} }
  parsers := Function.update y.parsers y.next (some (create env.alloc 0 0))
  next := y.next + 1

def System.close (y : System) (c : ConnId) : System :=
  { y with server := connClose env y.server c, parsers := Function.update y.parsers c none }

/-- tcp_read_cb (vox_mqtt_server.c:927-933). Where the parser reported its error to on_error_conn
before it failed, the connection is closed a second time. -/
def System.read (y : System) (c : ConnId) (data : Bytes) : Option System :=
  (y.parsers c).map fun p =>
    if data = [] then y.close env c
    else
      let r := connFeedParser (serverCallbacks env c) env.alloc { p := p, u := y.server } data
      if r.1 then { y with server := r.2.u }.close env c
      else { y with server := r.2.u, parsers := Function.update y.parsers c (some r.2.p) }

/-- vox_mqtt_connection_publish (vox_mqtt_server.c:1101-1135). -/
def connectionPublish (s : Server) (c : ConnId) (topic payload : Bytes) (qos : ℕ) (retain : Bool) :
    ℤ × Server :=
  if qos > 2 then (-1, s)
  else
    let s :=
      if qos > 0 then s.modify c fun x => { x with nextPacketId := nextId x.nextPacketId } else s
    let x := s.conns c
    let enc (buf : Bytes) :=
      encodePublishIn x.version buf (UInt8.ofNat qos) retain
        (if qos > 0 then x.nextPacketId else 0) topic payload
    if (enc []).1 = 0 then (-1, s)
    else
      match sendEncoded env s c enc with
      | none => (-1, s)
      | some s =>
        if qos = 2 ∧ env.alloc pendingOutSize then
          (0, s.modify c fun x =>
            { x with pendingQos2Out := x.pendingQos2Out ++ [⟨x.nextPacketId.toNat, .waitPubrec⟩] })
        else (0, s)

end

end Voxlib.Mqtt
