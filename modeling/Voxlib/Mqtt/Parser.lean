import Voxlib.Lib.Stream
import Voxlib.Lib.Wire

/-!
# The MQTT parser (vox_mqtt_parser.c)

`alloc` says for which sizes `vox_mpool_alloc` succeeds. `u` is what
`user_data` points to: a callback gets it and leaves a new one. A string that
the source passes as a pointer and a length is a list of bytes, NULL with
length 0 the empty one. The bytes of a packet that are not read yet are a list
in place of the buffer and an offset into it.
-/

namespace Voxlib.Mqtt
open CStr Wire Stream

inductive PacketType where
  | connect | connack | publish | puback | pubrec | pubrel | pubcomp
  | subscribe | suback | unsubscribe | unsuback | pingreq | pingresp | disconnect | auth
  deriving DecidableEq, Repr

/-- VOX_MQTT_PKT_* (vox_mqtt_parser.h:21-35). -/
def PacketType.code : PacketType → ℕ
  | .connect => 1
  | .connack => 2
  | .publish => 3
  | .puback => 4
  | .pubrec => 5
  | .pubrel => 6
  | .pubcomp => 7
  | .subscribe => 8
  | .suback => 9
  | .unsubscribe => 10
  | .unsuback => 11
  | .pingreq => 12
  | .pingresp => 13
  | .disconnect => 14
  | .auth => 15

def PacketType.all : List PacketType :=
  [.connect, .connack, .publish, .puback, .pubrec, .pubrel, .pubcomp, .subscribe, .suback,
    .unsubscribe, .unsuback, .pingreq, .pingresp, .disconnect, .auth]

def PacketType.ofCode (n : ℕ) : Option PacketType := all.find? (fun t => t.code = n)

structure Connect where
  clientId : Bytes
  protocolVersion : ℕ
  keepalive : ℕ
  flags : UInt8
  willTopic : Bytes
  willMsg : Bytes
  username : Bytes
  password : Bytes
  sessionExpiryInterval : ℕ
  receiveMaximum : ℕ
  deriving DecidableEq, Repr

structure Publish where
  qos : ℕ
  retain : Bool
  packetId : ℕ
  topic : Bytes
  payload : Bytes
  deriving DecidableEq, Repr

/-- The members of vox_mqtt_parser_callbacks_t. -/
inductive Callback where
  | onConnect | onConnack | onPublish | onPuback | onPubrec | onPubrel | onPubcomp
  | onSubscribe | onSubscribeDone | onSuback | onUnsubscribe | onUnsuback
  | onPingreq | onPingresp | onDisconnect | onError
  deriving DecidableEq, Repr

inductive Call where
  | connect (c : Connect)
  | connack (sessionPresent returnCode : UInt8)
  | publish (m : Publish)
  | puback (packetId : ℕ)
  | pubrec (packetId : ℕ)
  | pubrel (packetId : ℕ)
  | pubcomp (packetId : ℕ)
  | subscribe (packetId : ℕ) (topicFilter : Bytes) (qos : ℕ)
  | subscribeDone (packetId : ℕ) (returnCodes : Bytes)
  | suback (packetId : ℕ) (returnCodes : Bytes)
  | unsubscribe (packetId : ℕ) (topicFilter : Bytes)
  | unsuback (packetId : ℕ)
  | pingreq
  | pingresp
  | disconnect
  | error (message : String)
  deriving DecidableEq, Repr

def Call.target : Call → Callback
  | .connect _ => .onConnect
  | .connack _ _ => .onConnack
  | .publish _ => .onPublish
  | .puback _ => .onPuback
  | .pubrec _ => .onPubrec
  | .pubrel _ => .onPubrel
  | .pubcomp _ => .onPubcomp
  | .subscribe _ _ _ => .onSubscribe
  | .subscribeDone _ _ => .onSubscribeDone
  | .suback _ _ => .onSuback
  | .unsubscribe _ _ => .onUnsubscribe
  | .unsuback _ => .onUnsuback
  | .pingreq => .onPingreq
  | .pingresp => .onPingresp
  | .disconnect => .onDisconnect
  | .error _ => .onError

structure Callbacks (σ : Type*) where
  installed : Callback → Bool
  run : σ → Call → ℤ × σ

/- A callback that is not set counts as one that returned 0. -/
def invoke {σ : Type*} (cb : Callbacks σ) (u : σ) (c : Call) : ℤ × σ :=
  if cb.installed c.target then cb.run u c else (0, u)

/- VOX_MQTT_STATE_DONE is never entered. -/
inductive Phase where
  | fixedHeader | remainingLen | varheaderPayload | error
  deriving DecidableEq, Repr

/- `buf` is the part of the buffer that is filled. `type` and `flags` are read only
   behind the fixed header that sets them. -/
structure Parser where
  maxPayload : ℕ
  bufCap : ℕ
  state : Phase := .fixedHeader
  type : PacketType := .connect
  flags : ℕ := 0
  remainingLen : ℕ := 0
  need : ℕ := 0
  buf : Bytes := []
  hasError : Bool := false
  errorMessage : Option String := none
  protocolVersion : ℕ := 0
  connackSessionExpiryInterval : ℕ := 0
  connackReceiveMaximum : ℕ := 0
  deriving DecidableEq, Repr

def defaultMaxPayload : ℕ := 256 * 1024

def initialBufSize : ℕ := 512

/-- vox_mqtt_parser_create (vox_mqtt_parser.c:225-242); 0 stands for the default. -/
def create (alloc : ℕ → Bool) (maxPayload protocolVersion : ℕ) : Parser :=
  { maxPayload := if maxPayload = 0 then defaultMaxPayload else maxPayload
    bufCap := if alloc initialBufSize then initialBufSize else 0
    protocolVersion := protocolVersion }

structure Reply (σ : Type*) where
  ok : Bool
  p : Parser
  u : σ

section
variable {σ : Type*} (cb : Callbacks σ) (alloc : ℕ → Bool)

/-- set_error (vox_mqtt_parser.c:73-96); every message is shorter than error_buf. -/
def setError (p : Parser) (u : σ) (msg : String) : Parser × σ :=
  ({ p with hasError := true, state := .error, errorMessage := some msg },
    (invoke cb u (.error msg)).2)

def failed (p : Parser) (u : σ) : Reply σ := ⟨false, p, u⟩

def failedWith (p : Parser) (u : σ) (msg : String) : Reply σ :=
  let e := setError cb p u msg
  ⟨false, e.1, e.2⟩

def callWith (p : Parser) (u : σ) (c : Call) : Reply σ :=
  let r := invoke cb u c
  ⟨r.1 = 0, p, r.2⟩

/-- decode_varint (vox_mqtt_parser.c:172-187). -/
def decodeVarint (d : Bytes) : Read := readVarint 4 0 1 0 d

/-- The loop of decode_remaining_length (vox_mqtt_parser.c:190-207). -/
def remainingLengthLoop : (left v mult i : ℕ) → Bytes → Read
  | 0, _, _, _, _ => .bad
  | _ + 1, _, _, _, [] => .more
  | left + 1, v, mult, i, b :: rest =>
    if b.toNat > 127 then
      remainingLengthLoop left (v + b.toNat % 128 * mult) (mult * 128) (i + 1) rest
    else .ok (v + b.toNat * mult) (i + 1)

def decodeRemainingLength (d : Bytes) : Read := remainingLengthLoop 4 0 1 0 d

def skipFixed (n : ℕ) (d : Bytes) : Option ℕ := if n ≤ d.length then some n else none

def skipString (d : Bytes) : Option ℕ := (takeString d).map fun s => 2 + s.1.length

/-- property_value_skip (vox_mqtt_parser.c:108-169). -/
def propertyValueSkip (id : UInt8) (d : Bytes) : Option ℕ :=
  if id = 0x11 then skipFixed 4 d
  else if id = 0x21 ∨ id = 0x22 ∨ id = 0x23 then skipFixed 2 d
  else if id = 0x27 ∨ id = 0x25 ∨ id = 0x28 ∨ id = 0x29 ∨ id = 0x2A ∨ id = 0x31 then
    skipFixed 1 d
  else if id = 0x2B ∨ id = 0x2E then skipFixed 4 d
  else if id = 0x2D ∨ id = 0x12 ∨ id = 0x1F ∨ id = 0x13 ∨ id = 0x1A ∨ id = 0x1C ∨ id = 0x15 then
    skipString d
  else if id = 0x16 ∨ id = 0x2F then skipString d
  else if id = 0x2C then
    match decodeVarint d with
    | .ok _ size => some size
    | _ => none
  else if id = 0x26 then
    (takeString d).bind fun k => (takeString k.2).map fun v => 4 + k.1.length + v.1.length
  else none

/- The two values the property loops of CONNECT and CONNACK pick out. -/
structure Properties where
  sessionExpiryInterval : ℕ := 0
  receiveMaximum : ℕ := 0
  deriving DecidableEq, Repr

def Properties.note (q : Properties) (id : UInt8) (skip : ℕ) (d : Bytes) : Properties :=
  { sessionExpiryInterval :=
      if id = 0x11 ∧ skip ≥ 4 then ofU32 (d.getD 0 0) (d.getD 1 0) (d.getD 2 0) (d.getD 3 0)
      else q.sessionExpiryInterval
    receiveMaximum :=
      if id = 0x21 ∧ skip ≥ 2 then ofU16 (d.getD 0 0) (d.getD 1 0) else q.receiveMaximum }

/-- The loop over a property block (vox_mqtt_parser.c:331-340, 669-679). -/
def scanProperties : (fuel : ℕ) → Bytes → Properties → Properties
  | 0, _, q => q
  | _ + 1, [], q => q
  | fuel + 1, id :: d, q =>
    match propertyValueSkip id d with
    | none => q
    | some skip => scanProperties fuel (d.drop skip) (q.note id skip d)

def takeProperties (d : Bytes) : Option (Bytes × Bytes) :=
  match decodeVarint d with
  | .ok n size =>
    if d.length < size + n then none else some ((d.drop size).take n, d.drop (size + n))
  | _ => none

def skipPropertiesV5 (version : ℕ) (d : Bytes) : Option Bytes :=
  if version = 5 then (takeProperties d).map Prod.snd else some d

def flagClean : UInt8 := 0x02
def flagWill : UInt8 := 0x04
def flagWillRetain : UInt8 := 0x20
def flagUsername : UInt8 := 0x80
def flagPassword : UInt8 := 0x40

def takeStringIf (c : Bool) (d : Bytes) : Option (Bytes × Bytes) :=
  if c then takeString d else some ([], d)

/- The will: in version 5 behind a property block that is jumped over, not checked to end
   in the packet. -/
def takeWill (version : ℕ) (flags : UInt8) (d : Bytes) : Option ((Bytes × Bytes) × Bytes) :=
  if flags &&& flagWill = 0 then some (([], []), d)
  else
    (if version = 5 then
      match decodeVarint d with
      | .ok n size => some (d.drop (size + n))
      | _ => none
    else some d).bind fun d =>
      (takeString d).bind fun t => (takeString t.2).map fun m => ((t.1, m.1), m.2)

/-- The strings of a CONNECT, read in order (vox_mqtt_parser.c:344-405). -/
def readStrings (version : ℕ) (flags : UInt8) (keepalive : ℕ) (q : Properties) (d : Bytes) :
    Option Connect :=
  (takeString d).bind fun id =>
  (takeWill version flags id.2).bind fun w =>
  (takeStringIf (flags &&& flagUsername ≠ 0) w.2).bind fun user =>
  (takeStringIf (flags &&& flagPassword ≠ 0) user.2).map fun pass =>
    { clientId := id.1, protocolVersion := version, keepalive := keepalive, flags := flags
      willTopic := w.1.1, willMsg := w.1.2, username := user.1, password := pass.1
      sessionExpiryInterval := q.sessionExpiryInterval
      receiveMaximum := q.receiveMaximum }

/-- parse_connect_payload behind the keep-alive (vox_mqtt_parser.c:321-405). -/
def readConnect (version : ℕ) (flags : UInt8) (keepalive : ℕ) (d : Bytes) : Option Connect :=
  if version = 5 then
    (takeProperties d).bind fun b =>
      readStrings version flags keepalive (scanProperties b.1.length b.1 {}) b.2
  else readStrings version flags keepalive {} d

def protocolKnown (name : Bytes) (version : ℕ) : Bool :=
  if name.length = 4 then name = lit "MQTT" ∧ (version = 4 ∨ version = 5)
  else name = lit "MQIsdp" ∧ version = 3

/-- parse_connect_payload (vox_mqtt_parser.c:289-415). -/
def parseConnectPayload (p : Parser) (u : σ) : Reply σ :=
  let d := p.buf
  if d.length < 8 then failed p u
  else
    let protoLen := ofU16 (d.getD 0 0) (d.getD 1 0)
    if protoLen ≠ 4 ∧ protoLen ≠ 6 then failedWith cb p u "invalid CONNECT protocol length"
    else if d.length < 2 + protoLen + 4 then failed p u
    else
      let rest := d.drop (2 + protoLen)
      let version := (rest.getD 0 0).toNat
      if ¬ protocolKnown ((d.drop 2).take protoLen) version then
        failedWith cb p u "invalid CONNECT protocol"
      else
        let p := { p with protocolVersion := version }
        match readConnect version (rest.getD 1 0) (ofU16 (rest.getD 2 0) (rest.getD 3 0))
            (rest.drop 4) with
        | none => failed p u
        | some c => callWith cb p u (.connect c)

/-- The CONNACK case (vox_mqtt_parser.c:671-699). -/
def parseConnack (p : Parser) (u : σ) : Reply σ :=
  if p.buf.length < 2 then ⟨true, p, u⟩
  else
    let q : Properties :=
      match takeProperties (p.buf.drop 2) with
      | some b => scanProperties b.1.length b.1 {}
      | none => {}
    let p :=
      if p.protocolVersion = 5 ∧ p.buf.length > 2 then
        { p with
          connackSessionExpiryInterval := q.sessionExpiryInterval
          connackReceiveMaximum := q.receiveMaximum }
      else p
    callWith cb p u (.connack (p.buf.getD 0 0 &&& 1) (p.buf.getD 1 0))

/-- parse_publish_payload (vox_mqtt_parser.c:418-450). -/
def readPublish (p : Parser) : Option Publish :=
  (takeString p.buf).bind fun t =>
    let qos := p.flags / 2 % 4
    (if qos > 0 then takeU16 t.2 else some (0, t.2)).bind fun id =>
      (skipPropertiesV5 p.protocolVersion id.2).map fun payload =>
        { qos := qos, retain := p.flags / 16 % 2 = 1, packetId := id.1, topic := t.1
          payload := payload }

def parsePublishPayload (p : Parser) (u : σ) : Reply σ :=
  match readPublish p with
  | none => failed p u
  | some m => callWith cb p u (.publish m)

def takePacketId (p : Parser) : Option (ℕ × Bytes) :=
  (takeU16 p.buf).bind fun id => (skipPropertiesV5 p.protocolVersion id.2).map fun d => (id.1, d)

/-- The first loop of parse_subscribe_payload. -/
def countFilters : (fuel : ℕ) → Bytes → ℕ
  | 0, _ => 0
  | fuel + 1, d =>
    match takeU16 d with
    | none => 0
    | some (n, rest) =>
      if rest.length < n + 1 then 0 else countFilters fuel (rest.drop (n + 1)) + 1

def subackFailure : UInt8 := 0x80

def grant (u : σ) (id : ℕ) (topic : Bytes) (qos : ℕ) : UInt8 × σ :=
  if cb.installed .onSubscribe then
    let r := cb.run u (.subscribe id topic qos)
    (if 0 ≤ r.1 ∧ r.1 ≤ 2 then UInt8.ofNat r.1.toNat else subackFailure, r.2)
  else (subackFailure, u)

/-- Its second loop; `left` is count - i. -/
def grantFilters (version id : ℕ) : (left : ℕ) → Bytes → σ → Bytes × σ
  | 0, _, u => ([], u)
  | left + 1, d, u =>
    match takeU16 d with
    | none => ([], u)
    | some (n, rest) =>
      if rest.length < n + 1 then ([], u)
      else
        let options := (rest.getD n 0).toNat
        let g := grant cb u id (rest.take n) (if version = 5 then options % 4 else options)
        let r := grantFilters version id left (rest.drop (n + 1)) g.2
        (g.1 :: r.1, r.2)

/-- parse_subscribe_payload (vox_mqtt_parser.c:453-504). -/
def parseSubscribePayload (p : Parser) (u : σ) : Reply σ :=
  match takePacketId p with
  | none => failed p u
  | some (id, d) =>
    let count := countFilters d.length d
    if count ≠ 0 ∧ ¬ alloc count then failed p u
    else
      let r := grantFilters cb p.protocolVersion id count d u
      callWith cb p r.2 (.subscribeDone id r.1)

/-- parse_suback_payload (vox_mqtt_parser.c:507-525). -/
def parseSubackPayload (p : Parser) (u : σ) : Reply σ :=
  match takePacketId p with
  | none => failed p u
  | some (id, codes) => callWith cb p u (.suback id codes)

/-- The loop of parse_unsubscribe_payload. -/
def dropFilters (id : ℕ) : (fuel : ℕ) → Bytes → σ → Bool × σ
  | 0, _, u => (true, u)
  | fuel + 1, d, u =>
    match takeString d with
    | none => (true, u)
    | some (topic, rest) =>
      let r := invoke cb u (.unsubscribe id topic)
      if r.1 = 0 then dropFilters id fuel rest r.2 else (false, r.2)

/-- parse_unsubscribe_payload (vox_mqtt_parser.c:528-553). -/
def parseUnsubscribePayload (p : Parser) (u : σ) : Reply σ :=
  match takePacketId p with
  | none => failed p u
  | some (id, d) =>
    let r := dropFilters cb id d.length d u
    ⟨r.1, p, r.2⟩

/- parse_packet_id_with_v5_props and parse_unsuback_payload, which do the same
   (vox_mqtt_parser.c:556-579). -/
def packetIdWithV5Props (p : Parser) : Option ℕ :=
  (takeU16 p.buf).bind fun id =>
    if p.buf.length > 2 then (skipPropertiesV5 p.protocolVersion id.2).map fun _ => id.1 else some id.1

def parsePacketId (p : Parser) (u : σ) (c : ℕ → Call) : Reply σ :=
  match packetIdWithV5Props p with
  | none => failed p u
  | some id => callWith cb p u (c id)

/-- UNSUBACK is the one packet that needs its callback (vox_mqtt_parser.c:741-747). -/
def parseUnsuback (p : Parser) (u : σ) : Reply σ :=
  match packetIdWithV5Props p with
  | none => failed p u
  | some id => if cb.installed .onUnsuback then callWith cb p u (.unsuback id) else failed p u

/-- The switch over a complete packet (vox_mqtt_parser.c:651-751). -/
def dispatch (p : Parser) (u : σ) : Reply σ :=
  match p.type with
  | .connect => parseConnectPayload cb p u
  | .connack => parseConnack cb p u
  | .publish => parsePublishPayload cb p u
  | .puback => parsePacketId cb p u .puback
  | .pubrec => parsePacketId cb p u .pubrec
  | .pubrel => parsePacketId cb p u .pubrel
  | .pubcomp => parsePacketId cb p u .pubcomp
  | .subscribe => parseSubscribePayload cb alloc p u
  | .suback => parseSubackPayload cb p u
  | .unsubscribe => parseUnsubscribePayload cb p u
  | .unsuback => parseUnsuback cb p u
  | .pingreq | .pingresp | .disconnect | .auth => failedWith cb p u "unsupported packet type"

def doubled : (fuel cap need : ℕ) → ℕ
  | 0, cap, _ => cap
  | fuel + 1, cap, need => if cap < need then doubled fuel (cap * 2) need else cap

/-- ensure_buf (vox_mqtt_parser.c:210-223); need is below 2^28. -/
def ensureBuf (p : Parser) (need : ℕ) : Option Parser :=
  if p.bufCap ≥ need then some p
  else
    let cap := min (doubled 28 (if p.bufCap > 0 then p.bufCap else initialBufSize) need)
      p.maxPayload
    if cap < need then none
    else if alloc cap then some { p with bufCap := cap }
    else none

/- What a part of the loop body makes of the parser, or the parser an error leaves. -/
abbrev Turn (σ : Type*) := Except (Parser × σ) (Parser × σ)

def Turn.flow (r : Turn σ) (rest : Bytes) : Flow (Parser × σ) UInt8 :=
  match r with
  | .ok t => .go t rest
  | .error t => .fail t

/-- The type and flags byte (vox_mqtt_parser.c:589-602). -/
def readType (s : Parser × σ) (b : UInt8) : Turn σ :=
  match PacketType.ofCode (b.toNat / 16) with
  | none => .error (setError cb { s.1 with flags := b.toNat % 16 } s.2 "invalid packet type")
  | some t =>
    let p := { s.1 with type := t, flags := b.toNat % 16 }
    if t = .auth then .error (setError cb p s.2 "AUTH not supported")
    else .ok ({ p with state := .remainingLen }, s.2)

/- The source counts `consumed` up where it moves `cur`: it is the length of the data less
   what is left of it. -/
def fixedHeader (s : Parser × σ) (cur : Bytes) : Flow (Parser × σ) UInt8 :=
  if s.1.state = .fixedHeader then
    match cur with
    | [] => .wait s []
    | b :: rest => (readType cb s b).flow rest
  else .go s cur

/- A packet without variable header and payload; what its callback returns is not looked at. -/
def emptyPacket (p : Parser) (u : σ) : Option σ :=
  match p.type with
  | .pingreq => some (invoke cb u .pingreq).2
  | .pingresp => some (invoke cb u .pingresp).2
  | .disconnect => some (invoke cb u .disconnect).2
  | _ => none

/-- With the remaining length known (vox_mqtt_parser.c:616-651). -/
def startPacket (s : Parser × σ) (val : ℕ) : Turn σ :=
  let p := { s.1 with remainingLen := val }
  if val > p.maxPayload then .error (setError cb p s.2 "payload exceeds max")
  else
    let p := { p with need := val, buf := [] }
    if val = 0 then
      match emptyPacket cb p s.2 with
      | none => .error (setError cb p s.2 "unexpected empty packet")
      | some u => .ok ({ p with state := .fixedHeader }, u)
    else
      match ensureBuf alloc p val with
      | none => .error (setError cb p s.2 "alloc failed")
      | some p => .ok ({ p with state := .varheaderPayload }, s.2)

/- The `continue` of the source skips a branch that would not be taken. -/
def remainingLen (s : Parser × σ) (cur : Bytes) : Flow (Parser × σ) UInt8 :=
  if s.1.state = .remainingLen then
    match decodeRemainingLength cur with
    | .bad => .fail (setError cb s.1 s.2 "invalid remaining length")
    | .more => .wait s cur
    | .ok val numBytes => (startPacket cb alloc s val).flow (cur.drop numBytes)
  else .go s cur

/-- With the packet complete in buf (vox_mqtt_parser.c:667-755). -/
def finishPacket (p : Parser) (u : σ) : Turn σ :=
  let r := dispatch cb alloc p u
  if r.ok then .ok ({ r.p with state := .fixedHeader }, r.u) else .error (r.p, r.u)

def collect (p : Parser) (d : Bytes) : Parser :=
  { p with buf := p.buf ++ d, need := p.need - d.length }

def varheaderPayload (s : Parser × σ) (cur : Bytes) : Flow (Parser × σ) UInt8 :=
  if s.1.state = .varheaderPayload then
    let take := min cur.length s.1.need
    let p := collect s.1 (cur.take take)
    if p.need ≠ 0 then .wait (p, s.2) (cur.drop take)
    else (finishPacket cb alloc p s.2).flow (cur.drop take)
  else .go s cur

def pass (s : Parser × σ) (cur : Bytes) : Flow (Parser × σ) UInt8 :=
  ((fixedHeader cb s cur).andThen (remainingLen cb alloc)).andThen (varheaderPayload cb alloc)

/- `ret` is none for -1. -/
structure Executed (σ : Type*) where
  ret : Option ℕ
  p : Parser
  u : σ

def Executed.ofFlow {σ : Type*} (len : ℕ) : Flow (Parser × σ) UInt8 → Executed σ
  | .wait s rest => ⟨some (len - rest.length), s.1, s.2⟩
  | .go s rest => ⟨some (len - rest.length), s.1, s.2⟩
  | .fail s => ⟨none, s.1, s.2⟩

/-- vox_mqtt_parser_execute (vox_mqtt_parser.c:581-757). -/
def execute (p : Parser) (u : σ) (data : Bytes) : Executed σ :=
  if p.state = .error then ⟨none, p, u⟩
  else .ofFlow data.length (passes (pass cb alloc) (data.length + 2) (p, u) data)

end

end Voxlib.Mqtt
