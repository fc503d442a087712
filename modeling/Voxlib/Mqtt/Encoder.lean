import Voxlib.Mqtt.Parser

/-!
# The MQTT encoders (vox_mqtt_parser.c)

An encoder is called with a buffer and returns the size it needs, 0 when it
cannot encode, and the buffer as it leaves it. A buffer that is too small is
left alone: the call with no buffer asks for the size.
-/

namespace Voxlib.Mqtt
open CStr Wire

/-- vox_mqtt_encode_remaining_length (vox_mqtt_parser.c:761-773). -/
def encodeRemainingLength (value : ℕ) : Option Bytes := putVarint 4 value

/-- encode_varint (vox_mqtt_parser.c:776-786). -/
def encodeVarintLoop : ℕ → ℕ → Bytes
  | 0, _ => []
  | left + 1, value =>
    if value / 128 = 0 then [UInt8.ofNat (value % 128)]
    else UInt8.ofNat (value % 128 + 128) :: encodeVarintLoop left (value / 128)

def encodeVarint (value : ℕ) : Bytes := encodeVarintLoop 4 value

/- What all encoders do around the bytes they write behind the fixed header. `body` gets the
   size of the buffer and the bytes written so far and returns all that is written. -/
def encodePacket (type : PacketType) (flags : ℕ) (need : ℕ) (body : ℕ → Bytes → Bytes)
    (buf : Bytes) : ℕ × Bytes :=
  match encodeRemainingLength need with
  | none => (0, buf)
  | some rl =>
    let total := 1 + rl.length + need
    if buf.length < total then (total, buf)
    else
      let out := body buf.length (UInt8.ofNat (type.code * 16 ||| flags) :: rl)
      (total, out ++ buf.drop out.length)

def putting (bytes : Bytes) : ℕ → Bytes → Bytes := fun _ out => out ++ bytes

/- A string of length 0 is one that is not given; with no will topic there is no will. -/
structure ConnectArgs where
  clientId : Bytes
  keepalive : UInt16
  cleanSession : Bool
  willTopic : Bytes := []
  willMsg : Bytes := []
  willQos : UInt8 := 0
  willRetain : Bool := false
  username : Bytes := []
  password : Bytes := []
  sessionExpiryInterval : UInt32 := 0
  receiveMaximum : UInt16 := 0

/-- write_utf8 (vox_mqtt_parser.c:788-797). -/
def writeUtf8 (bufSize : ℕ) (s : Bytes) : Bytes :=
  if s.length > 65535 then []
  else if bufSize < 2 + s.length then []
  else putString s

/- `off += write_utf8(buf + off, buf_size - off, s, len)` -/
def appendUtf8 (bufSize : ℕ) (out s : Bytes) : Bytes :=
  out ++ writeUtf8 (bufSize - out.length) s

def flagByte (clean will : Bool) (willQos : UInt8) (willRetain user pass : Bool) : UInt8 :=
  (if clean then flagClean else 0)
    ||| (if will then flagWill ||| (willQos <<< 3) ||| (if willRetain then flagWillRetain else 0)
        else 0)
    ||| (if user then flagUsername else 0)
    ||| (if pass then flagPassword else 0)

def connectFlags (a : ConnectArgs) : UInt8 :=
  flagByte a.cleanSession (a.willTopic.length ≠ 0) a.willQos a.willRetain (a.username.length ≠ 0)
    (a.password.length ≠ 0)

def ConnectArgs.strings (a : ConnectArgs) : List (Bool × Bytes) :=
  [(true, a.clientId), (a.willTopic.length ≠ 0, a.willTopic), (a.willTopic.length ≠ 0, a.willMsg),
    (a.username.length ≠ 0, a.username), (a.password.length ≠ 0, a.password)]

def stringsNeed (strings : List (Bool × Bytes)) : ℕ :=
  (strings.map fun s => if s.1 then 2 + s.2.length else 0).sum

def putStrings (strings : List (Bool × Bytes)) (bufSize : ℕ) (out : Bytes) : Bytes :=
  strings.foldl (fun out s => if s.1 then appendUtf8 bufSize out s.2 else out) out

def propertiesLen (expiry : UInt32) (receiveMax : UInt16) : ℕ :=
  (if expiry ≠ 0 then 1 + 4 else 0) + (if receiveMax ≠ 0 then 1 + 2 else 0)

def putProperties (expiry : UInt32) (receiveMax : UInt16) : Bytes :=
  (if expiry ≠ 0 then 0x11 :: u32 expiry.toNat else [])
    ++ (if receiveMax ≠ 0 then 0x21 :: u16 receiveMax.toNat else [])

def connectHead (version : ℕ) (a : ConnectArgs) : Bytes :=
  u16 4 ++ lit "MQTT" ++ [UInt8.ofNat version, connectFlags a] ++ u16 a.keepalive.toNat

def connectNeed (a : ConnectArgs) : ℕ := 2 + 4 + 2 + 2 + stringsNeed a.strings

/-- vox_mqtt_encode_connect (vox_mqtt_parser.c:799-843). -/
def encodeConnect (buf : Bytes) (a : ConnectArgs) : ℕ × Bytes :=
  encodePacket .connect 0 (connectNeed a)
    (fun size out => putStrings a.strings size (out ++ connectHead 4 a)) buf

def connectNeedV5 (a : ConnectArgs) : ℕ :=
  let propLen := propertiesLen a.sessionExpiryInterval a.receiveMaximum
  2 + 4 + 2 + 2 + ((encodeVarint propLen).length + propLen) + stringsNeed a.strings

/-- vox_mqtt_encode_connect_v5 (vox_mqtt_parser.c:845-907). -/
def encodeConnectV5 (buf : Bytes) (a : ConnectArgs) : ℕ × Bytes :=
  let propLen := propertiesLen a.sessionExpiryInterval a.receiveMaximum
  encodePacket .connect 0 (connectNeedV5 a)
    (fun size out => putStrings a.strings size (out ++ connectHead 5 a ++ encodeVarint propLen
      ++ putProperties a.sessionExpiryInterval a.receiveMaximum)) buf

/-- vox_mqtt_encode_connack (vox_mqtt_parser.c:909-923). -/
def encodeConnack (buf : Bytes) (sessionPresent returnCode : UInt8) : ℕ × Bytes :=
  encodePacket .connack 0 2 (putting [sessionPresent &&& 1, returnCode]) buf

/-- vox_mqtt_encode_connack_v5 (vox_mqtt_parser.c:1126-1157). -/
def encodeConnackV5 (buf : Bytes) (sessionPresent reasonCode : UInt8) (expiry : UInt32)
    (receiveMax : UInt16) : ℕ × Bytes :=
  let propLen := propertiesLen expiry receiveMax
  encodePacket .connack 0 (1 + 1 + (encodeVarint propLen).length + propLen)
    (putting ([sessionPresent &&& 1, reasonCode] ++ encodeVarint propLen
      ++ putProperties expiry receiveMax)) buf

def publishFlags (qos : UInt8) (retain : Bool) : ℕ :=
  (if retain then 1 else 0) ||| (qos.toNat <<< 1)

/- The two PUBLISH encoders; `props` is the property length that version 5 puts behind the id. -/
def encodePublishWith (props : Bytes) (propsNeed : ℕ) (buf : Bytes) (qos : UInt8) (retain : Bool)
    (packetId : UInt16) (topic payload : Bytes) : ℕ × Bytes :=
  if topic.length > 65535 then (0, buf)
  else
    encodePacket .publish (publishFlags qos retain)
      (2 + topic.length + (if qos ≠ 0 then 2 else 0) + propsNeed + payload.length)
      (putting (u16 topic.length ++ topic ++ (if qos ≠ 0 then u16 packetId.toNat else [])
        ++ props ++ payload)) buf

/-- vox_mqtt_encode_publish (vox_mqtt_parser.c:925-950). -/
def encodePublish (buf : Bytes) (qos : UInt8) (retain : Bool) (packetId : UInt16)
    (topic payload : Bytes) : ℕ × Bytes :=
  encodePublishWith [] 0 buf qos retain packetId topic payload

/-- vox_mqtt_encode_publish_v5 (vox_mqtt_parser.c:1159-1185). -/
def encodePublishV5 (buf : Bytes) (qos : UInt8) (retain : Bool) (packetId : UInt16)
    (topic payload : Bytes) : ℕ × Bytes :=
  encodePublishWith (encodeVarint 0) 1 buf qos retain packetId topic payload

/-- encode_pub_ack (vox_mqtt_parser.c:952-967). -/
def encodePubAck (buf : Bytes) (type : PacketType) (packetId : UInt16) : ℕ × Bytes :=
  encodePacket type (if type = .pubrel then 2 else 0) 2 (putting (u16 packetId.toNat)) buf

def encodePuback (buf : Bytes) (packetId : UInt16) : ℕ × Bytes := encodePubAck buf .puback packetId
def encodePubrec (buf : Bytes) (packetId : UInt16) : ℕ × Bytes := encodePubAck buf .pubrec packetId
def encodePubrel (buf : Bytes) (packetId : UInt16) : ℕ × Bytes := encodePubAck buf .pubrel packetId
def encodePubcomp (buf : Bytes) (packetId : UInt16) : ℕ × Bytes :=
  encodePubAck buf .pubcomp packetId

def encodeSubscribeWith (props : Bytes) (propsNeed : ℕ) (buf : Bytes) (packetId : UInt16)
    (filters : List (Bytes × UInt8)) : ℕ × Bytes :=
  if filters.any (fun f => f.1.length > 65535) then (0, buf)
  else
    encodePacket .subscribe 2
      (2 + propsNeed + (filters.map fun f => 2 + f.1.length + 1).sum)
      (putting (u16 packetId.toNat ++ props
        ++ filters.flatMap fun f => u16 f.1.length ++ f.1 ++ [f.2])) buf

/-- vox_mqtt_encode_subscribe (vox_mqtt_parser.c:982-1009). -/
def encodeSubscribe (buf : Bytes) (packetId : UInt16) (filters : List (Bytes × UInt8)) :
    ℕ × Bytes :=
  encodeSubscribeWith [] 0 buf packetId filters

/-- vox_mqtt_encode_subscribe_v5 (vox_mqtt_parser.c:1064-1092). -/
def encodeSubscribeV5 (buf : Bytes) (packetId : UInt16) (filters : List (Bytes × UInt8)) :
    ℕ × Bytes :=
  encodeSubscribeWith (encodeVarint 0) 1 buf packetId filters

/- SUBACK in both versions and UNSUBACK in version 5: the id and a code for each filter. -/
def encodeCodes (type : PacketType) (props : Bytes) (propsNeed : ℕ) (buf : Bytes)
    (packetId : UInt16) (codes : Bytes) : ℕ × Bytes :=
  encodePacket type 0 (2 + propsNeed + codes.length)
    (putting (u16 packetId.toNat ++ props ++ codes)) buf

/-- vox_mqtt_encode_suback (vox_mqtt_parser.c:1012-1028). -/
def encodeSuback (buf : Bytes) (packetId : UInt16) (codes : Bytes) : ℕ × Bytes :=
  encodeCodes .suback [] 0 buf packetId codes

/-- vox_mqtt_encode_suback_v5 (vox_mqtt_parser.c:1187-1204). -/
def encodeSubackV5 (buf : Bytes) (packetId : UInt16) (codes : Bytes) : ℕ × Bytes :=
  encodeCodes .suback (encodeVarint 0) 1 buf packetId codes

def encodeUnsubscribeWith (props : Bytes) (propsNeed : ℕ) (buf : Bytes) (packetId : UInt16)
    (filters : List Bytes) : ℕ × Bytes :=
  if filters.any (fun f => f.length > 65535) then (0, buf)
  else
    encodePacket .unsubscribe 2
      (2 + propsNeed + (filters.map fun f => 2 + f.length).sum)
      (putting (u16 packetId.toNat ++ props ++ filters.flatMap fun f => u16 f.length ++ f)) buf

/-- vox_mqtt_encode_unsubscribe (vox_mqtt_parser.c:1030-1057). -/
def encodeUnsubscribe (buf : Bytes) (packetId : UInt16) (filters : List Bytes) : ℕ × Bytes :=
  encodeUnsubscribeWith [] 0 buf packetId filters

/-- vox_mqtt_encode_unsubscribe_v5 (vox_mqtt_parser.c:1095-1122). -/
def encodeUnsubscribeV5 (buf : Bytes) (packetId : UInt16) (filters : List Bytes) : ℕ × Bytes :=
  encodeUnsubscribeWith (encodeVarint 0) 1 buf packetId filters

/-- vox_mqtt_encode_unsuback (vox_mqtt_parser.c:1059-1061). -/
def encodeUnsuback (buf : Bytes) (packetId : UInt16) : ℕ × Bytes :=
  encodePubAck buf .unsuback packetId

/-- vox_mqtt_encode_unsuback_v5 (vox_mqtt_parser.c:1206-1223). -/
def encodeUnsubackV5 (buf : Bytes) (packetId : UInt16) (codes : Bytes) : ℕ × Bytes :=
  encodeCodes .unsuback (encodeVarint 0) 1 buf packetId codes

/-- encode_simple (vox_mqtt_parser.c:1241-1251). -/
def encodeSimple (buf : Bytes) (type : PacketType) : ℕ × Bytes :=
  encodePacket type 0 0 (putting []) buf

def encodePingreq (buf : Bytes) : ℕ × Bytes := encodeSimple buf .pingreq
def encodePingresp (buf : Bytes) : ℕ × Bytes := encodeSimple buf .pingresp
def encodeDisconnect (buf : Bytes) : ℕ × Bytes := encodeSimple buf .disconnect

end Voxlib.Mqtt
