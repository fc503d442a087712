import Voxlib.Mqtt.Server

/-!
# The MQTT client (vox_mqtt_client.c) over TCP

A buffer is a number; `ops` has what was done with the buffers, and `reported`
what the callbacks were told, where the parser called the client and where
client_fail ran. The callbacks do not call the client back. Sizes of records are
those of 64 bits.
-/

namespace Voxlib.Mqtt
open CStr Wire

/- A pointer and a length; the length 0 may stand for strlen. -/
structure Text where
  chars : Bytes
  len : ℕ := 0
  deriving DecidableEq

def Text.given (t : Option Text) : Bytes := (t.map fun t => t.chars.take t.len).getD []

/-- vox_mqtt_connect_options_t, without ssl_ctx and ws_path. -/
structure ConnectOptions where
  clientId : Text
  keepalive : UInt16 := 0
  cleanSession : Bool := true
  username : Option Text := none
  password : Option Text := none
  willTopic : Option Text := none
  willMsg : Bytes := []
  willQos : UInt8 := 0
  willRetain : Bool := false
  useMqtt5 : Bool := false
  enableAutoReconnect : Bool := false
  maxReconnectAttempts : ℕ := 0
  initialReconnectDelayMs : ℕ := 0
  maxReconnectDelayMs : ℕ := 0
  deriving DecidableEq

/- What vox_mqtt_encode_connect is given. -/
def ConnectOptions.args (o : ConnectOptions) (clientIdLen : ℕ) (keepaliveSec : UInt16) :
    ConnectArgs where
  clientId := o.clientId.chars.take clientIdLen
  keepalive := keepaliveSec
  cleanSession := o.cleanSession
  willTopic := Text.given o.willTopic
  willMsg := o.willMsg
  willQos := o.willQos
  willRetain := o.willRetain
  username := Text.given o.username
  password := Text.given o.password

def ConnectOptions.encode (o : ConnectOptions) (clientIdLen : ℕ) (keepaliveSec : UInt16)
    (buf : Bytes) : ℕ × Bytes :=
  if o.useMqtt5 then encodeConnectV5 buf (o.args clientIdLen keepaliveSec)
  else encodeConnect buf (o.args clientIdLen keepaliveSec)

abbrev BufId := ℕ

/-- vox_mqtt_pending_qos1_t. -/
structure PendingQos1 where
  packetId : ℕ
  packetBuf : BufId
  sendTime : ℕ
  retryCount : ℕ := 0
  deriving DecidableEq

/-- vox_mqtt_pending_qos2_out_t. -/
structure PendingQos2Out where
  packetId : ℕ
  packetBuf : BufId
  state : OutState := .waitPubrec
  sendTime : ℕ
  retryCount : ℕ := 0
  deriving DecidableEq

/-- vox_mqtt_pending_qos2_in_t. -/
structure PendingQos2In where
  packetId : ℕ
  topic : Bytes
  payload : Bytes
  retain : Bool
  deriving DecidableEq

/-- vox_mqtt_subscription_t. -/
structure Subscription where
  topicFilter : Bytes
  qos : UInt8
  deriving DecidableEq

inductive BufOp where
  | alloc (b : BufId)
  | free (b : BufId)
  | send (b : BufId)
  | setDup (b : BufId)
  deriving DecidableEq

inductive ClientReport where
  | connect (cb : ℕ) (status : ℕ)
  | connectFailed (cb : ℕ)
  | message (topic payload : Bytes) (qos : ℕ) (retain : Bool)
  | suback (packetId : ℕ) (returnCodes : Bytes)
  | error (msg : String)
  | disconnect
  | failed (msg : String)
  | called (call : Call)
  deriving DecidableEq

inductive Transport where
  | idle | resolving | connecting | reading
  deriving DecidableEq

/- struct vox_mqtt_client. A timer is active or not; the one for reconnection is there with its
   delay. `now` is vox_loop_now, `sent` what the transport was given. -/
structure Client where
  connecting : Bool := false
  connected : Bool := false
  host : Option Bytes := none
  port : ℕ := 0
  keepaliveSec : UInt16 := 0
  pingTimer : Bool := false
  connectCb : Option ℕ := none
  messageCb : Bool := true
  disconnectCb : Bool := true
  errorCb : Bool := true
  nextPacketId : UInt16 := 0
  pendingSuback : Option ℕ := none
  subscriptions : List Subscription := []
  pendingConnectBuf : Option BufId := none
  protocolVersion : ℕ := 0
  pendingQos1 : List PendingQos1 := []
  qosRetryTimer : Bool := false
  qosRetryIntervalMs : ℕ := 5000
  qosMaxRetry : ℕ := 3
  pendingQos2Out : List PendingQos2Out := []
  pendingQos2In : List PendingQos2In := []
  writeQueue : List BufId := []
  autoReconnectEnabled : Bool := false
  maxReconnectAttempts : ℕ := 0
  initialReconnectDelayMs : ℕ := 1000
  maxReconnectDelayMs : ℕ := 60000
  reconnectAttempts : ℕ := 0
  currentReconnectDelayMs : ℕ := 0
  reconnectTimer : Option ℕ := none
  savedOptions : Option ConnectOptions := none
  transport : Transport := .idle
  now : ℕ := 0
  nextBuf : BufId := 0
  contents : BufId → Bytes := fun _ => []
  ops : List BufOp := []
  sent : List Bytes := []
  reported : List ClientReport := []

/- What is outside of the client: the sizes for which vox_mpool_alloc succeeds, the buffers that
   vox_tcp_write takes, whether a timer, a connection, a resolution and the reads can be started,
   and which hosts are addresses. -/
structure ClientEnv where
  alloc : ℕ → Bool
  write : Bytes → Bool
  timerStart : Bool
  isAddress : Bytes → Bool
  tcpConnect : Bool
  dnsStart : Bool
  readStart : Bool

def writeReqSize : ℕ := 32
def pendingQos1Size : ℕ := 48
def pendingQos2OutSize : ℕ := 56
def pendingQos2InSize : ℕ := 56
def subscriptionSize : ℕ := 40
def optionsSize : ℕ := 136

def Client.version (c : Client) : Version := if c.protocolVersion = 5 then .v5 else .v311

def Client.report (c : Client) (r : ClientReport) : Client :=
  { c with reported := c.reported ++ [r] }

def Client.op (c : Client) (o : BufOp) : Client := { c with ops := c.ops ++ [o] }

def Client.newBuf (c : Client) (bytes : Bytes) : BufId × Client :=
  (c.nextBuf,
    { c.op (.alloc c.nextBuf) with
      nextBuf := c.nextBuf + 1
      contents := Function.update c.contents c.nextBuf bytes })

def Client.freeBuf (c : Client) (b : BufId) : Client := c.op (.free b)

/-- `packet_buf[0] |= 0x08`. -/
def Client.setDup (c : Client) (b : BufId) : Client :=
  { c.op (.setDup b) with
    contents := Function.update c.contents b
      (match c.contents b with
        | [] => []
        | h :: rest => (h ||| 0x08) :: rest) }

section
variable (env : ClientEnv)

/-- send_buf (vox_mqtt_client.c:390-422) over TCP; true is 0. -/
def Client.sendBuf (c : Client) (b : BufId) : Bool × Client :=
  if env.alloc writeReqSize ∧ env.write (c.contents b) then
    (true, { c.op (.send b) with
      writeQueue := c.writeQueue ++ [b]
      sent := c.sent ++ [c.contents b] })
  else (false, c)

/-- write_done_cb (vox_mqtt_client.c:367-375): the first request of the queue is done. -/
def Client.writeDone (c : Client) : Client :=
  match c.writeQueue with
  | [] => c
  | b :: rest => { c.freeBuf b with writeQueue := rest }

/- Ask for the size, allocate, encode, send, and free what cannot be sent; none when there is no
   memory. -/
def Client.sendPacket (c : Client) (enc : Bytes → ℕ × Bytes) : Option (Bool × Client) :=
  if env.alloc (enc []).1 then
    let r := c.newBuf (encoded enc)
    let s := r.2.sendBuf env r.1
    some (s.1, if s.1 then s.2 else s.2.freeBuf r.1)
  else none

def Client.trySend (c : Client) (enc : Bytes → ℕ × Bytes) : Client :=
  ((c.sendPacket env enc).map Prod.snd).getD c

/-- connect_cleanup_on_fail (vox_mqtt_client.c:217-229). -/
def Client.connectCleanupOnFail (c : Client) : Client :=
  let c :=
    match c.pendingConnectBuf with
    | some b => c.freeBuf b
    | none => c
  { c with pendingConnectBuf := none, host := none, connecting := false }

/-- The delay after one more failure (vox_mqtt_client.c:184-193); it is of type uint32_t. -/
def Client.backOff (c : Client) : Client :=
  let attempts := (c.reconnectAttempts + 1) % 2 ^ 32
  let doubled := c.currentReconnectDelayMs * 2 % 2 ^ 32
  { c with
    reconnectAttempts := attempts
    currentReconnectDelayMs :=
      if attempts > 1 then
        (if doubled > c.maxReconnectDelayMs then c.maxReconnectDelayMs else doubled)
      else c.currentReconnectDelayMs }

/-- Whether and when to connect again (vox_mqtt_client.c:177-208). -/
def Client.scheduleReconnect (c : Client) : Client :=
  if c.autoReconnectEnabled ∧ c.savedOptions.isSome ∧ c.host.isSome then
    if c.maxReconnectAttempts = 0 ∨ c.reconnectAttempts < c.maxReconnectAttempts then
      let c := c.backOff
      { c with
        reconnectTimer := if env.timerStart then some c.currentReconnectDelayMs else none }
    else c
  else c

def Client.tellFailure (c : Client) (cb : Option ℕ) (msg : String) : Client :=
  let c :=
    match cb with
    | some cb => c.report (.connectFailed cb)
    | none => c
  let c := if c.errorCb then c.report (.error msg) else c
  if c.disconnectCb then c.report .disconnect else c

/-- client_fail (vox_mqtt_client.c:161-214). -/
def Client.fail (c : Client) (msg : String) : Client :=
  let c := c.report (.failed msg)
  let c := if c.connecting then c.connectCleanupOnFail else c
  let cb := c.connectCb
  let c := { c with connected := false, connecting := false, connectCb := none }
  (c.scheduleReconnect env).tellFailure cb msg

/- `if (++c->next_packet_id == 0) c->next_packet_id = 1;` -/
def Client.takeId (c : Client) : Client := { c with nextPacketId := nextId c.nextPacketId }

def Client.startRetryTimer (c : Client) : Client :=
  { c with qosRetryTimer := c.qosRetryTimer || env.timerStart }

def Client.keep (c : Client) (b : BufId) (qos : ℕ) (packetId : ℕ) : Option Client :=
  if qos = 1 then
    if env.alloc pendingQos1Size then
      let entry : PendingQos1 := { packetId := packetId, packetBuf := b, sendTime := c.now }
      some (Client.startRetryTimer env { c with pendingQos1 := c.pendingQos1 ++ [entry] })
    else none
  else if qos = 2 then
    if env.alloc pendingQos2OutSize then
      let entry : PendingQos2Out := { packetId := packetId, packetBuf := b, sendTime := c.now }
      some (Client.startRetryTimer env { c with pendingQos2Out := c.pendingQos2Out ++ [entry] })
    else none
  else some c

/- It is not kept when it cannot be sent (vox_mqtt_client.c:1427-1450). -/
def Client.drop (c : Client) (qos : ℕ) (packetId : ℕ) : Client :=
  if qos = 1 then { c with pendingQos1 := c.pendingQos1.eraseP fun p => p.packetId = packetId }
  else if qos = 2 then
    { c with pendingQos2Out := c.pendingQos2Out.eraseP fun p => p.packetId = packetId }
  else c

/-- vox_mqtt_client_publish (vox_mqtt_client.c:1351-1454); true is 0. -/
def Client.publish (c : Client) (topic payload : Bytes) (qos : ℕ) (retain : Bool) : Bool × Client :=
  if ¬ c.connected then (false, c)
  else if qos > 2 then (false, c)
  else
    let c := if qos > 0 then c.takeId else c
    let packetId : UInt16 := if qos > 0 then c.nextPacketId else 0
    let enc (buf : Bytes) :=
      encodePublishIn c.version buf (UInt8.ofNat qos) retain packetId topic payload
    if (enc []).1 = 0 then (false, c)
    else if ¬ env.alloc (enc []).1 then (false, c)
    else
      let r := c.newBuf (encoded enc)
      match r.2.keep env r.1 qos packetId.toNat with
      | none => (false, r.2.freeBuf r.1)
      | some c =>
        let s := c.sendBuf env r.1
        if s.1 then (true, s.2) else (false, (s.2.drop qos packetId.toNat).freeBuf r.1)

/-- The body of the loop over the subscriptions (vox_mqtt_client.c:581-607). -/
def Client.resubscribe (c : Client) (sub : Subscription) : Client :=
  let c := c.takeId
  let enc (buf : Bytes) :=
    encodeSubscribeIn c.version buf c.nextPacketId [(sub.topicFilter, sub.qos)]
  if (enc []).1 > 0 then c.trySend env enc else c

/- `now - send_time` of two uint64_t. -/
def elapsed (now sendTime : ℕ) : ℕ := (now + 2 ^ 64 - sendTime % 2 ^ 64) % 2 ^ 64

def Client.due (c : Client) (sendTime : ℕ) : Bool := elapsed c.now sendTime ≥ c.qosRetryIntervalMs

def Client.giveUp (c : Client) (b : BufId) (msg : String) : Client :=
  let c := if c.errorCb then c.report (.error msg) else c
  c.freeBuf b

/-- The PUBLISH again, with the DUP flag; true when it was sent. -/
def Client.resend (c : Client) (b : BufId) : Bool × Client := (c.setDup b).sendBuf env b

/-- The loop over pending_qos1_list (vox_mqtt_client.c:446-477): the entries that stay. -/
def Client.retryQos1 : List PendingQos1 → Client → List PendingQos1 × Client
  | [], c => ([], c)
  | p :: ps, c =>
    if ¬ c.due p.sendTime then
      let r := Client.retryQos1 ps c
      (p :: r.1, r.2)
    else if p.retryCount ≥ c.qosMaxRetry then
      Client.retryQos1 ps (c.giveUp p.packetBuf "QoS 1 publish timeout")
    else if (c.contents p.packetBuf).length > 0 then
      let s := c.resend env p.packetBuf
      let r := Client.retryQos1 ps s.2
      ((if s.1 then { p with sendTime := c.now, retryCount := p.retryCount + 1 } else p) :: r.1,
        r.2)
    else
      let r := Client.retryQos1 ps c
      (p :: r.1, r.2)

/-- One entry of pending_qos2_out_list that is due and not given up (vox_mqtt_client.c:496-524);
true when something was sent. -/
def Client.retryEntry (c : Client) (p : PendingQos2Out) : Bool × Client :=
  match p.state with
  | .waitPubrec =>
    if (c.contents p.packetBuf).length > 0 then c.resend env p.packetBuf else (false, c)
  | .waitPubcomp =>
    (c.sendPacket env (encodePubrel · (UInt16.ofNat p.packetId))).getD (false, c)

/-- The loop over pending_qos2_out_list (vox_mqtt_client.c:480-526). -/
def Client.retryQos2 : List PendingQos2Out → Client → List PendingQos2Out × Client
  | [], c => ([], c)
  | p :: ps, c =>
    if ¬ c.due p.sendTime then
      let r := Client.retryQos2 ps c
      (p :: r.1, r.2)
    else if p.retryCount ≥ c.qosMaxRetry then
      Client.retryQos2 ps (c.giveUp p.packetBuf "QoS 2 publish timeout")
    else
      let s := c.retryEntry env p
      let r := Client.retryQos2 ps s.2
      ((if s.1 then { p with sendTime := c.now, retryCount := p.retryCount + 1 } else p) :: r.1,
        r.2)

def Client.stopIfIdle (c : Client) : Client :=
  if c.pendingQos1 = [] ∧ c.pendingQos2Out = [] then { c with qosRetryTimer := false } else c

/-- qos_retry_timer_cb (vox_mqtt_client.c:437-532). -/
def Client.qosRetryTimerCb (c : Client) : Client :=
  if ¬ c.connected then c
  else
    let r := Client.retryQos1 env c.pendingQos1 c
    let c := { r.2 with pendingQos1 := r.1 }
    let r := Client.retryQos2 env c.pendingQos2Out c
    ({ r.2 with pendingQos2Out := r.1 }).stopIfIdle

/-- ping_timer_cb (vox_mqtt_client.c:424-434). -/
def Client.pingTimerCb (c : Client) : Client :=
  if c.connected then c.trySend env encodePingreq else c

/-- on_connack (vox_mqtt_client.c:534-611). -/
def Client.onConnack (c : Client) (sessionPresent returnCode : UInt8) : ℤ × Client :=
  if ¬ c.connecting then (0, c)
  else
    let cb := c.connectCb
    let c := { c with
      connecting := false
      connected := returnCode = 0
      connectCb := none }
    let c :=
      match cb with
      | some cb => c.report (.connect cb returnCode.toNat)
      | none => c
    if returnCode ≠ 0 then (0, c.fail env "connack refused")
    else
      let c := { c with
        pingTimer := if c.keepaliveSec > 0 then env.timerStart else c.pingTimer
        reconnectAttempts := 0
        currentReconnectDelayMs := c.initialReconnectDelayMs }
      (0, if sessionPresent = 0 then c.subscriptions.foldl (Client.resubscribe env) c else c)

/-- on_publish (vox_mqtt_client.c:613-661). -/
def Client.onPublish (c : Client) (m : Publish) : ℤ × Client :=
  if m.qos ≠ 2 then
    (0, if c.messageCb then c.report (.message m.topic m.payload m.qos m.retain) else c)
  else if ¬ env.alloc pendingQos2InSize then (-1, c)
  else if ¬ env.alloc (m.topic.length + 1) then (-1, c)
  else if m.payload.length > 0 ∧ ¬ env.alloc m.payload.length then (-1, c)
  else
    let entry : PendingQos2In := ⟨m.packetId, m.topic, m.payload, m.retain⟩
    let t := { c with pendingQos2In := c.pendingQos2In ++ [entry] }
    match t.sendPacket env (encodePubrec · (UInt16.ofNat m.packetId)) with
    | none => (-1, c)
    | some s => (0, s.2)

/-- on_puback (vox_mqtt_client.c:663-684). -/
def Client.onPuback (c : Client) (packetId : ℕ) : ℤ × Client :=
  let c :=
    match c.pendingQos1.find? fun p => p.packetId = packetId with
    | some p =>
      { c.freeBuf p.packetBuf with
        pendingQos1 := c.pendingQos1.eraseP fun p => p.packetId = packetId }
    | none => c
  (0, if c.pendingQos1 = [] then { c with qosRetryTimer := false } else c)

def receivePubrec (packetId now : ℕ) : List PendingQos2Out → List PendingQos2Out
  | [] => []
  | p :: ps =>
    if p.packetId = packetId ∧ p.state = .waitPubrec then
      { p with state := .waitPubcomp, sendTime := now, retryCount := 0 } :: ps
    else p :: receivePubrec packetId now ps

/-- on_pubrec (vox_mqtt_client.c:686-712). -/
def Client.onPubrec (c : Client) (packetId : ℕ) : ℤ × Client :=
  if c.pendingQos2Out.any fun p => p.packetId = packetId ∧ p.state = .waitPubrec then
    let c := { c with pendingQos2Out := receivePubrec packetId c.now c.pendingQos2Out }
    (0, c.trySend env (encodePubrel · (UInt16.ofNat packetId)))
  else (0, c)

/-- on_pubrel (vox_mqtt_client.c:714-738). -/
def Client.onPubrel (c : Client) (packetId : ℕ) : ℤ × Client :=
  match c.pendingQos2In.find? fun p => p.packetId = packetId with
  | none => (0, c)
  | some p =>
    let c := { c with
      pendingQos2In := c.pendingQos2In.eraseP fun p => p.packetId = packetId }
    let c := c.trySend env (encodePubcomp · (UInt16.ofNat packetId))
    (0, if c.messageCb then c.report (.message p.topic p.payload 2 p.retain) else c)

/-- on_pubcomp (vox_mqtt_client.c:740-761). -/
def Client.onPubcomp (c : Client) (packetId : ℕ) : ℤ × Client :=
  let c :=
    match c.pendingQos2Out.find? fun p => p.packetId = packetId with
    | some p =>
      { c.freeBuf p.packetBuf with
        pendingQos2Out := c.pendingQos2Out.eraseP fun p => p.packetId = packetId }
    | none => c
  (0, c.stopIfIdle)

/-- on_suback (vox_mqtt_client.c:763-774). -/
def Client.onSuback (c : Client) (packetId : ℕ) (codes : Bytes) : ℤ × Client :=
  if c.pendingSuback = some packetId then
    (0, ({ c with pendingSuback := none }).report (.suback packetId codes))
  else (0, c)

/-- on_error (vox_mqtt_client.c:776-780). -/
def Client.onError (c : Client) (msg : String) : ℤ × Client := (0, c.fail env msg)

/-- The callbacks that vox_mqtt_client_create sets (vox_mqtt_client.c:846-856). -/
def clientCallbacks : Callbacks Client where
  installed k :=
    k ∈ [.onConnack, .onPublish, .onPuback, .onPubrec, .onPubrel, .onPubcomp, .onSuback, .onError]
  run c call :=
    let c := c.report (.called call)
    match call with
    | .connack present code => c.onConnack env present code
    | .publish m => c.onPublish env m
    | .puback id => c.onPuback id
    | .pubrec id => c.onPubrec env id
    | .pubrel id => c.onPubrel env id
    | .pubcomp id => c.onPubcomp id
    | .suback id codes => c.onSuback id codes
    | .error msg => c.onError env msg
    | _ => (0, c)

def Text.clone (t : Text) : Text :=
  let chars := if t.len ≠ 0 then t.chars.take t.len else t.chars
  ⟨chars, chars.length⟩

def ConnectOptions.cloneSizes (o : ConnectOptions) : List ℕ :=
  [optionsSize, o.clientId.clone.len + 1]
    ++ ([o.username, o.password, o.willTopic].filterMap fun t => t.map fun t => t.clone.len + 1)
    ++ (if o.willMsg.length > 0 then [o.willMsg.length] else [])

/-- clone_connect_options (vox_mqtt_client.c:983-1030). -/
def ConnectOptions.clone (o : ConnectOptions) : Option ConnectOptions :=
  if o.cloneSizes.all env.alloc then
    some { o with
      clientId := o.clientId.clone
      username := o.username.map Text.clone
      password := o.password.map Text.clone
      willTopic := o.willTopic.map Text.clone }
  else none

/- The settings for reconnection (vox_mqtt_client.c:1045-1058). -/
def Client.configure (c : Client) (o : ConnectOptions) : Client :=
  let initial := if o.initialReconnectDelayMs > 0 then o.initialReconnectDelayMs else 1000
  { c with
    keepaliveSec := if o.keepalive > 0 then o.keepalive else 60
    autoReconnectEnabled := o.enableAutoReconnect
    maxReconnectAttempts := o.maxReconnectAttempts
    initialReconnectDelayMs := initial
    maxReconnectDelayMs := if o.maxReconnectDelayMs > 0 then o.maxReconnectDelayMs else 60000
    reconnectAttempts := 0
    currentReconnectDelayMs := initial }

/- The CONNECT packet in a buffer (vox_mqtt_client.c:1084-1136). -/
def Client.prepareConnect (c : Client) (o : ConnectOptions) (clientIdLen : ℕ) :
    Except Client Client :=
  let c := { c with protocolVersion := if o.useMqtt5 then 5 else 4 }
  let enc := o.encode clientIdLen c.keepaliveSec
  if (enc []).1 = 0 ∨ ¬ env.alloc (enc []).1 then
    .error { c with host := none, connecting := false }
  else
    let r := c.newBuf (encoded enc)
    .ok { r.2 with pendingConnectBuf := some r.1 }

/- vox_mqtt_client_connect up to the parser (vox_mqtt_client.c:1032-1136). `o` is what the options
   are at first, and `o'` what they are once the saved options have been freed, which is the same
   unless they are the saved ones. -/
def Client.beginConnect (c : Client) (host : Bytes) (port : ℕ) (o o' : ConnectOptions)
    (cb : Option ℕ) : Except Client Client :=
  if c.connected ∨ c.connecting then .error c
  else if host = [] then .error c
  else
    let clientIdLen := if o.clientId.len = 0 then o.clientId.chars.length else o.clientId.len
    let c := ({ c with connecting := true, port := port, connectCb := cb }).configure o
    let saved := if c.autoReconnectEnabled then o'.clone env else none
    let c := { c with savedOptions := saved }
    if c.autoReconnectEnabled ∧ saved = none then .error { c with connecting := false }
    else if ¬ env.alloc (host.length + 1) then .error { c with connecting := false }
    else ({ c with host := some host }).prepareConnect env o' clientIdLen

/-- The start of the connection (vox_mqtt_client.c:1255-1283); true is 0. -/
def Client.startTransport (c : Client) (host : Bytes) : Bool × Client :=
  if env.isAddress host then
    if env.tcpConnect then (true, { c with transport := .connecting })
    else (false, c.connectCleanupOnFail)
  else if env.dnsStart then (true, { c with transport := .resolving })
  else (false, c.connectCleanupOnFail)

/-- dns_cb (vox_mqtt_client.c:955-977). -/
def Client.dnsCb (c : Client) (found : Bool) : Client :=
  let c := { c with transport := .idle }
  if ¬ c.connecting then c
  else if ¬ found then c.fail env "dns failed"
  else if env.tcpConnect then { c with transport := .connecting }
  else c.fail env "tcp_connect failed"

/-- tcp_connect_cb (vox_mqtt_client.c:245-265). -/
def Client.tcpConnectCb (c : Client) (established : Bool) : Client :=
  let c := { c with transport := .idle }
  if ¬ c.connecting then c
  else if ¬ established then c.connectCleanupOnFail.fail env "tcp connect failed"
  else
    let c :=
      match c.pendingConnectBuf with
      | some b =>
        let s := c.sendBuf env b
        { (if s.1 then s.2 else s.2.freeBuf b) with pendingConnectBuf := none }
      | none => c
    if env.readStart then { c with transport := .reading }
    else c.connectCleanupOnFail.fail env "tcp read_start failed"

end

def ample : ClientEnv where
  alloc _ := true
  write _ := true
  timerStart := true
  isAddress _ := true
  tcpConnect := true
  dnsStart := true
  readStart := true

/- vox_mqtt_client_t with c->parser. -/
structure Session where
  p : Parser
  c : Client

/-- vox_mqtt_client_create (vox_mqtt_client.c:794-862), after which the application has set its
callbacks. -/
def createSession (alloc : ℕ → Bool) : Session := ⟨create alloc 0 0, {}⟩

/-- vox_mqtt_parser_reset (vox_mqtt_parser.c:252-266). -/
def Parser.reset (p : Parser) : Parser :=
  { p with
    state := .fixedHeader, need := 0, buf := [], protocolVersion := 0
    connackSessionExpiryInterval := 0, connackReceiveMaximum := 0
    hasError := false, errorMessage := none }

section
variable (env : ClientEnv)

/-- vox_mqtt_client_connect (vox_mqtt_client.c:1032-1249); true is 0. -/
def Session.connect (s : Session) (host : Bytes) (port : ℕ) (o o' : ConnectOptions)
    (cb : Option ℕ) : Bool × Session :=
  match s.c.beginConnect env host port o o' cb with
  | .error c => (false, { s with c := c })
  | .ok c =>
    let p := s.p.reset
    let p := if o'.useMqtt5 then { p with protocolVersion := 5 } else p
    let r := c.startTransport env host
    (r.1, ⟨p, r.2⟩)

/-- reconnect_timer_cb (vox_mqtt_client.c:142-159): the options are the saved ones, and read as
`stale` once they have been freed. -/
def Session.reconnectTimerCb (s : Session) (stale : ConnectOptions) : Bool × Session :=
  match s.c.savedOptions with
  | some o =>
    if s.c.autoReconnectEnabled then
      let s := { s with c := { s.c with reconnectTimer := none } }
      s.connect env (s.c.host.getD []) s.c.port o stale s.c.connectCb
    else (false, s)
  | none => (false, s)

/-- feed_parser_or_fail (vox_mqtt_client.c:232-239). -/
def Session.feedParserOrFail (s : Session) (data : Bytes) : Session :=
  let r := execute (clientCallbacks env) env.alloc s.p s.c data
  match r.ret with
  | none => ⟨r.p, r.u.fail env (r.p.errorMessage.getD "parse error")⟩
  | some _ => ⟨r.p, r.u⟩

/-- tcp_read_cb (vox_mqtt_client.c:267-276); `failed` is a read error. -/
def Session.closed (s : Session) (failed : Bool) : Session :=
  { s with c := s.c.fail env (if failed then "read error" else "connection closed") }

end

end Voxlib.Mqtt
