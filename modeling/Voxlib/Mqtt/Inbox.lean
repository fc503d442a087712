import Voxlib.Mqtt.Answers
import Voxlib.Mqtt.Buffers
import Voxlib.Mqtt.Reconnect

/-!
# What reaches the MQTT client (vox_mqtt_client.c)

Beside the client stand the acknowledgements it owes, the messages that are due, and the open
exchanges.
-/

namespace Voxlib.Mqtt
open CStr Wire Run List Option

def ClientReport.delivered : ClientReport → Option (Bytes × Bytes × ℕ)
  | .message topic payload qos _ => some (topic, payload, qos)
  | _ => none

def Client.messages (c : Client) : List (Bytes × Bytes × ℕ) :=
  c.reported.filterMap ClientReport.delivered

def Client.acks (c : Client) : List Bytes := c.sent.filter isAck

structure Inbox where
  s : Session
  owed : List Bytes
  due : List (Bytes × Bytes × ℕ)
  opened : ℕ → Option (Bytes × Bytes)

def Inbox.start (s : Session) : Inbox where
  s := s
  owed := s.c.acks
  due := s.c.messages
  opened _ := none

/-- What is due for a PUBLISH or a PUBREL. A QoS 2 message is due with the PUBREL of its exchange,
which its first PUBLISH has opened. -/
def Inbox.expect (x : Inbox) : Inbound → Inbox
  | .publish _ _ qos id _ topic payload =>
    if qos = 2 then
      match x.opened id.toNat with
      | some _ => x
      | none => { x with opened := Function.update x.opened id.toNat (some (topic, payload)) }
    else { x with due := x.due ++ [(topic, payload, qos)] }
  | .pubrel id _ =>
    match x.opened id.toNat with
    | some m =>
      { x with
        due := x.due ++ [(m.1, m.2, 2)]
        opened := Function.update x.opened id.toNat none }
    | none => x
  | _ => x

def Inbound.sentToClient (k : Inbound) : Prop := k.type = .publish ∨ k.type = .pubrel

instance (k : Inbound) : Decidable k.sentToClient := inferInstanceAs (Decidable (_ ∨ _))

section
variable (env : ClientEnv) (v : Version)

def Inbox.step (x : Inbox) (k : Inbound) : Option Inbox :=
  if k.wellFormed v ∧ k.sentToClient then
    some { x.expect k with
      s := x.s.feedParserOrFail env (k.bytes v)
      owed := x.owed ++ k.answers v }
  else none

end

/-- The client has acknowledged what it had to, handed over what was due, and keeps nothing of an
exchange that is not open. -/
structure Inbox.Delivered (x : Inbox) : Prop where
  acks : x.s.c.acks = x.owed
  messages : x.s.c.messages = x.due
  closed : ∀ id, x.opened id = none → ∀ p ∈ x.s.c.pendingQos2In, p.packetId ≠ id

def Client.entries (c : Client) (id : ℕ) : List PendingQos2In :=
  c.pendingQos2In.filter fun p => p.packetId = id

/-- No QoS 1 message, and only releases that can be read and find one entry. -/
def Inbox.Orderly (v : Version) (x : Inbox) : Inbound → Prop
  | .publish _ _ qos .. => qos ≠ 1
  | .pubrel id tail => (x.s.c.entries id.toNat).length = 1 ∧ (Inbound.pubrel id tail).readable v
  | _ => True

instance (v : Version) (x : Inbox) : ∀ k, Decidable (x.Orderly v k)
  | .publish _ _ qos .. => inferInstanceAs (Decidable (qos ≠ 1))
  | .pubrel _ _ => inferInstanceAs (Decidable (_ ∧ _))
  | .subscribe .. => .isTrue trivial
  | .unsubscribe .. => .isTrue trivial
  | .pingreq => .isTrue trivial
  | .other _ => .isTrue trivial

variable {env : ClientEnv} {v : Version} {c d : Client}

theorem sendPacket_willing (he : env.willing) (c : Client) (enc : Bytes → ℕ × Bytes) :
    ∃ d, c.sendPacket env enc = some (true, d) ∧ d.sent = c.sent ++ [encoded enc] ∧
      d.pendingQos2In = c.pendingQos2In ∧ d.reported = c.reported ∧ d.messageCb = c.messageCb := by
  have hsend : ∃ d, (c.newBuf (encoded enc)).2.sendBuf env c.nextBuf = (true, d) ∧
      d.sent = c.sent ++ [encoded enc] ∧ d.pendingQos2In = c.pendingQos2In ∧
      d.reported = c.reported ∧ d.messageCb = c.messageCb := by
    refine ⟨_, if_pos ⟨he.alloc _, he.write _⟩, ?_, rfl, rfl, rfl⟩
    show c.sent ++ [(c.newBuf (encoded enc)).2.contents c.nextBuf] = _
    rw [contents_newBuf_self]
  obtain ⟨d, hd, hrest⟩ := hsend
  refine ⟨d, ?_, hrest⟩
  unfold Client.sendPacket
  rw [if_pos (he.alloc _)]
  dsimp only
  rw [show (c.newBuf (encoded enc)).1 = c.nextBuf from rfl, hd]
  rfl

/-- What a call does to the client: the packets it acknowledges, the messages it hands over and
the entries it leaves. -/
structure Client.Serves (c d : Client) (as : List Bytes) (ms : List (Bytes × Bytes × ℕ))
    (ps : List PendingQos2In) : Prop where
  acks : d.acks = c.acks ++ as
  messages : d.messages = c.messages ++ ms
  pending : d.pendingQos2In = ps
  messageCb : d.messageCb = c.messageCb

theorem messages_report (c : Client) (r : ClientReport) :
    (c.report r).messages = c.messages ++ (r.delivered.toList) := by
  unfold Client.messages Client.report
  rw [filterMap_append]
  cases h : r.delivered with
  | none => simp [h]
  | some m => simp [h]

variable {type : PacketType}

theorem isAck_answer (ht : type.acknowledges = true) (body : Bytes) :
    isAck (answer type body) = true := by
  unfold answer
  rw [isAck_frame type (by norm_num), ht]

theorem encoded_answer (ht : type ≠ .pubrel) (id : UInt16) :
    encoded (encodePubAck · type id) = answer type (u16 id.toNat) := by
  have hflags : (if type = .pubrel then 2 else 0) = 0 := if_neg ht
  show encoded (encodePacket type (if type = .pubrel then 2 else 0) 2 (putting (u16 id.toNat))) = _
  rw [hflags, encoded_packet type 0 (u16_length _), if_pos (by norm_num)]
  unfold answer
  rw [u16_length]

theorem acks_sent_answer (ht : type.acknowledges = true) (body : Bytes)
    (hsent : d.sent = c.sent ++ [answer type body]) : d.acks = c.acks ++ [answer type body] := by
  unfold Client.acks
  rw [hsent, filter_append, filter_singleton, isAck_answer ht]
  rfl

variable {qos : ℕ}

theorem onPublish_serves (he : env.willing) (hcb : c.messageCb = true) (hq : qos ≤ 2) (id : UInt16)
    (topic payload : Bytes) : ∃ d, c.onPublish env (seen qos id topic payload) = (0, d) ∧
      c.Serves d (if qos = 2 then [answer .pubrec (u16 id.toNat)] else [])
        (if qos = 2 then [] else [(topic, payload, qos)]) (c.pendingQos2In ++
          if qos = 2 then [⟨id.toNat, topic, payload, false⟩] else []) := by
  unfold Client.onPublish
  by_cases htwo : qos = 2
  · subst htwo
    rw [if_neg (by simp [seen]), if_neg (by simp [he.alloc]), if_neg (by simp [he.alloc]),
      if_neg (by simp [he.alloc])]
    let t : Client := { c with
      pendingQos2In := c.pendingQos2In ++ [⟨id.toNat, topic, payload, false⟩] }
    obtain ⟨d, hd, hsent, hpending, hreported, hcb'⟩ :=
      sendPacket_willing he t (encodePubAck · .pubrec id)
    have hpacket : Client.sendPacket env { c with
          pendingQos2In := c.pendingQos2In ++ [⟨id.toNat, topic, payload, false⟩] }
        (encodePubrec · (UInt16.ofNat id.toNat)) = some (true, d) := by
      rw [UInt16.ofNat_toNat]
      exact hd
    refine ⟨d, ?_, ?_, ?_, ?_, hcb'⟩
    · simp only [seen, OfNat.ofNat_ne_zero, if_false, hpacket]
    · rw [encoded_answer (by decide)] at hsent
      exact acks_sent_answer rfl _ hsent
    · rw [if_pos rfl, append_nil]
      exact congrArg (List.filterMap ClientReport.delivered) hreported
    · rw [if_pos rfl]
      exact hpending
  · rw [if_pos (by simpa [seen] using htwo), hcb, if_pos rfl]
    refine ⟨_, rfl, ?_, ?_, ?_, hcb.symm ▸ rfl⟩
    · rw [if_neg htwo, append_nil]
      rfl
    · rw [if_neg htwo]
      exact messages_report c _
    · rw [if_neg htwo, append_nil]
      rfl

theorem onPubrel_serves (he : env.willing) (hcb : c.messageCb = true) (id : UInt16) :
    ∃ d, c.onPubrel env id.toNat = (0, d) ∧
      match c.pendingQos2In.find? fun p => p.packetId = id.toNat with
      | none => d = c
      | some p => c.Serves d [answer .pubcomp (u16 id.toNat)] [(p.topic, p.payload, 2)]
          (c.pendingQos2In.eraseP fun p => p.packetId = id.toNat) := by
  unfold Client.onPubrel
  cases hp : c.pendingQos2In.find? fun p => p.packetId = id.toNat with
  | none => exact ⟨c, rfl, rfl⟩
  | some p =>
    let t : Client := { c with
      pendingQos2In := c.pendingQos2In.eraseP fun p => p.packetId = id.toNat }
    obtain ⟨d, hd, hsent, hpending, hreported, hcb'⟩ :=
      sendPacket_willing he t (encodePubAck · .pubcomp id)
    have hpacket : t.trySend env (encodePubcomp · (UInt16.ofNat id.toNat)) = d := by
      rw [UInt16.ofNat_toNat]
      unfold Client.trySend
      rw [show t.sendPacket env (encodePubcomp · id) = some (true, d) from hd]
      rfl
    rw [encoded_answer (by decide)] at hsent
    refine ⟨d.report (.message p.topic p.payload 2 p.retain), ?_, ?_, ?_, hpending, hcb'⟩
    · show ((0 : ℤ), if (t.trySend env (encodePubcomp · (UInt16.ofNat id.toNat))).messageCb then
        (t.trySend env (encodePubcomp · (UInt16.ofNat id.toNat))).report
          (.message p.topic p.payload 2 p.retain)
        else t.trySend env (encodePubcomp · (UInt16.ofNat id.toNat))) = _
      rw [hpacket, if_pos (hcb'.trans hcb)]
    · exact acks_sent_answer rfl _ hsent
    · rw [messages_report]
      exact congrArg (· ++ [(p.topic, p.payload, 2)])
        (congrArg (List.filterMap ClientReport.delivered) hreported)

variable {s : Session} {x y : Inbox}

structure Session.Listens (v : Version) (s : Session) : Prop where
  state : s.p.state = .fixedHeader
  maxPayload : s.p.maxPayload = defaultMaxPayload
  version : s.p.protocolVersion = 5 ↔ v = .v5
  messageCb : s.c.messageCb = true

theorem Client.Serves.of_called {call : Call} {as : List Bytes} {ms : List (Bytes × Bytes × ℕ)}
    {ps : List PendingQos2In} (h : (c.report (.called call)).Serves d as ms ps) :
    c.Serves d as ms ps := by
  have hmessages : (c.report (.called call)).messages = c.messages := by
    rw [messages_report]
    exact append_nil _
  exact ⟨h.acks, h.messages.trans (congrArg (· ++ ms) hmessages), h.pending, h.messageCb⟩

theorem feed_taken (hs : s.Listens v) {bytes : Bytes} (hcb : d.messageCb = s.c.messageCb)
    (h : Taken (clientCallbacks env) env.alloc s.p s.c bytes d) :
    (s.feedParserOrFail env bytes).c = d ∧ (s.feedParserOrFail env bytes).Listens v := by
  obtain ⟨q, hexec, hstate, hmax, hversion⟩ := h
  have hfeed : s.feedParserOrFail env bytes = ⟨q, d⟩ := by
    unfold Session.feedParserOrFail
    rw [hexec]
  rw [hfeed]
  refine ⟨rfl, hstate, hmax.trans hs.maxPayload, ?_, hcb.trans hs.messageCb⟩
  rw [hversion]
  exact hs.version

variable {id : UInt16}

theorem read_message (he : env.willing) (hs : s.Listens v) {dup retain : Bool}
    {props topic payload : Bytes}
    (hk : (Inbound.publish dup retain qos id props topic payload).wellFormed v) :
    ∃ d, s.c.Serves d (if qos = 2 then [answer .pubrec (u16 id.toNat)] else [])
        (if qos = 2 then [] else [(topic, payload, qos)])
        (s.c.pendingQos2In ++ if qos = 2 then [⟨id.toNat, topic, payload, false⟩] else []) ∧
      (s.feedParserOrFail env
        ((Inbound.publish dup retain qos id props topic payload).bytes v)).c = d ∧
      (s.feedParserOrFail env
        ((Inbound.publish dup retain qos id props topic payload).bytes v)).Listens v := by
  have hcall : (s.c.report (.called (.publish (seen qos id topic payload)))).messageCb = true :=
    hs.messageCb
  obtain ⟨d, hd, hserves⟩ := onPublish_serves he hcall hk.1 id topic payload
  have htaken : Taken (clientCallbacks env) env.alloc s.p s.c
      ((Inbound.publish dup retain qos id props topic payload).bytes v) d :=
    taken_publish he.alloc hs.state hs.maxPayload hs.version hk hd
  exact ⟨d, hserves.of_called, feed_taken hs hserves.messageCb htaken⟩

variable {tail : Option (ReleaseReason × Option Bytes)}

theorem read_release (he : env.willing) (hs : s.Listens v)
    (hk : (Inbound.pubrel id tail).wellFormed v) (hr : (Inbound.pubrel id tail).readable v) :
    ∃ d, s.c.Serves d (if (s.c.pendingQos2In.find? fun p => p.packetId = id.toNat).isSome then
          [answer .pubcomp (u16 id.toNat)] else [])
        ((s.c.pendingQos2In.find? fun p => p.packetId = id.toNat).map
          fun p => (p.topic, p.payload, 2)).toList
        (s.c.pendingQos2In.eraseP fun p => p.packetId = id.toNat) ∧
      (s.feedParserOrFail env ((Inbound.pubrel id tail).bytes v)).c = d ∧
      (s.feedParserOrFail env ((Inbound.pubrel id tail).bytes v)).Listens v := by
  let e := s.c.report (.called (.pubrel id.toNat))
  obtain ⟨d, hd, hserves⟩ := onPubrel_serves (c := e) he hs.messageCb id
  have htail : v = .v5 → ∀ props, tail ≠ some (.notFound, props) := by
    rintro hv props rfl
    exact hr hv rfl
  have htaken : Taken (clientCallbacks env) env.alloc s.p s.c ((Inbound.pubrel id tail).bytes v) d :=
    taken_pubrel he.alloc hs.state hs.maxPayload hs.version hk htail hd
  have hdone : e.Serves d
      (if (s.c.pendingQos2In.find? fun p => p.packetId = id.toNat).isSome then
        [answer .pubcomp (u16 id.toNat)] else [])
      ((s.c.pendingQos2In.find? fun p => p.packetId = id.toNat).map
        fun p => (p.topic, p.payload, 2)).toList
      (s.c.pendingQos2In.eraseP fun p => p.packetId = id.toNat) := by
    have hpending : e.pendingQos2In = s.c.pendingQos2In := rfl
    rw [hpending] at hserves
    cases hp : s.c.pendingQos2In.find? fun p => p.packetId = id.toNat with
    | none =>
      rw [hp] at hserves
      have hsame : s.c.pendingQos2In.eraseP (fun p => p.packetId = id.toNat) = s.c.pendingQos2In :=
        eraseP_of_forall_not fun p hmem => List.find?_eq_none.mp hp p hmem
      obtain rfl : d = e := hserves
      exact ⟨(append_nil _).symm, (append_nil _).symm, hsame.symm, rfl⟩
    | some p =>
      rw [hp] at hserves
      exact hserves
  exact ⟨d, hdone.of_called, feed_taken hs hdone.messageCb htaken⟩

theorem read_unread (he : env.willing) (hs : s.Listens v)
    (hk : (Inbound.pubrel id tail).wellFormed v) (hr : ¬ (Inbound.pubrel id tail).readable v) :
    (s.feedParserOrFail env ((Inbound.pubrel id tail).bytes v)).c.acks = s.c.acks := by
  obtain ⟨rfl, hreason⟩ : v = .v5 ∧ tail.map Prod.fst = some .notFound := by
    simpa [Inbound.readable] using hr
  obtain ⟨⟨reason, props⟩, rfl, rfl⟩ := map_eq_some_iff.mp hreason
  have hlen : (u16 id.toNat ++ Version.tail .v5 (some (.notFound, props))).length ≤
      defaultMaxPayload := hk
  have hmax : defaultMaxPayload < 2 ^ 28 := by decide
  have hsome : encodeRemainingLength
      (u16 id.toNat ++ Version.tail .v5 (some (.notFound, props))).length ≠ none := fun h => by
    have := encodeRemainingLength_none h
    omega
  obtain ⟨rl, hrl⟩ := ne_none_iff_exists'.mp hsome
  have htail : (Version.tail .v5 (some (.notFound, props))).length ≤ defaultMaxPayload := by
    rw [length_append] at hlen
    omega
  have hflags : 2 < 16 := by decide
  have htype : PacketType.pubrel ≠ .auth := by decide
  obtain ⟨cap, hexec⟩ := execute_frame (clientCallbacks env) he.alloc hs.state s.c htype hflags hrl
    (by simp [u16]) (by rw [hs.maxPayload]; exact hlen)
  have hnone := packetIdWithV5Props_notFound (hs.version.mpr rfl) .pubrel 2 cap id htail
  have hreply : dispatch (clientCallbacks env) env.alloc (s.p.holding .pubrel 2
      (u16 id.toNat ++ Version.tail .v5 (some (.notFound, props))) cap) s.c =
      failed (s.p.holding .pubrel 2
        (u16 id.toNat ++ Version.tail .v5 (some (.notFound, props))) cap) s.c := by
    show parsePacketId _ _ _ _ = _
    unfold parsePacketId
    rw [hnone]
  rw [hreply] at hexec
  have hbytes : (Inbound.pubrel id (some (.notFound, props))).bytes .v5 =
      frame .pubrel 2 rl (u16 id.toNat ++ Version.tail .v5 (some (.notFound, props))) := by
    simp only [Inbound.bytes, Inbound.type, Inbound.flags, Inbound.body, hrl, getD_some]
  unfold Session.feedParserOrFail
  rw [hbytes, hexec]
  have hsent := fun msg => (fail_failed env s.c msg).sent
  exact congrArg (List.filter isAck) (hsent _)

def Follows (ps : List PendingQos2In) (opened : ℕ → Option (Bytes × Bytes)) : Prop :=
  ∀ id, (ps.find? fun p => p.packetId = id).map (fun p => (p.topic, p.payload)) = opened id

variable {ps : List PendingQos2In} {opened : ℕ → Option (Bytes × Bytes)}

theorem Follows.closed (h : Follows ps opened) {id : ℕ} (hid : opened id = none) :
    ∀ p ∈ ps, p.packetId ≠ id := by
  intro p hp heq
  have hnone : ps.find? (fun p => p.packetId = id) = none :=
    map_eq_none_iff.mp ((h id).trans hid)
  exact List.find?_eq_none.mp hnone p hp (by simpa using heq)

theorem Follows.hold (h : Follows ps opened) (e : PendingQos2In) :
    Follows (ps ++ [e]) (match opened e.packetId with
      | some _ => opened
      | none => Function.update opened e.packetId (some (e.topic, e.payload))) := by
  intro id
  rw [List.find?_append]
  by_cases hid : id = e.packetId
  · subst hid
    cases hopen : opened e.packetId with
    | some m =>
      obtain ⟨p, hp, hm⟩ := map_eq_some_iff.mp ((h e.packetId).trans hopen)
      rw [hp]
      exact (congrArg some hm).trans hopen.symm
    | none =>
      rw [map_eq_none_iff.mp ((h e.packetId).trans hopen)]
      simp
  · have hother : [e].find? (fun p => p.packetId = id) = none := by simp [Ne.symm hid]
    rw [hother, or_none, h id]
    cases opened e.packetId with
    | some m => rfl
    | none => exact (Function.update_of_ne hid _ _).symm

theorem find_eraseP_other {id id' : ℕ} (hne : id' ≠ id) :
    (ps.eraseP fun p => p.packetId = id).find? (fun p => p.packetId = id') =
      ps.find? fun p => p.packetId = id' := by
  induction ps with
  | nil => rfl
  | cons p ps ih =>
    by_cases hp : p.packetId = id
    · rw [eraseP_cons_of_pos (by simpa using hp), List.find?_cons_of_neg]
      simpa [hp] using hne.symm
    · rw [eraseP_cons_of_neg (by simpa using hp), List.find?_cons, List.find?_cons, ih]

theorem filter_eraseP (f : PendingQos2In → Bool) : (ps.eraseP f).filter f = (ps.filter f).tail := by
  induction ps with
  | nil => rfl
  | cons p ps ih =>
    by_cases hp : f p = true
    · rw [eraseP_cons_of_pos hp, filter_cons_of_pos hp, tail_cons]
    · rw [eraseP_cons_of_neg hp, filter_cons_of_neg hp, filter_cons_of_neg hp, ih]

theorem Follows.release (h : Follows ps opened) {id : ℕ}
    (hone : (ps.filter fun p => p.packetId = id).length = 1) :
    Follows (ps.eraseP fun p => p.packetId = id) (Function.update opened id none) := by
  intro id'
  by_cases hid : id' = id
  · subst hid
    have hnone : (ps.eraseP fun p => p.packetId = id').filter (fun p => p.packetId = id') = [] := by
      rw [filter_eraseP]
      exact length_eq_zero_iff.mp (by rw [length_tail]; omega)
    rw [Function.update_self, ← List.head?_filter, hnone]
    rfl
  · rw [Function.update_of_ne hid, find_eraseP_other hid]
    exact h id'

structure Inbox.Inv (v : Version) (x : Inbox) : Prop where
  listens : x.s.Listens v
  acks : x.s.c.acks = x.owed
  messages : x.s.c.messages = x.due
  follows : Follows x.s.c.pendingQos2In x.opened

theorem Inbox.Inv.delivered (h : x.Inv v) : x.Delivered :=
  ⟨h.acks, h.messages, fun _ hid => h.follows.closed hid⟩

variable {k : Inbound}

theorem inbox_step_cases (hy : x.step env v k = some y) : k.wellFormed v ∧ k.sentToClient ∧
      y = { x.expect k with
        s := x.s.feedParserOrFail env (k.bytes v)
        owed := x.owed ++ k.answers v } := by
  unfold Inbox.step at hy
  split at hy
  · next hk => exact ⟨hk.1, hk.2, (some.inj hy).symm⟩
  · simp at hy

theorem message_inv (he : env.willing) (h : x.Inv v) {dup retain : Bool}
    {props topic payload : Bytes} (hq : qos ≠ 1)
    (hy : x.step env v (.publish dup retain qos id props topic payload) = some y) : y.Inv v := by
  obtain ⟨hk, -, rfl⟩ := inbox_step_cases hy
  obtain ⟨d, hserves, hd, hlistens⟩ := read_message he h.listens hk
  refine ⟨hlistens, ?_, ?_, ?_⟩
  · dsimp only
    rw [hd, hserves.acks, h.acks]
    simp [Inbound.answers, hq]
  · dsimp only [Inbox.expect]
    rw [hd, hserves.messages, h.messages]
    by_cases htwo : qos = 2
    · rw [if_pos htwo, if_pos htwo, append_nil]
      cases x.opened id.toNat with
      | none => rfl
      | some m => rfl
    · rw [if_neg htwo, if_neg htwo]
  · dsimp only [Inbox.expect]
    rw [hd, hserves.pending]
    by_cases htwo : qos = 2
    · rw [if_pos htwo, if_pos htwo]
      have hheld := h.follows.hold ⟨id.toNat, topic, payload, false⟩
      dsimp only at hheld
      cases hopen : x.opened id.toNat with
      | none =>
        rw [hopen] at hheld
        exact hheld
      | some m =>
        rw [hopen] at hheld
        exact hheld
    · rw [if_neg htwo, if_neg htwo, append_nil]
      exact h.follows

theorem find_of_entries {c : Client} {id : ℕ} (h : (c.entries id).length = 1) :
    ∃ p, c.pendingQos2In.find? (fun p => p.packetId = id) = some p := by
  rw [← List.head?_filter]
  obtain ⟨p, hp⟩ := length_eq_one_iff.mp h
  exact ⟨p, congrArg List.head? hp⟩

theorem release_inv (he : env.willing) (h : x.Inv v) (ho : x.Orderly v (.pubrel id tail))
    (hy : x.step env v (.pubrel id tail) = some y) : y.Inv v := by
  obtain ⟨hk, -, rfl⟩ := inbox_step_cases hy
  obtain ⟨hone, hr⟩ := ho
  obtain ⟨d, hserves, hd, hlistens⟩ := read_release he h.listens hk hr
  obtain ⟨p, hp⟩ := find_of_entries hone
  have hopen : x.opened id.toNat = some (p.topic, p.payload) := by
    rw [← h.follows, hp]
    rfl
  rw [hp] at hserves
  refine ⟨hlistens, ?_, ?_, ?_⟩
  · dsimp only
    rw [hd, hserves.acks, h.acks]
    rfl
  · dsimp only [Inbox.expect]
    rw [hd, hserves.messages, h.messages, hopen]
    rfl
  · dsimp only [Inbox.expect]
    rw [hd, hserves.pending, hopen]
    exact h.follows.release hone

theorem sentToClient_cases (hk : k.wellFormed v) (hs : k.sentToClient) :
    (∃ dup retain qos id props topic payload,
      k = .publish dup retain qos id props topic payload) ∨ ∃ id tail, k = .pubrel id tail := by
  cases k with
  | publish dup retain qos id props topic payload => exact Or.inl ⟨_, _, _, _, _, _, _, rfl⟩
  | pubrel id tail => exact Or.inr ⟨id, tail, rfl⟩
  | subscribe => simp [Inbound.sentToClient, Inbound.type] at hs
  | unsubscribe => simp [Inbound.sentToClient, Inbound.type] at hs
  | pingreq => simp [Inbound.sentToClient, Inbound.type] at hs
  | other k =>
    have hother : k.type ∉ [.publish, .pubrel, .subscribe, .unsubscribe, .pingreq] := hk
    rcases hs with hs | hs
    · exact absurd (show k.type ∈ _ from (show k.type = .publish from hs) ▸ by simp) hother
    · exact absurd (show k.type ∈ _ from (show k.type = .pubrel from hs) ▸ by simp) hother

theorem inbox_step_inv (he : env.willing) (h : x.Inv v) (ho : x.Orderly v k)
    (hy : x.step env v k = some y) : y.Inv v := by
  obtain ⟨hk, hsent, -⟩ := inbox_step_cases hy
  rcases sentToClient_cases hk hsent with ⟨_, _, _, _, _, _, _, rfl⟩ | ⟨_, _, rfl⟩
  · exact message_inv he h ho hy
  · exact release_inv he h ho hy

theorem message_orderly (he : env.willing) (h : x.Inv v) {dup retain : Bool}
    {props topic payload : Bytes}
    (hy : x.step env v (.publish dup retain qos id props topic payload) = some y)
    (hd : y.Delivered) : qos ≠ 1 := by
  obtain ⟨hk, -, rfl⟩ := inbox_step_cases hy
  obtain ⟨d, hserves, heq, -⟩ := read_message he h.listens hk
  rintro rfl
  have hacks := hd.acks
  dsimp only at hacks
  rw [heq, hserves.acks, h.acks] at hacks
  simp [Inbound.answers] at hacks

/- A release is acknowledged only when it can be read and its exchange is open, and it leaves
   nothing only when there is one entry. -/
theorem release_orderly (he : env.willing) (h : x.Inv v)
    (hy : x.step env v (.pubrel id tail) = some y) (hd : y.Delivered) :
    x.Orderly v (.pubrel id tail) := by
  obtain ⟨hk, -, rfl⟩ := inbox_step_cases hy
  have hacks := hd.acks
  dsimp only at hacks
  by_cases hr : (Inbound.pubrel id tail).readable v
  · refine ⟨?_, hr⟩
    obtain ⟨d, hserves, heq, -⟩ := read_release he h.listens hk hr
    rw [heq, hserves.acks, h.acks] at hacks
    cases hp : x.s.c.pendingQos2In.find? fun p => p.packetId = id.toNat with
    | none =>
      rw [hp] at hacks
      simp [Inbound.answers] at hacks
    | some p =>
      have hopen : x.opened id.toNat = some (p.topic, p.payload) := by
        rw [← h.follows, hp]
        rfl
      have hclosed := hd.closed id.toNat (by
        dsimp only [Inbox.expect]
        rw [hopen]
        exact Function.update_self _ _ _)
      dsimp only at hclosed
      rw [heq, hserves.pending] at hclosed
      have hnone : (x.s.c.entries id.toNat).tail = [] := by
        unfold Client.entries
        rw [← filter_eraseP]
        exact filter_eq_nil_iff.mpr fun q hq => by simpa using hclosed q hq
      have hsome : x.s.c.entries id.toNat ≠ [] := by
        intro hnil
        rw [← List.head?_filter] at hp
        rw [show x.s.c.pendingQos2In.filter _ = _ from hnil] at hp
        simp at hp
      obtain ⟨q, rest, hqs⟩ := exists_cons_of_ne_nil hsome
      rw [hqs] at hnone ⊢
      rw [show rest = [] from hnone]
      rfl
  · rw [read_unread he h.listens hk hr, h.acks] at hacks
    simp [Inbound.answers] at hacks

theorem orderly_of_delivered (he : env.willing) (h : x.Inv v) (hy : x.step env v k = some y)
    (hd : y.Delivered) : x.Orderly v k := by
  obtain ⟨hk, hsent, -⟩ := inbox_step_cases hy
  rcases sentToClient_cases hk hsent with ⟨_, _, _, _, _, _, _, rfl⟩ | ⟨_, _, rfl⟩
  · exact message_orderly he h hy hd
  · exact release_orderly he h hy hd

theorem start_inv (hs : s.Listens v) (hnone : s.c.pendingQos2In = []) : (Inbox.start s).Inv v where
  listens := hs
  acks := rfl
  messages := rfl
  follows id := by
    show (s.c.pendingQos2In.find? _).map _ = none
    rw [hnone]
    rfl

/-- What a client receives is delivered and acknowledged all along a run if and only if there is
no QoS 1 message in it, and each release can be read and finds exactly one entry. -/
theorem inbound_delivered_iff (he : env.willing) (hs : s.Listens v)
    (hnone : s.c.pendingQos2In = []) (ks : List Inbound) :
    Along (Inbox.step env v) Inbox.Delivered (Inbox.start s) ks ↔
      Guarded (Inbox.step env v) (Inbox.Orderly v) (Inbox.start s) ks :=
  along_iff_guarded (P := Inbox.Inv v) (fun _ h => h.delivered)
    (fun _ _ _ h ho hy => inbox_step_inv he h ho hy)
    (fun _ _ _ h hy hd => orderly_of_delivered he h hy hd) (start_inv hs hnone)

theorem ample_willing : ample.willing := ⟨fun _ => rfl, fun _ => rfl⟩

theorem created_listens : (createSession ample.alloc).Listens .v311 :=
  ⟨rfl, by decide, by decide, rfl⟩

def qos2Message (dup : Bool) (payload : Bytes) : Inbound :=
  .publish dup false 2 7 [] (lit "t") payload

theorem sample_delivered : Along (Inbox.step ample .v311) Inbox.Delivered
    (Inbox.start (createSession ample.alloc))
    [.publish false true 0 0 [] (lit "t") [1], qos2Message false [2], .pubrel 7 none,
      qos2Message false [3]] :=
  (inbound_delivered_iff ample_willing created_listens rfl _).mpr (by decide +kernel)

/-- A QoS 1 message is handed over, and its sender never gets the PUBACK. -/
theorem qos1_message_unanswered :
    ¬ ∀ (env : ClientEnv) (v : Version) (s : Session) (ks : List Inbound) (x : Inbox),
      env.willing → s.Listens v → s.c.pendingQos2In = [] →
      exec (Inbox.step env v) (Inbox.start s) ks = some x → x.Delivered := by
  intro hall
  have hrun : ((exec (Inbox.step ample .v311) (Inbox.start (createSession ample.alloc))
      [.publish false false 1 7 [] (lit "t") [1]]).map fun x => (x.s.c.acks, x.owed)) =
      some ([], [answer .puback [0, 7]]) := by decide +kernel
  obtain ⟨x, hx, hacks⟩ := map_eq_some_iff.mp hrun
  obtain ⟨hsent, howed⟩ := Prod.mk.inj hacks
  have hdelivered := hall ample .v311 _ _ x ample_willing created_listens rfl hx
  have heq := hdelivered.acks
  rw [hsent, howed] at heq
  simp at heq

end Voxlib.Mqtt
