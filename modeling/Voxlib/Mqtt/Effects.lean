import Mathlib.Data.List.TakeWhile
import Voxlib.Mqtt.Inbound

/-!
# What the server does for a packet

`Answered c as s t`: from `s` to `t` the server sent `as` to `c` and handed no QoS 2 message on.
-/

namespace Voxlib.Mqtt
open CStr Wire List

def PacketType.acknowledges (type : PacketType) : Bool :=
  type ∈ [.puback, .pubrec, .pubcomp, .suback, .unsuback, .pingresp]

def isAck : Bytes → Bool
  | [] => false
  | b :: _ => ((PacketType.ofCode (b.toNat / 16)).map PacketType.acknowledges).getD false

def Conn.acks (x : Conn) : List Bytes := x.sent.filter isAck

/- A QoS 2 message of the connection. A will follows the report of its disconnect. -/
def Report.message (c : ConnId) : Report → Option (Bytes × Bytes)
  | .publish d topic payload qos => if d = c ∧ qos = 2 then some (topic, payload) else none
  | _ => none

/- The QoS 2 messages of the connection that were handed to the subscribers while it was open. -/
def handed (c : ConnId) (log : List Report) : List (Bytes × Bytes) :=
  (log.takeWhile (· ≠ .disconnect c)).filterMap (Report.message c)

theorem handed_append_open {c : ConnId} {log : List Report} (h : .disconnect c ∉ log)
    (new : List Report) : handed c (log ++ new) = handed c log ++ handed c new := by
  have hall : ∀ r ∈ log, decide (r ≠ .disconnect c) = true := by
    intro r hr
    simp only [ne_eq, decide_not, Bool.not_eq_eq_eq_not, Bool.not_true, decide_eq_false_iff_not]
    rintro rfl
    exact h hr
  unfold handed
  rw [takeWhile_append_of_pos hall, filterMap_append, takeWhile_eq_self_iff.mpr hall]

theorem handed_append_closed {c : ConnId} {log : List Report} (h : .disconnect c ∈ log)
    (new : List Report) : handed c (log ++ new) = handed c log := by
  obtain ⟨front, back, rfl⟩ := append_of_mem h
  unfold handed
  have hstop : ∀ tail : List Report,
      (front ++ .disconnect c :: tail).takeWhile (· ≠ .disconnect c) =
        front.takeWhile (· ≠ .disconnect c) := by
    intro tail
    induction front with
    | nil => simp
    | cons r front ih =>
      rw [cons_append, takeWhile_cons, takeWhile_cons]
      split
      · rw [ih (by simp)]
      · rfl
  rw [append_assoc, cons_append, hstop, hstop]

theorem handed_nil_append {c : ConnId} {a b : List Report} (ha : handed c a = [])
    (hb : handed c b = []) : handed c (a ++ b) = [] := by
  by_cases h : .disconnect c ∈ a
  · rw [handed_append_closed h, ha]
  · rw [handed_append_open h, ha, hb, nil_append]

def Report.plain (r : Report) : Prop := ∀ c, r ≠ .disconnect c ∧ r.message c = none

theorem handed_plain {new : List Report} (h : ∀ r ∈ new, r.plain) (c : ConnId) :
    handed c new = [] := by
  unfold handed
  rw [filterMap_eq_nil_iff]
  intro r hr
  exact (h r (takeWhile_subset _ hr) c).2

structure Answered (c : ConnId) (as : List Bytes) (s t : Server) : Prop where
  at_ : (t.conns c).acks = (s.conns c).acks ++ as
  elsewhere : ∀ d, d ≠ c → (t.conns d).acks = (s.conns d).acks
  pending : ∀ d, (t.conns d).pendingQos2In = (s.conns d).pendingQos2In
  version : ∀ d, (t.conns d).protocolVersion = (s.conns d).protocolVersion
  reported : ∃ new, t.reported = s.reported ++ new ∧ ∀ r ∈ new, r.plain

abbrev Quiet (c : ConnId) : Server → Server → Prop := Answered c []

variable {c : ConnId} {s t w : Server}

theorem Answered.refl (c : ConnId) (s : Server) : Quiet c s s :=
  ⟨(append_nil _).symm, fun _ _ => rfl, fun _ => rfl, fun _ => rfl,
    [], (append_nil _).symm, fun _ hr => absurd hr not_mem_nil⟩

theorem Answered.trans {as bs : List Bytes} (h : Answered c as s t) (h' : Answered c bs t w) :
    Answered c (as ++ bs) s w := by
  obtain ⟨new, hnew, hplain⟩ := h.reported
  obtain ⟨new', hnew', hplain'⟩ := h'.reported
  refine ⟨?_, fun d hd => ?_, fun d => ?_, fun d => ?_, new ++ new', ?_, fun r hr => ?_⟩
  · rw [h'.at_, h.at_, append_assoc]
  · rw [h'.elsewhere d hd, h.elsewhere d hd]
  · rw [h'.pending, h.pending]
  · rw [h'.version, h.version]
  · rw [hnew', hnew, append_assoc]
  · exact (mem_append.mp hr).elim (hplain r) (hplain' r)

theorem Quiet.trans (h : Quiet c s t) (h' : Quiet c t w) : Quiet c s w := Answered.trans h h'

theorem Quiet.any (h : Quiet c s t) (d : ConnId) : Quiet d s t := by
  have hat : ∀ e, (t.conns e).acks = (s.conns e).acks := by
    intro e
    by_cases he : e = c
    · rw [he, h.at_, append_nil]
    · exact h.elsewhere e he
  exact ⟨by rw [hat, append_nil], fun e _ => hat e, h.pending, h.version, h.reported⟩

theorem Quiet.foldl {α : Type*} {f : Server → α → Server} {l : List α}
    (hf : ∀ s a, a ∈ l → Quiet c s (f s a)) (s : Server) : Quiet c s (l.foldl f s) := by
  induction l generalizing s with
  | nil => exact Answered.refl c s
  | cons a l ih =>
    have hhead := hf s a mem_cons_self
    have htail := ih (fun s b hb => hf s b (mem_cons_of_mem a hb)) (f s a)
    exact hhead.trans htail

theorem modify_conns (s : Server) (c : ConnId) (f : Conn → Conn) (d : ConnId) :
    (s.modify c f).conns d = if d = c then f (s.conns c) else s.conns d :=
  Function.update_apply s.conns c (f (s.conns c)) d

theorem answered_modify {f : Conn → Conn} {as : List Bytes}
    (ha : (f (s.conns c)).acks = (s.conns c).acks ++ as)
    (hp : (f (s.conns c)).pendingQos2In = (s.conns c).pendingQos2In)
    (hv : (f (s.conns c)).protocolVersion = (s.conns c).protocolVersion) :
    Answered c as s (s.modify c f) := by
  refine ⟨?_, fun d hd => ?_, fun d => ?_, fun d => ?_, (Answered.refl c s).reported⟩
  · rw [modify_conns, if_pos rfl, ha]
  · rw [modify_conns, if_neg hd]
  · rw [modify_conns]
    split
    · next h => rw [h, hp]
    · rfl
  · rw [modify_conns]
    split
    · next h => rw [h, hv]
    · rfl

theorem quiet_report {r : Report} (hr : r.plain) : Quiet c s (s.report r) := by
  refine ⟨(append_nil _).symm, fun _ _ => rfl, fun _ => rfl, fun _ => rfl, [r], rfl, ?_⟩
  intro r' hr'
  obtain rfl := mem_singleton.mp hr'
  exact hr

theorem acks_sent (x : Conn) (b : Bytes) :
    ({ x with sent := x.sent ++ [b] } : Conn).acks = x.acks ++ [b].filter isAck := by
  simp only [Conn.acks, filter_append]

theorem isAck_frame (type : PacketType) {flags : ℕ} (hf : flags < 16) (rl body : Bytes) :
    isAck (frame type flags rl body) = type.acknowledges := by
  have hb := firstByte_toNat type hf
  have hcode : (firstByte type flags).toNat / 16 = type.code := by omega
  simp only [isAck, frame]
  rw [hcode, ofCode_code]
  rfl

theorem encoded_packet (type : PacketType) (flags : ℕ) {need : ℕ} {bytes : Bytes}
    (hlen : bytes.length = need) : encoded (encodePacket type flags need (putting bytes)) =
      if need < 2 ^ 28 then frame type flags ((encodeRemainingLength need).getD []) bytes
      else [] := by
  have hbuf : (List.replicate (encodePacket type flags need (putting bytes) []).1 (0 : UInt8)).length
      = (encodePacket type flags need (putting bytes) []).1 := length_replicate
  rcases encodePacket_frame hlen hbuf with ⟨hbig, hzero⟩ | ⟨rl, hrl, hframe⟩
  · rw [if_neg (by omega)]
    unfold encoded
    rw [hzero]
    cases hrl : encodeRemainingLength need with
    | none => simp [encodePacket, hrl]
    | some rl => simp [encodePacket, hrl] at hzero
  · rw [if_pos (encodeRemainingLength_lt hrl), hrl, Option.getD_some]
    exact hframe

theorem encoded_isAck {type : PacketType} (ht : type.acknowledges = false) {flags : ℕ}
    (hf : flags < 16) {need : ℕ} {bytes : Bytes} (hlen : bytes.length = need) :
    isAck (encoded (encodePacket type flags need (putting bytes))) = false := by
  rw [encoded_packet type flags hlen]
  split
  · rw [isAck_frame type hf, ht]
  · rfl

structure Env.willing (env : Env) : Prop where
  alloc : ∀ n, env.alloc n
  write : ∀ b, env.write b

variable {env : Env}

theorem connSend_answered (he : env.willing) (s : Server) (c : ConnId) (b : Bytes) :
    Answered c ([b].filter isAck) s (connSend env s c b) := by
  unfold connSend
  rw [if_pos ⟨he.alloc _, he.write b⟩]
  exact answered_modify (acks_sent _ b) rfl rfl

theorem connSend_quiet {b : Bytes} (hb : isAck b = false) (s : Server) (c : ConnId) :
    Quiet c s (connSend env s c b) := by
  unfold connSend
  split
  · refine answered_modify ?_ rfl rfl
    rw [acks_sent, filter_singleton, hb]
    rfl
  · exact Answered.refl c s

theorem sendEncoded_ack (he : env.willing) {type : PacketType} (ht : type.acknowledges = true)
    {flags need : ℕ} (hf : flags < 16) {bytes : Bytes} (hlen : bytes.length = need)
    (hneed : need < 2 ^ 28) (s : Server) (c : ConnId) :
    ∃ t, sendEncoded env s c (encodePacket type flags need (putting bytes)) = some t ∧
      Answered c [frame type flags ((encodeRemainingLength need).getD []) bytes] s t := by
  refine ⟨_, if_pos (he.alloc _), ?_⟩
  have hsend := connSend_answered he s c (encoded (encodePacket type flags need (putting bytes)))
  have hack : isAck (frame type flags ((encodeRemainingLength need).getD []) bytes) = true := by
    rw [isAck_frame type hf, ht]
  rw [encoded_packet type flags hlen, if_pos hneed, filter_singleton, hack] at hsend
  rw [encoded_packet type flags hlen, if_pos hneed]
  exact hsend

theorem sendEncoded_quiet {enc : Bytes → ℕ × Bytes} (henc : isAck (encoded enc) = false)
    (s : Server) (c : ConnId) {t : Server} (h : sendEncoded env s c enc = some t) :
    Quiet c s t := by
  unfold sendEncoded at h
  split at h
  · obtain rfl := Option.some.inj h
    exact connSend_quiet henc s c
  · simp at h

theorem sendEncoded_getD_quiet {enc : Bytes → ℕ × Bytes} (henc : isAck (encoded enc) = false)
    (s : Server) (c : ConnId) : Quiet c s ((sendEncoded env s c enc).getD s) := by
  cases h : sendEncoded env s c enc with
  | none => exact Answered.refl c s
  | some t => exact sendEncoded_quiet henc s c h

variable {qos : ℕ}

theorem encodePublishIn_isAck (v : Version) (hq : qos ≤ 2) (retain : Bool) (pid : UInt16)
    (topic payload : Bytes) :
    isAck (encoded (encodePublishIn v · (UInt8.ofNat qos) retain pid topic payload)) = false := by
  by_cases ht : topic.length ≤ 65535
  · have hqos : UInt8.ofNat qos ≤ 2 := by
      rw [UInt8.le_iff_toNat_le, UInt8.toNat_ofNat', Nat.mod_eq_of_lt (by omega)]
      exact hq
    simp only [encodePublishIn_eq v ht]
    exact encoded_isAck rfl (publishFlags_read hqos retain).1
      (publishBody_length v _ pid topic payload)
  · have hnil : ∀ buf, encodePublishIn v buf (UInt8.ofNat qos) retain pid topic payload =
        (0, buf) := by
      intro buf
      rw [encodePublishIn_with]
      unfold encodePublishWith
      rw [if_pos (by omega)]
    simp [encoded, hnil, isAck]

theorem publishTo_quiet (hq : qos ≤ 2) {retain : Bool} {topic payload : Bytes}
    (h : publishTo env s c qos retain topic payload = some t) : Quiet c s t := by
  unfold publishTo at h
  dsimp only at h
  split at h
  · simp at h
  · split at h
    · simp at h
    · split at h
      · obtain rfl := Option.some.inj h
        refine Quiet.trans ?_ (connSend_quiet (encodePublishIn_isAck _ hq _ _ _ _) _ c)
        exact answered_modify (append_nil _).symm rfl rfl
      · obtain rfl := Option.some.inj h
        exact connSend_quiet (encodePublishIn_isAck _ hq _ _ _ _) _ c

theorem forwardTo_quiet (topic payload : Bytes) (qos : ℕ) (retain : Bool) (s : Server)
    (c : ConnId) : Quiet c s (forwardTo env topic payload qos retain s c) := by
  unfold forwardTo
  split
  · exact Answered.refl c s
  · next sub _ =>
    have hgrant : (if sub.qos < qos then sub.qos else qos) ≤ 2 := by
      have := sub.granted
      split <;> omega
    dsimp only
    generalize (if sub.qos < qos then sub.qos else qos) = grantQos at hgrant ⊢
    split
    · exact Answered.refl c s
    · next t ht =>
      have hquiet := publishTo_quiet hgrant ht
      split
      · exact hquiet.trans (answered_modify (append_nil _).symm rfl rfl)
      · exact hquiet

theorem retainMessage_quiet (s : Server) (c : ConnId) (topic payload : Bytes) (qos : ℕ) :
    Quiet c s (retainMessage env s topic payload qos) := by
  have hrefl := Answered.refl c s
  unfold retainMessage
  dsimp only
  split
  · exact ⟨hrefl.at_, hrefl.elsewhere, hrefl.pending, hrefl.version, hrefl.reported⟩
  · split
    · exact ⟨hrefl.at_, hrefl.elsewhere, hrefl.pending, hrefl.version, hrefl.reported⟩
    · split
      · exact ⟨hrefl.at_, hrefl.elsewhere, hrefl.pending, hrefl.version, hrefl.reported⟩
      · exact hrefl

theorem forward_quiet (env : Env) (s : Server) (c d : ConnId) (topic payload : Bytes) (qos : ℕ)
    (retain : Bool) : Quiet c (s.report (.publish d topic payload qos))
      (forwardMessageToSubscribers env s d topic payload qos retain) := by
  have hstep : ∀ u e, Quiet c u (forwardTo env topic payload qos retain u e) := fun u e =>
    (forwardTo_quiet topic payload qos retain u e).any c
  have hfold := Quiet.foldl (l := s.connections) (fun u e _ => hstep u e)
    (s.report (.publish d topic payload qos))
  unfold forwardMessageToSubscribers
  dsimp only
  split
  · exact hfold.trans (retainMessage_quiet _ c topic payload qos)
  · exact hfold

theorem publish_plain (hq : qos ≠ 2) (c : ConnId) (topic payload : Bytes) :
    (Report.publish c topic payload qos).plain := by
  intro d
  simp [Report.message, hq]

theorem forward_quiet_of_ne (hq : qos ≠ 2) (s : Server) (c : ConnId) (topic payload : Bytes)
    (retain : Bool) : Quiet c s (forwardMessageToSubscribers env s c topic payload qos retain) :=
  (quiet_report (publish_plain hq c topic payload)).trans
    (forward_quiet env s c c topic payload qos retain)

def answer (type : PacketType) (body : Bytes) : Bytes :=
  frame type 0 ((encodeRemainingLength body.length).getD []) body

theorem sendEncoded_answer (he : env.willing) (type : PacketType)
    (ht : type.acknowledges = true) {body : Bytes} (hlen : body.length < 2 ^ 28) (s : Server)
    (c : ConnId) :
    ∃ t, sendEncoded env s c (encodePacket type 0 body.length (putting body)) = some t ∧
      Answered c [answer type body] s t :=
  sendEncoded_ack he ht (by norm_num) rfl hlen s c

theorem u16_lt (n : ℕ) : (u16 n).length < 2 ^ 28 := by
  rw [u16_length]
  norm_num

def entry (packetId : UInt16) (topic payload : Bytes) : PendingIn :=
  ⟨packetId.toNat, topic, payload, 2, false⟩

theorem onPublish_qos2 (he : env.willing) (s : Server) (c : ConnId) (id : UInt16)
    (topic payload : Bytes) : ∃ w, onPublishFromClient env s c (seen 2 id topic payload) = (0, w) ∧
      Answered c [answer .pubrec (u16 id.toNat)]
        (s.modify c (·.hold (entry id topic payload))) w := by
  have hid : UInt16.ofNat (seen 2 id topic payload).packetId = id := UInt16.ofNat_toNat
  obtain ⟨w, hsend, hw⟩ := sendEncoded_answer he .pubrec rfl (u16_lt id.toNat)
    (s.modify c (·.hold (entry id topic payload))) c
  refine ⟨w, ?_, hw⟩
  unfold onPublishFromClient
  rw [if_pos (show (seen 2 id topic payload).qos = 2 from rfl), if_neg (by simp [he.alloc]),
    if_neg (by simp [he.alloc]), if_neg (by simp [he.alloc]), hid]
  have hpubrec : sendEncoded env (s.modify c (·.hold (entry id topic payload))) c
      (encodePubrec · id) = some w := hsend
  simp only [entry] at hpubrec
  simp only [seen, OfNat.ofNat_ne_zero, if_false, hpubrec]

theorem onPublish_other (env : Env) (hq : qos ≠ 2) (s : Server) (c : ConnId) (id : UInt16)
    (topic payload : Bytes) :
    ∃ w, onPublishFromClient env s c (seen qos id topic payload) = (0, w) ∧ Quiet c s w := by
  refine ⟨forwardMessageToSubscribers env s c topic payload qos false, if_neg hq, ?_⟩
  exact forward_quiet_of_ne hq s c topic payload false

theorem onPubrel_known (he : env.willing) {s : Server} {c : ConnId} {id : UInt16} {p : PendingIn}
    (hp : (s.conns c).pendingQos2In.find? (fun p => p.packetId = id.toNat) = some p) :
    ∃ t w, onPubrelFromClient env s c id.toNat = (0, w) ∧
      Answered c [answer .pubcomp (u16 id.toNat)] (s.modify c (·.release id.toNat)) t ∧
      Quiet c (t.report (.publish c p.topic p.payload p.qos)) w := by
  have hid : UInt16.ofNat id.toNat = id := UInt16.ofNat_toNat
  obtain ⟨t, hsend, ht⟩ := sendEncoded_answer he .pubcomp rfl (u16_lt id.toNat)
    (s.modify c (·.release id.toNat)) c
  refine ⟨t, forwardMessageToSubscribers env t c p.topic p.payload p.qos p.retain, ?_, ht,
    forward_quiet env t c c p.topic p.payload p.qos p.retain⟩
  unfold onPubrelFromClient
  rw [hp]
  dsimp only
  rw [hid, show sendEncoded env _ c (encodePubcomp · id) = some t from hsend]
  rfl

theorem onPubrel_unknown (env : Env) {s : Server} {c : ConnId} {id : ℕ}
    (hp : (s.conns c).pendingQos2In.find? (fun p => p.packetId = id) = none) :
    onPubrelFromClient env s c id = (0, s) := by
  unfold onPubrelFromClient
  rw [hp]

theorem sendRetained_quiet (c : ConnId) (filter : Bytes) (hq : qos ≤ 1) (s : Server)
    (r : Retained) : Quiet c s (sendRetained env c filter qos s r) := by
  have hgrant : (if qos < r.qos then qos else r.qos) ≤ 2 := by
    split <;> omega
  unfold sendRetained
  split
  · cases h : publishTo env s c (if qos < r.qos then qos else r.qos) true r.topic r.payload with
    | none => exact Answered.refl c s
    | some t => exact publishTo_quiet hgrant h
  · exact Answered.refl c s

theorem onSubscribe_quiet (env : Env) (s : Server) (c : ConnId) (filter : Bytes) (qos : ℕ) :
    Quiet c s (onSubscribe env s c filter qos).2 := by
  unfold onSubscribe
  split
  · exact Answered.refl c s
  · split
    · exact Answered.refl c s
    · refine Quiet.trans (answered_modify ?_ rfl rfl) (Quiet.foldl (fun u r _ => ?_) _)
      · exact (append_nil _).symm
      · exact sendRetained_quiet c filter (grantQos_le qos) u r

theorem onSubscribe_granted (he : env.willing) (s : Server) (c : ConnId) (filter : Bytes)
    (qos : ℕ) : ∃ w, onSubscribe env s c filter qos = ((grantQos qos : ℤ), w) ∧ Quiet c s w := by
  refine ⟨_, Prod.ext ?_ rfl, onSubscribe_quiet env s c filter qos⟩
  unfold onSubscribe
  rw [if_neg (by simp [he.alloc]), if_neg (by simp [he.alloc])]

def subackBody (v : Version) (id : UInt16) (codes : Bytes) : Bytes :=
  u16 id.toNat ++ v.props ++ codes

def unsubackBody (v : Version) (id : UInt16) (codes : Bytes) : Bytes :=
  u16 id.toNat ++ v.props ++ v.reasons codes

theorem onSubscribeDone_answered (he : env.willing) (s : Server) (c : ConnId) (id : UInt16)
    {codes : Bytes} (hlen : codes.length ≤ defaultMaxPayload) :
    ∃ w, onSubscribeDone env s c id.toNat codes = (0, w) ∧
      Answered c [answer .suback (subackBody (s.conns c).version id codes)] s w := by
  have hid : UInt16.ofNat id.toNat = id := UInt16.ofNat_toNat
  have hprops : (s.conns c).version.props.length ≤ 1 := by
    cases (s.conns c).version <;> decide
  have hbody : (subackBody (s.conns c).version id codes).length =
      2 + (s.conns c).version.props.length + codes.length := by
    simp only [subackBody, length_append, u16_length]
  have hmax : defaultMaxPayload = 262144 := rfl
  have henc : ∀ buf, encodeSubackIn (s.conns c).version buf id codes =
      encodePacket .suback 0 (subackBody (s.conns c).version id codes).length
        (putting (subackBody (s.conns c).version id codes)) buf := by
    intro buf
    rw [encodeSubackIn_with, hbody]
    rfl
  have hsome := (putVarint_isSome 4 (subackBody (s.conns c).version id codes).length).mpr
    ⟨by omega, by norm_num⟩
  obtain ⟨rl, hrl⟩ := Option.isSome_iff_exists.mp hsome
  have hneed : (encodePacket .suback 0 (subackBody (s.conns c).version id codes).length
      (putting (subackBody (s.conns c).version id codes)) []).1 ≠ 0 := by
    simp [encodePacket, encodeRemainingLength, hrl]
  obtain ⟨w, hsend, hw⟩ := sendEncoded_answer he .suback rfl
    (by omega : (subackBody (s.conns c).version id codes).length < 2 ^ 28) s c
  refine ⟨w, ?_, hw⟩
  unfold onSubscribeDone
  dsimp only
  simp only [hid, henc]
  rw [if_neg hneed, show sendEncoded env s c _ = some w from hsend]

theorem onUnsubscribe_answered (he : env.willing) (s : Server) (c : ConnId) (id : UInt16)
    (filter : Bytes) : ∃ w, onUnsubscribe env s c id.toNat filter = (0, w) ∧
      Answered c [answer .unsuback (unsubackBody (s.conns c).version id [0])] s w := by
  have hid : UInt16.ofNat id.toNat = id := UInt16.ofNat_toNat
  generalize ht : (s.modify c fun x =>
    { x with subscriptions := x.subscriptions.eraseP fun sub => sub.filter = filter }) = t
  have hquiet : Quiet c s t := by
    rw [← ht]
    exact answered_modify (append_nil _).symm rfl rfl
  have hversion : (t.conns c).version = (s.conns c).version := by
    unfold Conn.version
    rw [hquiet.version]
  have hbody : (unsubackBody (s.conns c).version id [0]).length =
      codesNeed (s.conns c).version ((s.conns c).version.reasons [0]) := by
    simp only [unsubackBody, codesNeed, length_append, u16_length]
  have hsmall : codesNeed (s.conns c).version ((s.conns c).version.reasons [0]) < 2 ^ 28 := by
    cases (s.conns c).version <;> decide
  obtain ⟨w, hsend, hw⟩ := sendEncoded_answer he .unsuback rfl
    (by omega : (unsubackBody (s.conns c).version id [0]).length < 2 ^ 28) t c
  refine ⟨w, ?_, Answered.trans hquiet hw⟩
  unfold onUnsubscribe
  dsimp only
  rw [ht, hid, hversion, encodeUnsubackIn_eq, ← hbody]
  rw [show sendEncoded env t c (encodePacket .unsuback 0
    (unsubackBody (s.conns c).version id [0]).length
    (putting (u16 id.toNat ++ (s.conns c).version.props ++ (s.conns c).version.reasons [0]))) =
    some w from hsend]

theorem onPingreq_answered (he : env.willing) (s : Server) (c : ConnId) :
    ∃ w, onPingreq env s c = (0, w) ∧ Answered c [answer .pingresp []] s w := by
  obtain ⟨w, hsend, hw⟩ := sendEncoded_answer he .pingresp rfl
    (by norm_num : ([] : Bytes).length < 2 ^ 28) s c
  refine ⟨w, ?_, hw⟩
  unfold onPingreq
  rw [show sendEncoded env s c encodePingresp = some w from hsend]

theorem invoke_server (env : Env) (c : ConnId) (s : Server) (call : Call)
    (h : (serverCallbacks env c).installed call.target = true) :
    invoke (serverCallbacks env c) s call = (serverCallbacks env c).run s call := if_pos h

def Version.granted (v : Version) (f : Bytes × UInt8) : UInt8 :=
  UInt8.ofNat (grantQos (if v = .v5 then f.2.toNat % 4 else f.2.toNat))

theorem grants_server (he : env.willing) (c : ConnId) {version : ℕ} {v : Version}
    (hv : version = 5 ↔ v = .v5) (id : ℕ) (filters : List (Bytes × UInt8)) (s : Server) :
    ∃ w, grants (serverCallbacks env c) version id filters s = (filters.map v.granted, w) ∧
      Quiet c s w := by
  induction filters generalizing s with
  | nil => exact ⟨s, rfl, Answered.refl c s⟩
  | cons f filters ih =>
    obtain ⟨t, hsub, ht⟩ := onSubscribe_granted he s c f.1
      (if v = .v5 then f.2.toNat % 4 else f.2.toNat)
    obtain ⟨w, hrest, hw⟩ := ih t
    have hle := grantQos_le (if v = .v5 then f.2.toNat % 4 else f.2.toNat)
    have hgrant : grant (serverCallbacks env c) s id f.1
        (if v = .v5 then f.2.toNat % 4 else f.2.toNat) = (v.granted f, t) := by
      have hi : (serverCallbacks env c).installed .onSubscribe = true := rfl
      unfold grant
      rw [if_pos hi]
      show (if 0 ≤ (onSubscribe env s c f.1 _).1 ∧ (onSubscribe env s c f.1 _).1 ≤ 2 then
        UInt8.ofNat (onSubscribe env s c f.1 _).1.toNat else subackFailure,
        (onSubscribe env s c f.1 _).2) = _
      rw [hsub, if_pos ⟨by dsimp only; omega, by dsimp only; omega⟩]
      rfl
    refine ⟨w, ?_, ht.trans hw⟩
    simp only [grants, hv, hgrant, hrest, map_cons]

theorem drops_server (he : env.willing) (c : ConnId) {v : Version} (id : UInt16)
    (topics : List Bytes) {s : Server} (hs : (s.conns c).version = v) :
    ∃ w, drops (serverCallbacks env c) id.toNat topics s = (true, w) ∧
      Answered c (topics.map fun _ => answer .unsuback (unsubackBody v id [0])) s w := by
  induction topics generalizing s with
  | nil => exact ⟨s, rfl, Answered.refl c s⟩
  | cons topic topics ih =>
    obtain ⟨t, hcall, ht⟩ := onUnsubscribe_answered he s c id topic
    rw [hs] at ht
    have hversion : (t.conns c).version = v := by
      rw [← hs]
      unfold Conn.version
      rw [ht.version]
    obtain ⟨w, hrest, hw⟩ := ih hversion
    refine ⟨w, ?_, ht.trans hw⟩
    simp only [drops, invoke_server env c s (.unsubscribe id.toNat topic) rfl]
    rw [show (serverCallbacks env c).run s (.unsubscribe id.toNat topic) = (0, t) from hcall]
    exact hrest

def Effect (c : ConnId) (v : Version) (k : Inbound) (s w : Server) : Prop :=
  match k with
  | .publish _ _ qos id _ topic payload =>
    if qos = 2 then
      Answered c [answer .pubrec (u16 id.toNat)] (s.modify c (·.hold (entry id topic payload))) w
    else Quiet c s w
  | .pubrel id _ =>
    match (s.conns c).pendingQos2In.find? fun p => p.packetId = id.toNat with
    | none => w = s
    | some p => ∃ t,
      Answered c [answer .pubcomp (u16 id.toNat)] (s.modify c (·.release id.toNat)) t ∧
        Quiet c (t.report (.publish c p.topic p.payload p.qos)) w
  | .subscribe id _ filters =>
    Answered c [answer .suback (subackBody v id (filters.map v.granted))] s w
  | .unsubscribe id _ topics =>
    Answered c (topics.map fun _ => answer .unsuback (unsubackBody v id [0])) s w
  | .pingreq => Answered c [answer .pingresp []] s w
  | .other _ => True

/- No PUBREL of version 5 with the reason code that is taken for the length of a property block. -/
def Inbound.readable (v : Version) : Inbound → Prop
  | .pubrel _ tail => v = .v5 → tail.map Prod.fst ≠ some .notFound
  | _ => True

def Inbound.answered : Inbound → Bool
  | .other _ => false
  | _ => true

theorem filters_le_body (v : Version) (id : UInt16) (props : Bytes)
    (filters : List (Bytes × UInt8)) :
    filters.length ≤ ((Inbound.subscribe id props filters).body v).length := by
  have h := filters_fuel filters
  simp only [Inbound.body, length_append]
  omega

theorem effect_of_taken (he : env.willing) {c : ConnId} {s : Server} {p : Parser} {v : Version}
    (hp : p.state = .fixedHeader) (hm : p.maxPayload = defaultMaxPayload)
    (hv : p.protocolVersion = 5 ↔ v = .v5) (hs : (s.conns c).version = v) {k : Inbound}
    (hk : k.wellFormed v) (hr : k.readable v) (ha : k.answered = true) :
    ∃ w, Taken (serverCallbacks env c) env.alloc p s (k.bytes v) w ∧ Effect c v k s w := by
  cases k with
  | publish dup retain qos id props topic payload =>
    by_cases hq : qos = 2
    · subst hq
      obtain ⟨w, hcall, hw⟩ := onPublish_qos2 he s c id topic payload
      refine ⟨w, taken_publish he.alloc hp hm hv hk hcall, ?_⟩
      simp only [Effect, if_true]
      exact hw
    · obtain ⟨w, hcall, hw⟩ := onPublish_other env hq s c id topic payload
      refine ⟨w, taken_publish he.alloc hp hm hv hk hcall, ?_⟩
      simp only [Effect, if_neg hq]
      exact hw
  | pubrel id tail =>
    have htail : v = .v5 → ∀ props, tail ≠ some (.notFound, props) := by
      rintro h props rfl
      exact hr h rfl
    cases hfind : (s.conns c).pendingQos2In.find? fun p => p.packetId = id.toNat with
    | none =>
      have hcall := onPubrel_unknown env hfind
      refine ⟨s, taken_pubrel he.alloc hp hm hv hk htail hcall, ?_⟩
      simp only [Effect, hfind]
    | some e =>
      obtain ⟨t, w, hcall, ht, hw⟩ := onPubrel_known he hfind
      refine ⟨w, taken_pubrel he.alloc hp hm hv hk htail hcall, ?_⟩
      simp only [Effect, hfind]
      exact ⟨t, ht, hw⟩
  | subscribe id props filters =>
    obtain ⟨t, hgrants, ht⟩ := grants_server he c hv id.toNat filters s
    have hlen : (filters.map v.granted).length ≤ defaultMaxPayload := by
      have := filters_le_body v id props filters
      rw [length_map]
      exact this.trans hk.2.2
    obtain ⟨w, hcall, hw⟩ := onSubscribeDone_answered he t c id hlen
    have hversion : (t.conns c).version = v := by
      rw [← hs]
      unfold Conn.version
      rw [ht.version]
    rw [hversion] at hw
    refine ⟨w, taken_subscribe he.alloc hp hm hv hk ?_, Answered.trans ht hw⟩
    rw [hgrants]
    exact hcall
  | unsubscribe id props topics =>
    obtain ⟨w, hdrops, hw⟩ := drops_server he c id topics hs
    exact ⟨w, taken_unsubscribe he.alloc hp hm hv hk hdrops, hw⟩
  | pingreq =>
    obtain ⟨w, hcall, hw⟩ := onPingreq_answered he s c
    refine ⟨w, ?_, hw⟩
    have hleft : (invoke (serverCallbacks env c) s .pingreq).2 = w := congrArg Prod.snd hcall
    rw [← hleft]
    exact taken_pingreq hp s
  | other k => simp [Inbound.answered] at ha

end Voxlib.Mqtt
