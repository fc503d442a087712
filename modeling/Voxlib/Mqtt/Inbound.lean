import Voxlib.Mqtt.Server

/-!
# Packets as a client sends them
-/

namespace Voxlib.Mqtt
open CStr Wire Stream List Option

/- The calls of a packet of the type, but for on_error. -/
def PacketType.makes (type : PacketType) : Call → Bool
  | .connect _ => type = .connect
  | .connack _ _ => type = .connack
  | .publish _ => type = .publish
  | .puback _ => type = .puback
  | .pubrec _ => type = .pubrec
  | .pubrel _ => type = .pubrel
  | .pubcomp _ => type = .pubcomp
  | .subscribe _ _ _ => type = .subscribe
  | .subscribeDone _ _ => type = .subscribe
  | .suback _ _ => type = .suback
  | .unsubscribe _ _ => type = .unsubscribe
  | .unsuback _ => type = .unsuback
  | .pingreq => type = .pingreq
  | .pingresp => type = .pingresp
  | .disconnect => type = .disconnect
  | .error _ => false

section
variable {σ : Type*} (cb : Callbacks σ) (alloc : ℕ → Bool) {P Q : σ → Prop}

theorem execute_packet {p : Parser} (hp : p.state = .fixedHeader) (u : σ) (k : Packet) :
    execute cb alloc p u k.bytes = match receive cb alloc (p, u) k with
      | .ok t => ⟨some k.bytes.length, t.1, t.2⟩
      | .error t => ⟨none, t.1, t.2⟩ := by
  have hinc := pass_incremental cb alloc
  have hlive : p.live := (Parser.ready_of_header hp).1
  rw [execute_eq cb alloc hlive, settled, settle_eq hinc.falling hlive, pass_packet cb alloc hp]
  cases hr : receive cb alloc (p, u) k with
  | error t => rfl
  | ok t =>
    have hready := Parser.ready_of_header (receive_state cb alloc hr)
    have hnil := settled_nil cb alloc hready t.2
    simp only [Turn.flow, Flow.go_andThen]
    rw [show settle (pass cb alloc) (fun s => s.1.rank) t [] = .wait (t.1, t.2) [] from hnil]
    rfl

theorem grant_state (u : σ) (id : ℕ) (topic : Bytes) (qos : ℕ) :
    (grant cb u id topic qos).2 = (invoke cb u (.subscribe id topic qos)).2 := by
  unfold grant invoke
  by_cases hi : cb.installed .onSubscribe = true
  · rw [if_pos hi, if_pos (by exact hi)]
  · rw [if_neg hi, if_neg (by exact hi)]

variable {u : σ}

theorem grantFilters_keeps (version id : ℕ)
    (hP : ∀ u topic qos, P u → P (invoke cb u (.subscribe id topic qos)).2) (left : ℕ) (d : Bytes)
    (hu : P u) : P (grantFilters cb version id left d u).2 := by
  induction left generalizing d u with
  | zero => exact hu
  | succ left ih =>
    unfold grantFilters
    split
    · exact hu
    · next n rest _ =>
      split
      · exact hu
      · refine ih _ ?_
        rw [grant_state]
        exact hP u _ _ hu

theorem dropFilters_keeps (id : ℕ) (hP : ∀ u topic, P u → P (invoke cb u (.unsubscribe id topic)).2)
    (fuel : ℕ) (d : Bytes) (hu : P u) : P (dropFilters cb id fuel d u).2 := by
  induction fuel generalizing d u with
  | zero => exact hu
  | succ fuel ih =>
    unfold dropFilters
    split
    · exact hu
    · next topic rest _ =>
      dsimp only
      split
      · exact ih rest (hP u topic hu)
      · exact hP u topic hu

/- `P` holds behind a success and `Q` in any case. -/
def Reply.Kept (P Q : σ → Prop) (r : Reply σ) : Prop := (r.ok = true → P r.u) ∧ Q r.u

/- The calls of the type keep `P`, on_error leads to `Q`, which is the weaker of the two. -/
structure Keeps (type : PacketType) (P Q : σ → Prop) : Prop where
  call : ∀ u c, type.makes c → P u → P (invoke cb u c).2
  error : ∀ u msg, P u → Q (invoke cb u (.error msg)).2
  weaker : ∀ u, P u → Q u

variable {cb}

variable {type : PacketType}

section
variable (hk : Keeps cb type P Q)
include hk

theorem kept_failed (hu : P u) (p : Parser) : (failed p u).Kept P Q :=
  ⟨fun h => absurd h (by simp [failed]), hk.weaker u hu⟩

theorem kept_failedWith (hu : P u) (p : Parser) (msg : String) : (failedWith cb p u msg).Kept P Q :=
  ⟨fun h => absurd h (by simp [failedWith]), hk.error u msg hu⟩

theorem kept_callWith (hu : P u) (p : Parser) {c : Call} (hc : type.makes c) :
    (callWith cb p u c).Kept P Q :=
  ⟨fun _ => hk.call u c hc hu, hk.weaker _ (hk.call u c hc hu)⟩

theorem kept_parsePacketId (hu : P u) (p : Parser) {c : ℕ → Call} (hc : ∀ id, type.makes (c id)) :
    (parsePacketId cb p u c).Kept P Q := by
  unfold parsePacketId
  split
  · exact kept_failed hk hu p
  · exact kept_callWith hk hu p (hc _)

end

theorem dispatch_keeps {p : Parser} (hk : Keeps cb p.type P Q) (hu : P u) :
    (dispatch cb alloc p u).Kept P Q := by
  unfold dispatch
  cases ht : p.type with
  | connect =>
    rw [ht] at hk
    dsimp only
    unfold parseConnectPayload
    dsimp only
    split
    · exact kept_failed hk hu p
    · split
      · exact kept_failedWith hk hu p _
      · split
        · exact kept_failed hk hu p
        · split
          · exact kept_failedWith hk hu p _
          · split
            · exact kept_failed hk hu _
            · exact kept_callWith hk hu _ rfl
  | connack =>
    rw [ht] at hk
    dsimp only
    unfold parseConnack
    split
    · exact ⟨fun _ => hu, hk.weaker u hu⟩
    · exact kept_callWith hk hu _ rfl
  | publish =>
    rw [ht] at hk
    dsimp only
    unfold parsePublishPayload
    split
    · exact kept_failed hk hu p
    · exact kept_callWith hk hu p rfl
  | puback =>
    rw [ht] at hk
    exact kept_parsePacketId hk hu p fun _ => rfl
  | pubrec =>
    rw [ht] at hk
    exact kept_parsePacketId hk hu p fun _ => rfl
  | pubrel =>
    rw [ht] at hk
    exact kept_parsePacketId hk hu p fun _ => rfl
  | pubcomp =>
    rw [ht] at hk
    exact kept_parsePacketId hk hu p fun _ => rfl
  | subscribe =>
    rw [ht] at hk
    dsimp only
    unfold parseSubscribePayload
    split
    · exact kept_failed hk hu p
    · next id d _ =>
      dsimp only
      split
      · exact kept_failed hk hu p
      · refine kept_callWith hk ?_ p rfl
        exact grantFilters_keeps cb _ id (fun u topic qos hu => hk.call u _ rfl hu) _ d hu
  | suback =>
    rw [ht] at hk
    dsimp only
    unfold parseSubackPayload
    split
    · exact kept_failed hk hu p
    · exact kept_callWith hk hu p rfl
  | unsubscribe =>
    rw [ht] at hk
    dsimp only
    unfold parseUnsubscribePayload
    split
    · exact kept_failed hk hu p
    · next id d _ =>
      have hdrop := dropFilters_keeps cb id (fun u topic hu => hk.call u _ rfl hu) d.length d hu
      exact ⟨fun _ => hdrop, hk.weaker _ hdrop⟩
  | unsuback =>
    rw [ht] at hk
    dsimp only
    unfold parseUnsuback
    split
    · exact kept_failed hk hu p
    · split
      · exact kept_callWith hk hu p rfl
      · exact kept_failed hk hu p
  | pingreq => exact kept_failedWith hk hu p _
  | pingresp => exact kept_failedWith hk hu p _
  | disconnect => exact kept_failedWith hk hu p _
  | auth => exact kept_failedWith hk hu p _

variable (cb)

theorem ensureBuf_none {p q : Parser} {need : ℕ} (h : ensureBuf alloc p need = none)
    (hcap : p.bufCap = q.bufCap) (hmax : p.maxPayload = q.maxPayload) :
    ensureBuf alloc q need = none := by
  unfold ensureBuf at h ⊢
  rw [hcap, hmax] at h
  dsimp only at h ⊢
  generalize min (doubled 28 _ need) q.maxPayload = cap at h ⊢
  split_ifs at h ⊢
  · rfl
  · rfl

variable {s : Parser × σ} {k : Packet}

/-- A packet with a body goes to the parse function of its type, when there is room for it. -/
theorem receive_body (hbody : k.body ≠ []) (hmax : k.body.length ≤ s.1.maxPayload) :
    (ensureBuf alloc s.1 k.body.length = none ∧ ∃ p msg,
      receive cb alloc s k = .error (p, (invoke cb s.2 (.error msg)).2)) ∨
    ∃ c, receive cb alloc s k =
      finishPacket cb alloc (s.1.holding k.type k.flags k.body c) s.2 := by
  have hpos : k.body.length ≠ 0 := by
    rw [Ne, length_eq_zero_iff]
    exact hbody
  unfold receive startPacket
  dsimp only
  rw [if_neg (by omega), if_neg hpos]
  split
  · next e hstart =>
    split at hstart
    · next hnone =>
      obtain rfl := Except.error.inj hstart
      exact Or.inl ⟨ensureBuf_none alloc hnone rfl rfl, _, "alloc failed", rfl⟩
    · simp at hstart
  · next t hstart =>
    split at hstart
    · simp at hstart
    · next q hq =>
      obtain rfl := Except.ok.inj hstart
      obtain ⟨c, -, rfl⟩ := ensureBuf_fits alloc hq
      refine Or.inr ⟨c, ?_⟩
      rw [if_neg hbody]
      congr 1
      simp [collect, Parser.holding]

structure Parser.Same (p q : Parser) : Prop where
  type : q.type = p.type
  maxPayload : q.maxPayload = p.maxPayload
  version : q.protocolVersion = p.protocolVersion

theorem startPacket_same {t : Parser × σ} {val : ℕ} (h : startPacket cb alloc s val = .ok t) :
    s.1.Same t.1 := by
  rcases startPacket_cases cb alloc h with ⟨-, u, rfl⟩ | ⟨-, c, -, rfl⟩
  · exact ⟨rfl, rfl, rfl⟩
  · exact ⟨rfl, rfl, rfl⟩

def Turn.Kept (P Q : σ → Prop) : Turn σ → Prop
  | .ok t => P t.2
  | .error t => Q t.2

theorem emptyPacket_keeps {p : Parser} {w : σ} (hk : Keeps cb p.type P Q) (hu : P u)
    (h : emptyPacket cb p u = some w) : P w := by
  unfold emptyPacket at h
  split at h
  · next ht =>
    obtain rfl := some.inj h
    exact hk.call u .pingreq (by rw [ht]; rfl) hu
  · next ht =>
    obtain rfl := some.inj h
    exact hk.call u .pingresp (by rw [ht]; rfl) hu
  · next ht =>
    obtain rfl := some.inj h
    exact hk.call u .disconnect (by rw [ht]; rfl) hu
  · simp at h

theorem startPacket_keeps (hk : Keeps cb s.1.type P Q) (hu : P s.2) (val : ℕ) :
    (startPacket cb alloc s val).Kept P Q := by
  have herror : ∀ (q : Parser) msg, Q (setError cb q s.2 msg).2 := fun _ msg =>
    hk.error s.2 msg hu
  unfold startPacket
  dsimp only
  split
  · exact herror _ _
  · split
    · split
      · exact herror _ _
      · next w hw => exact emptyPacket_keeps cb hk hu hw
    · split
      · exact herror _ _
      · exact hu

theorem receive_keeps (hk : Keeps cb k.type P Q) (hu : P s.2) :
    (receive cb alloc s k).Kept P Q := by
  have hstart := startPacket_keeps cb alloc
    (s := ({ s.1 with type := k.type, flags := k.flags, state := .remainingLen }, s.2)) hk hu
    k.body.length
  unfold receive
  split
  · next t h =>
    rw [h] at hstart
    exact hstart
  · next t h =>
    rw [h] at hstart
    have ht : P t.2 := hstart
    have hsame := startPacket_same cb alloc h
    split
    · exact ht
    · have htype : (collect t.1 k.body).type = k.type := hsame.type
      have hdisp := dispatch_keeps alloc (p := collect t.1 k.body) (by rw [htype]; exact hk) ht
      unfold finishPacket
      dsimp only
      split
      · next hok => exact hdisp.1 hok
      · exact hdisp.2

theorem parsePublishPayload_p (p : Parser) (u : σ) : (parsePublishPayload cb p u).p = p := by
  unfold parsePublishPayload
  split
  · rfl
  · rfl

theorem parsePacketId_p (p : Parser) (u : σ) (c : ℕ → Call) : (parsePacketId cb p u c).p = p := by
  unfold parsePacketId
  split
  · rfl
  · rfl

theorem parseSubscribePayload_p (p : Parser) (u : σ) :
    (parseSubscribePayload cb alloc p u).p = p := by
  unfold parseSubscribePayload
  split
  · rfl
  · dsimp only
    split
    · rfl
    · rfl

theorem parseSubackPayload_p (p : Parser) (u : σ) : (parseSubackPayload cb p u).p = p := by
  unfold parseSubackPayload
  split
  · rfl
  · rfl

theorem parseUnsubscribePayload_p (p : Parser) (u : σ) :
    (parseUnsubscribePayload cb p u).p = p := by
  unfold parseUnsubscribePayload
  split
  · rfl
  · rfl

theorem parseUnsuback_p (p : Parser) (u : σ) : (parseUnsuback cb p u).p = p := by
  unfold parseUnsuback
  split
  · rfl
  · split
    · rfl
    · rfl

theorem parseConnack_same (p : Parser) (u : σ) : p.Same (parseConnack cb p u).p := by
  unfold parseConnack
  split
  · exact ⟨rfl, rfl, rfl⟩
  · show p.Same (if _ then _ else _)
    split
    · exact ⟨rfl, rfl, rfl⟩
    · exact ⟨rfl, rfl, rfl⟩

theorem dispatch_same {p : Parser} (ht : p.type ≠ .connect) (u : σ) :
    p.Same (dispatch cb alloc p u).p := by
  have hrefl : p.Same p := ⟨rfl, rfl, rfl⟩
  unfold dispatch
  cases hp : p.type with
  | connect => exact absurd hp ht
  | connack => exact parseConnack_same cb p u
  | publish => simpa only [parsePublishPayload_p] using hrefl
  | puback => simpa only [parsePacketId_p] using hrefl
  | pubrec => simpa only [parsePacketId_p] using hrefl
  | pubrel => simpa only [parsePacketId_p] using hrefl
  | pubcomp => simpa only [parsePacketId_p] using hrefl
  | subscribe => simpa only [parseSubscribePayload_p] using hrefl
  | suback => simpa only [parseSubackPayload_p] using hrefl
  | unsubscribe => simpa only [parseUnsubscribePayload_p] using hrefl
  | unsuback => simpa only [parseUnsuback_p] using hrefl
  | pingreq => exact ⟨rfl, rfl, rfl⟩
  | pingresp => exact ⟨rfl, rfl, rfl⟩
  | disconnect => exact ⟨rfl, rfl, rfl⟩
  | auth => exact ⟨rfl, rfl, rfl⟩

theorem readStrings_version {version keepalive : ℕ} {flags : UInt8} {q : Properties} {d : Bytes}
    {a : Connect} (h : readStrings version flags keepalive q d = some a) :
    a.protocolVersion = version := by
  unfold readStrings at h
  obtain ⟨id, -, h⟩ := bind_eq_some_iff.mp h
  obtain ⟨w, -, h⟩ := bind_eq_some_iff.mp h
  obtain ⟨user, -, h⟩ := bind_eq_some_iff.mp h
  obtain ⟨pass, -, rfl⟩ := map_eq_some_iff.mp h
  rfl

theorem readConnect_version {version keepalive : ℕ} {flags : UInt8} {d : Bytes} {a : Connect}
    (h : readConnect version flags keepalive d = some a) : a.protocolVersion = version := by
  unfold readConnect at h
  split at h
  · obtain ⟨b, -, hb⟩ := bind_eq_some_iff.mp h
    exact readStrings_version hb
  · exact readStrings_version h

theorem parseConnectPayload_ok {p : Parser} (h : (parseConnectPayload cb p u).ok = true) :
    (parseConnectPayload cb p u).p.maxPayload = p.maxPayload ∧
    ∃ a, (parseConnectPayload cb p u).p.protocolVersion = a.protocolVersion ∧
      invoke cb u (.connect a) = (0, (parseConnectPayload cb p u).u) := by
  revert h
  unfold parseConnectPayload
  dsimp only
  split
  · simp [failed]
  · split
    · simp [failedWith]
    · split
      · simp [failed]
      · split
        · simp [failedWith]
        · split
          · simp [failed]
          · next a ha =>
            intro h
            have hzero : (invoke cb u (.connect a)).1 = 0 := by simpa [callWith] using h
            have hversion : a.protocolVersion =
                ((p.buf.drop (2 + ofU16 (p.buf.getD 0 0) (p.buf.getD 1 0))).getD 0 0).toNat :=
              readConnect_version ha
            exact ⟨rfl, a, hversion.symm, Prod.ext hzero rfl⟩

theorem receive_same {t : Parser × σ} (ht : k.type ≠ .connect) (h : receive cb alloc s k = .ok t) :
    t.1.maxPayload = s.1.maxPayload ∧ t.1.protocolVersion = s.1.protocolVersion := by
  unfold receive at h
  split at h
  · simp at h
  · next t' hstart =>
    have hsame := startPacket_same cb alloc hstart
    split at h
    · obtain rfl := Except.ok.inj h
      exact ⟨hsame.maxPayload, hsame.version⟩
    · have hdisp := dispatch_same cb alloc (p := collect t'.1 k.body)
        (by rw [show (collect t'.1 k.body).type = k.type from hsame.type]; exact ht) t'.2
      unfold finishPacket at h
      dsimp only at h
      split at h
      · obtain rfl := Except.ok.inj h
        exact ⟨hdisp.maxPayload.trans hsame.maxPayload, hdisp.version.trans hsame.version⟩
      · simp at h

theorem receive_connect {t : Parser × σ} (ht : k.type = .connect)
    (h : receive cb alloc s k = .ok t) : t.1.maxPayload = s.1.maxPayload ∧
      ∃ a, t.1.protocolVersion = a.protocolVersion ∧ invoke cb s.2 (.connect a) = (0, t.2) := by
  unfold receive at h
  split at h
  · simp at h
  · next t' hstart =>
    have hsame := startPacket_same cb alloc hstart
    have htype : t'.1.type = .connect := hsame.type.trans ht
    split at h
    · next hnil =>
      simp [startPacket, hnil, emptyPacket, ht] at hstart
    · have hu : t'.2 = s.2 := by
        rcases startPacket_cases cb alloc hstart with ⟨hzero, -⟩ | ⟨-, c, -, rfl⟩
        · exact absurd (eq_nil_of_length_eq_zero hzero) (by assumption)
        · rfl
      unfold finishPacket at h
      dsimp only at h
      split at h
      · next hok =>
        have hdisp : dispatch cb alloc (collect t'.1 k.body) t'.2 =
            parseConnectPayload cb (collect t'.1 k.body) t'.2 := by
          unfold dispatch
          rw [show (collect t'.1 k.body).type = .connect from htype]
        rw [hdisp] at hok h
        obtain ⟨hmax, a, hversion, hcall⟩ := parseConnectPayload_ok cb hok
        obtain rfl := Except.ok.inj h
        refine ⟨hmax.trans hsame.maxPayload, a, hversion, ?_⟩
        rw [← hu]
        exact hcall
      · simp at h

end

inductive ReleaseReason where
  | success | notFound
  deriving DecidableEq

def ReleaseReason.code : ReleaseReason → UInt8
  | .success => 0
  | .notFound => 0x92

/- The packets that the server answers, and all others. In version 5 `props` is the content of
   the property block, and `tail` what may stand behind the id of a PUBREL: a reason code, and
   behind it properties. -/
inductive Inbound where
  | publish (dup retain : Bool) (qos : ℕ) (packetId : UInt16) (props topic payload : Bytes)
  | pubrel (packetId : UInt16) (tail : Option (ReleaseReason × Option Bytes))
  | subscribe (packetId : UInt16) (props : Bytes) (filters : List (Bytes × UInt8))
  | unsubscribe (packetId : UInt16) (props : Bytes) (topics : List Bytes)
  | pingreq
  | other (k : Packet)

def Version.block (v : Version) (props : Bytes) : Bytes :=
  match v with
  | .v311 => []
  | .v5 => encodeVarint props.length ++ props

def Version.tail (v : Version) (tail : Option (ReleaseReason × Option Bytes)) : Bytes :=
  match v, tail with
  | .v311, _ => []
  | .v5, none => []
  | .v5, some (r, none) => [r.code]
  | .v5, some (r, some props) => r.code :: Version.block .v5 props

def Inbound.type : Inbound → PacketType
  | .publish .. => .publish
  | .pubrel .. => .pubrel
  | .subscribe .. => .subscribe
  | .unsubscribe .. => .unsubscribe
  | .pingreq => .pingreq
  | .other k => k.type

def Inbound.flags : Inbound → ℕ
  | .publish dup retain qos .. => (if dup then 8 else 0) + 2 * qos + (if retain then 1 else 0)
  | .pubrel .. => 2
  | .subscribe .. => 2
  | .unsubscribe .. => 2
  | .pingreq => 0
  | .other k => k.flags

def Inbound.body (v : Version) : Inbound → Bytes
  | .publish _ _ qos id props topic payload =>
    u16 topic.length ++ topic ++ (if qos ≠ 0 then u16 id.toNat else []) ++ v.block props ++ payload
  | .pubrel id tail => u16 id.toNat ++ v.tail tail
  | .subscribe id props filters => u16 id.toNat ++ v.block props ++ filters.flatMap filterBytes
  | .unsubscribe id props topics => u16 id.toNat ++ v.block props ++ topics.flatMap putString
  | .pingreq => []
  | .other k => k.body

def Inbound.bytes (v : Version) (k : Inbound) : Bytes :=
  match k with
  | .other k => k.bytes
  | k => frame k.type k.flags ((encodeRemainingLength (k.body v).length).getD []) (k.body v)

/- Strings that fit their length, a QoS that exists, at least one filter, and a packet the parser
   is allowed to take. -/
def Inbound.wellFormed (v : Version) (k : Inbound) : Prop :=
  match k with
  | .publish _ _ qos _ _ topic _ =>
    qos ≤ 2 ∧ topic.length < 65536 ∧ (k.body v).length ≤ defaultMaxPayload
  | .pubrel .. => (k.body v).length ≤ defaultMaxPayload
  | .subscribe _ _ filters =>
    filters ≠ [] ∧ (∀ f ∈ filters, f.1.length < 65536) ∧ (k.body v).length ≤ defaultMaxPayload
  | .unsubscribe _ _ topics =>
    topics ≠ [] ∧ (∀ t ∈ topics, t.length < 65536) ∧ (k.body v).length ≤ defaultMaxPayload
  | .pingreq => True
  | .other k => k.type ∉ [.publish, .pubrel, .subscribe, .unsubscribe, .pingreq]

instance (v : Version) : (k : Inbound) → Decidable (k.wellFormed v)
  | .publish _ _ qos _ _ topic _ => inferInstanceAs (Decidable (qos ≤ 2 ∧ topic.length < 65536 ∧ _))
  | .pubrel .. => inferInstanceAs (Decidable (_ ≤ defaultMaxPayload))
  | .subscribe _ _ filters =>
    inferInstanceAs (Decidable (filters ≠ [] ∧ (∀ f ∈ filters, f.1.length < 65536) ∧ _))
  | .unsubscribe _ _ topics =>
    inferInstanceAs (Decidable (topics ≠ [] ∧ (∀ t ∈ topics, t.length < 65536) ∧ _))
  | .pingreq => inferInstanceAs (Decidable True)
  | .other k => inferInstanceAs (Decidable (k.type ∉ _))

/-- A well-formed packet is one of the packets that a parser may find in a stream. -/
theorem Inbound.exists_packet {v : Version} {k : Inbound} (hk : k.wellFormed v) :
    ∃ pk : Packet, pk.bytes = k.bytes v ∧ pk.type = k.type ∧ pk.flags = k.flags ∧
      pk.body = k.body v := by
  have hframe : ∀ (type : PacketType) (flags : ℕ) (body : Bytes), type ≠ .auth → flags < 16 →
      body.length ≤ defaultMaxPayload → ∃ pk : Packet,
        pk.bytes = frame type flags ((encodeRemainingLength body.length).getD []) body ∧
          pk.type = type ∧ pk.flags = flags ∧ pk.body = body := by
    intro type flags body ht hf hlen
    have hmax : defaultMaxPayload < 2 ^ 28 := by decide
    have hsome : encodeRemainingLength body.length ≠ none := fun h => by
      have := encodeRemainingLength_none h
      omega
    obtain ⟨rl, hrl⟩ := ne_none_iff_exists'.mp hsome
    have hread : readVarint 4 0 1 0 (rl ++ []) = .ok (0 + body.length * 1) (0 + rl.length) :=
      readVarint_putVarint hrl []
    rw [append_nil, Nat.zero_add, Nat.mul_one, Nat.zero_add] at hread
    refine ⟨⟨type, flags, rl, body, ht, hf, hread⟩, ?_, rfl, rfl, rfl⟩
    rw [hrl]
    rfl
  cases k with
  | publish dup retain qos id props topic payload =>
    refine hframe .publish _ _ (by decide) ?_ hk.2.2
    have hq := hk.1
    show (if dup then 8 else 0) + 2 * qos + (if retain then 1 else 0) < 16
    split <;> split <;> omega
  | pubrel id tail => exact hframe .pubrel 2 _ (by decide) (by decide) hk
  | subscribe id props filters => exact hframe .subscribe 2 _ (by decide) (by decide) hk.2.2
  | unsubscribe id props topics => exact hframe .unsubscribe 2 _ (by decide) (by decide) hk.2.2
  | pingreq => exact hframe .pingreq 0 [] (by decide) (by decide) (Nat.zero_le _)
  | other k => exact ⟨k, rfl, rfl, rfl, rfl⟩

section
variable {σ : Type*} (cb : Callbacks σ) (alloc : ℕ → Bool)

/- The parser takes the bytes, calls callbacks that leave `w`, and waits for the next packet. -/
def Taken (p : Parser) (u : σ) (bytes : Bytes) (w : σ) : Prop :=
  ∃ q, execute cb alloc p u bytes = ⟨some bytes.length, q, w⟩ ∧ q.state = .fixedHeader ∧
    q.maxPayload = p.maxPayload ∧ q.protocolVersion = p.protocolVersion

def grants (version id : ℕ) : List (Bytes × UInt8) → σ → Bytes × σ
  | [], u => ([], u)
  | f :: filters, u =>
    let g := grant cb u id f.1 (if version = 5 then f.2.toNat % 4 else f.2.toNat)
    let r := grants version id filters g.2
    (g.1 :: r.1, r.2)

def drops (id : ℕ) : List Bytes → σ → Bool × σ
  | [], u => (true, u)
  | topic :: topics, u =>
    let r := invoke cb u (.unsubscribe id topic)
    if r.1 = 0 then drops id topics r.2 else (false, r.2)

theorem grantFilters_grants (version id : ℕ) {filters : List (Bytes × UInt8)}
    (hf : ∀ f ∈ filters, f.1.length < 65536) (u : σ) :
    grantFilters cb version id filters.length (filters.flatMap filterBytes) u =
      grants cb version id filters u := by
  induction filters generalizing u with
  | nil => rfl
  | cons f filters ih =>
    rw [flatMap_cons, length_cons,
      grantFilters_cons cb version id (hf f mem_cons_self)]
    simp only [grants, ih fun g hg => hf g (mem_cons_of_mem f hg)]

theorem dropFilters_drops (id : ℕ) {topics : List Bytes} (ht : ∀ t ∈ topics, t.length < 65536)
    {fuel : ℕ} (hfuel : topics.length ≤ fuel) (u : σ) :
    dropFilters cb id fuel (topics.flatMap putString) u = drops cb id topics u := by
  induction topics generalizing fuel u with
  | nil =>
    cases fuel with
    | zero => rfl
    | succ fuel => rfl
  | cons topic topics ih =>
    cases fuel with
    | zero => simp at hfuel
    | succ fuel =>
      rw [length_cons] at hfuel
      rw [flatMap_cons, dropFilters_cons cb id (ht topic mem_cons_self)]
      simp only [drops, ih (fun t h => ht t (mem_cons_of_mem topic h))
        (by omega : topics.length ≤ fuel)]

variable {cb alloc}

variable {props : Bytes}

theorem skipPropertiesV5_block {version : ℕ} {v : Version} (hv : version = 5 ↔ v = .v5)
    (hp : v = .v5 → props.length < 2 ^ 28) (d : Bytes) :
    skipPropertiesV5 version (v.block props ++ d) = some d := by
  unfold skipPropertiesV5
  cases v with
  | v311 =>
    rw [if_neg (by simp [hv])]
    rfl
  | v5 =>
    rw [if_pos (by simp [hv])]
    simp only [Version.block, append_assoc]
    rw [takeProperties_put (hp rfl) rfl]
    rfl

theorem props_lt {v : Version} {front d : Bytes}
    (h : (front ++ v.block props ++ d).length ≤ defaultMaxPayload) (hv : v = .v5) :
    props.length < 2 ^ 28 := by
  have hmax : defaultMaxPayload < 2 ^ 28 := by decide
  subst hv
  simp only [Version.block, length_append] at h
  omega

variable {tail : Option (ReleaseReason × Option Bytes)}

theorem packetIdWithV5Props_tail {p : Parser} {v : Version} (hv : p.protocolVersion = 5 ↔ v = .v5)
    (type : PacketType) (flags c : ℕ) (id : UInt16)
    (hr : v = .v5 → ∀ props, tail ≠ some (.notFound, props)) :
    packetIdWithV5Props (p.holding type flags (u16 id.toNat ++ v.tail tail) c) = some id.toNat := by
  have hzero : ∀ d : Bytes, takeProperties (0 :: d) = some ([], d) := fun d => by
    have hd : decodeVarint (0 :: d) = .ok 0 1 := rfl
    simp [takeProperties, hd]
  unfold packetIdWithV5Props
  show (takeU16 (u16 id.toNat ++ v.tail tail)).bind (fun n =>
    if (u16 id.toNat ++ v.tail tail).length > 2 then
      (skipPropertiesV5 p.protocolVersion n.2).map fun _ => n.1 else some n.1) = _
  rw [takeU16_u16 id.toNat_lt, bind_some]
  dsimp only
  split
  · next hlong =>
    cases v with
    | v311 => simp [Version.tail, u16] at hlong
    | v5 =>
      unfold skipPropertiesV5
      rw [if_pos (hv.mpr rfl)]
      cases tail with
      | none => simp [Version.tail, u16] at hlong
      | some t =>
        obtain ⟨reason, props⟩ := t
        cases reason with
        | notFound => exact absurd rfl (hr rfl props)
        | success =>
          cases props with
          | none =>
            show ((takeProperties [0]).map Prod.snd).map _ = _
            rw [hzero]
            rfl
          | some props =>
            show ((takeProperties (0 :: Version.block .v5 props)).map Prod.snd).map _ = _
            rw [hzero]
            rfl
  · rfl

theorem takeProperties_notFound {props : Option Bytes}
    (hlen : (Version.tail .v5 (some (.notFound, props))).length ≤ defaultMaxPayload) :
    takeProperties (Version.tail .v5 (some (.notFound, props))) = none := by
  cases props with
  | none => rfl
  | some props =>
    have hmax : defaultMaxPayload = 262144 := rfl
    have hn : props.length < 2 ^ 21 := by
      simp only [Version.tail, Version.block, length_cons, length_append] at hlen
      omega
    have hsome := (putVarint_isSome 3 props.length).mpr ⟨by omega, by norm_num⟩
    obtain ⟨bs, hbs⟩ := isSome_iff_exists.mp hsome
    have henc : encodeVarint props.length = bs := encodeVarintLoop_eq (putVarint_succ hbs)
    have hread : decodeVarint (0x92 :: (bs ++ props)) = .ok (18 + props.length * 128) (1 + bs.length) :=
      readVarint_putVarint hbs props
    show takeProperties (0x92 :: (encodeVarint props.length ++ props)) = none
    unfold takeProperties
    rw [henc, hread]
    dsimp only
    rw [if_pos (by simp only [length_cons, length_append]; omega)]

theorem packetIdWithV5Props_notFound {p : Parser} (hv : p.protocolVersion = 5) (type : PacketType)
    (flags c : ℕ) (id : UInt16) {props : Option Bytes}
    (hlen : (Version.tail .v5 (some (.notFound, props))).length ≤ defaultMaxPayload) :
    packetIdWithV5Props (p.holding type flags
      (u16 id.toNat ++ Version.tail .v5 (some (.notFound, props))) c) = none := by
  have hlong : (u16 id.toNat ++ Version.tail .v5 (some (.notFound, props))).length > 2 := by
    cases props <;> simp [Version.tail, u16_length]
  unfold packetIdWithV5Props
  show (takeU16 (u16 id.toNat ++ Version.tail .v5 (some (.notFound, props)))).bind (fun n =>
    if (u16 id.toNat ++ Version.tail .v5 (some (.notFound, props))).length > 2 then
      (skipPropertiesV5 p.protocolVersion n.2).map fun _ => n.1 else some n.1) = none
  rw [takeU16_u16 id.toNat_lt, bind_some, if_pos hlong]
  unfold skipPropertiesV5
  rw [if_pos hv, takeProperties_notFound hlen]
  rfl

theorem callWith_zero {u w : σ} {call : Call} (p : Parser) (h : invoke cb u call = (0, w)) :
    (callWith cb p u call).ok = true ∧ (callWith cb p u call).u = w := by
  unfold callWith
  rw [h]
  exact ⟨rfl, rfl⟩

theorem taken_frame (ha : ∀ n, alloc n) {p : Parser} (hp : p.state = .fixedHeader)
    {type : PacketType} (ht : type ≠ .auth) (hc : type ≠ .connect) {flags : ℕ} (hf : flags < 16)
    {body : Bytes} (hbody : body ≠ []) (hlen : body.length < 2 ^ 28)
    (hmax : body.length ≤ p.maxPayload) {u w : σ}
    (hd : ∀ c, (dispatch cb alloc (p.holding type flags body c) u).ok = true ∧
      (dispatch cb alloc (p.holding type flags body c) u).u = w) :
    Taken cb alloc p u (frame type flags ((encodeRemainingLength body.length).getD []) body) w := by
  have hsome : encodeRemainingLength body.length ≠ none := fun h => by
    have := encodeRemainingLength_none h
    omega
  obtain ⟨rl, hrl⟩ := ne_none_iff_exists'.mp hsome
  rw [hrl, getD_some]
  obtain ⟨c, hexec⟩ := execute_frame cb ha hp u ht hf hrl hbody hmax
  obtain ⟨hok, hw⟩ := hd c
  have hsame := dispatch_same cb alloc (p := p.holding type flags body c) hc u
  dsimp only at hexec
  rw [if_pos hok, hw] at hexec
  exact ⟨_, hexec, rfl, hsame.maxPayload, hsame.version⟩

variable {p : Parser} {v : Version} (ha : ∀ n, alloc n) (hp : p.state = .fixedHeader)
  (hm : p.maxPayload = defaultMaxPayload) (hv : p.protocolVersion = 5 ↔ v = .v5)
include ha hp hm hv

def seen (qos : ℕ) (packetId : UInt16) (topic payload : Bytes) : Publish :=
  { qos := qos, retain := false, packetId := if qos = 0 then 0 else packetId.toNat
    topic := topic, payload := payload }

variable {id : UInt16}

omit ha hp hm in
theorem publish_call {dup retain : Bool} {qos : ℕ} {topic payload : Bytes}
    (hk : (Inbound.publish dup retain qos id props topic payload).wellFormed v) (u : σ) (c : ℕ) :
    dispatch cb alloc (p.holding .publish
      (Inbound.publish dup retain qos id props topic payload).flags
      ((Inbound.publish dup retain qos id props topic payload).body v) c) u =
    callWith cb (p.holding .publish (Inbound.publish dup retain qos id props topic payload).flags
      ((Inbound.publish dup retain qos id props topic payload).body v) c) u
      (.publish (seen qos id topic payload)) := by
  obtain ⟨hq, ht, hlen⟩ := hk
  have hflags : (if dup then 8 else 0) + 2 * qos + (if retain then 1 else 0) < 16 ∧
      ((if dup then 8 else 0) + 2 * qos + (if retain then 1 else 0)) / 2 % 4 = qos := by
    split <;> split <;> omega
  simp only [Inbound.flags, Inbound.body] at hlen ⊢
  have hread := readPublish_holding hflags.1 hflags.2 id (by omega : topic.length ≤ 65535)
    (skipPropertiesV5_block hv (props_lt hlen) payload) c
  show parsePublishPayload cb _ u = _
  unfold parsePublishPayload
  rw [hread]
  rfl

theorem taken_publish {dup retain : Bool} {qos : ℕ} {topic payload : Bytes}
    (hk : (Inbound.publish dup retain qos id props topic payload).wellFormed v) {u w : σ}
    (hcall : invoke cb u (.publish (seen qos id topic payload)) = (0, w)) :
    Taken cb alloc p u ((Inbound.publish dup retain qos id props topic payload).bytes v) w := by
  have hflags : (Inbound.publish dup retain qos id props topic payload).flags < 16 := by
    have hq := hk.1
    simp only [Inbound.flags]
    split <;> split <;> omega
  have hlen := hk.2.2
  have hmax : defaultMaxPayload < 2 ^ 28 := by decide
  simp only [Inbound.bytes, Inbound.type]
  refine taken_frame ha hp (by decide) (by decide) hflags (by simp [Inbound.body, u16]) (by omega)
    (by omega) fun c => ?_
  rw [publish_call hv hk]
  exact callWith_zero _ hcall

omit ha hp hm in
theorem pubrel_call (hr : v = .v5 → ∀ props, tail ≠ some (.notFound, props)) (u : σ) (c : ℕ) :
    dispatch cb alloc (p.holding .pubrel 2 (u16 id.toNat ++ v.tail tail) c) u =
      callWith cb (p.holding .pubrel 2 (u16 id.toNat ++ v.tail tail) c) u (.pubrel id.toNat) := by
  show parsePacketId cb _ u .pubrel = _
  unfold parsePacketId
  rw [packetIdWithV5Props_tail hv .pubrel 2 c id hr]

theorem taken_pubrel (hk : (Inbound.pubrel id tail).wellFormed v)
    (hr : v = .v5 → ∀ props, tail ≠ some (.notFound, props)) {u w : σ}
    (hcall : invoke cb u (.pubrel id.toNat) = (0, w)) :
    Taken cb alloc p u ((Inbound.pubrel id tail).bytes v) w := by
  have hmax : defaultMaxPayload < 2 ^ 28 := by decide
  have hlen : (u16 id.toNat ++ v.tail tail).length ≤ defaultMaxPayload := hk
  simp only [Inbound.bytes, Inbound.type, Inbound.flags, Inbound.body]
  refine taken_frame ha hp (by decide) (by decide) (by decide) (by simp [u16]) (by omega)
    (by omega) fun c => ?_
  rw [pubrel_call hv hr]
  exact callWith_zero _ hcall

theorem taken_subscribe {filters : List (Bytes × UInt8)}
    (hk : (Inbound.subscribe id props filters).wellFormed v) {u w : σ}
    (hcall : invoke cb (grants cb p.protocolVersion id.toNat filters u).2
      (.subscribeDone id.toNat (grants cb p.protocolVersion id.toNat filters u).1) = (0, w)) :
    Taken cb alloc p u ((Inbound.subscribe id props filters).bytes v) w := by
  obtain ⟨-, hf, hlen⟩ := hk
  have hmax : defaultMaxPayload < 2 ^ 28 := by decide
  simp only [Inbound.bytes, Inbound.type, Inbound.flags, Inbound.body] at hlen ⊢
  refine taken_frame ha hp (by decide) (by decide) (by decide) (by simp [u16]) (by omega)
    (by omega) fun c => ?_
  have hid := takePacketId_holding (p := p) .subscribe 2 c id
    (skipPropertiesV5_block hv (props_lt hlen) (filters.flatMap filterBytes))
  have hreply : dispatch cb alloc (p.holding .subscribe 2 (u16 id.toNat ++ v.block props ++
      filters.flatMap filterBytes) c) u =
      callWith cb (p.holding .subscribe 2 (u16 id.toNat ++ v.block props ++
        filters.flatMap filterBytes) c) (grants cb p.protocolVersion id.toNat filters u).2
        (.subscribeDone id.toNat (grants cb p.protocolVersion id.toNat filters u).1) := by
    show parseSubscribePayload cb alloc _ u = _
    unfold parseSubscribePayload
    rw [hid]
    dsimp only
    rw [countFilters_filters hf (filters_fuel filters), if_neg (by simp [ha])]
    rw [← grantFilters_grants cb p.protocolVersion id.toNat hf u]
    rfl
  rw [hreply]
  exact callWith_zero _ hcall

theorem taken_unsubscribe {topics : List Bytes}
    (hk : (Inbound.unsubscribe id props topics).wellFormed v) {u w : σ}
    (hcall : drops cb id.toNat topics u = (true, w)) :
    Taken cb alloc p u ((Inbound.unsubscribe id props topics).bytes v) w := by
  obtain ⟨-, ht, hlen⟩ := hk
  have hmax : defaultMaxPayload < 2 ^ 28 := by decide
  simp only [Inbound.bytes, Inbound.type, Inbound.flags, Inbound.body] at hlen ⊢
  refine taken_frame ha hp (by decide) (by decide) (by decide) (by simp [u16]) (by omega)
    (by omega) fun c => ?_
  have hid := takePacketId_holding (p := p) .unsubscribe 2 c id
    (skipPropertiesV5_block hv (props_lt hlen) (topics.flatMap putString))
  show (parseUnsubscribePayload cb _ u).ok = true ∧ (parseUnsubscribePayload cb _ u).u = w
  unfold parseUnsubscribePayload
  rw [hid]
  dsimp only
  rw [dropFilters_drops cb id.toNat ht (topics_fuel topics), hcall]
  exact ⟨rfl, rfl⟩

omit ha hm hv

def pingPacket : Packet := ⟨.pingreq, 0, [0], [], by decide, Packet.noFlags, by decide⟩

theorem taken_pingreq (u : σ) :
    Taken cb alloc p u (Inbound.pingreq.bytes v) (invoke cb u .pingreq).2 := by
  have hbytes : Inbound.pingreq.bytes v = pingPacket.bytes := by
    have hrl : encodeRemainingLength 0 = some [0] := by decide
    simp [Inbound.bytes, Inbound.body, Inbound.type, Inbound.flags, hrl, Packet.bytes, pingPacket]
  have hreceive : receive cb alloc (p, u) pingPacket =
      .ok ({ p with
        type := .pingreq, flags := 0, state := .fixedHeader
        remainingLen := 0, need := 0, buf := [] }, (invoke cb u .pingreq).2) := by
    simp [receive, startPacket, pingPacket, emptyPacket]
  rw [hbytes]
  have hexec := execute_packet cb alloc hp u pingPacket
  rw [hreceive] at hexec
  exact ⟨_, hexec, rfl, rfl, rfl⟩

end

end Voxlib.Mqtt
