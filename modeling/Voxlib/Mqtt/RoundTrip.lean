import Voxlib.Mqtt.Frame

/-!
# Packets from the encoders back through the parser
-/

namespace Voxlib.Mqtt
open CStr Wire Stream List

section
variable {σ : Type*}

def encodePublishIn (v : Version) : Bytes → UInt8 → Bool → UInt16 → Bytes → Bytes → ℕ × Bytes :=
  match v with
  | .v311 => encodePublish
  | .v5 => encodePublishV5

def publishNeed (v : Version) (qos : UInt8) (topic payload : Bytes) : ℕ :=
  2 + topic.length + (if qos ≠ 0 then 2 else 0) + v.props.length + payload.length

def publishBody (v : Version) (qos : UInt8) (packetId : UInt16) (topic payload : Bytes) : Bytes :=
  u16 topic.length ++ topic ++ (if qos ≠ 0 then u16 packetId.toNat else []) ++ v.props ++ payload

theorem publishBody_length (v : Version) (qos : UInt8) (packetId : UInt16) (topic payload : Bytes) :
    (publishBody v qos packetId topic payload).length = publishNeed v qos topic payload := by
  simp only [publishBody, publishNeed, length_append, u16_length]
  split
  · rw [u16_length]
  · rw [length_nil]

theorem encodePublishIn_with (v : Version) :
    encodePublishIn v = encodePublishWith v.props v.props.length := by
  cases v <;> rfl

variable {topic : Bytes}

theorem encodePublishIn_eq (v : Version) (ht : topic.length ≤ 65535) (buf : Bytes) (qos : UInt8)
    (retain : Bool) (packetId : UInt16) (payload : Bytes) :
    encodePublishIn v buf qos retain packetId topic payload =
      encodePacket .publish (publishFlags qos retain) (publishNeed v qos topic payload)
        (putting (publishBody v qos packetId topic payload)) buf := by
  rw [encodePublishIn_with]
  unfold encodePublishWith
  rw [if_neg (by omega)]
  rfl

variable {qos : UInt8}

theorem qos_cases (h : qos ≤ 2) : qos = 0 ∨ qos = 1 ∨ qos = 2 := by
  have hle : qos.toNat ≤ 2 := UInt8.le_iff_toNat_le.mp h
  have hcases : qos.toNat = 0 ∨ qos.toNat = 1 ∨ qos.toNat = 2 := by omega
  simp only [← UInt8.toNat_inj]
  exact hcases

theorem publishFlags_read (h : qos ≤ 2) (retain : Bool) :
    publishFlags qos retain < 16 ∧ publishFlags qos retain / 2 % 4 = qos.toNat := by
  rcases qos_cases h with rfl | rfl | rfl
  · cases retain <;> decide
  · cases retain <;> decide
  · cases retain <;> decide

def publishSeen (qos : UInt8) (packetId : UInt16) (topic payload : Bytes) : Publish :=
  { qos := qos.toNat, retain := false, packetId := if qos = 0 then 0 else packetId.toNat
    topic := topic, payload := payload }

variable {p : Parser}

theorem readPublish_holding {flags qos : ℕ} (hf : flags < 16) (hq : flags / 2 % 4 = qos)
    (packetId : UInt16) (ht : topic.length ≤ 65535) {block payload : Bytes}
    (hb : skipPropertiesV5 p.protocolVersion (block ++ payload) = some payload) (c : ℕ) :
    readPublish (p.holding .publish flags (u16 topic.length ++ topic ++
      (if qos ≠ 0 then u16 packetId.toNat else []) ++ block ++ payload) c) =
      some { qos := qos, retain := false, packetId := if qos = 0 then 0 else packetId.toNat
             topic := topic, payload := payload } := by
  have hret : flags / 16 = 0 := Nat.div_eq_of_lt hf
  have htopic : takeString (u16 topic.length ++ topic ++
      (if qos ≠ 0 then u16 packetId.toNat else []) ++ block ++ payload) =
      some (topic, (if qos ≠ 0 then u16 packetId.toNat else []) ++ (block ++ payload)) := by
    rw [append_assoc, append_assoc]
    exact takeString_putString (by omega) _
  generalize u16 topic.length ++ topic ++ (if qos ≠ 0 then u16 packetId.toNat else []) ++ block ++
    payload = body at htopic ⊢
  have hbuf : (p.holding .publish flags body c).buf = body := rfl
  have hflags : (p.holding .publish flags body c).flags = flags := rfl
  have hversion : (p.holding .publish flags body c).protocolVersion = p.protocolVersion := rfl
  unfold readPublish
  rw [hbuf, htopic, hflags, hq, hret, hversion]
  simp only [Option.bind_some]
  by_cases h0 : qos = 0
  · simp [h0, hb]
  · have hpos : 0 < qos := by omega
    rw [if_pos h0, if_pos hpos, takeU16_u16 packetId.toNat_lt]
    simp [hb, h0]

variable {v : Version}

theorem readPublish_body (hp : p.protocolVersion = 5 ↔ v = .v5) (hq : qos ≤ 2) (retain : Bool)
    (packetId : UInt16) (ht : topic.length ≤ 65535) (payload : Bytes) (c : ℕ) :
    readPublish (p.holding .publish (publishFlags qos retain)
      (publishBody v qos packetId topic payload) c) =
      some (publishSeen qos packetId topic payload) := by
  obtain ⟨hlt, hqos⟩ := publishFlags_read hq retain
  have hzero : qos = 0 ↔ qos.toNat = 0 := by rw [← UInt8.toNat_inj, UInt8.toNat_zero]
  have h := readPublish_holding hlt hqos packetId ht (skipPropertiesV5_props hp payload) c
  unfold publishBody publishSeen
  simp only [ne_eq, hzero]
  exact h

variable {cb : Callbacks σ} {alloc : ℕ → Bool}

theorem publish_dispatch (hcb : cb.obliging) (hp : p.idle v) (u : σ) (hq : qos ≤ 2) (retain : Bool)
    (packetId : UInt16) (ht : topic.length ≤ 65535) (payload : Bytes) (c : ℕ) {log : List Call} :
    dispatch cb.logged alloc (p.holding .publish (publishFlags qos retain)
      (publishBody v qos packetId topic payload) c) (u, log) =
    ⟨true, p.holding .publish (publishFlags qos retain)
        (publishBody v qos packetId topic payload) c,
      ((cb.run u (.publish (publishSeen qos packetId topic payload))).2,
        log ++ [.publish (publishSeen qos packetId topic payload)])⟩ := by
  show parsePublishPayload cb.logged _ (u, log) = _
  unfold parsePublishPayload
  rw [readPublish_body hp.version hq retain packetId ht payload c]
  exact callWith_logged hcb _ u log (by simp [Call.target])

/- The bytes make one call of on_publish, with the arguments of the encoder. -/
def PublishRoundTrips (v : Version) (cb : Callbacks σ) (alloc : ℕ → Bool) (p : Parser) (u : σ)
    (qos : UInt8) (retain : Bool) (packetId : UInt16) (topic payload buf : Bytes) : Prop :=
  Received cb alloc p u (encodePublishIn v buf qos retain packetId topic payload).2
    [.publish { qos := qos.toNat, retain := retain
                packetId := if qos = 0 then 0 else packetId.toNat
                topic := topic, payload := payload }]

/-- A PUBLISH comes back as it was sent if and only if its retain flag is not set. -/
theorem publish_round_trip_iff (v : Version) (cb : Callbacks σ) (hcb : cb.obliging)
    (alloc : ℕ → Bool) (ha : ∀ n, alloc n) (p : Parser) (hp : p.idle v) (u : σ) (qos : UInt8)
    (hq : qos ≤ 2) (retain : Bool) (packetId : UInt16) (topic payload buf : Bytes)
    (henc : (encodePublishIn v [] qos retain packetId topic payload).1 ≠ 0)
    (hbuf : buf.length = (encodePublishIn v [] qos retain packetId topic payload).1)
    (hmax : publishNeed v qos topic payload ≤ p.maxPayload) :
    PublishRoundTrips v cb alloc p u qos retain packetId topic payload buf ↔ retain = false := by
  have ht : topic.length ≤ 65535 := by
    by_contra hlong
    apply henc
    rw [encodePublishIn_with]
    unfold encodePublishWith
    rw [if_pos (by omega)]
  have hlen := publishBody_length v qos packetId topic payload
  have hbody : publishBody v qos packetId topic payload ≠ [] := by
    intro h
    rw [h, length_nil, publishNeed] at hlen
    omega
  unfold PublishRoundTrips
  rw [encodePublishIn_eq v ht] at henc hbuf ⊢
  rcases encodePacket_frame hlen hbuf with ⟨-, h0⟩ | ⟨rl, hrl, hframe⟩
  · exact absurd h0 henc
  · obtain ⟨made, hmade, hiff⟩ := received_of_dispatch ha hp.state u (by decide)
      (publishFlags_read hq retain).1 (by rw [hlen]; exact hrl) hbody (by rw [hlen]; exact hmax)
      (P := fun made => made = [.publish (publishSeen qos packetId topic payload)])
      fun c => ⟨_, _, _, publish_dispatch hcb hp u hq retain packetId ht payload c, hp.clean, rfl⟩
    rw [hframe, hiff, hmade]
    simp only [publishSeen, List.cons.injEq, Call.publish.injEq, Publish.mk.injEq, true_and,
      and_true]
    exact eq_comm

/-- A PUBLISH of version 5 without the retain flag. -/
theorem plain_publish_round_trips :
    PublishRoundTrips .v5 willing (fun _ => true) (create (fun _ => true) 0 5) () 2 false 7
      (lit "a/b") (lit "hi") (List.replicate 12 0) :=
  (publish_round_trip_iff .v5 willing willing_obliging (fun _ => true) (fun _ => rfl)
    (create (fun _ => true) 0 5) (create_idle _ _ _ (by decide)) () 2 (by decide) false 7
    (lit "a/b") (lit "hi") (List.replicate 12 0) (by decide) (by decide) (by decide)).mpr rfl

/-- A retained PUBLISH arrives without its retain flag: the parser looks for it in bit 4 of the
four flag bits. -/
theorem retained_publish_loses_flag :
    (encodePublishIn .v311 [] 0 true 0 (lit "t") (lit "x")).1 = 6 ∧
    ¬ PublishRoundTrips .v311 willing (fun _ => true) (create (fun _ => true) 0 4) () 0 true 0
      (lit "t") (lit "x") (List.replicate 6 0) := by
  refine ⟨by decide, ?_⟩
  unfold PublishRoundTrips Received
  decide

/- What the encoder is given for a PUBLISH that is not retained. -/
structure Outgoing where
  qos : UInt8
  packetId : UInt16
  topic : Bytes
  payload : Bytes

/- The buffer has the size that the encoder asks for. -/
def Outgoing.sent (v : Version) (m : Outgoing) : Bytes :=
  let encode buf := encodePublishIn v buf m.qos false m.packetId m.topic m.payload
  (encode (replicate (encode []).1 0)).2

def Outgoing.seen (m : Outgoing) : Call := .publish (publishSeen m.qos m.packetId m.topic m.payload)

abbrev Outgoing.Fits (v : Version) (maxPayload : ℕ) (m : Outgoing) : Prop :=
  m.qos ≤ 2 ∧ m.topic.length ≤ 65535 ∧ publishNeed v m.qos m.topic m.payload < 2 ^ 28 ∧
    publishNeed v m.qos m.topic m.payload ≤ maxPayload

section
variable (hcb : cb.obliging) (ha : ∀ n, alloc n) (hp : p.idle v)
include hcb ha hp

theorem message_received {m : Outgoing} (hm : m.Fits v p.maxPayload) (u : σ) (log : List Call) :
    ∃ q t, execute cb.logged alloc p (u, log) (m.sent v) =
      ⟨some (m.sent v).length, q, (t, log ++ [m.seen])⟩ ∧ q.idle v ∧
      q.maxPayload = p.maxPayload := by
  obtain ⟨hq, ht, hshort, hmax⟩ := hm
  have hlen := publishBody_length v m.qos m.packetId m.topic m.payload
  have hbody : publishBody v m.qos m.packetId m.topic m.payload ≠ [] := by
    intro h
    rw [h, length_nil, publishNeed] at hlen
    omega
  unfold Outgoing.sent
  simp only [encodePublishIn_eq v ht]
  rcases encodePacket_frame hlen length_replicate with ⟨hlong, -⟩ | ⟨rl, hrl, hframe⟩
  · omega
  · obtain ⟨c, hc⟩ := execute_frame cb.logged ha hp.state (u, log)
      (by decide : PacketType.publish ≠ .auth) (publishFlags_read hq false).1
      (by rw [hlen]; exact hrl) hbody (by rw [hlen]; exact hmax)
    rw [hframe, hc, publish_dispatch hcb hp u hq false m.packetId ht m.payload c]
    exact ⟨_, _, rfl, ⟨rfl, hp.clean, hp.version⟩, rfl⟩

theorem messages_received {ms : List Outgoing} (hms : ∀ m ∈ ms, m.Fits v p.maxPayload) (u : σ)
    (log : List Call) (total : ℕ) :
    ∃ q t, executePieces cb.logged alloc p (u, log) [] total (ms.map (Outgoing.sent v)) =
      ⟨some (total + (ms.map (Outgoing.sent v)).flatten.length), q,
        (t, log ++ ms.map Outgoing.seen)⟩ ∧ q.idle v := by
  induction ms generalizing p u log total with
  | nil => exact ⟨p, u, by simp [executePieces], hp⟩
  | cons m ms ih =>
    obtain ⟨q, t, hone, hidle, hsame⟩ := message_received hcb ha hp (hms m mem_cons_self) u log
    obtain ⟨q', t', hrest, hidle'⟩ := ih hidle
      (fun k hk => hsame ▸ hms k (mem_cons_of_mem m hk)) t (log ++ [m.seen])
      (total + (m.sent v).length)
    refine ⟨q', t', ?_, hidle'⟩
    rw [map_cons, executePieces, nil_append, hone]
    dsimp only
    rw [drop_length, hrest]
    simp [Nat.add_assoc]

/-- PUBLISH packets one behind another, cut into pieces anywhere, make their calls in order and no
others, and are consumed to the last byte. -/
theorem publishes_received {ms : List Outgoing} (hms : ∀ m ∈ ms, m.Fits v p.maxPayload) (u : σ)
    {pieces : List Bytes} (hcut : pieces.flatten = (ms.map (Outgoing.sent v)).flatten) :
    ∃ q t, executePieces cb.logged alloc p (u, []) [] 0 pieces =
      ⟨some pieces.flatten.length, q, (t, ms.map Outgoing.seen)⟩ ∧ q.idle v := by
  have hready : p.ready := by simp [Parser.ready, Parser.live, hp.state]
  have hwait := settled_nil cb.logged alloc hready (u, [])
  obtain ⟨q, t, hms, hidle⟩ := messages_received hcb ha hp hms u [] 0
  refine ⟨q, t, ?_, hidle⟩
  rw [executePieces_eq cb.logged alloc hready.1,
    deliver_eq_settle (pass_incremental cb.logged alloc) hready.1 hwait] at hms ⊢
  rw [hcut, hms, Nat.zero_add, nil_append]

end

theorem two_publishes_received : ∃ q t, executePieces willing.logged (fun _ => true)
    (create (fun _ => true) 0 4) ((), []) [] 0 [[0x30, 4, 0], [1, 97, 98, 0x30, 3, 0, 1, 97]] =
      ⟨some 11, q, (t, [Outgoing.mk 0 0 [97] [98], Outgoing.mk 0 0 [97] []].map Outgoing.seen)⟩ ∧
    q.idle .v311 :=
  publishes_received willing_obliging (fun _ => rfl) (create_idle _ _ _ (by decide))
    (by decide) () (by decide)

def encodeSubscribeIn (v : Version) : Bytes → UInt16 → List (Bytes × UInt8) → ℕ × Bytes :=
  match v with
  | .v311 => encodeSubscribe
  | .v5 => encodeSubscribeV5

theorem encodeSubscribeIn_with (v : Version) :
    encodeSubscribeIn v = encodeSubscribeWith v.props v.props.length := by
  cases v <;> rfl

def subscribeNeed (v : Version) (filters : List (Bytes × UInt8)) : ℕ :=
  2 + v.props.length + (filters.map fun f => 2 + f.1.length + 1).sum

def filterBytes (f : Bytes × UInt8) : Bytes := u16 f.1.length ++ f.1 ++ [f.2]

theorem filterBytes_take {f : Bytes × UInt8} (hf : f.1.length < 65536) (rest : Bytes) :
    takeU16 (filterBytes f ++ rest) = some (f.1.length, f.1 ++ f.2 :: rest) := by
  unfold filterBytes
  rw [append_assoc, append_assoc, takeU16_u16 hf]
  rfl

theorem filterBytes_drop (f : Bytes × UInt8) (rest : Bytes) :
    (f.1 ++ f.2 :: rest).drop (f.1.length + 1) = rest := by
  rw [drop_append, drop_eq_nil_of_le (by omega), Nat.add_sub_cancel_left]
  rfl

variable {filters : List (Bytes × UInt8)}

theorem countFilters_filters (hf : ∀ f ∈ filters, f.1.length < 65536) {fuel : ℕ}
    (hfuel : filters.length ≤ fuel) :
    countFilters fuel (filters.flatMap filterBytes) = filters.length := by
  induction filters generalizing fuel with
  | nil =>
    cases fuel with
    | zero => rfl
    | succ fuel => rfl
  | cons f filters ih =>
    cases fuel with
    | zero => simp at hfuel
    | succ fuel =>
      rw [length_cons] at hfuel
      rw [flatMap_cons]
      simp only [countFilters, filterBytes_take (hf f (mem_cons_self ..))]
      rw [if_neg (by simp), filterBytes_drop,
        ih (fun g hg => hf g (mem_cons_of_mem _ hg)) (by omega), length_cons]

theorem filters_fuel (filters : List (Bytes × UInt8)) :
    filters.length ≤ (filters.flatMap filterBytes).length := by
  rw [length_flatMap]
  calc filters.length = (filters.map fun _ => 1).sum := by simp
    _ ≤ (filters.map fun f => (filterBytes f).length).sum := by
      refine sum_le_sum fun f _ => ?_
      simp [filterBytes]
      omega

theorem grantFilters_cons (cb : Callbacks σ) (version id : ℕ) {f : Bytes × UInt8}
    (hf : f.1.length < 65536) (left : ℕ) (rest : Bytes) (u : σ) :
    grantFilters cb version id (left + 1) (filterBytes f ++ rest) u =
      let g := grant cb u id f.1 (if version = 5 then f.2.toNat % 4 else f.2.toNat)
      let r := grantFilters cb version id left rest g.2
      (g.1 :: r.1, r.2) := by
  have hbyte : (f.1 ++ f.2 :: rest).getD f.1.length 0 = f.2 := by
    rw [getD_eq_getElem?_getD, List.getElem?_append_right (le_refl _), Nat.sub_self]
    rfl
  simp only [grantFilters, filterBytes_take hf]
  rw [if_neg (by simp), filterBytes_drop, take_left, hbyte]

theorem grant_logged (hcb : cb.obliging) (u : σ) (log : List Call) (id : ℕ) (topic : Bytes)
    (qos : ℕ) : ∃ code t,
    grant cb.logged (u, log) id topic qos = (code, (t, log ++ [Call.subscribe id topic qos])) := by
  have hi : cb.logged.installed .onSubscribe := hcb.installed _
  unfold grant
  rw [if_pos hi]
  exact ⟨_, _, rfl⟩

theorem grantFilters_filters (hcb : cb.obliging) (version id : ℕ)
    (hf : ∀ f ∈ filters, f.1.length < 65536 ∧ f.2 ≤ 2) (u : σ) (log : List Call) : ∃ codes t,
    grantFilters cb.logged version id filters.length (filters.flatMap filterBytes) (u, log) =
      (codes, (t, log ++ filters.map fun f => .subscribe id f.1 f.2.toNat)) ∧
    codes.length = filters.length := by
  induction filters generalizing u log with
  | nil => exact ⟨[], u, by simp [grantFilters], rfl⟩
  | cons f filters ih =>
    obtain ⟨hlen, hq⟩ := hf f (mem_cons_self ..)
    have hq' : f.2.toNat ≤ 2 := UInt8.le_iff_toNat_le.mp hq
    have hqos : (if version = 5 then f.2.toNat % 4 else f.2.toNat) = f.2.toNat := by
      split
      · omega
      · rfl
    obtain ⟨code, t, hg⟩ := grant_logged hcb u log id f.1 f.2.toNat
    obtain ⟨codes, t', hrest, hlen'⟩ := ih (fun g hg => hf g (mem_cons_of_mem _ hg)) t
      (log ++ [Call.subscribe id f.1 f.2.toNat])
    refine ⟨code :: codes, t', ?_, by rw [length_cons, length_cons, hlen']⟩
    rw [flatMap_cons, length_cons, grantFilters_cons cb.logged version id hlen, hqos, hg]
    dsimp only
    rw [hrest]
    simp

theorem takePacketId_holding (type : PacketType) (flags c : ℕ) (packetId : UInt16) {block d : Bytes}
    (hb : skipPropertiesV5 p.protocolVersion (block ++ d) = some d) :
    takePacketId (p.holding type flags (u16 packetId.toNat ++ block ++ d) c) =
      some (packetId.toNat, d) := by
  unfold takePacketId
  show (takeU16 (u16 packetId.toNat ++ block ++ d)).bind (fun id =>
    (skipPropertiesV5 p.protocolVersion id.2).map fun d => (id.1, d)) = _
  rw [append_assoc, takeU16_u16 packetId.toNat_lt, Option.bind_some, hb]
  rfl

theorem subscribe_dispatch (hcb : cb.obliging) (ha : ∀ n, alloc n) (hp : p.idle v) (u : σ)
    (packetId : UInt16) (hf : ∀ f ∈ filters, f.1.length < 65536 ∧ f.2 ≤ 2) (c : ℕ) :
    ∃ q t made, dispatch cb.logged alloc (p.holding .subscribe 2
        (u16 packetId.toNat ++ v.props ++ filters.flatMap filterBytes) c) (u, []) =
      ⟨true, q, (t, made)⟩ ∧ q.hasError = false ∧ ∃ codes, codes.length = filters.length ∧
        made = filters.map (fun f => .subscribe packetId.toNat f.1 f.2.toNat) ++
          [.subscribeDone packetId.toNat codes] := by
  have hcount : countFilters (filters.flatMap filterBytes).length (filters.flatMap filterBytes)
      = filters.length :=
    countFilters_filters (fun f hfm => (hf f hfm).1) (filters_fuel filters)
  obtain ⟨codes, t, hgrant, hlen⟩ := grantFilters_filters hcb p.protocolVersion packetId.toNat hf u []
  refine ⟨p.holding .subscribe 2 (u16 packetId.toNat ++ v.props ++ filters.flatMap filterBytes) c,
    (cb.run t (.subscribeDone packetId.toNat codes)).2, _, ?_, hp.clean, codes, hlen, rfl⟩
  show parseSubscribePayload cb.logged alloc _ (u, []) = _
  unfold parseSubscribePayload
  rw [takePacketId_holding _ _ _ _ (skipPropertiesV5_props hp.version _)]
  dsimp only
  rw [hcount, if_neg (by simp [ha])]
  show callWith cb.logged _ (grantFilters cb.logged p.protocolVersion packetId.toNat filters.length
    (filters.flatMap filterBytes) (u, [])).2 (.subscribeDone packetId.toNat
    (grantFilters cb.logged p.protocolVersion packetId.toNat filters.length
    (filters.flatMap filterBytes) (u, [])).1) = _
  rw [hgrant, callWith_logged hcb _ t _ (by simp [Call.target]), nil_append]

def encodeUnsubscribeIn (v : Version) : Bytes → UInt16 → List Bytes → ℕ × Bytes :=
  match v with
  | .v311 => encodeUnsubscribe
  | .v5 => encodeUnsubscribeV5

theorem encodeUnsubscribeIn_with (v : Version) :
    encodeUnsubscribeIn v = encodeUnsubscribeWith v.props v.props.length := by
  cases v <;> rfl

def unsubscribeNeed (v : Version) (topics : List Bytes) : ℕ :=
  2 + v.props.length + (topics.map fun t => 2 + t.length).sum

theorem topics_fuel (topics : List Bytes) : topics.length ≤ (topics.flatMap putString).length := by
  rw [length_flatMap]
  calc topics.length = (topics.map fun _ => 1).sum := by simp
    _ ≤ (topics.map fun t => (putString t).length).sum := by
      refine sum_le_sum fun t _ => ?_
      rw [putString_length]
      omega

theorem dropFilters_cons (cb : Callbacks σ) (id : ℕ) (ht : topic.length < 65536) (fuel : ℕ)
    (rest : Bytes) (u : σ) : dropFilters cb id (fuel + 1) (putString topic ++ rest) u =
      let r := invoke cb u (.unsubscribe id topic)
      if r.1 = 0 then dropFilters cb id fuel rest r.2 else (false, r.2) := by
  simp only [dropFilters, takeString_putString ht]

theorem dropFilters_topics (hcb : cb.obliging) (id : ℕ) {topics : List Bytes}
    (ht : ∀ t ∈ topics, t.length < 65536) {fuel : ℕ} (hfuel : topics.length ≤ fuel) (u : σ)
    (log : List Call) : ∃ t, dropFilters cb.logged id fuel (topics.flatMap putString) (u, log) =
      (true, (t, log ++ topics.map fun t => .unsubscribe id t)) := by
  induction topics generalizing fuel u log with
  | nil =>
    refine ⟨u, ?_⟩
    cases fuel with
    | zero => simp [dropFilters]
    | succ fuel => simp [dropFilters, takeString, takeU16]
  | cons topic topics ih =>
    cases fuel with
    | zero => simp at hfuel
    | succ fuel =>
      rw [length_cons] at hfuel
      have hi : cb.logged.installed (Call.unsubscribe id topic).target := hcb.installed _
      have hr : (cb.run u (.unsubscribe id topic)).1 = 0 :=
        hcb.succeeds u _ (by simp [Call.target])
      have hinv : invoke cb.logged (u, log) (.unsubscribe id topic) =
          (0, ((cb.run u (.unsubscribe id topic)).2, log ++ [Call.unsubscribe id topic])) := by
        unfold invoke
        rw [if_pos hi, ← hr]
        rfl
      obtain ⟨t, hrest⟩ := ih (fun t htm => ht t (mem_cons_of_mem _ htm))
        (by omega : topics.length ≤ fuel) (cb.run u (.unsubscribe id topic)).2
        (log ++ [Call.unsubscribe id topic])
      refine ⟨t, ?_⟩
      rw [flatMap_cons, dropFilters_cons cb.logged id (ht topic (mem_cons_self ..)), hinv]
      dsimp only
      rw [if_pos rfl, hrest]
      simp

theorem unsubscribe_dispatch (hcb : cb.obliging) (hp : p.idle v) (u : σ) (packetId : UInt16)
    {topics : List Bytes} (ht : ∀ t ∈ topics, t.length < 65536) (c : ℕ) :
    ∃ q t made, dispatch cb.logged alloc (p.holding .unsubscribe 2
        (u16 packetId.toNat ++ v.props ++ topics.flatMap putString) c) (u, []) =
      ⟨true, q, (t, made)⟩ ∧ q.hasError = false ∧
        made = topics.map (fun t => .unsubscribe packetId.toNat t) := by
  obtain ⟨t, hdrop⟩ := dropFilters_topics hcb packetId.toNat ht (topics_fuel topics) u []
  refine ⟨p.holding .unsubscribe 2 (u16 packetId.toNat ++ v.props ++ topics.flatMap putString) c,
    t, _, ?_, hp.clean, rfl⟩
  show parseUnsubscribePayload cb.logged _ (u, []) = _
  unfold parseUnsubscribePayload
  rw [takePacketId_holding _ _ _ _ (skipPropertiesV5_props hp.version _)]
  dsimp only
  rw [hdrop, nil_append]

def encodeSubackIn (v : Version) : Bytes → UInt16 → Bytes → ℕ × Bytes :=
  match v with
  | .v311 => encodeSuback
  | .v5 => encodeSubackV5

theorem encodeSubackIn_with (v : Version) :
    encodeSubackIn v = encodeCodes .suback v.props v.props.length := by
  cases v <;> rfl

def codesNeed (v : Version) (codes : Bytes) : ℕ := 2 + v.props.length + codes.length

theorem suback_dispatch (hcb : cb.obliging) (hp : p.idle v) (u : σ) (packetId : UInt16)
    (codes : Bytes) (c : ℕ) : ∃ q t made, dispatch cb.logged alloc (p.holding .suback 0
        (u16 packetId.toNat ++ v.props ++ codes) c) (u, []) = ⟨true, q, (t, made)⟩ ∧
      q.hasError = false ∧ made = [.suback packetId.toNat codes] := by
  refine ⟨p.holding .suback 0 (u16 packetId.toNat ++ v.props ++ codes) c,
    (cb.run u (.suback packetId.toNat codes)).2, _, ?_, hp.clean, rfl⟩
  show parseSubackPayload cb.logged _ (u, []) = _
  unfold parseSubackPayload
  rw [takePacketId_holding _ _ _ _ (skipPropertiesV5_props hp.version _)]
  exact callWith_logged hcb _ u [] (by simp [Call.target])

/- Version 3.1.1 has no reason codes in UNSUBACK. -/
def Version.reasons (v : Version) (codes : Bytes) : Bytes :=
  match v with
  | .v311 => []
  | .v5 => codes

def encodeUnsubackIn (v : Version) (buf : Bytes) (packetId : UInt16) (codes : Bytes) : ℕ × Bytes :=
  match v with
  | .v311 => encodeUnsuback buf packetId
  | .v5 => encodeUnsubackV5 buf packetId codes

theorem encodeUnsubackIn_eq (v : Version) (packetId : UInt16) (codes : Bytes) :
    (fun buf => encodeUnsubackIn v buf packetId codes) =
      encodePacket .unsuback 0 (codesNeed v (v.reasons codes))
        (putting (u16 packetId.toNat ++ v.props ++ v.reasons codes)) := by
  cases v <;> rfl

theorem unsuback_dispatch (hcb : cb.obliging) (hp : p.idle v) (u : σ) (packetId : UInt16)
    (codes : Bytes) (c : ℕ) : ∃ q t made, dispatch cb.logged alloc (p.holding .unsuback 0
        (u16 packetId.toNat ++ v.props ++ v.reasons codes) c) (u, []) = ⟨true, q, (t, made)⟩ ∧
      q.hasError = false ∧ made = [.unsuback packetId.toNat] := by
  have hid : packetIdWithV5Props (p.holding .unsuback 0
      (u16 packetId.toNat ++ v.props ++ v.reasons codes) c) = some packetId.toNat := by
    unfold packetIdWithV5Props
    show (takeU16 (u16 packetId.toNat ++ v.props ++ v.reasons codes)).bind (fun id =>
      if (u16 packetId.toNat ++ v.props ++ v.reasons codes).length > 2 then
        (skipPropertiesV5 p.protocolVersion id.2).map fun _ => id.1 else some id.1) = _
    rw [append_assoc, takeU16_u16 packetId.toNat_lt, Option.bind_some]
    split
    · rw [skipPropertiesV5_props hp.version]
      rfl
    · rfl
  have hi : cb.logged.installed .onUnsuback := hcb.installed _
  refine ⟨p.holding .unsuback 0 (u16 packetId.toNat ++ v.props ++ v.reasons codes) c,
    (cb.run u (.unsuback packetId.toNat)).2, _, ?_, hp.clean, rfl⟩
  show parseUnsuback cb.logged _ (u, []) = _
  unfold parseUnsuback
  rw [hid]
  dsimp only
  rw [if_pos hi]
  exact callWith_logged hcb _ u [] (by simp [Call.target])

/-- The subscription packets of both versions come back with the id and the lists they were made
of, in order. -/
theorem subscriptions_round_trip (v : Version) (cb : Callbacks σ) (hcb : cb.obliging)
    (alloc : ℕ → Bool) (ha : ∀ n, alloc n) (p : Parser) (hp : p.idle v) (u : σ)
    (packetId : UInt16) (filters : List (Bytes × UInt8))
    (hf : ∀ f ∈ filters, f.1.length < 65536 ∧ f.2 ≤ 2) (topics : List Bytes)
    (ht : ∀ t ∈ topics, t.length < 65536) (codes : Bytes) :
    RoundTrips cb alloc p u (encodeSubscribeIn v · packetId filters) (subscribeNeed v filters)
      (fun calls => ∃ granted, granted.length = filters.length ∧
        calls = filters.map (fun f => .subscribe packetId.toNat f.1 f.2.toNat) ++
          [.subscribeDone packetId.toNat granted]) ∧
    RoundTrips cb alloc p u (encodeUnsubscribeIn v · packetId topics) (unsubscribeNeed v topics)
      (fun calls => calls = topics.map fun t => .unsubscribe packetId.toNat t) ∧
    RoundTrips cb alloc p u (encodeSubackIn v · packetId codes) (codesNeed v codes)
      (fun calls => calls = [.suback packetId.toNat codes]) ∧
    RoundTrips cb alloc p u (encodeUnsubackIn v · packetId codes)
      (codesNeed v (v.reasons codes)) (fun calls => calls = [.unsuback packetId.toNat]) := by
  refine ⟨?_, ?_, ?_, ?_⟩
  · have hshort : filters.any (fun f => f.1.length > 65535) = false := by
      rw [any_eq_false]
      intro f hfm
      have := (hf f hfm).1
      simp
      omega
    have henc : (encodeSubscribeIn v · packetId filters) =
        encodePacket .subscribe 2 (subscribeNeed v filters)
          (putting (u16 packetId.toNat ++ v.props ++ filters.flatMap filterBytes)) := by
      funext buf
      rw [encodeSubscribeIn_with]
      unfold encodeSubscribeWith
      rw [hshort]
      rfl
    rw [henc]
    refine roundTrips_packet ha hp.state u (by decide) (by decide) ?_
      (by unfold subscribeNeed; omega) fun c => subscribe_dispatch hcb ha hp u packetId hf c
    simp only [subscribeNeed, length_append, u16_length, length_flatMap, filterBytes,
      length_singleton]
  · have hshort : topics.any (fun t => t.length > 65535) = false := by
      rw [any_eq_false]
      intro t htm
      have := ht t htm
      simp
      omega
    have henc : (encodeUnsubscribeIn v · packetId topics) =
        encodePacket .unsubscribe 2 (unsubscribeNeed v topics)
          (putting (u16 packetId.toNat ++ v.props ++ topics.flatMap putString)) := by
      funext buf
      rw [encodeUnsubscribeIn_with]
      unfold encodeUnsubscribeWith
      rw [hshort]
      rfl
    rw [henc]
    refine roundTrips_packet ha hp.state u (by decide) (by decide) ?_
      (by unfold unsubscribeNeed; omega) fun c => unsubscribe_dispatch hcb hp u packetId ht c
    simp only [unsubscribeNeed, length_append, u16_length, length_flatMap,
      putString_length]
  · have henc : (encodeSubackIn v · packetId codes) =
        encodePacket .suback 0 (codesNeed v codes)
          (putting (u16 packetId.toNat ++ v.props ++ codes)) := by
      funext buf
      rw [encodeSubackIn_with]
      rfl
    rw [henc]
    refine roundTrips_packet ha hp.state u (by decide) (by decide) ?_
      (by unfold codesNeed; omega) fun c => suback_dispatch hcb hp u packetId codes c
    simp only [codesNeed, length_append, u16_length]
  · rw [encodeUnsubackIn_eq]
    refine roundTrips_packet ha hp.state u (by decide) (by decide) ?_
      (by unfold codesNeed; omega) fun c => unsuback_dispatch hcb hp u packetId codes c
    simp only [codesNeed, length_append, u16_length]

end

/-- The theorem at a SUBSCRIBE with two filters. -/
theorem two_filters_round_trip : RoundTrips willing (fun _ => true) (create (fun _ => true) 0 5) ()
      (encodeSubscribeIn .v5 · 10 [(lit "a/b", 1), (lit "c", 2)])
      (subscribeNeed .v5 [(lit "a/b", 1), (lit "c", 2)])
      (fun calls => ∃ granted, granted.length = 2 ∧
        calls = [.subscribe 10 (lit "a/b") 1, .subscribe 10 (lit "c") 2,
          .subscribeDone 10 granted]) :=
  (subscriptions_round_trip .v5 willing willing_obliging (fun _ => true) (fun _ => rfl)
    (create (fun _ => true) 0 5) (create_idle _ _ _ (by decide)) () 10
    [(lit "a/b", 1), (lit "c", 2)] (by decide) [] (by decide) []).1

end Voxlib.Mqtt
