import Voxlib.Mqtt.RetainedStore

/-!
# The packet ids of a connection

They come from one counter, without a look at the exchanges that are still open.
-/

namespace Voxlib.Mqtt
open CStr Wire Run List Option Function

variable {env : Env} {s : Server} {c : ConnId} {x y z : Conn} {n m : ℕ}

def publishId : Bytes → Option ℕ
  | [] => none
  | b :: rest =>
    if b.toNat / 16 = PacketType.publish.code ∧ b.toNat / 2 % 4 ≠ 0 then
      match decodeRemainingLength rest with
      | .ok _ size => (takeString (rest.drop size)).bind fun t => (takeU16 t.2).map Prod.fst
      | _ => none
    else none

theorem publishId_frame {type : PacketType} (ht : type ≠ .publish) {flags : ℕ} (hf : flags < 16)
    (rl body : Bytes) : publishId (frame type flags rl body) = none := by
  have hb := firstByte_toNat type hf
  have hcode : (firstByte type flags).toNat / 16 = type.code := by omega
  unfold publishId frame
  refine if_neg fun h => ht ?_
  rw [hcode] at h
  cases type <;> simp [PacketType.code] at h ⊢

theorem publishId_publish (v : Version) {qos : ℕ} (hq : qos ≤ 2) (retain : Bool) (pid : UInt16)
    {topic : Bytes} (ht : topic.length ≤ 65535) {payload rl : Bytes}
    (hrl : encodeRemainingLength (publishNeed v (UInt8.ofNat qos) topic payload) = some rl) :
    publishId (frame .publish (publishFlags (UInt8.ofNat qos) retain) rl
      (publishBody v (UInt8.ofNat qos) pid topic payload)) =
      if qos > 0 then some pid.toNat else none := by
  have hqos : UInt8.ofNat qos ≤ 2 := by
    rw [UInt8.le_iff_toNat_le, UInt8.toNat_ofNat', Nat.mod_eq_of_lt (by omega)]
    exact hq
  have hnat : (UInt8.ofNat qos).toNat = qos := by
    rw [UInt8.toNat_ofNat']
    omega
  obtain ⟨hflags, hread⟩ := publishFlags_read hqos retain
  have hb := firstByte_toNat .publish hflags
  have hcode : PacketType.publish.code = 3 := rfl
  have hhigh : (firstByte .publish (publishFlags (UInt8.ofNat qos) retain)).toNat / 16 =
      PacketType.publish.code := by omega
  have hlow : (firstByte .publish (publishFlags (UInt8.ofNat qos) retain)).toNat / 2 % 4 = qos := by
    rw [hnat] at hread
    omega
  unfold publishId frame
  dsimp only
  rw [hhigh, hlow]
  by_cases hpos : qos > 0
  · have hne : UInt8.ofNat qos ≠ 0 := by
      intro h0
      rw [h0] at hnat
      have hzero : (0 : UInt8).toNat = 0 := rfl
      omega
    have hdecode : decodeRemainingLength
        (rl ++ publishBody v (UInt8.ofNat qos) pid topic payload) =
        .ok (0 + publishNeed v (UInt8.ofNat qos) topic payload * 1) (0 + rl.length) := by
      rw [decodeRemainingLength_eq]
      exact readVarint_putVarint hrl _
    have htopic : takeString (publishBody v (UInt8.ofNat qos) pid topic payload) =
        some (topic, u16 pid.toNat ++ (v.props ++ payload)) := by
      unfold publishBody
      rw [if_pos hne, append_assoc, append_assoc]
      exact takeString_putString (by omega) _
    rw [if_pos ⟨rfl, by omega⟩, if_pos hpos, hdecode]
    dsimp only
    rw [Nat.zero_add, drop_left, htopic, bind_some, takeU16_u16 pid.toNat_lt]
    rfl
  · rw [if_neg (by omega), if_neg hpos]

theorem publishId_encoded (x : Conn) {qos : ℕ} (hq : qos ≤ 2) (retain : Bool)
    {topic payload : Bytes} (ht : topic.length ≤ 65535)
    (hneed : publishNeed x.version (UInt8.ofNat qos) topic payload < 2 ^ 28) :
    publishId (x.publication qos retain topic payload) =
      if qos > 0 then some (x.nextPid qos).toNat else none := by
  have hsome : encodeRemainingLength (publishNeed x.version (UInt8.ofNat qos) topic payload) ≠
      none := fun hnone => by
    have := encodeRemainingLength_none hnone
    omega
  obtain ⟨rl, hrl⟩ := ne_none_iff_exists'.mp hsome
  unfold Conn.publication
  simp only [encodePublishIn_eq x.version ht]
  rw [encoded_packet _ _ (publishBody_length ..), if_pos hneed, hrl, getD_some]
  exact publishId_publish x.version hq retain _ ht hrl

theorem publishId_publication {qos : ℕ} (hq : qos ≤ 2) {retain : Bool} {topic payload : Bytes}
    {id : ℕ} (h : publishId (x.publication qos retain topic payload) = some id) :
    qos > 0 ∧ id = (x.nextPid qos).toNat := by
  by_cases ht : topic.length ≤ 65535
  · by_cases hneed : publishNeed x.version (UInt8.ofNat qos) topic payload < 2 ^ 28
    · rw [publishId_encoded x hq retain ht hneed] at h
      split at h
      · next hpos => exact ⟨hpos, (some.inj h).symm⟩
      · simp at h
    · unfold Conn.publication at h
      simp only [encodePublishIn_eq x.version ht] at h
      rw [encoded_packet _ _ (publishBody_length ..), if_neg hneed] at h
      simp [publishId] at h
  · have hnil : ∀ buf, encodePublishIn x.version buf (UInt8.ofNat qos) retain (x.nextPid qos) topic
        payload = (0, buf) := by
      intro buf
      rw [encodePublishIn_with]
      unfold encodePublishWith
      rw [if_pos (by omega)]
    simp [Conn.publication, encoded, hnil, publishId] at h

theorem nextId_ne_zero (a : UInt16) : nextId a ≠ 0 := by
  unfold nextId
  split
  · decide
  · next h => exact h

def Conn.idAfter (x : Conn) (i : ℕ) : ℕ := (nextId^[i + 1] x.nextPacketId).toNat

theorem Conn.idAfter_ne_zero (x : Conn) (i : ℕ) : x.idAfter i ≠ 0 := by
  unfold Conn.idAfter
  rw [iterate_succ_apply']
  intro h
  exact nextId_ne_zero _ (UInt16.toNat_inj.mp h)

def Conn.openIds (x : Conn) : List ℕ := x.pendingQos2Out.map PendingOut.packetId

/- Every PUBLISH among what was sent in between has one of the next `n` ids of the counter. -/
def Conn.SentWithin (n : ℕ) (x y : Conn) : Prop :=
  ∃ new, y.sent = x.sent ++ new ∧ ∀ b ∈ new, ∀ id, publishId b = some id → ∃ i < n, id = x.idAfter i

/-- `n` ids are drawn, and nothing else changes of what counts. -/
structure Conn.Drawn (n : ℕ) (x y : Conn) : Prop where
  books : x.SameBooks y
  counter : y.nextPacketId = nextId^[n] x.nextPacketId
  sent : x.SentWithin n y

theorem Conn.Drawn.refl (x : Conn) : x.Drawn 0 x :=
  ⟨⟨rfl, rfl, rfl⟩, rfl, [], (append_nil _).symm, fun _ h => absurd h not_mem_nil⟩

theorem Conn.Drawn.trans (h : x.Drawn n y) (h' : y.Drawn m z) : x.Drawn (m + n) z := by
  obtain ⟨new, hnew, hids⟩ := h.sent
  obtain ⟨new', hnew', hids'⟩ := h'.sent
  refine ⟨h.books.trans h'.books, ?_, new ++ new', ?_, fun b hb id hid => ?_⟩
  · rw [h'.counter, h.counter, ← iterate_add_apply]
  · rw [hnew', hnew, append_assoc]
  · rcases mem_append.mp hb with hb | hb
    · obtain ⟨i, hi, rfl⟩ := hids b hb id hid
      exact ⟨i, by omega, rfl⟩
    · obtain ⟨i, hi, rfl⟩ := hids' b hb id hid
      refine ⟨i + n, by omega, ?_⟩
      unfold Conn.idAfter
      rw [h.counter, ← iterate_add_apply, Nat.add_right_comm]

section
variable (env) (topic payload : Bytes) (qos : ℕ) (retain : Bool)

/- The number of ids that a PUBLISH draws: none with QoS 0, or when it is not encoded. -/
def Conn.draws (x : Conn) : ℕ :=
  if qos > 0 ∧ x.publicationSize qos retain topic payload ≠ 0 ∧
    env.alloc (x.publicationSize qos retain topic payload) then 1 else 0

theorem Conn.tryDeliver_drawn {qos : ℕ} (hq : qos ≤ 2) (x : Conn) :
    x.Drawn (x.draws env topic payload qos retain) (x.tryDeliver env qos retain topic payload) := by
  unfold Conn.draws Conn.tryDeliver
  by_cases hsize : x.publicationSize qos retain topic payload = 0
  · rw [if_neg fun h => h.2.1 hsize, if_pos hsize]
    exact .refl x
  · rw [if_neg hsize]
    by_cases hmem : env.alloc (x.publicationSize qos retain topic payload) = true
    · rw [if_neg (not_not.mpr hmem)]
      refine ⟨Conn.deliver_books .., ?_, _, Conn.deliver_sent, fun b hb id hid => ?_⟩
      · rw [Conn.deliver_nextPacketId]
        by_cases hpos : qos > 0
        · rw [if_pos hpos, if_pos ⟨hpos, hsize, hmem⟩]
          rfl
        · rw [if_neg hpos, if_neg fun h => hpos h.1]
          rfl
      · split at hb
        · obtain rfl := mem_singleton.mp hb
          obtain ⟨hpos, rfl⟩ := publishId_publication hq hid
          rw [if_pos ⟨hpos, hsize, hmem⟩]
          refine ⟨0, one_pos, ?_⟩
          unfold Conn.nextPid
          rw [if_pos hpos]
          rfl
        · exact absurd hb not_mem_nil
    · rw [if_neg fun h => hmem h.2.2, if_pos hmem]
      exact .refl x

def Conn.forwardDraws (x : Conn) : ℕ :=
  match x.subscriptions.find? fun sub => topicMatch sub.filter topic with
  | none => 0
  | some sub => x.draws env topic payload (if sub.qos < qos then sub.qos else qos) retain

theorem Conn.forward_drawn (x : Conn) : x.Drawn (x.forwardDraws env topic payload qos retain)
      (x.forward env topic payload qos retain) := by
  unfold Conn.forwardDraws Conn.forward
  cases x.subscriptions.find? fun sub => topicMatch sub.filter topic with
  | none => exact .refl x
  | some sub =>
    have hgranted := sub.granted
    have hle : (if sub.qos < qos then sub.qos else qos) ≤ 2 := by
      split <;> omega
    exact x.tryDeliver_drawn env topic payload retain hle

theorem Conn.SameBooks.draws (h : x.SameBooks y) :
    y.draws env topic payload qos retain = x.draws env topic payload qos retain := by
  unfold Conn.draws Conn.publicationSize Conn.version
  rw [h.protocolVersion]

theorem Conn.SameBooks.forwardDraws (h : x.SameBooks y) :
    y.forwardDraws env topic payload qos retain = x.forwardDraws env topic payload qos retain := by
  unfold Conn.forwardDraws
  rw [h.subscriptions]
  split
  · rfl
  · exact h.draws ..

theorem Conn.iterate_forward_drawn (k : ℕ) (x : Conn) :
    x.Drawn (k * x.forwardDraws env topic payload qos retain)
      ((Conn.forward env topic payload qos retain)^[k] x) := by
  induction k with
  | zero =>
    rw [Nat.zero_mul]
    exact .refl x
  | succ k ih =>
    have hstep := Conn.forward_drawn env topic payload qos retain
      ((Conn.forward env topic payload qos retain)^[k] x)
    rw [ih.books.forwardDraws] at hstep
    rw [iterate_succ_apply', Nat.add_mul, Nat.one_mul, Nat.add_comm]
    exact ih.trans hstep

theorem foldl_forwardTo_conn (cs : List ConnId) (s : Server) (c : ConnId) :
    (cs.foldl (forwardTo env topic payload qos retain) s).conns c =
      (Conn.forward env topic payload qos retain)^[cs.count c] (s.conns c) := by
  induction cs generalizing s with
  | nil => rfl
  | cons d cs ih =>
    rw [foldl_cons, ih, forwardTo_eq]
    by_cases hd : d = c
    · rw [hd, Server.modify_same, count_cons_self, iterate_succ_apply]
    · rw [Server.modify_other _ _ (Ne.symm hd), count_cons_of_ne hd]

theorem retainMessage_conns (s : Server) (topic payload : Bytes) (qos : ℕ) :
    (retainMessage env s topic payload qos).conns = s.conns := by
  unfold retainMessage
  dsimp only
  split
  · rfl
  · split
    · rfl
    · split <;> rfl

theorem forward_conn (s : Server) (d c : ConnId) :
    (forwardMessageToSubscribers env s d topic payload qos retain).conns c =
      (Conn.forward env topic payload qos retain)^[s.connections.count c] (s.conns c) := by
  unfold forwardMessageToSubscribers
  dsimp only
  split
  · rw [retainMessage_conns]
    exact foldl_forwardTo_conn env topic payload qos retain s.connections (s.report _) c
  · exact foldl_forwardTo_conn env topic payload qos retain s.connections (s.report _) c

end

def Conn.retainedDraws (env : Env) (filter : Bytes) (qos : ℕ) (x : Conn) (r : Retained) : ℕ :=
  if topicMatch filter r.topic then
    x.draws env r.topic r.payload (if qos < r.qos then qos else r.qos) true
  else 0

theorem Conn.sendRetained_drawn (env : Env) (filter : Bytes) {qos : ℕ} (hq : qos ≤ 1) (r : Retained)
    (x : Conn) : x.Drawn (x.retainedDraws env filter qos r) (x.sendRetained env filter qos r) := by
  unfold Conn.retainedDraws Conn.sendRetained
  split
  · have hle : (if qos < r.qos then qos else r.qos) ≤ 2 := by
      split <;> omega
    exact x.tryDeliver_drawn env r.topic r.payload true hle
  · exact .refl x

theorem Conn.foldl_sendRetained_drawn (env : Env) (filter : Bytes) {qos : ℕ} (hq : qos ≤ 1)
    (rs : List Retained) (x : Conn) : x.Drawn (rs.map (x.retainedDraws env filter qos)).sum
      (rs.foldl (fun x r => x.sendRetained env filter qos r) x) := by
  induction rs generalizing x with
  | nil => exact .refl x
  | cons r rs ih =>
    have hfirst := x.sendRetained_drawn env filter hq r
    have hrest := ih (x.sendRetained env filter qos r)
    have hsame : (x.sendRetained env filter qos r).retainedDraws env filter qos =
        x.retainedDraws env filter qos := by
      funext q
      unfold Conn.retainedDraws
      rw [hfirst.books.draws]
    rw [hsame] at hrest
    rw [map_cons, sum_cons, Nat.add_comm, foldl_cons]
    exact hfirst.trans hrest

/- Sends no PUBLISH, draws no id and opens no exchange. -/
structure Conn.Still (x y : Conn) : Prop where
  sent : x.SentWithin 0 y
  opened : y.openIds.Sublist x.openIds

/- What happens to the connection `c`: a message is handed to the subscribers, the connection
   subscribes, the application publishes to it, its client answers, or anything else. -/
inductive Move (c : ConnId) where
  | forward (d : ConnId) (topic payload : Bytes) (qos : ℕ) (retain : Bool)
  | subscribe (filter : Bytes) (qos : ℕ)
  | publish (topic payload : Bytes) (qos : ℕ) (retain : Bool)
  | pubrec (id : ℕ)
  | pubcomp (id : ℕ)
  | other (f : Server → Server) (still : ∀ s : Server, (s.conns c).Still ((f s).conns c))

def idStep (c : ConnId) (s : Server) (a : Env × Move c) : Option Server :=
  match a.2 with
  | .forward d topic payload qos retain =>
    some (forwardMessageToSubscribers a.1 s d topic payload qos retain)
  | .subscribe filter qos => some (onSubscribe a.1 s c filter qos).2
  | .publish topic payload qos retain =>
    some (connectionPublish a.1 s c topic payload qos retain).2
  | .pubrec id => some (onPubrecFromClient a.1 s c id).2
  | .pubcomp id => some (onPubcompFromClient s c id).2
  | .other f _ => some (f s)

def demand (c : ConnId) (s : Server) (a : Env × Move c) : ℕ :=
  match a.2 with
  | .forward _ topic payload qos retain =>
    s.connections.count c * (s.conns c).forwardDraws a.1 topic payload qos retain
  | .subscribe filter qos =>
    if a.1.alloc subSize ∧ a.1.alloc (filter.length + 1) then
      (s.retained.map ((s.conns c).retainedDraws a.1 filter (grantQos qos))).sum
    else 0
  | .publish topic payload qos retain =>
    if qos ≤ 2 then (s.conns c).draws a.1 topic payload qos retain else 0
  | _ => 0

def Unopened (c : ConnId) (s : Server) (a : Env × Move c) : Prop :=
  ∀ i < demand c s a, (s.conns c).idAfter i ∉ (s.conns c).openIds

def NewIds (c : ConnId) (s : Server) (a : Env × Move c) : Prop :=
  ∀ t, idStep c s a = some t → ∃ new, (t.conns c).sent = (s.conns c).sent ++ new ∧
    ∀ b ∈ new, ∀ id, publishId b = some id → id ≠ 0 ∧ id ∉ (s.conns c).openIds

/-- What one step does: it sends with the next ids, and opens one exchange at most. -/
structure Conn.Moved (n : ℕ) (x y : Conn) : Prop where
  sent : x.SentWithin n y
  opened : y.openIds.Sublist x.openIds ∨ n = 1 ∧ y.openIds = x.openIds ++ [x.idAfter 0]

theorem Conn.Still.moved (h : x.Still y) : x.Moved 0 y := ⟨h.sent, .inl h.opened⟩

theorem Conn.Drawn.moved (h : x.Drawn n y) : x.Moved n y := by
  refine ⟨h.sent, .inl ?_⟩
  unfold Conn.openIds
  rw [h.books.pendingQos2Out]

theorem Conn.Still.refl (x : Conn) : x.Still x :=
  ⟨⟨[], (append_nil _).symm, fun _ h => absurd h not_mem_nil⟩, List.Sublist.refl _⟩

theorem Conn.send_still (env : Env) {b : Bytes} (hb : publishId b = none) (x : Conn) :
    x.Still (x.send env b) := by
  refine ⟨⟨_, x.send_sent b, fun b' hb' id hid => ?_⟩, ?_⟩
  · split at hb'
    · rw [mem_singleton.mp hb', hb] at hid
      simp at hid
    · exact absurd hb' not_mem_nil
  · unfold Conn.openIds
    rw [(Conn.send_books ..).pendingQos2Out]

theorem markReceived_ids (id : ℕ) (ps : List PendingOut) :
    (markReceived id ps).map PendingOut.packetId = ps.map PendingOut.packetId := by
  induction ps with
  | nil => rfl
  | cons p ps ih =>
    unfold markReceived
    split
    · rfl
    · rw [map_cons, map_cons, ih]

theorem onPubrec_still (s : Server) (c : ConnId) (id : ℕ) :
    (s.conns c).Still ((onPubrecFromClient env s c id).2.conns c) := by
  unfold onPubrecFromClient
  split
  · have hmark : (s.conns c).Still
        ((s.modify c fun x => { x with pendingQos2Out := markReceived id x.pendingQos2Out }).conns
          c) := by
      rw [Server.modify_same]
      refine ⟨(Conn.Still.refl _).sent, ?_⟩
      unfold Conn.openIds
      rw [markReceived_ids]
    dsimp only
    generalize (s.modify c fun x => { x with pendingQos2Out := markReceived id x.pendingQos2Out }) =
      t at hmark
    unfold sendEncoded
    split
    · rw [getD_some, connSend_eq, Server.modify_same]
      have hpubrel : publishId (encoded (encodePubrel · (UInt16.ofNat id))) = none := by
        unfold encodePubrel encodePubAck
        rw [encoded_packet _ _ (u16_length _), if_pos (by norm_num)]
        exact publishId_frame (by decide) (by decide) _ _
      have hsend := Conn.send_still env hpubrel (t.conns c)
      refine ⟨?_, hsend.opened.trans hmark.opened⟩
      obtain ⟨new, hnew, hids⟩ := hmark.sent
      obtain ⟨new', hnew', hids'⟩ := hsend.sent
      refine ⟨new ++ new', by rw [hnew', hnew, append_assoc], fun b hb i hi => ?_⟩
      rcases mem_append.mp hb with hb | hb
      · exact hids b hb i hi
      · obtain ⟨_, hlt, -⟩ := hids' b hb i hi
        exact absurd hlt (Nat.not_lt_zero _)
    · exact hmark
  · exact .refl _

theorem onPubcomp_still (s : Server) (c : ConnId) (id : ℕ) :
    (s.conns c).Still ((onPubcompFromClient s c id).2.conns c) := by
  unfold onPubcompFromClient
  rw [Server.modify_same]
  exact ⟨(Conn.Still.refl _).sent, eraseP_sublist.map _⟩

theorem onSubscribe_moved (s : Server) (c : ConnId) (filter : Bytes) (qos : ℕ) :
    (s.conns c).Moved (demand c s (env, .subscribe filter qos))
      ((onSubscribe env s c filter qos).2.conns c) := by
  unfold demand
  dsimp only
  by_cases hmem : env.alloc subSize = true ∧ env.alloc (filter.length + 1) = true
  · rw [if_pos hmem, onSubscribe_eq hmem.1 hmem.2, Server.modify_same]
    have hdrawn := Conn.foldl_sendRetained_drawn env filter (grantQos_le qos) s.retained
      { s.conns c with
        subscriptions := (s.conns c).subscriptions ++ [⟨filter, grantQos qos, grantQos_le qos⟩] }
    exact ⟨hdrawn.moved.sent, hdrawn.moved.opened⟩
  · rw [if_neg hmem]
    have hkeep : (onSubscribe env s c filter qos).2 = s := by
      unfold onSubscribe
      by_cases hsub : env.alloc subSize = true
      · rw [if_neg (not_not.mpr hsub), if_pos fun hfilter => hmem ⟨hsub, hfilter⟩]
      · rw [if_pos hsub]
    rw [hkeep]
    exact (Conn.Still.refl _).moved

theorem encodePacket_size (type : PacketType) (flags need : ℕ) (body body' : ℕ → Bytes → Bytes) :
    (encodePacket type flags need body []).1 = (encodePacket type flags need body' []).1 := by
  unfold encodePacket
  cases encodeRemainingLength need with
  | none => rfl
  | some rl =>
    have hlt : ([] : Bytes).length < 1 + rl.length + need := by
      rw [length_nil]
      omega
    dsimp only
    rw [if_pos hlt, if_pos hlt]

theorem encodePublishIn_size (v : Version) (qos : UInt8) (retain : Bool) (pid : UInt16)
    (topic payload : Bytes) : (encodePublishIn v [] qos retain pid topic payload).1 =
      (encodePublishIn v [] qos retain 0 topic payload).1 := by
  rw [encodePublishIn_with]
  unfold encodePublishWith
  split
  · rfl
  · exact encodePacket_size ..

/- A PUBLISH of the application: its id is drawn even when it is not sent, and with QoS 2 it opens
   an exchange. -/
theorem connectionPublish_eq (env : Env) {qos : ℕ} (hq : qos ≤ 2) (s : Server) (c : ConnId)
    (topic payload : Bytes) (retain : Bool) :
    (connectionPublish env s c topic payload qos retain).2 =
      if (s.conns c).publicationSize qos retain topic payload ≠ 0 ∧
        env.alloc ((s.conns c).publicationSize qos retain topic payload) = true then
        (if qos = 2 ∧ env.alloc pendingOutSize = true then
          (s.modify c (Conn.deliver env qos retain topic payload)).modify c fun x =>
            { x with pendingQos2Out := x.pendingQos2Out ++ [⟨x.nextPacketId.toNat, .waitPubrec⟩] }
        else s.modify c (Conn.deliver env qos retain topic payload))
      else s.modify c (Conn.draw qos) := by
  have hdraw : (if qos > 0 then
      s.modify c fun x => { x with nextPacketId := nextId x.nextPacketId } else s) =
      s.modify c (Conn.draw qos) := by
    split
    · next hpos =>
      refine Server.modify_congr ?_
      unfold Conn.draw
      rw [if_pos hpos]
    · next hpos =>
      refine (s.modify_self c).symm.trans (Server.modify_congr ?_)
      unfold Conn.draw
      rw [if_neg hpos]
  have hpid : (if qos > 0 then ((s.conns c).draw qos).nextPacketId else 0) =
      (s.conns c).nextPid qos := by
    unfold Conn.nextPid
    split
    · next hpos =>
      unfold Conn.draw
      rw [if_pos hpos]
    · rfl
  have hversion : ((s.conns c).draw qos).version = (s.conns c).version := by
    unfold Conn.version
    rw [((s.conns c).draw_books qos).protocolVersion]
  unfold connectionPublish
  rw [if_neg (by omega)]
  dsimp only
  rw [hdraw, Server.modify_same, hpid, hversion, encodePublishIn_size]
  unfold Conn.publicationSize
  by_cases hsize : (encodePublishIn (s.conns c).version [] (UInt8.ofNat qos) retain 0 topic
      payload).1 = 0
  · rw [if_pos hsize, if_neg fun h => h.1 hsize]
  · rw [if_neg hsize]
    unfold sendEncoded
    rw [encodePublishIn_size]
    by_cases hmem : env.alloc (encodePublishIn (s.conns c).version [] (UInt8.ofNat qos) retain 0
        topic payload).1 = true
    · rw [if_pos hmem, if_pos ⟨hsize, hmem⟩, connSend_eq, Server.modify_modify]
      have hdeliver : (s.modify c fun x => Conn.send env (encoded fun buf =>
          encodePublishIn (s.conns c).version buf (UInt8.ofNat qos) retain ((s.conns c).nextPid qos)
            topic payload) (x.draw qos)) = s.modify c (Conn.deliver env qos retain topic payload) :=
        Server.modify_congr rfl
      rw [hdeliver]
      dsimp only
      split <;> rfl
    · rw [if_neg hmem, if_neg fun h => hmem h.2]

theorem publish_moved (s : Server) (c : ConnId) (topic payload : Bytes) (qos : ℕ) (retain : Bool) :
    (s.conns c).Moved (demand c s (env, .publish topic payload qos retain))
      ((connectionPublish env s c topic payload qos retain).2.conns c) := by
  unfold demand
  dsimp only
  by_cases hq : qos ≤ 2
  · have hdrawn := (s.conns c).tryDeliver_drawn env topic payload retain hq
    rw [if_pos hq, connectionPublish_eq env hq]
    by_cases hsend : (s.conns c).publicationSize qos retain topic payload ≠ 0 ∧
        env.alloc ((s.conns c).publicationSize qos retain topic payload) = true
    · have htry : (s.conns c).tryDeliver env qos retain topic payload =
          (s.conns c).deliver env qos retain topic payload := by
        unfold Conn.tryDeliver
        rw [if_neg hsend.1, if_neg (not_not.mpr hsend.2)]
      rw [htry] at hdrawn
      rw [if_pos hsend]
      split
      · next hopen =>
        have hone : (s.conns c).draws env topic payload qos retain = 1 := by
          unfold Conn.draws
          exact if_pos ⟨by omega, hsend⟩
        rw [Server.modify_same, Server.modify_same]
        refine ⟨hdrawn.sent, .inr ⟨hone, ?_⟩⟩
        unfold Conn.openIds
        rw [map_append, hdrawn.books.pendingQos2Out, hdrawn.counter, hone]
        rfl
      · rw [Server.modify_same]
        exact hdrawn.moved
    · rw [if_neg hsend, Server.modify_same]
      refine ⟨⟨[], ?_, fun _ hb => absurd hb not_mem_nil⟩, .inl ?_⟩
      · rw [Conn.draw_sent, append_nil]
      · unfold Conn.openIds
        rw [((s.conns c).draw_books qos).pendingQos2Out]
  · have hkeep : (connectionPublish env s c topic payload qos retain).2 = s := by
      unfold connectionPublish
      rw [if_pos (by omega)]
    rw [if_neg hq, hkeep]
    exact (Conn.Still.refl _).moved

theorem idStep_moved (c : ConnId) (s : Server) (a : Env × Move c) :
    ∃ t, idStep c s a = some t ∧ (s.conns c).Moved (demand c s a) (t.conns c) := by
  obtain ⟨env, move⟩ := a
  cases move with
  | forward d topic payload qos retain =>
    refine ⟨_, rfl, ?_⟩
    rw [forward_conn]
    exact (Conn.iterate_forward_drawn ..).moved
  | subscribe filter qos => exact ⟨_, rfl, onSubscribe_moved s c filter qos⟩
  | publish topic payload qos retain => exact ⟨_, rfl, publish_moved s c topic payload qos retain⟩
  | pubrec id => exact ⟨_, rfl, (onPubrec_still s c id).moved⟩
  | pubcomp id => exact ⟨_, rfl, (onPubcomp_still s c id).moved⟩
  | other f still => exact ⟨_, rfl, (still s).moved⟩

/-- As long as no id is drawn that is still open, all that is sent has an id that is not open, and
the open ones are distinct. -/
theorem new_ids_of_unopened {as : List (Env × Move c)} (h0 : (s.conns c).openIds.Nodup)
    (has : Meets (idStep c) (Unopened c) s as) :
    Along (idStep c) (fun s => (s.conns c).openIds.Nodup) s as ∧
      Guarded (idStep c) (NewIds c) s as := by
  refine guarded_of_meets (fun s a hs hok => ?_) h0 has
  obtain ⟨t, ht, hmoved⟩ := idStep_moved c s a
  refine ⟨t, ht, ?_, fun t' ht' => ?_⟩
  · rcases hmoved.opened with hsub | ⟨hone, hopen⟩
    · exact hs.sublist hsub
    · rw [hopen, nodup_append]
      refine ⟨hs, nodup_singleton _, ?_⟩
      rintro id hid id' hid' rfl
      rw [mem_singleton.mp hid'] at hid
      exact hok 0 (by omega) hid
  · obtain rfl := some.inj (ht.symm.trans ht')
    obtain ⟨new, hnew, hids⟩ := hmoved.sent
    refine ⟨new, hnew, fun b hb id hid => ?_⟩
    obtain ⟨i, hi, rfl⟩ := hids b hb id hid
    exact ⟨Conn.idAfter_ne_zero _ i, hok i hi⟩

def exchanging : List (Env × Move 0) :=
  [(plenty, .publish [97] [120] 2 false), (plenty, .publish [97] [120] 1 false),
    (plenty, .pubrec 1), (plenty, .publish [97] [121] 2 false), (plenty, .pubcomp 1)]

instance (c : ConnId) (s : Server) (a : Env × Move c) : Decidable (Unopened c s a) :=
  inferInstanceAs (Decidable (∀ i < demand c s a, _))

theorem exchanging_new : Along (idStep 0) (fun s => (s.conns 0).openIds.Nodup) {} exchanging ∧
      Guarded (idStep 0) (NewIds 0) {} exchanging :=
  new_ids_of_unopened (by decide) (by decide +kernel)

def another : Env × Move 0 := (plenty, .publish [97] [120] 1 false)

theorem another_conn (s : Server) (t : Server) (h : idStep 0 s another = some t) :
    (t.conns 0).nextPacketId = nextId (s.conns 0).nextPacketId ∧
      (t.conns 0).openIds = (s.conns 0).openIds ∧ ∃ b, (t.conns 0).sent = (s.conns 0).sent ++ [b] ∧
        publishId b = some (nextId (s.conns 0).nextPacketId).toNat := by
  obtain rfl : (connectionPublish plenty s 0 [97] [120] 1 false).2 = t := some.inj h
  have hsize : (s.conns 0).publicationSize 1 false [97] [120] ≠ 0 :=
    publicationSize_pos (s.conns 0) (by decide) (by decide) 1 false
  rw [connectionPublish_eq plenty (by decide), if_pos ⟨hsize, rfl⟩, if_neg (by decide),
    Server.modify_same]
  refine ⟨Conn.deliver_nextPacketId, ?_, (s.conns 0).publication 1 false [97] [120],
    Conn.deliver_sent.trans ?_, ?_⟩
  · unfold Conn.openIds
    rw [(Conn.deliver_books ..).pendingQos2Out]
  · rw [if_pos ⟨rfl, rfl⟩]
  · have hneed : publishNeed (s.conns 0).version (UInt8.ofNat 1) [97] [120] < 2 ^ 28 := by
      cases (s.conns 0).version <;> decide
    exact publishId_encoded (s.conns 0) (by decide) false (by decide) hneed

theorem not_new_of_open {k : ℕ} (hk : k < 65535) {s : Server} (hopen : 1 ∈ (s.conns 0).openIds)
    (hcounter : (s.conns 0).nextPacketId = UInt16.ofNat (65535 - k)) :
    ¬ Guarded (idStep 0) (NewIds 0) s (List.replicate (k + 1) another) := by
  induction k generalizing s with
  | zero =>
    rintro ⟨hnew, t, ht, -⟩
    obtain ⟨-, -, b, hb, hid⟩ := another_conn s t ht
    obtain ⟨new, hsent, hids⟩ := hnew t ht
    obtain rfl : [b] = new := append_cancel_left (hb.symm.trans hsent)
    rw [hcounter] at hid
    exact (hids b (mem_singleton.mpr rfl) 1 hid).2 hopen
  | succ k ih =>
    rintro ⟨-, t, ht, hrest⟩
    obtain ⟨hnext, hkeep, -⟩ := another_conn s t ht
    refine ih (by omega) (hkeep ▸ hopen) ?_ hrest
    rw [hnext, hcounter]
    unfold nextId
    have hsum : UInt16.ofNat (65535 - (k + 1)) + 1 = UInt16.ofNat (65535 - k) := by
      rw [show 65535 - k = 65535 - (k + 1) + 1 by omega, UInt16.ofNat_add]
      rfl
    rw [hsum, if_neg]
    intro hzero
    have hnat := congrArg UInt16.toNat hzero
    rw [UInt16.toNat_ofNat'] at hnat
    have hz : (0 : UInt16).toNat = 0 := rfl
    omega

/-- An exchange is opened with id 1 and stays open. The 65535th PUBLISH after it has id 1 again. -/
theorem open_id_sent_again : ¬ Guarded (idStep 0) (NewIds 0) {}
      ((plenty, .publish [97] [120] 2 false) :: List.replicate 65535 another) := by
  rintro ⟨-, t, ht, hrest⟩
  have hfacts : (t.conns 0).openIds = [1] ∧ (t.conns 0).nextPacketId = 1 := by
    obtain rfl : (connectionPublish plenty {} 0 [97] [120] 2 false).2 = t := some.inj ht
    decide +kernel
  refine not_new_of_open (k := 65534) (by norm_num) ?_ ?_ hrest
  · rw [hfacts.1]
    exact mem_singleton.mpr rfl
  · exact hfacts.2

end Voxlib.Mqtt
