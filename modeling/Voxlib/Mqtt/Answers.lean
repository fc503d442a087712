import Voxlib.Lib.Run
import Voxlib.Mqtt.Traffic

/-!
# Acknowledgements of the server

A ledger has one acknowledgement for each packet that is due one.
-/

namespace Voxlib.Mqtt
open CStr Wire Run Option Function

variable {c : ConnId} {s w : Server} {v : Version}

def plenty : Env := ⟨fun _ => true, fun _ => true⟩

theorem plenty_willing : plenty.willing := ⟨fun _ => rfl, fun _ => rfl⟩

def Inbound.answers (v : Version) : Inbound → List Bytes
  | .publish _ _ qos id _ _ _ =>
    if qos = 1 then [answer .puback (u16 id.toNat)]
    else if qos = 2 then [answer .pubrec (u16 id.toNat)]
    else []
  | .pubrel id _ => [answer .pubcomp (u16 id.toNat)]
  | .subscribe id _ filters => [answer .suback (subackBody v id (filters.map v.granted))]
  | .unsubscribe id _ topics => [answer .unsuback (unsubackBody v id (topics.map fun _ => 0))]
  | .pingreq => [answer .pingresp []]
  | .other _ => []

structure Ledger where
  sys : System
  owed : ConnId → List Bytes := fun _ => []

def Ledger.init (accepted : ℕ) : Ledger where
  sys := { server := { acceptedVersions := accepted } }

def Ledger.owe (l : Ledger) : Event → ConnId → List Bytes
  | .accept => Function.update l.owed l.sys.next []
  | .packet c k =>
    Function.update l.owed c (l.owed c ++ k.answers (l.sys.server.conns c).version)
  | _ => l.owed

def Ledger.step (l : Ledger) (e : Event) : Option Ledger :=
  (l.sys.step plenty e).map fun y => ⟨y, l.owe e⟩

/-- Every connection was sent the acknowledgements that it was owed, in that order, and no others. -/
def Acknowledged (l : Ledger) : Prop := ∀ c, (l.sys.server.conns c).acks = l.owed c

instance (v : Version) : (k : Inbound) → Decidable (k.readable v)
  | .publish .. => inferInstanceAs (Decidable True)
  | .pubrel _ tail => inferInstanceAs (Decidable (v = .v5 → tail.map Prod.fst ≠ some .notFound))
  | .subscribe .. => inferInstanceAs (Decidable True)
  | .unsubscribe .. => inferInstanceAs (Decidable True)
  | .pingreq => inferInstanceAs (Decidable True)
  | .other _ => inferInstanceAs (Decidable True)

def Conn.pendingId (x : Conn) (id : UInt16) : Bool :=
  (x.pendingQos2In.find? fun p => p.packetId = id.toNat).isSome

def Inbound.replies (x : Conn) (k : Inbound) : List Bytes :=
  match k with
  | .publish _ _ qos id _ _ _ => if qos = 2 then [answer .pubrec (u16 id.toNat)] else []
  | .pubrel id _ =>
    if x.pendingId id ∧ k.readable x.version then [answer .pubcomp (u16 id.toNat)] else []
  | .subscribe id _ filters =>
    [answer .suback (subackBody x.version id (filters.map x.version.granted))]
  | .unsubscribe id _ topics =>
    topics.map fun _ => answer .unsuback (unsubackBody x.version id [0])
  | .pingreq => [answer .pingresp []]
  | .other _ => []

def Inbound.answerable (x : Conn) (k : Inbound) : Prop :=
  match k with
  | .publish _ _ qos .. => qos ≠ 1
  | .pubrel id _ => x.pendingId id ∧ k.readable x.version
  | .unsubscribe _ _ topics => topics.length = 1
  | _ => True

theorem replies_eq_answers_iff (x : Conn) (k : Inbound) :
    k.replies x = k.answers x.version ↔ k.answerable x := by
  cases k with
  | publish dup retain qos id props topic payload =>
    simp only [Inbound.replies, Inbound.answers, Inbound.answerable]
    by_cases h1 : qos = 1
    · subst h1
      simp
    · rw [if_neg h1]
      exact iff_of_true rfl h1
  | pubrel id tail =>
    simp only [Inbound.replies, Inbound.answers, Inbound.answerable]
    split
    · next h => exact iff_of_true rfl h
    · next h => exact iff_of_false (by simp) h
  | subscribe id props filters => exact iff_of_true rfl trivial
  | unsubscribe id props topics =>
    simp only [Inbound.replies, Inbound.answers, Inbound.answerable]
    constructor
    · intro h
      simpa using congrArg List.length h
    · intro h
      obtain ⟨topic, rfl⟩ := List.length_eq_one_iff.mp h
      rfl
  | pingreq => exact iff_of_true rfl trivial
  | other k => exact iff_of_true rfl trivial

/- What the packets do to the acknowledgements, the versions and the ends of the connections. -/
structure Replied (c : ConnId) (as : List Bytes) (s w : Server) : Prop where
  at_ : (w.conns c).acks = (s.conns c).acks ++ as
  elsewhere : ∀ d, d ≠ c → (w.conns d).acks = (s.conns d).acks
  version : ∀ d, (w.conns d).protocolVersion = (s.conns d).protocolVersion
  still : ∀ d, .disconnect d ∉ s.reported → .disconnect d ∉ w.reported

theorem Answered.replied {as : List Bytes} (h : Answered c as s w) : Replied c as s w :=
  ⟨h.at_, h.elsewhere, h.version, fun _ hd => h.still hd⟩

theorem Replied.trans {t : Server} {as bs : List Bytes} (h : Replied c as s t)
    (h' : Replied c bs t w) : Replied c (as ++ bs) s w where
  at_ := by rw [h'.at_, h.at_, List.append_assoc]
  elsewhere d hd := (h'.elsewhere d hd).trans (h.elsewhere d hd)
  version d := (h'.version d).trans (h.version d)
  still d hd := h'.still d (h.still d hd)

theorem replied_modify {f : Conn → Conn} (ha : (f (s.conns c)).acks = (s.conns c).acks)
    (hv : (f (s.conns c)).protocolVersion = (s.conns c).protocolVersion) :
    Replied c [] s (s.modify c f) := by
  refine ⟨?_, fun d hd => ?_, fun d => ?_, fun _ hd => hd⟩
  · rw [modify_conns, if_pos rfl, ha, List.append_nil]
  · rw [modify_conns, if_neg hd]
  · rw [modify_conns]
    split
    · next h => rw [h, hv]
    · rfl

theorem replied_report (s : Server) (c : ConnId) (topic payload : Bytes) (qos : ℕ) :
    Replied c [] s (s.report (.publish c topic payload qos)) := by
  refine ⟨(List.append_nil _).symm, fun _ _ => rfl, fun _ => rfl, fun d hd => ?_⟩
  simpa [Server.report] using hd

variable {k : Inbound}

theorem Effect.replied (h : Effect c v k s w) (hs : (s.conns c).version = v) (hr : k.readable v)
    (ha : k.answered = true) : Replied c (k.replies (s.conns c)) s w := by
  cases k with
  | publish dup retain qos id props topic payload =>
    simp only [Effect, Inbound.replies] at h ⊢
    split at h
    · next hq =>
      rw [if_pos hq]
      exact (replied_modify rfl rfl).trans h.replied
    · next hq =>
      rw [if_neg hq]
      exact h.replied
  | pubrel id tail =>
    simp only [Effect, Inbound.replies] at h ⊢
    split at h
    · next hfind =>
      have hnone : ¬ (s.conns c).pendingId id = true := by
        rw [Conn.pendingId, hfind]
        simp
      rw [if_neg (fun h' => hnone h'.1), h]
      exact (Answered.refl c s).replied
    · next p hfind =>
      have hsome : (s.conns c).pendingId id = true := by
        rw [Conn.pendingId, hfind]
        rfl
      obtain ⟨t, ht, hw⟩ := h
      rw [if_pos ⟨hsome, hs ▸ hr⟩]
      have hrelease : Replied c [] s (s.modify c (·.release id.toNat)) := replied_modify rfl rfl
      exact ((hrelease.trans ht.replied).trans (replied_report t c _ _ _)).trans hw.replied
  | subscribe id props filters =>
    rw [Inbound.replies, hs]
    exact Answered.replied h
  | unsubscribe id props topics =>
    rw [Inbound.replies, hs]
    exact Answered.replied h
  | pingreq => exact Answered.replied h
  | other k => simp [Inbound.answered] at ha

theorem bytes_ne_nil (v : Version) (k : Inbound) : k.bytes v ≠ [] := by
  cases k <;> simp [Inbound.bytes, Packet.bytes, frame]

variable {y : System}

theorem read_unreadable (hy : y.Sound) {p : Parser} (hp : y.parsers c = some p)
    (hk : k.wellFormed p.version) (hr : ¬ k.readable p.version) (env : Env) :
    ∃ z, y.read env c (k.bytes p.version) = some z ∧ Passed True c y z := by
  obtain ⟨-, hmax, -⟩ := hy.attends c p hp
  cases k with
  | pubrel id tail =>
    obtain ⟨hv, hreason⟩ : p.version = .v5 ∧ tail.map Prod.fst = some .notFound := by
      simpa [Inbound.readable] using hr
    obtain ⟨⟨reason, props⟩, rfl, rfl⟩ := map_eq_some_iff.mp hreason
    obtain ⟨pk, hbytes, htype, hflags, hbody⟩ := Inbound.exists_packet hk
    rw [← hbytes]
    refine ⟨_, read_packet hy hp pk, ?_⟩
    have hlen : (Inbound.pubrel id (some (.notFound, props))).body p.version =
        u16 id.toNat ++ Version.tail .v5 (some (.notFound, props)) := by
      rw [Inbound.body, hv]
    have hsize : (u16 id.toNat ++ Version.tail .v5 (some (.notFound, props))).length ≤
        defaultMaxPayload := hlen ▸ hk
    rw [hlen] at hbody
    rcases receive_body (serverCallbacks env c) env.alloc (s := (p, y.server)) (k := pk)
      (by simp [hbody, u16]) (by rw [hbody, hmax]; exact hsize) with ⟨-, q, msg, herr⟩ | ⟨cap, hfin⟩
    · rw [herr]
      have hclose : Calm True c y.server (connClose env y.server c) := connClose_calm env y.server c
      exact passed_closed hy (hclose.trans (connClose_calm env _ c)) hp
    · have htail : (Version.tail .v5 (some (.notFound, props))).length ≤ defaultMaxPayload := by
        rw [List.length_append] at hsize
        omega
      have hnone := packetIdWithV5Props_notFound ((Parser.version_iff p).mpr hv) .pubrel 2 cap id
        htail
      rw [← hbody] at hnone
      have hreply : dispatch (serverCallbacks env c) env.alloc (p.holding .pubrel 2 pk.body cap)
          y.server = failed (p.holding .pubrel 2 pk.body cap) y.server := by
        show parsePacketId _ _ _ _ = _
        unfold parsePacketId
        rw [hnone]
      rw [htype, hflags] at hfin
      rw [hfin]
      unfold finishPacket
      dsimp only [Inbound.type, Inbound.flags]
      rw [hreply]
      exact passed_closed hy (connClose_calm env y.server c) hp
  | publish dup retain qos id props topic payload => exact absurd trivial hr
  | subscribe id props filters => exact absurd trivial hr
  | unsubscribe id props topics => exact absurd trivial hr
  | pingreq => exact absurd trivial hr
  | other k => exact absurd trivial hr

theorem packet_replies (hy : y.Sound) {p : Parser} (hp : y.parsers c = some p)
    (hk : k.wellFormed p.version) : ∃ z, y.read plenty c (k.bytes p.version) = some z ∧ z.Sound ∧
      (z.server.conns c).acks = (y.server.conns c).acks ++ k.replies (y.server.conns c) ∧
      ∀ d, d ≠ c → (z.server.conns d).acks = (y.server.conns d).acks := by
  have hatt := hy.attends c p hp
  have hversion := hatt.version_eq
  by_cases hr : k.readable p.version
  · cases ha : k.answered with
    | true =>
      obtain ⟨w, htaken, heffect⟩ := effect_of_taken plenty_willing hatt.state hatt.maxPayload
        (Parser.version_iff p) hversion hk hr ha
      have hreply := heffect.replied hversion hr ha
      obtain ⟨q, hread, hsound⟩ := read_taken hy hp (bytes_ne_nil _ k) htaken hreply.version
        hreply.still
      exact ⟨_, hread, hsound, hreply.at_, hreply.elsewhere⟩
    | false =>
      cases k with
      | other k =>
        have htype : k.type.unanswered := hk
        obtain ⟨z, hread, hpassed⟩ : ∃ z, y.read plenty c k.bytes = some z ∧
            Passed k.type.unanswered c y z :=
          read_other hy hp (fun h => by simp [PacketType.unanswered, h] at htype)
            (fun h => by simp [PacketType.unanswered, h] at htype)
        refine ⟨z, hread, hpassed.sound, ?_, fun d _ => hpassed.calm.acks htype d⟩
        rw [hpassed.calm.acks htype c, Inbound.replies, List.append_nil]
      | publish dup retain qos id props topic payload => simp [Inbound.answered] at ha
      | pubrel id tail => simp [Inbound.answered] at ha
      | subscribe id props filters => simp [Inbound.answered] at ha
      | unsubscribe id props topics => simp [Inbound.answered] at ha
      | pingreq => simp [Inbound.answered] at ha
  · obtain ⟨z, hread, hpassed⟩ := read_unreadable hy hp hk hr plenty
    refine ⟨z, hread, hpassed.sound, ?_, fun d _ => hpassed.calm.acks trivial d⟩
    rw [hpassed.calm.acks trivial c]
    cases k with
    | pubrel id tail =>
      rw [Inbound.replies, if_neg (fun h => hr (hversion ▸ h.2)), List.append_nil]
    | publish dup retain qos id props topic payload => exact absurd trivial hr
    | subscribe id props filters => exact absurd trivial hr
    | unsubscribe id props topics => exact absurd trivial hr
    | pingreq => exact absurd trivial hr
    | other k => exact absurd trivial hr

/- The step brings no packet for which what is sent is not what is owed. -/
def Answerable (l : Ledger) : Event → Prop
  | .packet c k => k.answerable (l.sys.server.conns c)
  | _ => True

theorem packet_acks {l : Ledger} (hs : l.sys.Sound) (h : l.sys.step plenty (.packet c k) = some y) :
    y.Sound ∧ (Acknowledged l →
      (Acknowledged ⟨y, l.owe (.packet c k)⟩ ↔ k.answerable (l.sys.server.conns c))) := by
  obtain ⟨p, hp, h⟩ := bind_eq_some_iff.mp h
  obtain ⟨hk, hread⟩ := ite_none_right_eq_some.mp h
  obtain ⟨z, hread', hsound, hat, helse⟩ := packet_replies hs hp hk
  obtain rfl : z = y := some.inj (hread'.symm.trans hread)
  refine ⟨hsound, fun hack => ?_⟩
  rw [← replies_eq_answers_iff]
  constructor
  · intro h'
    have hc := h' c
    simp only [Ledger.owe, update_self] at hc
    rw [hat, hack c] at hc
    exact List.append_cancel_left hc
  · intro hanswers d
    by_cases hd : d = c
    · subst hd
      simp only [Ledger.owe, update_self]
      rw [hat, hack d, hanswers]
    · simp only [Ledger.owe, update_of_ne hd]
      rw [helse d hd, hack d]

theorem passed_acks {l : Ledger} (h : Passed True c l.sys y) (hack : Acknowledged l) :
    Acknowledged ⟨y, l.owed⟩ := fun d => by
  rw [← hack d]
  exact h.calm.acks trivial d

theorem accept_acks {l : Ledger} (hack : Acknowledged l) (env : Env) :
    Acknowledged ⟨l.sys.accept env, l.owe .accept⟩ := by
  intro d
  by_cases hd : d = l.sys.next
  · subst hd
    simp only [Ledger.owe, System.accept, update_self]
    rfl
  · simp only [Ledger.owe, System.accept, update_of_ne hd]
    exact hack d

theorem step_acks {l l' : Ledger} {e : Event} (hs : l.sys.Sound) (h : l.step e = some l') :
    l'.sys.Sound ∧ (Acknowledged l → (Acknowledged l' ↔ Answerable l e)) := by
  obtain ⟨y, hy, rfl⟩ := map_eq_some_iff.mp h
  cases e with
  | accept =>
    obtain rfl := some.inj hy
    exact ⟨sound_accept hs plenty, fun hack => iff_of_true (accept_acks hack plenty) trivial⟩
  | packet c k => exact packet_acks hs hy
  | endOfStream c =>
    obtain ⟨p, hp, -⟩ := map_eq_some_iff.mp hy
    obtain ⟨z, hread, hpassed⟩ : ∃ z, l.sys.read plenty c [] = some z ∧ Passed True c l.sys z :=
      read_nil_passed hs hp
    obtain rfl : z = y := some.inj (hread.symm.trans hy)
    exact ⟨hpassed.sound, fun hack => iff_of_true (passed_acks hpassed hack) trivial⟩
  | publish c topic payload qos retain =>
    obtain ⟨p, -, rfl⟩ := map_eq_some_iff.mp hy
    have hpassed : Passed True c l.sys _ := publish_passed hs plenty topic payload qos retain
    exact ⟨hpassed.sound, fun hack => iff_of_true (passed_acks hpassed hack) trivial⟩

def connectPacket : Packet :=
  ⟨.connect, 0, [13], [0, 4, 77, 81, 84, 84, 4, 2, 0, 60, 0, 1, 99], by decide, Packet.noFlags,
    by decide⟩

def connected : List Event := [.accept, .packet 0 (.other connectPacket)]

def settledAfter (es : List Event) : Option (List Bytes × List Bytes) :=
  (exec Ledger.step (Ledger.init 0) es).map fun l => ((l.sys.server.conns 0).acks, l.owed 0)

theorem not_acknowledged_of_settled {es : List Event} {sent owed : List Bytes}
    (h : settledAfter es = some (sent, owed)) (hne : sent ≠ owed) :
    ¬ Along Ledger.step Acknowledged (Ledger.init 0) es := by
  intro hack
  obtain ⟨l, hl, heq⟩ := map_eq_some_iff.mp h
  have hlast := along_last hack hl 0
  exact hne ((Prod.ext_iff.mp heq).1.symm.trans (hlast.trans (Prod.ext_iff.mp heq).2))

example : settledAfter (connected ++ [.packet 0 (.publish false false 2 7 [] [116] [120]),
    .packet 0 (.pubrel 7 none), .packet 0 (.subscribe 8 [] [([116], 1), ([117], 2)]),
    .packet 0 .pingreq]) =
    some ([[0x50, 2, 0, 7], [0x70, 2, 0, 7], [0x90, 4, 0, 8, 1, 1], [0xd0, 0]],
      [[0x50, 2, 0, 7], [0x70, 2, 0, 7], [0x90, 4, 0, 8, 1, 1], [0xd0, 0]]) := by
  decide +kernel

end Voxlib.Mqtt
