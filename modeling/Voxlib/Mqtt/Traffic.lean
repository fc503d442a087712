import Voxlib.Mqtt.ConnectTrip
import Voxlib.Mqtt.Effects

/-!
# The server and its connections, packet after packet

`Sound` is what holds between the steps of the server.
-/

namespace Voxlib.Mqtt
open CStr Wire List Function

variable {c : ConnId} {s t w : Server} {env : Env} {mute : Prop}

/- Nothing but the end of `c`, what its CONNECT sets, and, when `mute` does not hold, answers. -/
structure Calm (mute : Prop) (c : ConnId) (s t : Server) : Prop where
  acks : mute → ∀ d, (t.conns d).acks = (s.conns d).acks
  pending : ∀ d, d ≠ c → (t.conns d).pendingQos2In = (s.conns d).pendingQos2In
  version : ∀ d, d ≠ c → (t.conns d).protocolVersion = (s.conns d).protocolVersion
  reported : ∃ new, t.reported = s.reported ++ new ∧ (∀ d, handed d new = []) ∧
    ∀ d, d ≠ c → .disconnect d ∉ new

theorem Calm.trans (h : Calm mute c s t) (h' : Calm mute c t w) : Calm mute c s w := by
  obtain ⟨new, hnew, hhanded, hopen⟩ := h.reported
  obtain ⟨new', hnew', hhanded', hopen'⟩ := h'.reported
  refine ⟨fun hm d => ?_, fun d hd => ?_, fun d hd => ?_, new ++ new', ?_, fun d => ?_,
    fun d hd => ?_⟩
  · rw [h'.acks hm, h.acks hm]
  · rw [h'.pending d hd, h.pending d hd]
  · rw [h'.version d hd, h.version d hd]
  · rw [hnew', hnew, append_assoc]
  · exact handed_nil_append (hhanded d) (hhanded' d)
  · rw [mem_append]
    exact not_or.mpr ⟨hopen d hd, hopen' d hd⟩

theorem Quiet.acks (h : Quiet c s t) (d : ConnId) : (t.conns d).acks = (s.conns d).acks := by
  by_cases hd : d = c
  · rw [hd, h.at_, append_nil]
  · exact h.elsewhere d hd

variable {as : List Bytes}

theorem Answered.calm (h : Answered c as s t) (ha : mute → as = []) : Calm mute c s t := by
  obtain ⟨new, hnew, hplain⟩ := h.reported
  refine ⟨fun hm d => ?_, fun d _ => h.pending d, fun d _ => h.version d, new, hnew,
    handed_plain hplain, fun d _ hmem => ?_⟩
  · obtain rfl := ha hm
    exact Quiet.acks h d
  · exact (hplain _ hmem d).1 rfl

theorem calm_modify {f : Conn → Conn} (hf : (f (s.conns c)).acks = (s.conns c).acks) :
    Calm mute c s (s.modify c f) := by
  refine ⟨fun _ d => ?_, fun d hd => ?_, fun d hd => ?_, [], (append_nil _).symm,
    fun _ => rfl, fun _ _ => not_mem_nil⟩
  · rw [modify_conns]
    split
    · next h => rw [h, hf]
    · rfl
  · rw [modify_conns, if_neg hd]
  · rw [modify_conns, if_neg hd]

theorem handed_disconnect {new : List Report}
    (h : ∀ r ∈ new, ∀ d, d ≠ c → r ≠ .disconnect d ∧ r.message d = none) :
    (∀ d, handed d (.disconnect c :: new) = []) ∧
      ∀ d, d ≠ c → Report.disconnect d ∉ Report.disconnect c :: new := by
  refine ⟨fun d => ?_, fun d hd hmem => ?_⟩
  · by_cases hd : d = c
    · subst hd
      simp [handed]
    · unfold handed
      rw [filterMap_eq_nil_iff]
      intro r hr
      rcases mem_cons.mp (takeWhile_subset _ hr) with rfl | hr'
      · rfl
      · exact (h r hr' d hd).2
  · rcases mem_cons.mp hmem with heq | hmem'
    · exact hd (Report.disconnect.inj heq)
    · exact (h _ hmem' d hd).1 rfl

theorem connClose_calm (env : Env) (s : Server) (c : ConnId) :
    Calm mute c s (connClose env s c) := by
  unfold connClose
  refine Calm.trans ?_ (calm_modify rfl)
  have hstart : Calm mute c s
      ({ s with connections := s.connections.erase c }.report (.disconnect c)) := by
    have hnone : ∀ r ∈ ([] : List Report), ∀ d, d ≠ c → r ≠ .disconnect d ∧ r.message d = none :=
      fun _ hr => absurd hr not_mem_nil
    obtain ⟨hhanded, hopen⟩ := handed_disconnect hnone
    exact ⟨fun _ _ => rfl, fun _ _ => rfl, fun _ _ => rfl, [.disconnect c], rfl, hhanded, hopen⟩
  split
  · next topic _ =>
    split
    · have hquiet := forward_quiet env
        ({ s with connections := s.connections.erase c }.report (.disconnect c)) c c topic
        (s.conns c).willPayload (s.conns c).willQos (s.conns c).willRetain
      obtain ⟨new, hnew, hplain⟩ := hquiet.reported
      have hwill : ∀ r ∈ Report.publish c topic (s.conns c).willPayload (s.conns c).willQos :: new,
          ∀ d, d ≠ c → r ≠ .disconnect d ∧ r.message d = none := by
        intro r hr d hd
        rcases mem_cons.mp hr with rfl | hr'
        · exact ⟨by simp, by simp [Report.message, Ne.symm hd]⟩
        · exact hplain r hr' d
      obtain ⟨hhanded, hopen⟩ := handed_disconnect hwill
      refine ⟨fun _ => hquiet.acks, fun d _ => hquiet.pending d, fun d _ => hquiet.version d, _, ?_,
        hhanded, hopen⟩
      exact hnew.trans (by simp [Server.report])
    · exact hstart
  · exact hstart

def PacketType.unanswered (type : PacketType) : Prop :=
  type ∉ [.publish, .pubrel, .subscribe, .unsubscribe, .pingreq]

/- What a packet that is no PUBLISH and no PUBREL leaves when it does not fail. -/
structure Harmless (type : PacketType) (c : ConnId) (s t : Server) : Prop where
  calm : Calm type.unanswered c s t
  pending : (t.conns c).pendingQos2In = (s.conns c).pendingQos2In
  version : type ≠ .connect → (t.conns c).protocolVersion = (s.conns c).protocolVersion
  still : .disconnect c ∉ s.reported → .disconnect c ∉ t.reported

variable {type : PacketType}

theorem Harmless.trans (h : Harmless type c s t) (h' : Harmless type c t w) :
    Harmless type c s w where
  calm := h.calm.trans h'.calm
  pending := h'.pending.trans h.pending
  version ht := (h'.version ht).trans (h.version ht)
  still hs := h'.still (h.still hs)

theorem Answered.still (h : Answered c as s t) {d : ConnId} (hs : .disconnect d ∉ s.reported) :
    .disconnect d ∉ t.reported := by
  obtain ⟨new, hnew, hplain⟩ := h.reported
  rw [hnew, mem_append]
  exact not_or.mpr ⟨hs, fun hmem => (hplain _ hmem d).1 rfl⟩

theorem Answered.harmless (h : Answered c as s t) (ha : type.unanswered → as = []) :
    Harmless type c s t :=
  ⟨h.calm ha, h.pending c, fun _ => h.version c, fun hs => h.still hs⟩

theorem Quiet.harmless (type : PacketType) (h : Quiet c s t) : Harmless type c s t :=
  Answered.harmless h fun _ => rfl

theorem encodeConnackV5_isAck (present reason : UInt8) (expiry : UInt32) (receiveMax : UInt16) :
    isAck (encoded (encodeConnackV5 · present reason expiry receiveMax)) = false := by
  refine encoded_isAck rfl (by norm_num) ?_
  simp only [length_append, putProperties_length, length_cons, length_nil]

theorem encodeConnack_isAck (present code : UInt8) :
    isAck (encoded (encodeConnack · present code)) = false :=
  encoded_isAck rfl (by norm_num) rfl

theorem encodeRefusal_isAck (version : ℕ) : isAck (encoded (encodeRefusal version)) = false := by
  by_cases h : version = 5
  · have henc : encodeRefusal version = (encodeConnackV5 · 0 reasonRefusedProtocol 0 0) :=
      funext fun buf => if_pos h
    rw [henc]
    exact encodeConnackV5_isAck _ _ _ _
  · have henc : encodeRefusal version = (encodeConnack · 0 refusedProtocol) :=
      funext fun buf => if_neg h
    rw [henc]
    exact encodeConnack_isAck _ _

theorem encodeConnackTo_isAck (x : Conn) : isAck (encoded x.encodeConnackTo) = false := by
  by_cases h : x.protocolVersion = 5
  · have henc : x.encodeConnackTo = (encodeConnackV5 · 0 0 (UInt32.ofNat x.sessionExpiryInterval)
        (if x.receiveMaximum ≠ 0 then UInt16.ofNat x.receiveMaximum else 65535)) :=
      funext fun buf => if_pos h
    rw [henc]
    exact encodeConnackV5_isAck _ _ _ _
  · have henc : x.encodeConnackTo = (encodeConnack · 0 0) := funext fun buf => if_neg h
    rw [henc]
    exact encodeConnack_isAck _ _

theorem identify_keeps (env : Env) (x : Conn) (a : Connect) :
    (x.identify env a).acks = x.acks ∧ (x.identify env a).pendingQos2In = x.pendingQos2In ∧
      (x.identify env a).protocolVersion = a.protocolVersion := by
  unfold Conn.identify
  dsimp only
  split <;> split <;> exact ⟨rfl, rfl, rfl⟩

theorem onConnect_harmless (env : Env) (s : Server) (c : ConnId) (a : Connect) :
    Harmless .connect c s (onConnect env s c a).2 ∧ ((onConnect env s c a).1 = 0 →
        ((onConnect env s c a).2.conns c).protocolVersion = a.protocolVersion) := by
  unfold onConnect
  generalize ht : (s.modify c fun x =>
    { x with
      sessionExpiryInterval := a.sessionExpiryInterval
      receiveMaximum := a.receiveMaximum }) = t
  have hquiet : Quiet c s t := by
    rw [← ht]
    exact answered_modify (append_nil _).symm rfl rfl
  dsimp only
  split
  · exact ⟨(hquiet.trans (sendEncoded_getD_quiet (encodeRefusal_isAck _) t c)).harmless .connect,
      fun h => absurd h (by norm_num)⟩
  · obtain ⟨hacks, hpending, hversion⟩ := identify_keeps env (t.conns c) a
    have hhere : ((t.modify c fun x => x.identify env a).conns c) = (t.conns c).identify env a := by
      rw [modify_conns, if_pos rfl]
    have hident : Harmless .connect c t (t.modify c fun x => x.identify env a) :=
      ⟨calm_modify hacks, by rw [hhere, hpending], fun h => absurd rfl h, id⟩
    split
    · exact ⟨(hquiet.harmless .connect).trans hident, fun h => absurd h (by norm_num)⟩
    · next w hw =>
      have hsend := sendEncoded_quiet (encodeConnackTo_isAck _) _ c hw
      have hplain : (Report.connect c (w.conns c).clientId).plain := fun d => ⟨by simp, rfl⟩
      refine ⟨((hquiet.harmless .connect).trans hident).trans
        ((hsend.trans (quiet_report hplain)).harmless .connect), fun _ => ?_⟩
      show (w.conns c).protocolVersion = _
      rw [hsend.version, hhere, hversion]

theorem onPubrec_quiet (env : Env) (s : Server) (c : ConnId) (id : ℕ) :
    Quiet c s (onPubrecFromClient env s c id).2 := by
  unfold onPubrecFromClient
  split
  · have hmark : Quiet c s (s.modify c fun x =>
        { x with pendingQos2Out := markReceived id x.pendingQos2Out }) :=
      answered_modify (append_nil _).symm rfl rfl
    exact hmark.trans
      (sendEncoded_getD_quiet (encoded_isAck rfl (by norm_num) (u16_length _)) _ c)
  · exact Answered.refl c s

theorem onPubcomp_quiet (s : Server) (c : ConnId) (id : ℕ) :
    Quiet c s (onPubcompFromClient s c id).2 := by
  unfold onPubcompFromClient
  dsimp only
  exact answered_modify (append_nil _).symm rfl rfl

theorem onDisconnect_quiet (s : Server) (c : ConnId) :
    Quiet c s (onDisconnectFromClient s c).2 := by
  unfold onDisconnectFromClient
  dsimp only
  exact answered_modify (append_nil _).symm rfl rfl

theorem sendEncoded_answered {enc : Bytes → ℕ × Bytes} (h : sendEncoded env s c enc = some t) :
    ∃ as, Answered c as s t := by
  by_cases henc : isAck (encoded enc) = true
  · unfold sendEncoded connSend at h
    split at h
    · split at h
      · obtain rfl := Option.some.inj h
        exact ⟨_, answered_modify (acks_sent _ _) rfl rfl⟩
      · obtain rfl := Option.some.inj h
        exact ⟨[], Answered.refl c s⟩
    · simp at h
  · exact ⟨[], sendEncoded_quiet (by simpa using henc) s c h⟩

theorem onSubscribeDone_any (env : Env) (s : Server) (c : ConnId) (id : ℕ) (codes : Bytes) :
    ∃ as, Answered c as s (onSubscribeDone env s c id codes).2 := by
  unfold onSubscribeDone
  dsimp only
  split
  · exact ⟨[], Answered.refl c s⟩
  · split
    · exact ⟨[], Answered.refl c s⟩
    · next hsend => exact sendEncoded_answered hsend

theorem onUnsubscribe_any (env : Env) (s : Server) (c : ConnId) (id : ℕ) (filter : Bytes) :
    ∃ as, Answered c as s (onUnsubscribe env s c id filter).2 := by
  unfold onUnsubscribe
  dsimp only
  generalize ht : (s.modify c fun x =>
    { x with subscriptions := x.subscriptions.eraseP fun sub => sub.filter = filter }) = t
  have hquiet : Quiet c s t := by
    rw [← ht]
    exact answered_modify (append_nil _).symm rfl rfl
  split
  · exact ⟨[], hquiet⟩
  · next hsend =>
    obtain ⟨as, h⟩ := sendEncoded_answered hsend
    exact ⟨as, Answered.trans hquiet h⟩

theorem onPingreq_any (env : Env) (s : Server) (c : ConnId) :
    ∃ as, Answered c as s (onPingreq env s c).2 := by
  unfold onPingreq
  split
  · exact ⟨[], Answered.refl c s⟩
  · next hsend => exact sendEncoded_answered hsend

theorem keeps_other (env : Env) (c : ConnId) (s : Server) (hpublish : type ≠ .publish)
    (hpubrel : type ≠ .pubrel) :
    Keeps (serverCallbacks env c) type (Harmless type c s) (Calm type.unanswered c s) where
  weaker _ h := h.calm
  error u msg h := by
    rw [invoke_server env c u (.error msg) rfl]
    exact h.calm.trans (connClose_calm env u c)
  call u call hmakes h := by
    cases call with
    | connect a =>
      obtain rfl : type = .connect := by simpa [PacketType.makes] using hmakes
      rw [invoke_server env c u (.connect a) rfl]
      exact h.trans (onConnect_harmless env u c a).1
    | connack a b => exact h
    | publish m => exact absurd (by simpa [PacketType.makes] using hmakes) hpublish
    | puback id => exact h
    | pubrec id =>
      rw [invoke_server env c u (.pubrec id) rfl]
      exact h.trans ((onPubrec_quiet env u c id).harmless type)
    | pubrel id => exact absurd (by simpa [PacketType.makes] using hmakes) hpubrel
    | pubcomp id =>
      rw [invoke_server env c u (.pubcomp id) rfl]
      exact h.trans ((onPubcomp_quiet u c id).harmless type)
    | subscribe id topic qos =>
      rw [invoke_server env c u (.subscribe id topic qos) rfl]
      exact h.trans ((onSubscribe_quiet env u c topic qos).harmless type)
    | subscribeDone id codes =>
      obtain rfl : type = .subscribe := by simpa [PacketType.makes] using hmakes
      rw [invoke_server env c u (.subscribeDone id codes) rfl]
      obtain ⟨as, has⟩ := onSubscribeDone_any env u c id codes
      exact h.trans (has.harmless fun h => by simp [PacketType.unanswered] at h)
    | suback id codes => exact h
    | unsubscribe id topic =>
      obtain rfl : type = .unsubscribe := by simpa [PacketType.makes] using hmakes
      rw [invoke_server env c u (.unsubscribe id topic) rfl]
      obtain ⟨as, has⟩ := onUnsubscribe_any env u c id topic
      exact h.trans (has.harmless fun h => by simp [PacketType.unanswered] at h)
    | unsuback id => exact h
    | pingreq =>
      obtain rfl : type = .pingreq := by simpa [PacketType.makes] using hmakes
      rw [invoke_server env c u .pingreq rfl]
      obtain ⟨as, has⟩ := onPingreq_any env u c
      exact h.trans (has.harmless fun h => by simp [PacketType.unanswered] at h)
    | pingresp => exact h
    | disconnect =>
      rw [invoke_server env c u .disconnect rfl]
      exact h.trans ((onDisconnect_quiet u c).harmless type)
    | error msg => simp [PacketType.makes] at hmakes

inductive Event where
  | accept
  | packet (c : ConnId) (k : Inbound)
  | endOfStream (c : ConnId)
  | publish (c : ConnId) (topic payload : Bytes) (qos : ℕ) (retain : Bool)

def Parser.version (p : Parser) : Version := if p.protocolVersion = 5 then .v5 else .v311

/- A packet is well-formed, comes in one read and is written for the version of the connection. -/
def System.step (env : Env) (y : System) : Event → Option System
  | .accept => some (y.accept env)
  | .packet c k =>
    (y.parsers c).bind fun p =>
      if k.wellFormed p.version then y.read env c (k.bytes p.version) else none
  | .endOfStream c => y.read env c []
  | .publish c topic payload qos retain =>
    (y.parsers c).map fun _ =>
      { y with server := (connectionPublish env y.server c topic payload qos retain).2 }

structure Attends (p : Parser) (x : Conn) : Prop where
  state : p.state = .fixedHeader
  maxPayload : p.maxPayload = defaultMaxPayload
  version : p.protocolVersion = x.protocolVersion

structure System.Sound (y : System) : Prop where
  attends : ∀ c p, y.parsers c = some p → Attends p (y.server.conns c)
  used : ∀ c p, y.parsers c = some p → c < y.next
  unended : ∀ c, (∃ p, y.parsers c = some p) ∨ y.next ≤ c → .disconnect c ∉ y.server.reported

variable {p : Parser}

theorem Attends.version_eq {x : Conn} (h : Attends p x) : x.version = p.version := by
  unfold Conn.version Parser.version
  rw [h.version]

theorem Parser.version_iff (p : Parser) : p.protocolVersion = 5 ↔ p.version = .v5 := by
  unfold Parser.version
  split
  · next h => simp [h]
  · next h => simp [h]

theorem sound_init (accepted : ℕ) :
    (System.Sound { server := { acceptedVersions := accepted } }) where
  attends _ _ h := by simp at h
  used _ _ h := by simp at h
  unended _ _ h := by simp at h

variable {y : System}

theorem sound_accept (hy : y.Sound) (env : Env) : (y.accept env).Sound where
  attends d p h := by
    by_cases hd : d = y.next
    · subst hd
      obtain rfl : create env.alloc 0 0 = p := by simpa [System.accept] using h
      simp only [System.accept, update_self]
      exact ⟨rfl, rfl, rfl⟩
    · simp only [System.accept, update_of_ne hd] at h ⊢
      exact hy.attends d p h
  used d p h := by
    by_cases hd : d = y.next
    · rw [hd]
      exact Nat.lt_succ_self y.next
    · simp only [System.accept, update_of_ne hd] at h
      exact Nat.lt_succ_of_lt (hy.used d p h)
  unended d h := by
    refine hy.unended d ?_
    rcases h with ⟨p, h⟩ | h
    · by_cases hd : d = y.next
      · exact Or.inr hd.symm.le
      · simp only [System.accept, update_of_ne hd] at h
        exact Or.inl ⟨p, h⟩
    · exact Or.inr (Nat.le_of_succ_le h)

def System.after (y : System) (c : ConnId) (p : Option Parser) (w : Server) : System :=
  { y with server := w, parsers := Function.update y.parsers c p }

theorem System.after_other (y : System) {c d : ConnId} (hd : d ≠ c) (p : Option Parser)
    (w : Server) : (y.after c p w).parsers d = y.parsers d := update_of_ne hd _ _

theorem System.after_same (y : System) (c : ConnId) (p : Option Parser) (w : Server) :
    (y.after c p w).parsers c = p := update_self _ _ _

theorem sound_moved (hy : y.Sound) {q : Parser} (hp : y.parsers c = some p)
    (hq : Attends q (w.conns c)) (hversion : ∀ d, d ≠ c →
      (w.conns d).protocolVersion = (y.server.conns d).protocolVersion)
    (hopen : ∀ d, .disconnect d ∉ y.server.reported → .disconnect d ∉ w.reported) :
    (y.after c (some q) w).Sound where
  attends d p' h := by
    by_cases hd : d = c
    · subst hd
      rw [System.after_same] at h
      exact Option.some.inj h ▸ hq
    · rw [System.after_other y hd] at h
      obtain ⟨hstate, hmax, hv⟩ := hy.attends d p' h
      exact ⟨hstate, hmax, by rw [hv]; exact (hversion d hd).symm⟩
  used d p' h := by
    by_cases hd : d = c
    · exact hd ▸ hy.used c p hp
    · rw [System.after_other y hd] at h
      exact hy.used d p' h
  unended d h := by
    refine hopen d (hy.unended d ?_)
    rcases h with ⟨p', h⟩ | h
    · by_cases hd : d = c
      · exact Or.inl ⟨p, hd ▸ hp⟩
      · rw [System.after_other y hd] at h
        exact Or.inl ⟨p', h⟩
    · exact Or.inr h

theorem sound_closed (hy : y.Sound) (hcalm : Calm mute c y.server w) (hp : y.parsers c = some p) :
    (y.after c none w).Sound where
  attends d p' h := by
    by_cases hd : d = c
    · subst hd
      rw [System.after_same] at h
      simp at h
    · rw [System.after_other y hd] at h
      obtain ⟨hstate, hmax, hv⟩ := hy.attends d p' h
      exact ⟨hstate, hmax, by rw [hv]; exact (hcalm.version d hd).symm⟩
  used d p' h := by
    by_cases hd : d = c
    · subst hd
      rw [System.after_same] at h
      simp at h
    · rw [System.after_other y hd] at h
      exact hy.used d p' h
  unended d h := by
    obtain ⟨new, hnew, -, hopen⟩ := hcalm.reported
    have hd : d ≠ c := by
      rintro rfl
      rcases h with ⟨p', h⟩ | h
      · rw [System.after_same] at h
        simp at h
      · exact absurd (hy.used d p hp) (Nat.not_lt.mpr h)
    show .disconnect d ∉ w.reported
    rw [hnew, mem_append]
    refine not_or.mpr ⟨hy.unended d ?_, hopen d hd⟩
    rcases h with ⟨p', h⟩ | h
    · rw [System.after_other y hd] at h
      exact Or.inl ⟨p', h⟩
    · exact Or.inr h

theorem read_nil (hp : y.parsers c = some p) :
    y.read env c [] = some (y.after c none (connClose env y.server c)) := by
  unfold System.read
  rw [hp]
  rfl

theorem read_packet (hy : y.Sound) (hp : y.parsers c = some p) (k : Packet) :
    y.read env c k.bytes = some
      (match receive (serverCallbacks env c) env.alloc (p, y.server) k with
        | .ok t => y.after c (some t.1) t.2
        | .error t => y.after c none (connClose env t.2 c)) := by
  have hexec := execute_packet (serverCallbacks env c) env.alloc (hy.attends c p hp).state y.server k
  have hne : k.bytes ≠ [] := by simp [Packet.bytes, frame]
  unfold System.read connFeedParser
  rw [hp, Option.map_some, if_neg hne]
  dsimp only
  rw [hexec]
  cases receive (serverCallbacks env c) env.alloc (p, y.server) k with
  | ok t => rfl
  | error t => rfl

theorem read_taken (hy : y.Sound) (hp : y.parsers c = some p) {bytes : Bytes} (hne : bytes ≠ [])
    (h : Taken (serverCallbacks env c) env.alloc p y.server bytes w)
    (hversion : ∀ d, (w.conns d).protocolVersion = (y.server.conns d).protocolVersion)
    (hopen : ∀ d, .disconnect d ∉ y.server.reported → .disconnect d ∉ w.reported) :
    ∃ q, y.read env c bytes = some (y.after c (some q) w) ∧ (y.after c (some q) w).Sound := by
  obtain ⟨q, hexec, hstate, hmax, hv⟩ := h
  obtain ⟨-, hmax', hv'⟩ := hy.attends c p hp
  refine ⟨q, ?_, sound_moved hy hp ?_ (fun d _ => hversion d) hopen⟩
  · unfold System.read connFeedParser
    rw [hp, Option.map_some, if_neg hne]
    dsimp only
    rw [hexec]
    rfl
  · exact ⟨hstate, hmax.trans hmax', by rw [hv, hv', hversion]⟩

structure Passed (mute : Prop) (c : ConnId) (y z : System) : Prop where
  sound : z.Sound
  calm : Calm mute c y.server z.server
  parsers : ∀ d, d ≠ c → z.parsers d = y.parsers d
  pending : z.parsers c ≠ none →
    (z.server.conns c).pendingQos2In = (y.server.conns c).pendingQos2In

theorem passed_closed (hy : y.Sound) (hcalm : Calm mute c y.server w) (hp : y.parsers c = some p) :
    Passed mute c y (y.after c none w) :=
  ⟨sound_closed hy hcalm hp, hcalm, fun _ hd => y.after_other hd none w,
    fun h => absurd (y.after_same c none w) h⟩

theorem read_nil_passed (hy : y.Sound) (hp : y.parsers c = some p) :
    ∃ z, y.read env c [] = some z ∧ Passed mute c y z :=
  ⟨_, read_nil hp, passed_closed hy (connClose_calm env y.server c) hp⟩

theorem read_other (hy : y.Sound) (hp : y.parsers c = some p) {k : Packet}
    (hpublish : k.type ≠ .publish) (hpubrel : k.type ≠ .pubrel) :
    ∃ z, y.read env c k.bytes = some z ∧ Passed k.type.unanswered c y z := by
  refine ⟨_, read_packet hy hp k, ?_⟩
  have hkeeps := receive_keeps (serverCallbacks env c) env.alloc (s := (p, y.server))
    (keeps_other env c y.server hpublish hpubrel)
    ((Answered.refl c y.server).harmless k.type)
  obtain ⟨-, hmax, hv⟩ := hy.attends c p hp
  cases hr : receive (serverCallbacks env c) env.alloc (p, y.server) k with
  | error t =>
    rw [hr] at hkeeps
    have hcalm : Calm k.type.unanswered c y.server t.2 := hkeeps
    exact passed_closed hy (hcalm.trans (connClose_calm env t.2 c)) hp
  | ok t =>
    rw [hr] at hkeeps
    have hharm : Harmless k.type c y.server t.2 := hkeeps
    have hatt : Attends t.1 (t.2.conns c) := by
      refine ⟨receive_state _ _ hr, ?_, ?_⟩
      all_goals by_cases hc : k.type = .connect
      · exact (receive_connect _ _ hc hr).1.trans hmax
      · exact (receive_same _ _ hc hr).1.trans hmax
      · obtain ⟨-, a, hversion, hcall⟩ := receive_connect _ _ hc hr
        rw [invoke_server env c y.server (.connect a) rfl] at hcall
        have hset := (onConnect_harmless env y.server c a).2 (congrArg Prod.fst hcall)
        rw [show (onConnect env y.server c a).2 = t.2 from congrArg Prod.snd hcall] at hset
        rw [hversion, hset]
      · rw [(receive_same _ _ hc hr).2, hharm.version hc]
        exact hv
    refine ⟨sound_moved hy hp hatt hharm.calm.version ?_, hharm.calm,
      fun _ hd => y.after_other hd _ _, fun _ => hharm.pending⟩
    intro d hd
    by_cases hdc : d = c
    · rw [hdc] at hd ⊢
      exact hharm.still hd
    · obtain ⟨new, hnew, -, hopen⟩ := hharm.calm.reported
      rw [hnew, mem_append]
      exact not_or.mpr ⟨hd, hopen d hdc⟩

theorem connectionPublish_quiet (env : Env) (s : Server) (c : ConnId) (topic payload : Bytes)
    (qos : ℕ) (retain : Bool) :
    Quiet c s (connectionPublish env s c topic payload qos retain).2 := by
  unfold connectionPublish
  split
  · exact Answered.refl c s
  · next hq =>
    dsimp only
    generalize ht : (if qos > 0 then
      s.modify c fun x => { x with nextPacketId := nextId x.nextPacketId } else s) = t
    have hquiet : Quiet c s t := by
      rw [← ht]
      split
      · exact answered_modify (append_nil _).symm rfl rfl
      · exact Answered.refl c s
    generalize (if qos > 0 then (t.conns c).nextPacketId else 0) = pid
    split
    · exact hquiet
    · split
      · exact hquiet
      · next w hsend =>
        have hw := sendEncoded_quiet (encodePublishIn_isAck _ (by omega) _ _ _ _) t c hsend
        split
        · dsimp only
          exact (hquiet.trans hw).trans (answered_modify (append_nil _).symm rfl rfl)
        · exact hquiet.trans hw

theorem sound_quiet (hy : y.Sound) (h : Quiet c y.server w) :
    (System.Sound { y with server := w }) where
  attends d p hp := by
    obtain ⟨hstate, hmax, hv⟩ := hy.attends d p hp
    exact ⟨hstate, hmax, by rw [hv]; exact (h.version d).symm⟩
  used := hy.used
  unended d hd := h.still (hy.unended d hd)

theorem publish_passed (hy : y.Sound) (env : Env) (topic payload : Bytes) (qos : ℕ)
    (retain : Bool) : Passed mute c y
      { y with server := (connectionPublish env y.server c topic payload qos retain).2 } :=
  have hquiet := connectionPublish_quiet env y.server c topic payload qos retain
  ⟨sound_quiet hy hquiet, hquiet.calm fun _ => rfl, fun _ _ => rfl, fun _ => hquiet.pending c⟩

theorem Calm.handed_eq (h : Calm mute c s t) (d : ConnId) :
    handed d t.reported = handed d s.reported := by
  obtain ⟨new, hnew, hhanded, -⟩ := h.reported
  rw [hnew]
  by_cases hd : .disconnect d ∈ s.reported
  · exact handed_append_closed hd new
  · rw [handed_append_open hd, hhanded d, append_nil]

end Voxlib.Mqtt
