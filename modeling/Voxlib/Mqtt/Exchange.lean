import Voxlib.Mqtt.Answers

/-!
# QoS 2 exchanges

The server appends to a list at every PUBLISH, so exchanges are right as long as none arrives
for an open id.
-/

namespace Voxlib.Mqtt
open CStr Wire Run List Option Function

variable {c : ConnId} {s t w : Server} {env : Env}

abbrev Message := Bytes × Bytes

/- The message of each open exchange, and the messages of the completed ones. -/
structure Exchanges where
  opened : ConnId → ℕ → Option Message := fun _ _ => none
  completed : ConnId → List Message := fun _ => []

def Exchanges.accept (x : Exchanges) (c : ConnId) : Exchanges :=
  { x with opened := Function.update x.opened c fun _ => none }

def Exchanges.publish (x : Exchanges) (c : ConnId) (id : ℕ) (m : Message) : Exchanges :=
  match x.opened c id with
  | some _ => x
  | none => { x with opened := Function.update x.opened c (Function.update (x.opened c) id (some m)) }

def Exchanges.release (x : Exchanges) (c : ConnId) (id : ℕ) : Exchanges :=
  match x.opened c id with
  | none => x
  | some m =>
    { opened := Function.update x.opened c (Function.update (x.opened c) id none)
      completed := Function.update x.completed c (x.completed c ++ [m]) }

theorem onPublish_cases (env : Env) (s : Server) (c : ConnId) (qos : ℕ) (id : UInt16)
    (topic payload : Bytes) : onPublishFromClient env s c (seen qos id topic payload) = (-1, s) ∨
    ∃ w, onPublishFromClient env s c (seen qos id topic payload) = (0, w) ∧
      if qos = 2 then ∃ as, Answered c as (s.modify c (·.hold (entry id topic payload))) w
      else Quiet c s w := by
  by_cases hq : qos = 2
  · subst hq
    unfold onPublishFromClient
    rw [if_pos (show (seen 2 id topic payload).qos = 2 from rfl)]
    split
    · exact Or.inl rfl
    · split
      · exact Or.inl rfl
      · split
        · exact Or.inl rfl
        · dsimp only
          split
          · exact Or.inl rfl
          · next w hsend =>
            refine Or.inr ⟨w, rfl, ?_⟩
            rw [if_pos rfl]
            exact sendEncoded_answered hsend
  · obtain ⟨w, hw, hquiet⟩ := onPublish_other env hq s c id topic payload
    refine Or.inr ⟨w, hw, ?_⟩
    rw [if_neg hq]
    exact hquiet

theorem onPubrel_cases (env : Env) (s : Server) (c : ConnId) (id : ℕ) :
    ∃ w, onPubrelFromClient env s c id = (0, w) ∧
      match (s.conns c).pendingQos2In.find? fun p => p.packetId = id with
      | none => w = s
      | some p => ∃ as t, Answered c as (s.modify c (·.release id)) t ∧
          Quiet c (t.report (.publish c p.topic p.payload p.qos)) w := by
  cases hfind : (s.conns c).pendingQos2In.find? fun p => p.packetId = id with
  | none => exact ⟨s, onPubrel_unknown env hfind, rfl⟩
  | some p =>
    unfold onPubrelFromClient
    rw [hfind]
    refine ⟨_, rfl, ?_⟩
    cases hsend : sendEncoded env (s.modify c (·.release id)) c (encodePubcomp · (UInt16.ofNat id)) with
    | none =>
      refine ⟨[], _, Answered.refl c _, ?_⟩
      exact forward_quiet env _ c c p.topic p.payload p.qos p.retain
    | some t =>
      obtain ⟨as, has⟩ := sendEncoded_answered hsend
      exact ⟨as, t, has, forward_quiet env t c c p.topic p.payload p.qos p.retain⟩

structure Turned (c : ConnId) (y z : System) (ps : List PendingIn) (ms : List Message) : Prop where
  sound : z.Sound
  parsers : ∀ d, d ≠ c → z.parsers d = y.parsers d
  elsewhere : ∀ d, d ≠ c →
    (z.server.conns d).pendingQos2In = (y.server.conns d).pendingQos2In
  pending : z.parsers c ≠ none → (z.server.conns c).pendingQos2In = ps
  handed : ∀ d, handed d z.server.reported =
    handed d y.server.reported ++ if d = c then ms else []

variable {y : System}

theorem Passed.turned {mute : Prop} {z : System} (h : Passed mute c y z) :
    Turned c y z (y.server.conns c).pendingQos2In [] where
  sound := h.sound
  parsers := h.parsers
  elsewhere := h.calm.pending
  pending := h.pending
  handed d := by rw [h.calm.handed_eq d, ite_self, append_nil]

theorem Passed.turned_closed {mute : Prop} {z : System} (h : Passed mute c y z)
    (hz : z.parsers c = none) (ps : List PendingIn) : Turned c y z ps [] :=
  { h.turned with pending := fun h' => absurd hz h' }

variable {p : Parser}

theorem read_call (hy : y.Sound) (hp : y.parsers c = some p) {k : Inbound}
    (hk : k.wellFormed p.version) (hbody : k.body p.version ≠ [])
    (hlen : (k.body p.version).length ≤ defaultMaxPayload) {call : Call} (hcall : ∀ cap,
      dispatch (serverCallbacks env c) env.alloc
        (p.holding k.type k.flags (k.body p.version) cap) y.server =
      callWith (serverCallbacks env c) (p.holding k.type k.flags (k.body p.version) cap)
        y.server call) {r : ℤ} (hr : invoke (serverCallbacks env c) y.server call = (r, w))
    (hw : r ≠ 0 → w = y.server) : ∃ z, y.read env c (k.bytes p.version) = some z ∧
      ((ensureBuf env.alloc p (k.body p.version).length = none ∨ r ≠ 0) ∧
          z.parsers c = none ∧ Passed True c y z ∨
        r = 0 ∧ ∃ q, z = y.after c (some q) w ∧ q.state = .fixedHeader ∧
          q.maxPayload = p.maxPayload ∧ q.protocolVersion = p.protocolVersion) := by
  obtain ⟨pk, hbytes, htype', hflags', hbody'⟩ := Inbound.exists_packet hk
  obtain ⟨-, hmax, -⟩ := hy.attends c p hp
  rw [← hbytes]
  refine ⟨_, read_packet hy hp pk, ?_⟩
  have hclose : Calm True c y.server (connClose env y.server c) := connClose_calm env y.server c
  rcases receive_body (serverCallbacks env c) env.alloc (s := (p, y.server)) (k := pk)
    (by rw [hbody']; exact hbody) (by rw [hbody', hmax]; exact hlen) with
    ⟨hroom, q, msg, herr⟩ | ⟨cap, hfin⟩
  · rw [herr]
    rw [hbody'] at hroom
    exact Or.inl ⟨Or.inl hroom, y.after_same c none _,
      passed_closed hy (hclose.trans (connClose_calm env _ c)) hp⟩
  · rw [htype', hflags', hbody'] at hfin
    have hdisp := hcall cap
    by_cases h0 : r = 0
    · refine Or.inr ⟨h0, ?_⟩
      have hok : receive (serverCallbacks env c) env.alloc (p, y.server) pk =
          .ok ({ p.holding k.type k.flags (k.body p.version) cap with state := .fixedHeader }, w) := by
        rw [hfin]
        unfold finishPacket
        dsimp only
        rw [hdisp]
        unfold callWith
        rw [hr, h0]
        rfl
      rw [hok]
      exact ⟨_, rfl, rfl, rfl, rfl⟩
    · refine Or.inl ⟨Or.inr h0, ?_⟩
      have herr : receive (serverCallbacks env c) env.alloc (p, y.server) pk =
          .error (p.holding k.type k.flags (k.body p.version) cap, y.server) := by
        rw [hfin]
        unfold finishPacket
        dsimp only
        rw [hdisp]
        unfold callWith
        rw [hr, hw h0]
        simp [h0]
      rw [herr]
      exact ⟨y.after_same c none _, passed_closed hy hclose hp⟩

variable {ps : List PendingIn}

theorem turned_moved (hy : y.Sound) {q : Parser} (hp : y.parsers c = some p)
    (hq : q.state = .fixedHeader ∧ q.maxPayload = p.maxPayload ∧
      q.protocolVersion = p.protocolVersion) {as : List Bytes} (hreply : Replied c as y.server w)
    {ms : List Message} (hpending : ∀ d, (w.conns d).pendingQos2In =
      if d = c then ps else (y.server.conns d).pendingQos2In) (hhanded : ∀ d, handed d w.reported =
      handed d y.server.reported ++ if d = c then ms else []) :
    Turned c y (y.after c (some q) w) ps ms := by
  obtain ⟨hstate, hmax, hv⟩ := hq
  obtain ⟨-, hmax', hv'⟩ := hy.attends c p hp
  have hatt : Attends q (w.conns c) :=
    ⟨hstate, hmax.trans hmax', by rw [hv, hv', hreply.version]⟩
  refine ⟨sound_moved hy hp hatt (fun d _ => hreply.version d) hreply.still,
    fun _ hd => y.after_other hd _ _, fun d hd => ?_, fun _ => ?_, hhanded⟩
  · exact (hpending d).trans (if_neg hd)
  · exact (hpending c).trans (if_pos rfl)

theorem modify_pending (s : Server) (c : ConnId) (f : Conn → Conn) (d : ConnId) :
    ((s.modify c f).conns d).pendingQos2In =
      if d = c then (f (s.conns c)).pendingQos2In else (s.conns d).pendingQos2In := by
  rw [modify_conns]
  split <;> rfl

theorem Answered.handed_eq {as : List Bytes} (h : Answered c as s t) (d : ConnId) :
    handed d t.reported = handed d s.reported := by
  have hcalm : Calm False c s t := h.calm False.elim
  exact hcalm.handed_eq d

/-- A QoS 2 PUBLISH is put behind the entries that are there, whatever they are. -/
theorem read_publish (env : Env) (hy : y.Sound) (hp : y.parsers c = some p) {dup retain : Bool}
    {qos : ℕ} {id : UInt16} {props topic payload : Bytes}
    (hk : (Inbound.publish dup retain qos id props topic payload).wellFormed p.version) :
    ∃ z, y.read env c ((Inbound.publish dup retain qos id props topic payload).bytes p.version) =
        some z ∧ Turned c y z ((y.server.conns c).pendingQos2In ++
        if qos = 2 then [entry id topic payload] else []) [] := by
  have hbody : (Inbound.publish dup retain qos id props topic payload).body p.version ≠ [] := by
    simp [Inbound.body, u16]
  have hinvoke := invoke_server env c y.server (.publish (seen qos id topic payload)) rfl
  rcases onPublish_cases env y.server c qos id topic payload with herr | ⟨w, hok, hw⟩
  · obtain ⟨z, hread, h⟩ := read_call hy hp hk hbody hk.2.2
      (publish_call (Parser.version_iff p) hk y.server) (hinvoke.trans herr) fun _ => rfl
    rcases h with ⟨-, hnone, hpassed⟩ | ⟨h0, -⟩
    · exact ⟨z, hread, hpassed.turned_closed hnone _⟩
    · simp at h0
  · obtain ⟨z, hread, h⟩ := read_call hy hp hk hbody hk.2.2
      (publish_call (Parser.version_iff p) hk y.server) (hinvoke.trans hok) fun h => absurd rfl h
    refine ⟨z, hread, ?_⟩
    rcases h with ⟨-, hnone, hpassed⟩ | ⟨-, q, rfl, hq⟩
    · exact hpassed.turned_closed hnone _
    · split at hw
      · next hqos =>
        obtain ⟨as, has⟩ := hw
        have hhold : Replied c [] y.server (y.server.modify c (·.hold (entry id topic payload))) :=
          replied_modify rfl rfl
        refine turned_moved hy hp hq (hhold.trans has.replied) (fun d => ?_) fun d => ?_
        · rw [has.pending, modify_pending, if_pos hqos]
          rfl
        · rw [has.handed_eq, ite_self, append_nil]
          rfl
      · next hqos =>
        refine turned_moved hy hp hq hw.replied (fun d => ?_) fun d => ?_
        · rw [hw.pending, if_neg hqos, append_nil]
          split
          · next hd => rw [hd]
          · rfl
        · rw [Answered.handed_eq hw, ite_self, append_nil]

theorem handed_report {log : List Report} (hopen : .disconnect c ∉ log) (d : ConnId)
    (topic payload : Bytes) : handed d (log ++ [Report.publish c topic payload 2]) =
      handed d log ++ if d = c then [(topic, payload)] else [] := by
  by_cases hd : d = c
  · subst hd
    rw [handed_append_open hopen, if_pos rfl]
    simp [handed, Report.message]
  · rw [if_neg hd, append_nil]
    have hnone : handed d [.publish c topic payload 2] = [] := by
      simp [handed, Report.message, Ne.symm hd]
    by_cases hend : .disconnect d ∈ log
    · rw [handed_append_closed hend]
    · rw [handed_append_open hend, hnone, append_nil]

theorem eraseP_of_find_none {id : ℕ} (h : ps.find? (fun e => e.packetId = id) = none) :
    ps.eraseP (fun e => e.packetId = id) = ps := by
  refine eraseP_of_forall_not fun e he => ?_
  exact List.find?_eq_none.mp h e he

/-- The first entry with the id of a PUBREL that was received is taken out and handed on. -/
theorem read_pubrel (hy : y.Sound) (hp : y.parsers c = some p) {id : UInt16}
    {tail : Option (ReleaseReason × Option Bytes)}
    (hk : (Inbound.pubrel id tail).wellFormed p.version)
    (hqos : ∀ e ∈ (y.server.conns c).pendingQos2In, e.qos = 2)
    (hreceived : (y.server.conns c).pendingId id = true →
      (Inbound.pubrel id tail).readable p.version ∧
        (ensureBuf env.alloc p ((Inbound.pubrel id tail).body p.version).length).isSome) :
    ∃ z, y.read env c ((Inbound.pubrel id tail).bytes p.version) = some z ∧ Turned c y z
        ((y.server.conns c).pendingQos2In.eraseP fun e => e.packetId = id.toNat)
        (((y.server.conns c).pendingQos2In.find? fun e => e.packetId = id.toNat).map
          fun e => (e.topic, e.payload)).toList := by
  have hbody : (Inbound.pubrel id tail).body p.version ≠ [] := by simp [Inbound.body, u16]
  have hlen : ((Inbound.pubrel id tail).body p.version).length ≤ defaultMaxPayload := hk
  have hinvoke := invoke_server env c y.server (.pubrel id.toNat) rfl
  -- without an entry with the id, nothing changes and the connection may even end
  by_cases hr : (Inbound.pubrel id tail).readable p.version
  · have htail : p.version = .v5 → ∀ props, tail ≠ some (.notFound, props) := by
      rintro h props rfl
      exact hr h rfl
    obtain ⟨w, hok, hw⟩ := onPubrel_cases env y.server c id.toNat
    obtain ⟨z, hread, h⟩ := read_call hy hp hk hbody hlen
      (pubrel_call (Parser.version_iff p) htail y.server) (hinvoke.trans hok) fun h => absurd rfl h
    refine ⟨z, hread, ?_⟩
    rcases h with ⟨hroom, hnone, hpassed⟩ | ⟨-, q, rfl, hq⟩
    · have hnot : ¬ (y.server.conns c).pendingId id = true := fun h' => by
        rcases hroom with hroom | hroom
        · simpa [hroom] using (hreceived h').2
        · exact hroom rfl
      rw [not_isSome_iff_eq_none.mp hnot]
      exact hpassed.turned_closed hnone _
    · cases hfind : (y.server.conns c).pendingQos2In.find? fun e => e.packetId = id.toNat with
      | none =>
        rw [hfind] at hw
        obtain rfl : w = y.server := hw
        rw [eraseP_of_find_none hfind]
        refine turned_moved hy hp hq (Answered.refl c y.server).replied (fun d => ?_) fun d => ?_
        · split
          · next hd => rw [hd]
          · rfl
        · simp
      | some e =>
        rw [hfind] at hw
        obtain ⟨as, t, ht, hw⟩ := hw
        have hrelease : Replied c [] y.server (y.server.modify c (·.release id.toNat)) :=
          replied_modify rfl rfl
        refine turned_moved hy hp hq
          (((hrelease.trans ht.replied).trans (replied_report t c _ _ _)).trans hw.replied)
          (fun d => ?_) fun d => ?_
        · rw [hw.pending]
          show (t.conns d).pendingQos2In = _
          rw [ht.pending, modify_pending]
          rfl
        · have hopen : .disconnect c ∉ t.reported :=
            ht.still (s := y.server.modify c (·.release id.toNat)) (hy.unended c (Or.inl ⟨p, hp⟩))
          rw [Answered.handed_eq hw, hqos e (mem_of_find?_eq_some hfind)]
          show handed d (t.reported ++ [Report.publish c e.topic e.payload 2]) = _
          rw [handed_report hopen, ht.handed_eq]
          rfl
  · obtain ⟨z, hread, hpassed⟩ := read_unreadable hy hp hk hr env
    have hnot : ¬ (y.server.conns c).pendingId id = true := fun h' => hr (hreceived h').1
    have hfind := not_isSome_iff_eq_none.mp hnot
    refine ⟨z, hread, ?_⟩
    rw [hfind, eraseP_of_find_none hfind]
    exact hpassed.turned

theorem read_plain (env : Env) (hy : y.Sound) (hp : y.parsers c = some p) {k : Inbound}
    (hk : k.wellFormed p.version) (hpublish : k.type ≠ .publish) (hpubrel : k.type ≠ .pubrel) :
    ∃ z, y.read env c (k.bytes p.version) = some z ∧
      Turned c y z (y.server.conns c).pendingQos2In [] := by
  obtain ⟨pk, hbytes, htype, -⟩ := Inbound.exists_packet hk
  rw [← hbytes]
  obtain ⟨z, hread, hpassed⟩ := read_other hy hp (htype ▸ hpublish) (htype ▸ hpubrel)
  exact ⟨z, hread, hpassed.turned⟩

structure Mirrors (ps : List PendingIn) (f : ℕ → Option Message) : Prop where
  distinct : (ps.map PendingIn.packetId).Nodup
  qos : ∀ e ∈ ps, e.qos = 2
  opened : ∀ id, f id = (ps.find? fun e => e.packetId = id).map fun e => (e.topic, e.payload)

theorem mirrors_nil : Mirrors [] fun _ => none :=
  ⟨nodup_nil, fun _ h => absurd h not_mem_nil, fun _ => rfl⟩

theorem mirrors_hold {f : ℕ → Option Message} (h : Mirrors ps f) {id : UInt16}
    (hnew : ps.find? (fun e => e.packetId = id.toNat) = none) (topic payload : Bytes) :
    Mirrors (ps ++ [entry id topic payload])
      (Function.update f id.toNat (some (topic, payload))) where
  distinct := by
    rw [map_append, nodup_append]
    refine ⟨h.distinct, nodup_singleton _, fun a ha b hb heq => ?_⟩
    obtain ⟨e, he, rfl⟩ := mem_map.mp ha
    rw [map_singleton, mem_singleton] at hb
    have hne : e.packetId ≠ id.toNat := by simpa using List.find?_eq_none.mp hnew e he
    exact absurd (heq.trans hb) hne
  qos e he := by
    rcases mem_append.mp he with he | he
    · exact h.qos e he
    · obtain rfl := mem_singleton.mp he
      rfl
  opened id' := by
    rw [List.find?_append]
    by_cases hid : id' = id.toNat
    · subst hid
      rw [update_self, hnew]
      simp [entry]
    · rw [update_of_ne hid, h.opened]
      simp [entry, Ne.symm hid]

theorem find_eraseP (h : (ps.map PendingIn.packetId).Nodup) (id id' : ℕ) :
    (ps.eraseP fun e => e.packetId = id).find? (fun e => e.packetId = id') =
      if id' = id then none else ps.find? fun e => e.packetId = id' := by
  induction ps with
  | nil => simp
  | cons e ps ih =>
    obtain ⟨hnot, hrest⟩ := nodup_cons.mp h
    by_cases he : e.packetId = id
    · rw [eraseP_cons_of_pos (by simpa using he)]
      split
      · next hid =>
        rw [List.find?_eq_none]
        intro e' he' hid'
        exact hnot (mem_map.mpr ⟨e', he', by simp only [decide_eq_true_eq] at hid'; omega⟩)
      · next hid => rw [List.find?_cons_of_neg (by simp; omega)]
    · rw [eraseP_cons_of_neg (by simpa using he)]
      by_cases he' : e.packetId = id'
      · rw [List.find?_cons_of_pos (by simpa using he'), if_neg (by omega),
          List.find?_cons_of_pos (by simpa using he')]
      · rw [List.find?_cons_of_neg (by simpa using he'), ih hrest,
          List.find?_cons_of_neg (by simpa using he')]

theorem mirrors_release {f : ℕ → Option Message} (h : Mirrors ps f) (id : ℕ) :
    Mirrors (ps.eraseP fun e => e.packetId = id) (Function.update f id none) where
  distinct := h.distinct.sublist (eraseP_sublist.map _)
  qos e he := h.qos e (mem_of_mem_eraseP he)
  opened id' := by
    rw [find_eraseP h.distinct, update_apply]
    split
    · rfl
    · exact h.opened id'

structure Traced where
  sys : System
  ideal : Exchanges := {}

def Traced.init (accepted : ℕ) : Traced where
  sys := { server := { acceptedVersions := accepted } }

def Exchanges.see (x : Exchanges) (next : ConnId) : Event → Exchanges
  | .accept => x.accept next
  | .packet c (.publish _ _ qos id _ topic payload) =>
    if qos = 2 then x.publish c id.toNat (topic, payload) else x
  | .packet c (.pubrel id _) => x.release c id.toNat
  | _ => x

def Traced.step (t : Traced) (a : Env × Event) : Option Traced :=
  (t.sys.step a.1 a.2).map fun y => ⟨y, t.ideal.see t.sys.next a.2⟩

/-- The QoS 2 messages that were handed to the subscribers are those of the completed exchanges,
each once and in the order of their completion. -/
def HandedOnce (t : Traced) : Prop :=
  ∀ c, handed c t.sys.server.reported = t.ideal.completed c

/- There is room in the buffer of the parser, or memory for more. -/
def Inbound.fits (env : Env) (k : Inbound) (p : Option Parser) : Bool :=
  p.all fun p => (ensureBuf env.alloc p (k.body p.version).length).isSome

/- No QoS 2 PUBLISH for an id that is pending, and a PUBREL for such an id can be received. -/
def Undoubled (t : Traced) : Env × Event → Prop
  | (_, .packet c (.publish _ _ qos id _ _ _)) =>
    qos = 2 → (t.sys.server.conns c).pendingId id = false
  | (env, .packet c (.pubrel id tail)) =>
    (t.sys.server.conns c).pendingId id = true →
      (Inbound.pubrel id tail).readable (t.sys.server.conns c).version ∧
        (Inbound.pubrel id tail).fits env (t.sys.parsers c) = true
  | _ => True

instance (t : Traced) : (a : Env × Event) → Decidable (Undoubled t a)
  | (_, .accept) => inferInstanceAs (Decidable True)
  | (_, .packet c (.publish _ _ qos id _ _ _)) =>
    inferInstanceAs (Decidable (qos = 2 → (t.sys.server.conns c).pendingId id = false))
  | (env, .packet c (.pubrel id tail)) =>
    inferInstanceAs (Decidable ((t.sys.server.conns c).pendingId id = true →
      (Inbound.pubrel id tail).readable (t.sys.server.conns c).version ∧
        (Inbound.pubrel id tail).fits env (t.sys.parsers c) = true))
  | (_, .packet _ (.subscribe ..)) => inferInstanceAs (Decidable True)
  | (_, .packet _ (.unsubscribe ..)) => inferInstanceAs (Decidable True)
  | (_, .packet _ .pingreq) => inferInstanceAs (Decidable True)
  | (_, .packet _ (.other _)) => inferInstanceAs (Decidable True)
  | (_, .endOfStream _) => inferInstanceAs (Decidable True)
  | (_, .publish ..) => inferInstanceAs (Decidable True)

structure Traced.Inv (t : Traced) : Prop where
  sound : t.sys.Sound
  handed : HandedOnce t
  mirrors : ∀ c, t.sys.parsers c ≠ none →
    Mirrors (t.sys.server.conns c).pendingQos2In (t.ideal.opened c)

/-- What a packet does to the server, the exchanges do too. -/
theorem Turned.inv {t : Traced} (ht : t.Inv) {z : System} {ms : List Message}
    (h : Turned c t.sys z ps ms) {x : Exchanges}
    (helse : ∀ d, d ≠ c → x.opened d = t.ideal.opened d ∧ x.completed d = t.ideal.completed d)
    (hopened : Mirrors ps (x.opened c)) (hcompleted : x.completed c = t.ideal.completed c ++ ms) :
    (Traced.Inv ⟨z, x⟩) where
  sound := h.sound
  handed d := by
    show Mqtt.handed d z.server.reported = x.completed d
    rw [h.handed d, ht.handed d]
    split
    · next hd => rw [hd, hcompleted]
    · next hd => rw [(helse d hd).2, append_nil]
  mirrors d hd := by
    by_cases hdc : d = c
    · subst hdc
      show Mirrors (z.server.conns d).pendingQos2In (x.opened d)
      rw [h.pending hd]
      exact hopened
    · show Mirrors (z.server.conns d).pendingQos2In (x.opened d)
      rw [h.elsewhere d hdc, (helse d hdc).1]
      exact ht.mirrors d (h.parsers d hdc ▸ hd)

theorem packet_inv {t : Traced} (ht : t.Inv) {k : Inbound} (hok : Undoubled t (env, .packet c k))
    (h : t.sys.step env (.packet c k) = some y) :
    (Traced.Inv ⟨y, t.ideal.see t.sys.next (.packet c k)⟩) := by
  obtain ⟨p, hp, h⟩ := bind_eq_some_iff.mp h
  obtain ⟨hk, hread⟩ := ite_none_right_eq_some.mp h
  have hmirror := ht.mirrors c (by rw [hp]; simp)
  have hversion := (ht.sound.attends c p hp).version_eq
  have hplain : ∀ {z : System},
      Turned c t.sys z (t.sys.server.conns c).pendingQos2In [] → Traced.Inv ⟨z, t.ideal⟩ :=
    fun hz => hz.inv ht (fun _ _ => ⟨rfl, rfl⟩) hmirror (append_nil _).symm
  cases k with
  | publish dup retain qos id props topic payload =>
    obtain ⟨z, hread', hz⟩ := read_publish env ht.sound hp hk
    obtain rfl : z = y := some.inj (hread'.symm.trans hread)
    by_cases hq : qos = 2
    · have hnone : (t.sys.server.conns c).pendingQos2In.find? (fun e => e.packetId = id.toNat) =
          none := by
        simpa [Conn.pendingId] using hok hq
      have hopened : t.ideal.opened c id.toNat = none := by
        rw [hmirror.opened, hnone]
        rfl
      rw [if_pos hq] at hz
      simp only [Exchanges.see, if_pos hq, Exchanges.publish, hopened]
      refine hz.inv ht (fun d hd => ⟨update_of_ne hd _ _, rfl⟩) ?_
        (append_nil _).symm
      dsimp only
      rw [update_self]
      exact mirrors_hold hmirror hnone topic payload
    · rw [if_neg hq, append_nil] at hz
      simp only [Exchanges.see, if_neg hq]
      exact hplain hz
  | pubrel id tail =>
    have hreceived : (t.sys.server.conns c).pendingId id = true →
        (Inbound.pubrel id tail).readable p.version ∧
          (ensureBuf env.alloc p ((Inbound.pubrel id tail).body p.version).length).isSome := by
      intro hid
      obtain ⟨hr, hfits⟩ := hok hid
      rw [hp] at hfits
      exact ⟨hversion ▸ hr, hfits⟩
    obtain ⟨z, hread', hz⟩ := read_pubrel ht.sound hp hk hmirror.qos hreceived
    obtain rfl : z = y := some.inj (hread'.symm.trans hread)
    have hopened := hmirror.opened id.toNat
    rw [← hopened] at hz
    simp only [Exchanges.see, Exchanges.release]
    cases hm : t.ideal.opened c id.toNat with
    | none =>
      rw [hm] at hopened hz
      rw [eraseP_of_find_none (map_eq_none_iff.mp hopened.symm)] at hz
      exact hplain hz
    | some m =>
      rw [hm] at hz
      refine hz.inv ht (fun d hd => ⟨update_of_ne hd _ _, update_of_ne hd _ _⟩) ?_
        (update_self _ _ _)
      dsimp only
      rw [update_self]
      exact mirrors_release hmirror id.toNat
  | subscribe id props filters =>
    obtain ⟨z, hread', hz⟩ := read_plain env ht.sound hp hk (by simp [Inbound.type])
      (by simp [Inbound.type])
    obtain rfl : z = y := some.inj (hread'.symm.trans hread)
    exact hplain hz
  | unsubscribe id props topics =>
    obtain ⟨z, hread', hz⟩ := read_plain env ht.sound hp hk (by simp [Inbound.type])
      (by simp [Inbound.type])
    obtain rfl : z = y := some.inj (hread'.symm.trans hread)
    exact hplain hz
  | pingreq =>
    obtain ⟨z, hread', hz⟩ := read_plain env ht.sound hp hk (by simp [Inbound.type])
      (by simp [Inbound.type])
    obtain rfl : z = y := some.inj (hread'.symm.trans hread)
    exact hplain hz
  | other k =>
    have htype : k.type.unanswered := hk
    obtain ⟨z, hread', hz⟩ := read_plain env ht.sound hp hk
      (fun h => by simp [Inbound.type] at h; simp [PacketType.unanswered, h] at htype)
      (fun h => by simp [Inbound.type] at h; simp [PacketType.unanswered, h] at htype)
    obtain rfl : z = y := some.inj (hread'.symm.trans hread)
    exact hplain hz

theorem accept_inv {t : Traced} (ht : t.Inv) (env : Env) :
    (Traced.Inv ⟨t.sys.accept env, t.ideal.see t.sys.next .accept⟩) where
  sound := sound_accept ht.sound env
  handed := ht.handed
  mirrors d hd := by
    by_cases hdn : d = t.sys.next
    · subst hdn
      simp only [System.accept, Exchanges.see, Exchanges.accept, update_self]
      exact mirrors_nil
    · simp only [System.accept, Exchanges.see, Exchanges.accept, update_of_ne hdn] at hd ⊢
      exact ht.mirrors d hd

theorem Passed.inv {mute : Prop} {t : Traced} (ht : t.Inv) (h : Passed mute c t.sys y)
    (hc : t.sys.parsers c ≠ none) : (Traced.Inv ⟨y, t.ideal⟩) :=
  h.turned.inv ht (fun _ _ => ⟨rfl, rfl⟩) (ht.mirrors c hc) (append_nil _).symm

theorem step_inv {t t' : Traced} {a : Env × Event} (ht : t.Inv) (hok : Undoubled t a)
    (h : t.step a = some t') : t'.Inv := by
  obtain ⟨env, e⟩ := a
  obtain ⟨y, hy, rfl⟩ := map_eq_some_iff.mp h
  cases e with
  | accept =>
    obtain rfl := some.inj hy
    exact accept_inv ht env
  | packet c k => exact packet_inv ht hok hy
  | endOfStream c =>
    obtain ⟨p, hp, -⟩ := map_eq_some_iff.mp hy
    obtain ⟨z, hread, hpassed⟩ : ∃ z, t.sys.read env c [] = some z ∧ Passed True c t.sys z :=
      read_nil_passed ht.sound hp
    obtain rfl : z = y := some.inj (hread.symm.trans hy)
    exact hpassed.inv ht (by rw [hp]; simp)
  | publish c topic payload qos retain =>
    obtain ⟨p, hp, rfl⟩ := map_eq_some_iff.mp hy
    have hpassed : Passed True c t.sys _ := publish_passed ht.sound env topic payload qos retain
    exact hpassed.inv ht (by rw [hp]; simp)

def qos2Publish (dup : Bool) (id : UInt16) (payload : Bytes) : Inbound :=
  .publish dup false 2 id [] [116] payload

def clientSends (ks : List Inbound) : List (Env × Event) :=
  (connected ++ ks.map (Event.packet 0)).map fun e => (plenty, e)

def interleaved : List (Env × Event) :=
  clientSends [qos2Publish false 1 [120], qos2Publish false 2 [121], .pubrel 2 none,
    qos2Publish false 2 [122], .pubrel 1 none, .pubrel 2 none, .pubrel 2 none]

def retransmitted : List (Env × Event) :=
  clientSends [qos2Publish false 1 [120], qos2Publish true 1 [120], .pubrel 1 none, .pubrel 1 none]

end Voxlib.Mqtt
