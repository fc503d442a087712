import Voxlib.Mqtt.Deliveries
import Voxlib.Mqtt.Answers

/-!
# The subscriptions of a connection as a map
-/

namespace Voxlib.Mqtt
open CStr Wire Run List Function

variable {c : ConnId} {s : Server}

def roomy (write : Bytes → Bool) : Env := ⟨fun _ => true, write⟩

inductive FilterRequest where
  | subscribe (packetId : UInt16) (props : Bytes) (filters : List (Bytes × UInt8))
  | unsubscribe (packetId : UInt16) (props : Bytes) (topics : List Bytes)

def FilterRequest.packet : FilterRequest → Inbound
  | .subscribe id props filters => .subscribe id props filters
  | .unsubscribe id props topics => .unsubscribe id props topics

abbrev Subscribed := Bytes → Option ℕ

def Version.grants (v : Version) (f : Bytes × UInt8) : ℕ :=
  grantQos (if v = .v5 then f.2.toNat % 4 else f.2.toNat)

def FilterRequest.note (v : Version) (m : Subscribed) : FilterRequest → Subscribed
  | .subscribe _ _ filters =>
    filters.foldl (fun m f => Function.update m f.1 (some (v.grants f))) m
  | .unsubscribe _ _ topics => topics.foldl (fun m t => Function.update m t none) m

def FilterRequest.fresh (m : Subscribed) : FilterRequest → Prop
  | .subscribe _ _ filters => (filters.map Prod.fst).Nodup ∧ ∀ f ∈ filters, m f.1 = none
  | .unsubscribe .. => True

def AllFresh (v : Version) : Subscribed → List FilterRequest → Prop
  | _, [] => True
  | m, r :: rs => r.fresh m ∧ AllFresh v (r.note v m) rs

/-- The list has the filters that are held, each once and with its QoS. -/
structure Lists (subs : List Sub) (m : Subscribed) : Prop where
  once : (subs.map Sub.filter).Nodup
  held : ∀ f q, m f = some q ↔ ∃ sub ∈ subs, sub.filter = f ∧ sub.qos = q

theorem Lists.nil : Lists [] fun _ => none :=
  ⟨nodup_nil, fun f q => by simp⟩

variable {subs : List Sub} {m : Subscribed}

theorem Lists.not_held (h : Lists subs m) {f : Bytes} : m f = none ↔ f ∉ subs.map Sub.filter := by
  rw [Option.eq_none_iff_forall_ne_some]
  simp only [ne_eq, h.held, mem_map]
  constructor
  · rintro hnone ⟨sub, hsub, hf⟩
    exact hnone sub.qos ⟨sub, hsub, hf, rfl⟩
  · rintro hnone q ⟨sub, hsub, hf, -⟩
    exact hnone ⟨sub, hsub, hf⟩

def Version.sub (v : Version) (f : Bytes × UInt8) : Sub := ⟨f.1, v.grants f, grantQos_le _⟩

theorem Lists.snoc (h : Lists subs m) (sub : Sub) (hnew : m sub.filter = none) :
    Lists (subs ++ [sub]) (Function.update m sub.filter (some sub.qos)) := by
  have hnot := h.not_held.mp hnew
  refine ⟨?_, fun f q => ?_⟩
  · rw [map_append, nodup_append]
    refine ⟨h.once, nodup_singleton _, ?_⟩
    rintro f hf g hg rfl
    exact hnot (mem_singleton.mp hg ▸ hf)
  · simp only [mem_append, mem_singleton]
    by_cases hf : f = sub.filter
    · subst hf
      rw [update_self]
      constructor
      · rintro hq
        exact ⟨sub, .inr rfl, rfl, Option.some.inj hq⟩
      · rintro ⟨other, hin | rfl, heq, hq⟩
        · exact absurd (mem_map.mpr ⟨other, hin, heq⟩) hnot
        · rw [hq]
    · rw [update_of_ne hf, h.held]
      constructor
      · rintro ⟨other, hin, heq, hq⟩
        exact ⟨other, .inl hin, heq, hq⟩
      · rintro ⟨other, hin | rfl, heq, hq⟩
        · exact ⟨other, hin, heq, hq⟩
        · exact absurd heq.symm hf

theorem Lists.erase (h : Lists subs m) (t : Bytes) :
    Lists (subs.eraseP fun sub => sub.filter = t) (Function.update m t none) := by
  refine ⟨h.once.sublist ((eraseP_sublist).map _), fun f q => ?_⟩
  simp only [mem_eraseP_key h.once]
  by_cases hf : f = t
  · subst hf
    rw [update_self]
    refine iff_of_false (by simp) ?_
    rintro ⟨sub, ⟨-, hne⟩, heq, -⟩
    exact hne heq
  · rw [update_of_ne hf, h.held]
    constructor
    · rintro ⟨sub, hin, heq, hq⟩
      exact ⟨sub, ⟨hin, fun h => hf (heq.symm.trans h)⟩, heq, hq⟩
    · rintro ⟨sub, ⟨hin, -⟩, heq, hq⟩
      exact ⟨sub, hin, heq, hq⟩

theorem Lists.append (v : Version) (h : Lists subs m) {filters : List (Bytes × UInt8)}
    (honce : (filters.map Prod.fst).Nodup) (hnew : ∀ f ∈ filters, m f.1 = none) :
    Lists (subs ++ filters.map v.sub)
      (filters.foldl (fun m f => Function.update m f.1 (some (v.grants f))) m) := by
  induction filters generalizing subs m with
  | nil => simpa using h
  | cons f filters ih =>
    rw [map_cons, nodup_cons] at honce
    have hsnoc := h.snoc (v.sub f) (hnew f (mem_cons_self ..))
    have hrest := ih hsnoc honce.2 fun g hg => by
      have hne : g.1 ≠ f.1 := fun heq => honce.1 (heq ▸ mem_map_of_mem hg)
      exact (update_of_ne hne ..).trans (hnew g (mem_cons_of_mem f hg))
    rw [map_cons, foldl_cons, ← singleton_append, ← append_assoc]
    exact hrest

theorem Lists.eraseAll (h : Lists subs m) (topics : List Bytes) :
    Lists (topics.foldl (fun subs t => subs.eraseP fun sub => sub.filter = t) subs)
      (topics.foldl (fun m t => Function.update m t none) m) := by
  induction topics generalizing subs m with
  | nil => exact h
  | cons t topics ih => exact ih (h.erase t)

theorem fresh_of_once {v : Version} (h : Lists subs m) {filters : List (Bytes × UInt8)}
    (honce : ((subs ++ filters.map v.sub).map Sub.filter).Nodup) :
    (filters.map Prod.fst).Nodup ∧ ∀ f ∈ filters, m f.1 = none := by
  have hfilters : (filters.map v.sub).map Sub.filter = filters.map Prod.fst := by
    rw [map_map]
    rfl
  rw [map_append, hfilters, nodup_append] at honce
  refine ⟨honce.2.1, fun f hf => h.not_held.mpr fun hin => ?_⟩
  exact honce.2.2 _ hin _ (mem_map_of_mem hf) rfl

def FilterRequest.edit (v : Version) (subs : List Sub) : FilterRequest → List Sub
  | .subscribe _ _ filters => subs ++ filters.map v.sub
  | .unsubscribe _ _ topics =>
    topics.foldl (fun subs t => subs.eraseP fun sub => sub.filter = t) subs

theorem lists_edit_iff {v : Version} (h : Lists subs m) (r : FilterRequest) :
    Lists (r.edit v subs) (r.note v m) ↔ r.fresh m := by
  cases r with
  | subscribe id props filters =>
    constructor
    · intro hlists
      exact fresh_of_once h hlists.once
    · rintro ⟨honce, hnew⟩
      exact h.append v honce hnew
  | unsubscribe id props topics =>
    exact iff_of_true (h.eraseAll topics) trivial

section
variable (write : Bytes → Bool)

theorem sendEncoded_roomy (s : Server) (c : ConnId) (enc : Bytes → ℕ × Bytes) :
    sendEncoded (roomy write) s c enc = some (s.modify c (Conn.send (roomy write) (encoded enc))) :=
  (if_pos rfl).trans (congrArg some (connSend_eq ..))

theorem onSubscribeDone_roomy (s : Server) (c : ConnId) (id : ℕ) (codes : Bytes) :
    ∃ w, onSubscribeDone (roomy write) s c id codes = (0, w) ∧ (∃ as, Answered c as s w) ∧
      (w.conns c).subscriptions = (s.conns c).subscriptions := by
  have hany := onSubscribeDone_any (roomy write) s c id codes
  revert hany
  unfold onSubscribeDone
  dsimp only
  split
  · intro hany
    exact ⟨s, rfl, hany, rfl⟩
  · rw [sendEncoded_roomy]
    intro hany
    refine ⟨_, rfl, hany, ?_⟩
    rw [Server.modify_same]
    exact (Conn.send_books ..).subscriptions

theorem onUnsubscribe_roomy (s : Server) (c : ConnId) (id : ℕ) (t : Bytes) :
    ∃ w, onUnsubscribe (roomy write) s c id t = (0, w) ∧ (∃ as, Answered c as s w) ∧
      (w.conns c).subscriptions = (s.conns c).subscriptions.eraseP fun sub => sub.filter = t := by
  have hany := onUnsubscribe_any (roomy write) s c id t
  revert hany
  unfold onUnsubscribe
  dsimp only
  rw [sendEncoded_roomy]
  intro hany
  refine ⟨_, rfl, hany, ?_⟩
  rw [Server.modify_same]
  refine (Conn.send_books ..).subscriptions.trans ?_
  rw [Server.modify_same]

theorem grants_roomy (c : ConnId) {version : ℕ} {v : Version} (hv : version = 5 ↔ v = .v5)
    (id : ℕ) (filters : List (Bytes × UInt8)) (s : Server) :
    Quiet c s (grants (serverCallbacks (roomy write) c) version id filters s).2 ∧
      ((grants (serverCallbacks (roomy write) c) version id filters s).2.conns c).subscriptions =
        (s.conns c).subscriptions ++ filters.map v.sub := by
  induction filters generalizing s with
  | nil => exact ⟨Answered.refl c s, (append_nil _).symm⟩
  | cons f filters ih =>
    have hstate : (grant (serverCallbacks (roomy write) c) s id f.1
        (if version = 5 then f.2.toNat % 4 else f.2.toNat)).2 =
        (onSubscribe (roomy write) s c f.1
          (if version = 5 then f.2.toNat % 4 else f.2.toNat)).2 := by
      rw [grant_state]
      exact congrArg Prod.snd (invoke_server (roomy write) c s (.subscribe id f.1 _) rfl)
    obtain ⟨hquiet, hsubs⟩ := ih (grant (serverCallbacks (roomy write) c) s id f.1
      (if version = 5 then f.2.toNat % 4 else f.2.toNat)).2
    simp only [grants]
    rw [hstate] at hquiet hsubs ⊢
    refine ⟨(onSubscribe_quiet (roomy write) s c f.1 _).trans hquiet, ?_⟩
    rw [hsubs, onSubscribe_eq rfl rfl, Server.modify_same, Conn.subscribe_subscriptions,
      map_cons, append_assoc, singleton_append]
    simp only [Version.sub, Version.grants, hv]

theorem drops_roomy (c : ConnId) (id : ℕ) (topics : List Bytes) (s : Server) :
    ∃ w, drops (serverCallbacks (roomy write) c) id topics s = (true, w) ∧
      (∃ as, Answered c as s w) ∧ (w.conns c).subscriptions =
        topics.foldl (fun subs t => subs.eraseP fun sub => sub.filter = t)
          (s.conns c).subscriptions := by
  induction topics generalizing s with
  | nil => exact ⟨s, rfl, ⟨[], Answered.refl c s⟩, rfl⟩
  | cons t topics ih =>
    obtain ⟨u, hcall, ⟨as, hu⟩, hsubs⟩ := onUnsubscribe_roomy write s c id t
    obtain ⟨w, hrest, ⟨bs, hw⟩, hsubs'⟩ := ih u
    refine ⟨w, ?_, ⟨as ++ bs, hu.trans hw⟩, by rw [hsubs', hsubs, foldl_cons]⟩
    have hinvoke : invoke (serverCallbacks (roomy write) c) s (.unsubscribe id t) = (0, u) :=
      (invoke_server (roomy write) c s (.unsubscribe id t) rfl).trans hcall
    simp only [drops, hinvoke, if_pos, hrest]

theorem read_request {y : System} (hy : y.Sound) {p : Parser} (hp : y.parsers c = some p)
    {r : FilterRequest} (hr : r.packet.wellFormed p.version) :
    ∃ q z, y.step (roomy write) (.packet c r.packet) = some z ∧ z.Sound ∧
      z.parsers c = some q ∧ q.version = p.version ∧
      (z.server.conns c).subscriptions = r.edit p.version (y.server.conns c).subscriptions := by
  obtain ⟨hstate, hmax, hversion⟩ := hy.attends c p hp
  have htaken : ∃ w, Taken (serverCallbacks (roomy write) c) (roomy write).alloc p y.server
      (r.packet.bytes p.version) w ∧ (∃ as, Answered c as y.server w) ∧
      (w.conns c).subscriptions = r.edit p.version (y.server.conns c).subscriptions := by
    cases r with
    | subscribe id props filters =>
      obtain ⟨hquiet, hsubs⟩ := grants_roomy write c p.version_iff id.toNat filters y.server
      obtain ⟨w, hdone, ⟨as, has⟩, hkeep⟩ := onSubscribeDone_roomy write
        (grants (serverCallbacks (roomy write) c) p.protocolVersion id.toNat filters y.server).2 c
        id.toNat (grants (serverCallbacks (roomy write) c) p.protocolVersion id.toNat filters
          y.server).1
      refine ⟨w, taken_subscribe (fun _ => rfl) hstate hmax p.version_iff hr ?_,
        ⟨_, Answered.trans hquiet has⟩, hkeep.trans hsubs⟩
      exact (invoke_server (roomy write) c _ (.subscribeDone ..) rfl).trans hdone
    | unsubscribe id props topics =>
      obtain ⟨w, hdrops, hanswered, hsubs⟩ := drops_roomy write c id.toNat topics y.server
      exact ⟨w, taken_unsubscribe (fun _ => rfl) hstate hmax p.version_iff hr hdrops, hanswered,
        hsubs⟩
  obtain ⟨w, htaken, ⟨as, hanswered⟩, hsubs⟩ := htaken
  obtain ⟨q, hread, hsound⟩ := read_taken hy hp (bytes_ne_nil p.version r.packet) htaken
    hanswered.version fun d hd => hanswered.still hd
  refine ⟨q, _, ?_, hsound, y.after_same c _ _, ?_, hsubs⟩
  · show (y.parsers c).bind _ = _
    rw [hp, Option.bind_some, if_pos hr]
    exact hread
  · rw [← (hsound.attends c q (y.after_same c _ _)).version_eq,
      ← (hy.attends c p hp).version_eq]
    unfold Conn.version
    rw [show ((y.after c (some q) w).server.conns c).protocolVersion =
      (y.server.conns c).protocolVersion from hanswered.version c]

end

structure Desk where
  sys : System
  held : Subscribed

def Desk.step (c : ConnId) (v : Version) (d : Desk) (a : (Bytes → Bool) × FilterRequest) :
    Option Desk :=
  (d.sys.step (roomy a.1) (.packet c a.2.packet)).map fun z => ⟨z, a.2.note v d.held⟩

/- The list is the map, and a message that matches no filter of the map goes nowhere. -/
structure Served (c : ConnId) (d : Desk) : Prop where
  lists : Lists (d.sys.server.conns c).subscriptions d.held
  silent : ∀ topic, (∀ f q, d.held f = some q → topicMatch f topic = false) →
    ∀ env payload qos retain,
      forwardTo env topic payload qos retain d.sys.server c = d.sys.server

theorem served_iff {d : Desk} : Served c d ↔ Lists (d.sys.server.conns c).subscriptions d.held := by
  constructor
  · exact Served.lists
  · intro hlists
    refine ⟨hlists, fun topic hmatch env payload qos retain => ?_⟩
    have hfind : (d.sys.server.conns c).subscriptions.find?
        (fun sub => topicMatch sub.filter topic) = none := by
      rw [List.find?_eq_none]
      intro sub hsub
      rw [hmatch sub.filter sub.qos ((hlists.held _ _).mpr ⟨sub, hsub, rfl, rfl⟩)]
      decide
    rw [forwardTo_eq]
    refine (Server.modify_congr ?_).trans (d.sys.server.modify_self c)
    unfold Conn.forward
    rw [hfind]

structure Desk.Open (c : ConnId) (v : Version) (d : Desk) : Prop where
  sound : d.sys.Sound
  parser : ∃ p, d.sys.parsers c = some p ∧ p.version = v

theorem desk_step {v : Version} {d : Desk} (hd : d.Open c v) {a : (Bytes → Bool) × FilterRequest}
    (ha : a.2.packet.wellFormed v) : ∃ d', d.step c v a = some d' ∧ d'.Open c v ∧
      d'.held = a.2.note v d.held ∧ (d'.sys.server.conns c).subscriptions =
        a.2.edit v (d.sys.server.conns c).subscriptions := by
  obtain ⟨p, hp, rfl⟩ := hd.parser
  obtain ⟨q, z, hstep, hsound, hq, hversion, hsubs⟩ := read_request a.1 hd.sound hp ha
  refine ⟨⟨z, a.2.note p.version d.held⟩, ?_, ⟨hsound, q, hq, hversion⟩, rfl, hsubs⟩
  unfold Desk.step
  rw [hstep]
  rfl

/-- The subscriptions are the map in every state of the run exactly when no SUBSCRIBE names a
filter that is held then, or one twice. -/
theorem subscriptions_map_iff {y : System} (hy : y.Sound) {p : Parser}
    (hp : y.parsers c = some p) (hempty : (y.server.conns c).subscriptions = [])
    {as : List ((Bytes → Bool) × FilterRequest)} (has : ∀ a ∈ as, a.2.packet.wellFormed p.version) :
    Along (Desk.step c p.version) (Served c) ⟨y, fun _ => none⟩ as ↔
      AllFresh p.version (fun _ => none) (as.map Prod.snd) := by
  suffices hrun : ∀ d : Desk, d.Open c p.version →
      Lists (d.sys.server.conns c).subscriptions d.held →
      (Along (Desk.step c p.version) (Served c) d as ↔
        AllFresh p.version d.held (as.map Prod.snd)) by
    refine hrun ⟨y, fun _ => none⟩ ⟨hy, p, hp, rfl⟩ ?_
    show Lists (y.server.conns c).subscriptions _
    rw [hempty]
    exact Lists.nil
  clear hempty hp hy
  induction as with
  | nil =>
    intro d _ hlists
    exact iff_of_true (served_iff.mpr hlists) trivial
  | cons a as ih =>
    intro d hopen hlists
    obtain ⟨d', hstep, hopen', hheld, hsubs⟩ := desk_step hopen (has a (mem_cons_self ..))
    have hrest : Lists (d'.sys.server.conns c).subscriptions d'.held →
        (Along (Desk.step c p.version) (Served c) d' as ↔
          AllFresh p.version (a.2.note p.version d.held) (as.map Prod.snd)) := by
      rw [← hheld]
      exact ih (fun b hb => has b (mem_cons_of_mem a hb)) d' hopen'
    have hedit : Lists (d'.sys.server.conns c).subscriptions d'.held ↔ a.2.fresh d.held := by
      rw [hsubs, hheld]
      exact lists_edit_iff hlists a.2
    constructor
    · rintro ⟨-, t, ht, hrun⟩
      obtain rfl := Option.some.inj (hstep.symm.trans ht)
      have hkept := (along_head hrun).lists
      exact ⟨hedit.mp hkept, (hrest hkept).mp hrun⟩
    · rintro ⟨hfresh, hrun⟩
      exact ⟨served_iff.mpr hlists, d', hstep, (hrest (hedit.mpr hfresh)).mpr hrun⟩

def firstAccepted : System := System.accept plenty { server := { acceptedVersions := 0 } }

theorem firstAccepted_sound : firstAccepted.Sound := sound_accept (sound_init 0) plenty

def changing : List ((Bytes → Bool) × FilterRequest) :=
  [(fun _ => true, .subscribe 1 [] [([97], 1), ([98, 47, 35], 0)]),
    (fun _ => false, .unsubscribe 2 [] [[97], [99]]), (fun _ => true, .subscribe 3 [] [([97], 2)])]

theorem changing_mapped : Along (Desk.step 0 (create plenty.alloc 0 0).version) (Served 0)
      ⟨firstAccepted, fun _ => none⟩ changing := by
  have hp : firstAccepted.parsers 0 = some (create plenty.alloc 0 0) := rfl
  have hfits : ∀ a ∈ changing, a.2.packet.wellFormed (create plenty.alloc 0 0).version := by
    decide +kernel
  refine (subscriptions_map_iff firstAccepted_sound hp rfl hfits).mpr ?_
  refine ⟨⟨by decide, ?_⟩, trivial, ⟨by decide, ?_⟩, trivial⟩
  · intro f _
    rfl
  · intro f hf
    obtain rfl := mem_singleton.mp hf
    rfl

def subscribedTwice : List ((Bytes → Bool) × FilterRequest) :=
  [(fun _ => true, .subscribe 1 [] [([97], 0)]), (fun _ => true, .subscribe 2 [] [([97], 1)]),
    (fun _ => true, .unsubscribe 3 [] [[97]])]

/- What is held of "a", the filters of the list, and what a message on "a" adds to what is sent. -/
def leftOf (as : List ((Bytes → Bool) × FilterRequest)) :
    Option (Option ℕ × List Bytes × List Bytes) :=
  (exec (Desk.step 0 .v311) ⟨firstAccepted, fun _ => none⟩ as).map fun d =>
    (d.held [97], (d.sys.server.conns 0).subscriptions.map Sub.filter,
      ((forwardTo plenty [97] [120] 0 false d.sys.server 0).conns 0).sent.drop
        (d.sys.server.conns 0).sent.length)

/-- The second entry outlives the UNSUBSCRIBE, and messages on the filter still come. -/
theorem second_entry_stays :
    ¬ Along (Desk.step 0 .v311) (Served 0) ⟨firstAccepted, fun _ => none⟩ subscribedTwice ∧
      leftOf subscribedTwice = some (none, [[97]], [[0x30, 4, 0, 1, 97, 120]]) := by
  have hleft : leftOf subscribedTwice = some (none, [[97]], [[0x30, 4, 0, 1, 97, 120]]) := by
    decide +kernel
  refine ⟨fun hrun => ?_, hleft⟩
  obtain ⟨d, hd, heq⟩ := Option.map_eq_some_iff.mp hleft
  have hlists := (along_last hrun hd).lists
  have hnot := hlists.not_held.mp (Prod.ext_iff.mp heq).1
  have hfilters : (d.sys.server.conns 0).subscriptions.map Sub.filter = [[97]] :=
    (Prod.ext_iff.mp (Prod.ext_iff.mp heq).2).1
  rw [hfilters] at hnot
  exact hnot (mem_singleton.mpr rfl)

end Voxlib.Mqtt
