import Voxlib.Mqtt.Answers
import Voxlib.Mqtt.Faults

/-!
# The end of a connection of the server
-/

namespace Voxlib.Mqtt
open CStr Wire Run List Option

variable {env : Env} {c : ConnId} {s t w : Server}

inductive Arrival where
  | accept
  | read (c : ConnId) (data : Bytes)
  | publish (c : ConnId) (topic payload : Bytes) (qos : ℕ) (retain : Bool)

/- A read without data is a socket error or the end of the stream. -/
def System.arrive (env : Env) (y : System) : Arrival → Option System
  | .accept => some (y.accept env)
  | .read c data => y.read env c data
  | .publish c topic payload qos retain =>
    (y.parsers c).map fun _ =>
      { y with server := (connectionPublish env y.server c topic payload qos retain).2 }

def System.init (accepted : ℕ) : System where
  server := { acceptedVersions := accepted }

/-- The parser does not report an error in any phase of the read. -/
def Unreported (env : Env) (y : System) : Arrival → Prop
  | .read c data =>
    match y.parsers c with
    | some p =>
      data ≠ [] → ProperRead (serverCallbacks env c) env.alloc (fun _ => True) p y.server data
    | none => True
  | _ => True

instance (env : Env) (y : System) (a : Arrival) : Decidable (Unreported env y a) :=
  match a with
  | .read c data =>
    match h : y.parsers c with
    | some p => decidable_of_iff (data ≠ [] →
        ProperRead (serverCallbacks env c) env.alloc (fun _ => True) p y.server data)
        (by simp [Unreported, h])
    | none => isTrue (by simp [Unreported, h])
  | .accept => isTrue trivial
  | .publish _ _ _ _ _ => isTrue trivial

def Report.conn : Report → ConnId
  | .connect c _ => c
  | .publish c _ _ _ => c
  | .disconnect c => c

def Report.isPublish : Report → Bool
  | .publish .. => true
  | _ => false

def about (c : ConnId) (log : List Report) : List Report := log.filter fun r => r.conn = c

theorem about_append (c : ConnId) (log new : List Report) :
    about c (log ++ new) = about c log ++ about c new := filter_append log new

theorem about_none {new : List Report} (h : ∀ r ∈ new, r.conn ≠ c) : about c new = [] :=
  filter_eq_nil_iff.mpr fun r hr => by simpa using h r hr

theorem about_all {new : List Report} (h : ∀ r ∈ new, r.conn = c) : about c new = new :=
  filter_eq_self.mpr fun r hr => by simpa using h r hr

/-- A connection that is there was not closed; one that is not was closed once, and behind that
comes nothing of it but its will, at most once. -/
structure ClosedOnce (y : System) (c : ConnId) : Prop where
  open_ : y.parsers c ≠ none → .disconnect c ∉ y.server.reported
  closed : .disconnect c ∈ y.server.reported →
    ∃ front will, about c y.server.reported = front ++ .disconnect c :: will ∧
      .disconnect c ∉ front ∧ will.length ≤ 1 ∧ ∀ r ∈ will, r.isPublish

def Talks (c : ConnId) (s t : Server) : Prop :=
  ∃ new, t.reported = s.reported ++ new ∧ ∀ r ∈ new, r.conn = c ∧ r ≠ .disconnect c

theorem Talks.refl (c : ConnId) (s : Server) : Talks c s s :=
  ⟨[], (append_nil _).symm, fun _ hr => absurd hr not_mem_nil⟩

theorem Talks.trans (h : Talks c s t) (h' : Talks c t w) : Talks c s w := by
  obtain ⟨new, hnew, hof⟩ := h
  obtain ⟨new', hnew', hof'⟩ := h'
  refine ⟨new ++ new', by rw [hnew', hnew, append_assoc], fun r hr => ?_⟩
  rcases mem_append.mp hr with hr | hr
  · exact hof r hr
  · exact hof' r hr

theorem talks_same (h : t.reported = s.reported) : Talks c s t :=
  ⟨[], by rw [h, append_nil], fun r hr => absurd hr not_mem_nil⟩

theorem talks_report {r : Report} (hr : r.conn = c) (hne : r ≠ .disconnect c) :
    Talks c s (s.report r) := by
  refine ⟨[r], rfl, fun r' hr' => ?_⟩
  rw [mem_singleton.mp hr']
  exact ⟨hr, hne⟩

theorem connSend_reported (env : Env) (s : Server) (d : ConnId) (buf : Bytes) :
    (connSend env s d buf).reported = s.reported := by
  unfold connSend
  split <;> rfl

theorem sendEncoded_reported {d : ConnId} {enc : Bytes → ℕ × Bytes}
    (h : sendEncoded env s d enc = some t) : t.reported = s.reported := by
  unfold sendEncoded at h
  split at h
  · obtain rfl := some.inj h
    exact connSend_reported env s d _
  · simp at h

theorem sendEncoded_getD_reported (s : Server) (d : ConnId) (enc : Bytes → ℕ × Bytes) :
    ((sendEncoded env s d enc).getD s).reported = s.reported := by
  cases h : sendEncoded env s d enc with
  | none => rfl
  | some t => exact sendEncoded_reported h

theorem publishTo_reported {d : ConnId} {qos : ℕ} {retain : Bool} {topic payload : Bytes}
    (h : publishTo env s d qos retain topic payload = some t) : t.reported = s.reported := by
  unfold publishTo at h
  dsimp only at h
  split at h
  · simp at h
  · split at h
    · simp at h
    · split at h
      · obtain rfl := some.inj h
        exact connSend_reported env _ d _
      · obtain rfl := some.inj h
        exact connSend_reported env s d _

theorem forwardTo_reported (topic payload : Bytes) (qos : ℕ) (retain : Bool) (s : Server)
    (d : ConnId) : (forwardTo env topic payload qos retain s d).reported = s.reported := by
  unfold forwardTo
  split
  · rfl
  · dsimp only
    split
    · rfl
    · next h =>
      have hsent := publishTo_reported h
      rw [apply_ite Server.reported]
      exact (ite_self _).trans hsent

theorem foldl_reported {α : Type*} {f : Server → α → Server}
    (hf : ∀ s a, (f s a).reported = s.reported) (l : List α) (s : Server) :
    (l.foldl f s).reported = s.reported := by
  induction l generalizing s with
  | nil => rfl
  | cons a l ih => exact (ih (f s a)).trans (hf s a)

theorem retainMessage_reported (s : Server) (topic payload : Bytes) (qos : ℕ) :
    (retainMessage env s topic payload qos).reported = s.reported := by
  unfold retainMessage
  dsimp only
  split
  · rfl
  · split
    · rfl
    · split
      · rfl
      · rfl

theorem forwardMessage_reported (s : Server) (c : ConnId) (topic payload : Bytes) (qos : ℕ)
    (retain : Bool) : (forwardMessageToSubscribers env s c topic payload qos retain).reported =
      s.reported ++ [Report.publish c topic payload qos] := by
  unfold forwardMessageToSubscribers
  dsimp only
  have hone (s : Server) (d : ConnId) :
      (forwardTo env topic payload qos retain s d).reported = s.reported :=
    forwardTo_reported topic payload qos retain s d
  have hfold := foldl_reported hone
    (s.report (.publish c topic payload qos)).connections (s.report (.publish c topic payload qos))
  split
  · exact (retainMessage_reported _ _ _ _).trans hfold
  · exact hfold

theorem forward_talks (s : Server) (c : ConnId) (topic payload : Bytes) (qos : ℕ) (retain : Bool) :
    Talks c s (forwardMessageToSubscribers env s c topic payload qos retain) := by
  refine ⟨[.publish c topic payload qos], forwardMessage_reported s c topic payload qos retain,
    fun r hr => ?_⟩
  rw [mem_singleton.mp hr]
  exact ⟨rfl, by simp⟩

theorem onConnect_talks (env : Env) (s : Server) (c : ConnId) (a : Connect) :
    Talks c s (onConnect env s c a).2 := by
  unfold onConnect
  dsimp only
  split
  · exact talks_same (sendEncoded_getD_reported _ c _)
  · split
    · exact Talks.refl c s
    · next t ht =>
      have hsent := sendEncoded_reported ht
      exact Talks.trans (talks_same hsent) (talks_report rfl (by simp))

theorem onSubscribe_reported (env : Env) (s : Server) (c : ConnId) (filter : Bytes) (qos : ℕ) :
    (onSubscribe env s c filter qos).2.reported = s.reported := by
  have hretained : ∀ (q : ℕ) (s : Server) (r : Retained),
      (sendRetained env c filter q s r).reported = s.reported := by
    intro q s r
    unfold sendRetained
    split
    · cases h : publishTo env s c (if q < r.qos then q else r.qos) true r.topic r.payload with
      | none => rfl
      | some t => exact publishTo_reported h
    · rfl
  unfold onSubscribe
  split
  · rfl
  · split
    · rfl
    · exact foldl_reported (hretained _) _ _

theorem onPublish_talks (env : Env) (s : Server) (c : ConnId) (m : Publish) :
    Talks c s (onPublishFromClient env s c m).2 := by
  unfold onPublishFromClient
  split
  · split
    · exact Talks.refl c s
    · split
      · exact Talks.refl c s
      · split
        · exact Talks.refl c s
        · dsimp only
          split
          · exact Talks.refl c s
          · next h =>
            have hsent := sendEncoded_reported h
            exact talks_same hsent
  · exact forward_talks s c m.topic m.payload m.qos m.retain

theorem onPubrel_talks (env : Env) (s : Server) (c : ConnId) (id : ℕ) :
    Talks c s (onPubrelFromClient env s c id).2 := by
  unfold onPubrelFromClient
  split
  · exact Talks.refl c s
  · dsimp only
    exact Talks.trans (talks_same (sendEncoded_getD_reported (s.modify c (·.release id)) c _))
      (forward_talks _ c _ _ _ _)

theorem sendCase_reported (s : Server) (d : ConnId) (enc : Bytes → ℕ × Bytes) :
    (match sendEncoded env s d enc with
      | none => ((-1 : ℤ), s)
      | some s => (0, s)).2.reported = s.reported := by
  cases h : sendEncoded env s d enc with
  | none => rfl
  | some t => exact sendEncoded_reported h

theorem serverCallbacks_talks (env : Env) (c : ConnId) (s : Server) {call : Call}
    (hcall : call.target ≠ .onError) : Talks c s (invoke (serverCallbacks env c) s call).2 := by
  cases call with
  | connect a => exact onConnect_talks env s c a
  | connack a b => exact Talks.refl c s
  | publish m => exact onPublish_talks env s c m
  | puback id => exact Talks.refl c s
  | pubrec id =>
    refine talks_same ?_
    show (onPubrecFromClient env s c id).2.reported = _
    unfold onPubrecFromClient
    split
    · exact sendEncoded_getD_reported (s.modify c _) c _
    · rfl
  | pubrel id => exact onPubrel_talks env s c id
  | pubcomp id => exact Talks.refl c s
  | subscribe id topic qos => exact talks_same (onSubscribe_reported env s c topic qos)
  | subscribeDone id codes =>
    refine talks_same ?_
    show (onSubscribeDone env s c id codes).2.reported = _
    unfold onSubscribeDone
    dsimp only
    split
    · rfl
    · exact sendCase_reported s c _
  | suback id codes => exact Talks.refl c s
  | unsubscribe id topic =>
    refine talks_same ?_
    show (onUnsubscribe env s c id topic).2.reported = _
    unfold onUnsubscribe
    exact sendCase_reported (s.modify c _) c _
  | unsuback id => exact Talks.refl c s
  | pingreq => exact talks_same (sendCase_reported s c encodePingresp)
  | pingresp => exact Talks.refl c s
  | disconnect => exact Talks.refl c s
  | error msg => exact absurd rfl hcall

theorem connectionPublish_reported (env : Env) (s : Server) (c : ConnId) (topic payload : Bytes)
    (qos : ℕ) (retain : Bool) :
    (connectionPublish env s c topic payload qos retain).2.reported = s.reported := by
  unfold connectionPublish
  split
  · rfl
  · dsimp only
    generalize ht : (if qos > 0 then
      s.modify c fun x => { x with nextPacketId := nextId x.nextPacketId } else s) = t
    have hstart : t.reported = s.reported := by
      rw [← ht]
      split <;> rfl
    generalize (if qos > 0 then (t.conns c).nextPacketId else 0) = pid
    split
    · exact hstart
    · split
      · exact hstart
      · next h =>
        have hsent := (sendEncoded_reported h).trans hstart
        split
        · exact hsent
        · exact hsent

theorem connClose_reported (env : Env) (s : Server) (c : ConnId) :
    ∃ will, (connClose env s c).reported = s.reported ++ .disconnect c :: will ∧
      will.length ≤ 1 ∧ ∀ r ∈ will, r.conn = c ∧ r.isPublish := by
  have hnone : ∃ will, s.reported ++ [Report.disconnect c] =
      s.reported ++ Report.disconnect c :: will ∧
      will.length ≤ 1 ∧ ∀ r ∈ will, r.conn = c ∧ r.isPublish :=
    ⟨[], rfl, Nat.zero_le 1, fun r hr => absurd hr not_mem_nil⟩
  unfold connClose
  dsimp only [Server.modify]
  split
  · next topic _ =>
    split
    · refine ⟨[.publish c topic (s.conns c).willPayload (s.conns c).willQos], ?_, le_refl 1,
        fun r hr => ?_⟩
      · rw [forwardMessage_reported]
        simp [Server.report]
      · rw [mem_singleton.mp hr]
        exact ⟨rfl, rfl⟩
    · exact hnone
  · exact hnone

theorem admits_server (env : Env) (c : ConnId) :
    Admits (serverCallbacks env c) (fun _ => True) fun _ call => call.target ≠ .onError where
  calls type u call hmakes _ := by
    refine decide_eq_true ?_
    cases call with
    | error msg => simp [PacketType.makes] at hmakes
    | _ => simp [Call.target]
  filters _ _ _ _ _ _ := trivial

theorem execute_talks {p : Parser} {data : Bytes}
    (h : ProperRead (serverCallbacks env c) env.alloc (fun _ => True) p s data) :
    Talks c s (execute (serverCallbacks env c) env.alloc p s data).u := by
  rw [execute_only (admits_server env c) h]
  refine execute_keeps (P := Talks c s) (fun u call hu => hu.trans ?_) (Talks.refl c s) data
  unfold invoke Callbacks.only
  dsimp only
  split
  · split
    · next hinst hallowed =>
      have htalks := serverCallbacks_talks env c u (of_decide_eq_true hallowed)
      unfold invoke at htalks
      rwa [if_pos hinst] at htalks
    · exact Talks.refl c u
  · exact Talks.refl c u

/- What holds between the reads: the connections with a parser were not closed, and neither were
   those that are still to come. -/
structure System.Ends (y : System) : Prop where
  used : ∀ c, y.parsers c ≠ none → c < y.next
  once : ∀ c, ClosedOnce y c
  unused : ∀ c, y.next ≤ c → .disconnect c ∉ y.server.reported

theorem Talks.still (h : Talks c s t) (d : ConnId) (hd : .disconnect d ∉ s.reported) :
    .disconnect d ∉ t.reported := by
  obtain ⟨new, hnew, hof⟩ := h
  rw [hnew, mem_append]
  refine not_or.mpr ⟨hd, fun hmem => ?_⟩
  obtain ⟨hconn, hne⟩ := hof _ hmem
  exact hne (congrArg Report.disconnect hconn)

theorem Talks.about_other (h : Talks c s t) {d : ConnId} (hd : d ≠ c) :
    about d t.reported = about d s.reported := by
  obtain ⟨new, hnew, hof⟩ := h
  have hnone : about d new = [] := about_none fun r hr => by
    rw [(hof r hr).1]
    exact hd.symm
  rw [hnew, about_append, hnone, append_nil]

theorem ends_moved {y : System} (hy : y.Ends) (h : Talks c y.server w) {p q : Parser}
    (hp : y.parsers c = some p) : (y.after c (some q) w).Ends := by
  have hpresent : ∀ d, (y.after c (some q) w).parsers d ≠ none → y.parsers d ≠ none := by
    intro d hd
    by_cases hdc : d = c
    · rw [hdc, hp]
      simp
    · rwa [System.after_other y hdc] at hd
  have hopen : .disconnect c ∉ y.server.reported := (hy.once c).open_ (by simp [hp])
  refine ⟨fun d hd => hy.used d (hpresent d hd), fun d => ⟨fun hd => ?_, fun hd => ?_⟩,
    fun d hd => h.still d (hy.unused d hd)⟩
  · exact h.still d ((hy.once d).open_ (hpresent d hd))
  · have hclosed : .disconnect d ∈ y.server.reported := by
      by_contra hno
      exact h.still d hno hd
    have hdc : d ≠ c := by
      rintro rfl
      exact hopen hclosed
    show ∃ front will, about d w.reported = _ ∧ _
    rw [h.about_other hdc]
    exact (hy.once d).closed hclosed

theorem about_front (hs : .disconnect c ∉ s.reported) : .disconnect c ∉ about c s.reported :=
  fun hmem => hs (mem_filter.mp hmem).1

theorem ends_closed {y : System} (hy : y.Ends) (h : Talks c y.server s) {p : Parser}
    (hp : y.parsers c = some p) : (y.after c none (connClose env s c)).Ends := by
  obtain ⟨will, hreported, hlen, hof⟩ := connClose_reported env s c
  have hopen : .disconnect c ∉ s.reported := h.still c ((hy.once c).open_ (by simp [hp]))
  have hmem : ∀ d, d ≠ c → .disconnect d ∈ (connClose env s c).reported →
      .disconnect d ∈ y.server.reported := by
    intro d hdc hd
    rw [hreported, mem_append, mem_cons] at hd
    rcases hd with hd | hd | hd
    · by_contra hno
      exact h.still d hno hd
    · exact absurd (Report.disconnect.inj hd) hdc
    · exact absurd (hof _ hd).1 hdc
  have hpresent : ∀ d, (y.after c none (connClose env s c)).parsers d ≠ none →
      d ≠ c ∧ y.parsers d ≠ none := by
    intro d hd
    by_cases hdc : d = c
    · rw [hdc, System.after_same] at hd
      exact absurd rfl hd
    · rw [System.after_other y hdc] at hd
      exact ⟨hdc, hd⟩
  refine ⟨fun d hd => hy.used d (hpresent d hd).2, fun d => ⟨fun hd hin => ?_, fun hd => ?_⟩,
    fun d hd hin => ?_⟩
  · obtain ⟨hdc, hd⟩ := hpresent d hd
    exact (hy.once d).open_ hd (hmem d hdc hin)
  · show ∃ front rest, about d (connClose env s c).reported = _ ∧ _
    by_cases hdc : d = c
    · subst hdc
      refine ⟨about d s.reported, will, ?_, about_front hopen, hlen, fun r hr => (hof r hr).2⟩
      have hall : about d (.disconnect d :: will) = .disconnect d :: will := about_all fun r hr => by
        rcases mem_cons.mp hr with rfl | hr
        · rfl
        · exact (hof r hr).1
      rw [hreported, about_append, hall]
    · have hnone : about d (.disconnect c :: will) = [] := about_none fun r hr => by
        rcases mem_cons.mp hr with rfl | hr
        · exact Ne.symm hdc
        · rw [(hof r hr).1]
          exact Ne.symm hdc
      rw [hreported, about_append, hnone, append_nil, h.about_other hdc]
      exact (hy.once d).closed (hmem d hdc hd)
  · have hdc : d ≠ c := by
      rintro rfl
      exact absurd (hy.used d (by simp [hp])) (Nat.not_lt.mpr hd)
    exact hy.unused d hd (hmem d hdc hin)

theorem arrive_ends {y z : System} {a : Arrival} (hy : y.Ends) (ha : Unreported env y a)
    (h : y.arrive env a = some z) : z.Ends := by
  cases a with
  | accept =>
    obtain rfl := some.inj h
    have hpresent : ∀ d, (y.accept env).parsers d ≠ none → d = y.next ∨ y.parsers d ≠ none := by
      intro d hd
      by_cases hdn : d = y.next
      · exact Or.inl hdn
      · simp only [System.accept, Function.update_of_ne hdn] at hd
        exact Or.inr hd
    refine ⟨fun d hd => ?_, fun d => ⟨fun hd => ?_, (hy.once d).closed⟩,
      fun d hd => hy.unused d (Nat.le_of_succ_le hd)⟩
    · rcases hpresent d hd with rfl | hd
      · exact Nat.lt_succ_self y.next
      · exact Nat.lt_succ_of_lt (hy.used d hd)
    · rcases hpresent d hd with rfl | hd
      · exact hy.unused y.next (le_refl _)
      · exact (hy.once d).open_ hd
  | read c data =>
    simp only [System.arrive, System.read, map_eq_some_iff] at h
    obtain ⟨p, hp, rfl⟩ := h
    by_cases hdata : data = []
    · rw [if_pos hdata]
      exact ends_closed hy (Talks.refl c y.server) hp
    · rw [if_neg hdata]
      simp only [Unreported, hp] at ha
      have htalks := execute_talks (ha hdata)
      generalize hr : connFeedParser (serverCallbacks env c) env.alloc
        { p := p, u := y.server } data = r
      have hu : Talks c y.server r.2.u := by
        rw [← hr]
        unfold connFeedParser
        dsimp only
        split
        · exact htalks
        · exact htalks
      by_cases hfail : r.1 = true
      · rw [if_pos hfail]
        show (y.after c none (connClose env r.2.u c)).Ends
        exact ends_closed hy hu hp
      · rw [if_neg hfail]
        exact ends_moved hy hu hp
  | publish c topic payload qos retain =>
    simp only [System.arrive, map_eq_some_iff] at h
    obtain ⟨p, hp, rfl⟩ := h
    have hsame := connectionPublish_reported env y.server c topic payload qos retain
    have hmoved := ends_moved (q := p) hy (talks_same hsame) hp
    have hparsers : Function.update y.parsers c (some p) = y.parsers := by
      rw [← hp]
      exact Function.update_eq_self c y.parsers
    unfold System.after at hmoved
    rwa [hparsers] at hmoved

theorem ends_init (accepted : ℕ) : (System.init accepted).Ends :=
  ⟨fun _ h => absurd rfl h, fun _ => ⟨fun h => absurd rfl h, fun h => absurd h not_mem_nil⟩,
    fun _ _ => not_mem_nil⟩

/-- As long as the parser reports no error each connection is closed once, and nothing follows. -/
theorem connections_closed_once (env : Env) (accepted : ℕ) (arrivals : List Arrival)
    (h : Guarded (System.arrive env) (Unreported env) (System.init accepted) arrivals) :
    Along (System.arrive env) (fun y => ∀ c, ClosedOnce y c) (System.init accepted) arrivals :=
  along_mono (fun _ hy => hy.once)
    (along_of_guarded (I := System.Ends) (fun _ _ _ hy ha h => arrive_ends hy ha h)
      (ends_init accepted) h)

/- A PINGREQ in two pieces, a PUBLISH whose body ends too early, and the end of another stream. -/
def sampleArrivals : List Arrival :=
  [.accept, .accept, .read 0 [0xC0], .read 1 [0xC0, 0x00], .read 0 [0x00, 0x30, 0x02, 0x00, 0x05],
    .read 1 []]

theorem sample_closed_once :
    Along (System.arrive plenty) (fun y => ∀ c, ClosedOnce y c) (System.init 0) sampleArrivals :=
  connections_closed_once plenty 0 sampleArrivals (by decide +kernel)

/-- An AUTH packet ends a connection twice. -/
theorem auth_closes_twice : ¬ ∀ (env : Env) (accepted : ℕ) (arrivals : List Arrival) (y : System),
      exec (System.arrive env) (System.init accepted) arrivals = some y → ∀ c, ClosedOnce y c := by
  intro hall
  have hrun : ((exec (System.arrive plenty) (System.init 0) [.accept, .read 0 [0xF0]]).map
      fun y => y.server.reported) = some [.disconnect 0, .disconnect 0] := by decide +kernel
  obtain ⟨y, hy, hreported⟩ := map_eq_some_iff.mp hrun
  obtain ⟨front, will, habout, hfront, -, hwill⟩ :=
    (hall plenty 0 _ y hy 0).closed (by rw [hreported]; simp)
  rw [hreported] at habout
  cases front with
  | nil =>
    have htail : [Report.disconnect 0] = will := by simpa [about, Report.conn] using habout
    have hpub := hwill (.disconnect 0) (by rw [← htail]; simp)
    exact absurd hpub (by decide)
  | cons r front =>
    have hhead : Report.disconnect 0 = r := by
      have := congrArg List.head? habout
      simpa [about, Report.conn] using this
    exact hfront (by rw [hhead]; exact mem_cons_self)

end Voxlib.Mqtt
