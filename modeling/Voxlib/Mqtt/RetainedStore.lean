import Voxlib.Mqtt.Subscriptions

/-!
# The retained messages as a last-write-wins map
-/

namespace Voxlib.Mqtt
open CStr Wire List

variable {s : Server} {c : ConnId}

abbrev Store := Bytes → Option (Bytes × ℕ)

def Store.retain (f : Store) (topic payload : Bytes) (qos : ℕ) : Store :=
  Function.update f topic (if payload = [] then none else some (payload, qos))

/-- At most one entry of a topic, and the entries are those of the map. -/
structure Stores (rs : List Retained) (f : Store) : Prop where
  once : (rs.map Retained.topic).Nodup
  entry : ∀ r, r ∈ rs ↔ f r.topic = some (r.payload, r.qos)

theorem Stores.nil : Stores [] fun _ => none :=
  ⟨nodup_nil, fun r => by simp⟩

theorem Stores.of_entry {rs rs' : List Retained} {f : Store} (h : Stores rs f) {t : Bytes}
    {v : Option (Bytes × ℕ)} (honce : (rs'.map Retained.topic).Nodup)
    (hother : ∀ r, r.topic ≠ t → (r ∈ rs' ↔ r ∈ rs))
    (hsame : ∀ r, r.topic = t → (r ∈ rs' ↔ v = some (r.payload, r.qos))) :
    Stores rs' (Function.update f t v) := by
  refine ⟨honce, fun r => ?_⟩
  by_cases ht : r.topic = t
  · rw [ht, Function.update_self]
    exact hsame r ht
  · rw [Function.update_of_ne ht, hother r ht]
    exact h.entry r

theorem updateRetained_topics (rs : List Retained) (t : Bytes) {g : Retained → Retained}
    (hg : ∀ r, (g r).topic = r.topic) :
    (updateRetained rs t g).map Retained.topic = rs.map Retained.topic := by
  induction rs with
  | nil => rfl
  | cons r rs ih =>
    unfold updateRetained
    split
    · rw [map_cons, map_cons, hg]
    · rw [map_cons, map_cons, ih]

theorem mem_updateRetained {rs : List Retained} (honce : (rs.map Retained.topic).Nodup) (t : Bytes)
    (g : Retained → Retained) (r' : Retained) : r' ∈ updateRetained rs t g ↔
      (r' ∈ rs ∧ r'.topic ≠ t) ∨ ∃ r ∈ rs, r.topic = t ∧ g r = r' := by
  induction rs with
  | nil => simp [updateRetained]
  | cons r rs ih =>
    rw [map_cons, nodup_cons] at honce
    have hrest : ∀ q ∈ rs, q.topic ≠ r.topic := fun q hq heq =>
      honce.1 (heq ▸ mem_map_of_mem hq)
    unfold updateRetained
    by_cases ht : r.topic = t
    · rw [if_pos ht, mem_cons]
      constructor
      · rintro (rfl | hin)
        · exact .inr ⟨r, mem_cons_self .., ht, rfl⟩
        · exact .inl ⟨mem_cons_of_mem r hin, ht ▸ hrest r' hin⟩
      · rintro (⟨hin, hne⟩ | ⟨q, hq, hqt, rfl⟩)
        · rcases mem_cons.mp hin with rfl | hin
          · exact absurd ht hne
          · exact .inr hin
        · rcases mem_cons.mp hq with rfl | hq
          · exact .inl rfl
          · exact absurd (hqt.trans ht.symm) (hrest q hq)
    · rw [if_neg ht, mem_cons, ih honce.2]
      constructor
      · rintro (rfl | ⟨hin, hne⟩ | ⟨q, hq, hqt, rfl⟩)
        · exact .inl ⟨mem_cons_self .., ht⟩
        · exact .inl ⟨mem_cons_of_mem r hin, hne⟩
        · exact .inr ⟨q, mem_cons_of_mem r hq, hqt, rfl⟩
      · rintro (⟨hin, hne⟩ | ⟨q, hq, hqt, rfl⟩)
        · rcases mem_cons.mp hin with rfl | hin
          · exact .inl rfl
          · exact .inr (.inl ⟨hin, hne⟩)
        · rcases mem_cons.mp hq with rfl | hq
          · exact absurd hqt ht
          · exact .inr (.inr ⟨q, hq, hqt, rfl⟩)

theorem Stores.retain {f : Store} (h : Stores s.retained f) (write : Bytes → Bool)
    (topic payload : Bytes) (qos : ℕ) :
    Stores (retainMessage (roomy write) s topic payload qos).retained
      (f.retain topic payload qos) := by
  unfold retainMessage Store.retain
  dsimp only
  by_cases hempty : payload = []
  · rw [if_pos (length_eq_zero_iff.mpr hempty), if_pos hempty]
    refine h.of_entry (h.once.sublist (eraseP_sublist.map _)) (fun r hr => ?_) fun r hr => ?_
    · rw [mem_eraseP_key h.once]
      exact and_iff_left hr
    · rw [mem_eraseP_key h.once]
      exact iff_of_false (fun hin => hin.2 hr) (by simp)
  · rw [if_neg (fun hlen => hempty (length_eq_zero_iff.mp hlen)), if_neg hempty]
    by_cases hpresent : (s.retained.any fun r => r.topic = topic) = true
    · obtain ⟨old, hold, ht⟩ := any_eq_true.mp hpresent
      have ht' : old.topic = topic := by simpa using ht
      rw [if_pos hpresent]
      simp only [roomy, if_true]
      refine h.of_entry ?_ (fun r hr => ?_) fun r hr => ?_
      · have htopics := updateRetained_topics s.retained topic
          (g := fun r => { r with payload := payload, qos := qos }) fun r => rfl
        rw [htopics]
        exact h.once
      · rw [mem_updateRetained h.once]
        constructor
        · rintro (⟨hin, -⟩ | ⟨q, -, hq, rfl⟩)
          · exact hin
          · exact absurd hq hr
        · intro hin
          exact .inl ⟨hin, hr⟩
      · rw [mem_updateRetained h.once]
        constructor
        · rintro (⟨-, hne⟩ | ⟨q, -, -, rfl⟩)
          · exact absurd hr hne
          · rfl
        · intro heq
          obtain ⟨rfl, rfl⟩ := Prod.ext_iff.mp (Option.some.inj heq)
          refine .inr ⟨old, hold, ht', ?_⟩
          cases r
          obtain rfl : _ = topic := hr
          rw [ht']
    · have habsent : topic ∉ s.retained.map Retained.topic := by
        intro hin
        obtain ⟨r, hr, ht⟩ := mem_map.mp hin
        exact hpresent (any_eq_true.mpr ⟨r, hr, by simpa using ht⟩)
      rw [if_neg hpresent]
      simp only [roomy, if_true]
      refine h.of_entry ?_ (fun r hr => ?_) fun r hr => ?_
      · rw [map_append, nodup_append]
        refine ⟨h.once, nodup_singleton _, ?_⟩
        rintro t ht t' ht' rfl
        obtain rfl : t = topic := mem_singleton.mp ht'
        exact habsent ht
      · rw [mem_append, mem_singleton]
        refine or_iff_left fun heq => hr ?_
        rw [heq]
      · rw [mem_append, mem_singleton]
        constructor
        · rintro (hin | rfl)
          · exact absurd (mem_map.mpr ⟨r, hin, hr⟩) habsent
          · rfl
        · intro heq
          obtain ⟨rfl, rfl⟩ := Prod.ext_iff.mp (Option.some.inj heq)
          refine .inr ?_
          cases r
          obtain rfl : _ = topic := hr
          rfl

/- A message that is handed to the subscribers, with the sizes that it has behind the parser; what
   the transport takes is open. -/
structure Forwarded where
  sender : ConnId
  topic : Bytes
  payload : Bytes
  qos : ℕ
  retain : Bool
  write : Bytes → Bool
  topicFits : topic.length < 65536
  payloadFits : payload.length ≤ defaultMaxPayload

def Forwarded.to (m : Forwarded) (s : Server) : Server :=
  forwardMessageToSubscribers (roomy m.write) s m.sender m.topic m.payload m.qos m.retain

/- From a server with nothing retained: the messages so far, between which anything may happen that
   leaves the retained messages alone. -/
inductive History : List Forwarded → Server → Prop
  | start {s : Server} (h : s.retained = []) : History [] s
  | message {ms : List Forwarded} {s : Server} (m : Forwarded) (h : History ms s) :
      History (ms ++ [m]) (m.to s)
  | other {ms : List Forwarded} {s t : Server} (h : History ms s)
      (hkeep : t.retained = s.retained) : History ms t

def lastRetained (t : Bytes) (ms : List Forwarded) : Option Forwarded :=
  ms.reverse.find? fun m => m.retain ∧ m.topic = t

def Forwarded.entry (m : Forwarded) : Option (Bytes × ℕ) :=
  if m.payload = [] then none else some (m.payload, m.qos)

def Store.after (ms : List Forwarded) : Store := fun t => (lastRetained t ms).bind Forwarded.entry

theorem Store.after_snoc (ms : List Forwarded) (m : Forwarded) : Store.after (ms ++ [m]) =
    if m.retain then (Store.after ms).retain m.topic m.payload m.qos else Store.after ms := by
  funext t
  have hlast : lastRetained t (ms ++ [m]) =
      if m.retain ∧ m.topic = t then some m else lastRetained t ms := by
    unfold lastRetained
    rw [reverse_append, reverse_singleton, singleton_append, List.find?_cons]
    by_cases hm : m.retain = true ∧ m.topic = t
    · rw [if_pos hm, decide_eq_true hm]
    · rw [if_neg hm, decide_eq_false hm]
  show (lastRetained t (ms ++ [m])).bind Forwarded.entry = _
  rw [hlast]
  by_cases hretain : m.retain = true
  · rw [if_pos hretain]
    unfold Store.retain
    by_cases ht : m.topic = t
    · rw [if_pos ⟨hretain, ht⟩, ← ht, Function.update_self]
      rfl
    · rw [if_neg fun h => ht h.2, Function.update_of_ne (Ne.symm ht)]
      rfl
  · rw [if_neg hretain, if_neg fun h => hretain h.1]
    rfl

theorem foldl_forwardTo_retained (env : Env) (topic payload : Bytes) (qos : ℕ) (retain : Bool)
    (cs : List ConnId) (s : Server) :
    (cs.foldl (forwardTo env topic payload qos retain) s).retained = s.retained := by
  induction cs generalizing s with
  | nil => rfl
  | cons c cs ih => rw [foldl_cons, ih, forwardTo_eq, Server.modify_retained]

theorem Stores.message {f : Store} (h : Stores s.retained f) (m : Forwarded) :
    Stores (m.to s).retained (if m.retain then f.retain m.topic m.payload m.qos else f) := by
  unfold Forwarded.to forwardMessageToSubscribers
  dsimp only
  have hkeep : ((s.report (.publish m.sender m.topic m.payload m.qos)).connections.foldl
      (forwardTo (roomy m.write) m.topic m.payload m.qos m.retain)
      (s.report (.publish m.sender m.topic m.payload m.qos))).retained = s.retained :=
    foldl_forwardTo_retained ..
  split
  · exact Stores.retain (hkeep ▸ h) ..
  · rw [hkeep]
    exact h

variable {ms : List Forwarded}

theorem History.stores (h : History ms s) : Stores s.retained (Store.after ms) := by
  induction h with
  | start h =>
    rw [h]
    exact Stores.nil
  | message m h ih =>
    rw [Store.after_snoc]
    exact ih.message m
  | other h hkeep ih =>
    rw [hkeep]
    exact ih

theorem publicationSize_pos (x : Conn) {topic payload : Bytes} (ht : topic.length < 65536)
    (hp : payload.length ≤ defaultMaxPayload) (qos : ℕ) (retain : Bool) :
    x.publicationSize qos retain topic payload ≠ 0 := by
  have hmax : defaultMaxPayload = 262144 := rfl
  have hprops : x.version.props.length ≤ 1 := by
    cases x.version <;> decide
  have hneed : publishNeed x.version (UInt8.ofNat qos) topic payload < 2 ^ 28 := by
    unfold publishNeed
    split <;> omega
  unfold Conn.publicationSize
  rw [encodePublishIn_eq x.version (by omega)]
  unfold encodePacket
  cases hrl : encodeRemainingLength (publishNeed x.version (UInt8.ofNat qos) topic payload) with
  | none => exact absurd (encodeRemainingLength_none hrl) (by omega)
  | some rl =>
    dsimp only
    split <;> omega

def Publishes (v : Version) (qos : ℕ) (r : Retained) (b : Bytes) : Prop :=
  ∃ pid, b = encoded fun buf =>
    encodePublishIn v buf (UInt8.ofNat (min qos r.qos)) true pid r.topic r.payload

theorem sendRetained_sent (write : Bytes → Bool) (x : Conn) {filter : Bytes} (qos : ℕ)
    {r : Retained} (ht : r.topic.length < 65536) (hp : r.payload.length ≤ defaultMaxPayload)
    (hmatch : topicMatch filter r.topic = true) : ∃ b, Publishes x.version qos r b ∧
      (x.sendRetained (roomy write) filter qos r).sent = x.sent ++ [b].filter write := by
  have hmin : (if qos < r.qos then qos else r.qos) = min qos r.qos := by
    split <;> omega
  refine ⟨x.publication (min qos r.qos) true r.topic r.payload, ⟨_, rfl⟩, ?_⟩
  unfold Conn.sendRetained Conn.tryDeliver
  rw [if_pos hmatch, hmin, if_neg (publicationSize_pos x ht hp _ _), if_neg (by simp [roomy]),
    Conn.deliver_sent]
  simp [roomy, filter_cons]

theorem foldl_sendRetained_sent (write : Bytes → Bool) (filter : Bytes) (qos : ℕ)
    {rs : List Retained}
    (hfit : ∀ r ∈ rs, r.topic.length < 65536 ∧ r.payload.length ≤ defaultMaxPayload) (x : Conn) :
    ∃ pubs, List.Forall₂ (Publishes x.version qos) (rs.filter (topicMatch filter ·.topic)) pubs ∧
      (rs.foldl (fun x r => x.sendRetained (roomy write) filter qos r) x).sent =
        x.sent ++ pubs.filter write := by
  induction rs generalizing x with
  | nil => exact ⟨[], .nil, (append_nil _).symm⟩
  | cons r rs ih =>
    have hversion : (x.sendRetained (roomy write) filter qos r).version = x.version := by
      unfold Conn.version
      rw [(x.sendRetained_books (roomy write) filter qos r).protocolVersion]
    obtain ⟨pubs, hpubs, hsent⟩ := ih (fun q hq => hfit q (mem_cons_of_mem r hq))
      (x.sendRetained (roomy write) filter qos r)
    rw [hversion] at hpubs
    rw [foldl_cons, hsent]
    by_cases hmatch : topicMatch filter r.topic = true
    · obtain ⟨ht, hp⟩ := hfit r (mem_cons_self ..)
      obtain ⟨b, hb, hone⟩ := sendRetained_sent write x qos ht hp hmatch
      refine ⟨b :: pubs, ?_, ?_⟩
      · rw [filter_cons_of_pos (by exact hmatch)]
        exact .cons hb hpubs
      · rw [hone, append_assoc, ← filter_append, singleton_append]
    · refine ⟨pubs, ?_, ?_⟩
      · rw [filter_cons_of_neg (by exact hmatch)]
        exact hpubs
      · unfold Conn.sendRetained
        rw [if_neg hmatch]

theorem lastRetained_topic {t : Bytes} {m : Forwarded} (h : lastRetained t ms = some m) :
    m.topic = t := by
  have hfound := List.find?_some h
  simp only [decide_eq_true_eq] at hfound
  exact hfound.2

theorem after_some_iff {t payload : Bytes} {qos : ℕ} : Store.after ms t = some (payload, qos) ↔
      ∃ m, lastRetained t ms = some m ∧ m.payload ≠ [] ∧ m.payload = payload ∧ m.qos = qos := by
  unfold Store.after
  rw [Option.bind_eq_some_iff]
  refine exists_congr fun m => and_congr_right fun _ => ?_
  unfold Forwarded.entry
  split
  · next hempty => exact iff_of_false (by simp) fun h => h.1 hempty
  · next hempty => simp [hempty]

/-- At most one entry of a topic, which is the last message to be retained on it unless that was
empty; and a subscription is sent the entries that its filter matches, each once. -/
theorem retained_last_write {ms : List Forwarded} (h : History ms s) :
    (s.retained.map Retained.topic).Nodup ∧
      (∀ r, r ∈ s.retained ↔ ∃ m, lastRetained r.topic ms = some m ∧ m.payload ≠ [] ∧
        m.payload = r.payload ∧ m.qos = r.qos) ∧ ∀ c write filter qos, ∃ pubs,
        List.Forall₂ (Publishes (s.conns c).version (grantQos qos))
          (s.retained.filter (topicMatch filter ·.topic)) pubs ∧
        ((onSubscribe (roomy write) s c filter qos).2.conns c).sent =
          (s.conns c).sent ++ pubs.filter write := by
  have hentry : ∀ r, r ∈ s.retained ↔ ∃ m, lastRetained r.topic ms = some m ∧ m.payload ≠ [] ∧
      m.payload = r.payload ∧ m.qos = r.qos := fun r =>
    (h.stores.entry r).trans after_some_iff
  refine ⟨h.stores.once, hentry, fun c write filter qos => ?_⟩
  have hfit : ∀ r ∈ s.retained, r.topic.length < 65536 ∧ r.payload.length ≤ defaultMaxPayload := by
    intro r hr
    obtain ⟨m, hlast, -, hpayload, -⟩ := (hentry r).mp hr
    exact ⟨lastRetained_topic hlast ▸ m.topicFits, hpayload ▸ m.payloadFits⟩
  obtain ⟨pubs, hpubs, hsent⟩ := foldl_sendRetained_sent write filter (grantQos qos) hfit
    { s.conns c with
      subscriptions := (s.conns c).subscriptions ++ [⟨filter, grantQos qos, grantQos_le qos⟩] }
  refine ⟨pubs, hpubs, ?_⟩
  rw [onSubscribe_eq rfl rfl, Server.modify_same]
  exact hsent

def retaining : List Forwarded :=
  [⟨0, [97], [120], 1, true, fun _ => true, by decide, by decide⟩,
    ⟨0, [98], [121], 0, true, fun _ => true, by decide, by decide⟩,
    ⟨1, [98], [], 0, true, fun _ => false, by decide, by decide⟩,
    ⟨1, [97], [122], 0, false, fun _ => true, by decide, by decide⟩]

theorem retaining_history : History retaining (retaining.foldl (fun s m => m.to s) {}) :=
  .message _ (.message _ (.message _ (.message _ (.start rfl))))

theorem retaining_retained :
    let s := retaining.foldl (fun s m => m.to s) {}
    s.retained = [⟨[97], [120], 1⟩] ∧ (s.retained.map Retained.topic).Nodup :=
  ⟨by decide +kernel, (retained_last_write retaining_history).1⟩

end Voxlib.Mqtt
