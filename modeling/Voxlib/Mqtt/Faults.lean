import Voxlib.Mqtt.Inbound

/-!
# What the parser reports to on_error

`faultless`: the parser does not call on_error before it has gone through its present phase.
-/

namespace Voxlib.Mqtt
open CStr Wire Stream

def typeFaultless (b : UInt8) : Bool :=
  match PacketType.ofCode (b.toNat / 16) with
  | none => false
  | some t => t ≠ .auth

/- Not above max_payload, with a buffer for it, and 0 only for the packets without a body. -/
def lengthFaultless (alloc : ℕ → Bool) (p : Parser) (val : ℕ) : Bool :=
  val ≤ p.maxPayload ∧
    if val = 0 then p.type ∈ [.pingreq, .pingresp, .disconnect]
    else (ensureBuf alloc { p with remainingLen := val, need := val, buf := [] } val).isSome

/- The name of the protocol is looked at before anything else of a CONNECT. -/
def connectFaultless (d : Bytes) : Bool :=
  let protoLen := ofU16 (d.getD 0 0) (d.getD 1 0)
  d.length < 8 ∨ (protoLen = 4 ∨ protoLen = 6) ∧
    (d.length < 2 + protoLen + 4 ∨
      protocolKnown ((d.drop 2).take protoLen) ((d.drop (2 + protoLen)).getD 0 0).toNat)

def bodyFaultless (p : Parser) : Bool :=
  match p.type with
  | .connect => connectFaultless p.buf
  | .pingreq | .pingresp | .disconnect | .auth => false
  | _ => true

/-- The parser goes through its phase without a call of on_error. -/
def Parser.faultless (alloc : ℕ → Bool) (p : Parser) (cur : Bytes) : Bool :=
  match p.state with
  | .fixedHeader => (cur.head?.map typeFaultless).getD true
  | .remainingLen =>
    match decodeRemainingLength cur with
    | .bad => false
    | .more => true
    | .ok val _ => lengthFaultless alloc p val
  | .varheaderPayload => cur.length < p.need ∨ bodyFaultless (collect p (cur.take p.need))
  | .error => true

/-- The bytes at hand complete a packet. -/
def Parser.completes (p : Parser) (cur : Bytes) : Bool :=
  match p.state with
  | .remainingLen =>
    match decodeRemainingLength cur with
    | .ok val _ => val = 0
    | _ => false
  | .varheaderPayload => p.need ≤ cur.length
  | _ => false

def goesOn {S α : Type*} (f : Flow S α) (P : S → List α → Prop) : Prop :=
  match f with
  | .go t rest => P t rest
  | _ => True

instance {S α : Type*} (f : Flow S α) (P : S → List α → Prop) [∀ t rest, Decidable (P t rest)] :
    Decidable (goesOn f P) :=
  match f with
  | .go t rest => inferInstanceAs (Decidable (P t rest))
  | .wait _ _ => isTrue trivial
  | .fail _ => isTrue trivial

section
variable {σ : Type*} (cb : Callbacks σ) (alloc : ℕ → Bool) (A : σ → Prop)

/- In this phase nothing is reported, and `A` holds if a packet is complete. -/
def Proper (s : Parser × σ) (cur : Bytes) : Prop :=
  s.1.faultless alloc cur ∧ (s.1.completes cur → A s.2)

instance [DecidablePred A] (s : Parser × σ) (cur : Bytes) : Decidable (Proper alloc A s cur) :=
  inferInstanceAs (Decidable (_ ∧ (_ → A s.2)))

/-- Every phase of at most so many passes. -/
def properPasses : ℕ → Parser × σ → Bytes → Prop
  | 0, _, _ => True
  | n + 1, s, cur =>
    Proper alloc A s cur ∧ goesOn (fixedHeader cb s cur) fun s cur =>
      Proper alloc A s cur ∧ goesOn (remainingLen cb alloc s cur) fun s cur =>
        Proper alloc A s cur ∧ goesOn (varheaderPayload cb alloc s cur) (properPasses n)

instance decidableProperPasses [DecidablePred A] :
    ∀ (n : ℕ) (s : Parser × σ) (cur : Bytes), Decidable (properPasses cb alloc A n s cur)
  | 0, _, _ => isTrue trivial
  | n + 1, s, cur =>
    haveI : ∀ t rest, Decidable (properPasses cb alloc A n t rest) := decidableProperPasses n
    inferInstanceAs (Decidable (Proper alloc A s cur ∧ goesOn (fixedHeader cb s cur) fun s cur =>
      Proper alloc A s cur ∧ goesOn (remainingLen cb alloc s cur) fun s cur =>
        Proper alloc A s cur ∧
          goesOn (varheaderPayload cb alloc s cur) (properPasses cb alloc A n)))

/-- Every phase of a call of vox_mqtt_parser_execute. -/
def ProperRead (p : Parser) (u : σ) (data : Bytes) : Prop :=
  properPasses cb alloc A (data.length + 2) (p, u) data

instance [DecidablePred A] (p : Parser) (u : σ) (data : Bytes) :
    Decidable (ProperRead cb alloc A p u data) :=
  inferInstanceAs (Decidable (properPasses cb alloc A _ _ _))

end

def Parser.completed (p : Parser) (cur : Bytes) : Parser :=
  if p.state = .varheaderPayload then collect p (cur.take p.need) else p

section
variable {σ : Type*} (cb : Callbacks σ) (alloc : ℕ → Bool) (B : Parser → σ → Prop)

def ProperFor (s : Parser × σ) (cur : Bytes) : Prop :=
  s.1.faultless alloc cur ∧ (s.1.completes cur → B (s.1.completed cur) s.2)

instance [∀ p, DecidablePred (B p)] (s : Parser × σ) (cur : Bytes) :
    Decidable (ProperFor alloc B s cur) :=
  inferInstanceAs (Decidable (_ ∧ (_ → B (s.1.completed cur) s.2)))

def properPassesFor : ℕ → Parser × σ → Bytes → Prop
  | 0, _, _ => True
  | n + 1, s, cur =>
    ProperFor alloc B s cur ∧ goesOn (fixedHeader cb s cur) fun s cur =>
      ProperFor alloc B s cur ∧ goesOn (remainingLen cb alloc s cur) fun s cur =>
        ProperFor alloc B s cur ∧ goesOn (varheaderPayload cb alloc s cur) (properPassesFor n)

instance decidableProperPassesFor [∀ p, DecidablePred (B p)] :
    ∀ (n : ℕ) (s : Parser × σ) (cur : Bytes), Decidable (properPassesFor cb alloc B n s cur)
  | 0, _, _ => isTrue trivial
  | n + 1, s, cur =>
    haveI : ∀ t rest, Decidable (properPassesFor cb alloc B n t rest) :=
      decidableProperPassesFor n
    inferInstanceAs (Decidable (ProperFor alloc B s cur ∧ goesOn (fixedHeader cb s cur) fun s cur =>
      ProperFor alloc B s cur ∧ goesOn (remainingLen cb alloc s cur) fun s cur =>
        ProperFor alloc B s cur ∧
          goesOn (varheaderPayload cb alloc s cur) (properPassesFor cb alloc B n)))

def ProperReadFor (p : Parser) (u : σ) (data : Bytes) : Prop :=
  properPassesFor cb alloc B (data.length + 2) (p, u) data

instance [∀ p, DecidablePred (B p)] (p : Parser) (u : σ) (data : Bytes) :
    Decidable (ProperReadFor cb alloc B p u data) :=
  inferInstanceAs (Decidable (properPassesFor cb alloc B _ _ _))

theorem properPassesFor_const (A : σ → Prop) (n : ℕ) :
    properPassesFor cb alloc (fun _ => A) n = properPasses cb alloc A n := by
  induction n with
  | zero => rfl
  | succ n ih =>
    funext s cur
    simp only [properPassesFor, properPasses, ih]
    rfl

end

section
variable {σ : Type*} {cb : Callbacks σ} {alloc : ℕ → Bool} {A : σ → Prop}
  {B : Parser → σ → Prop}

def Callbacks.only (cb : Callbacks σ) (allowed : σ → Call → Bool) : Callbacks σ where
  installed := cb.installed
  run u c := if allowed u c then cb.run u c else (0, u)

/- Where `A` holds a packet may make its calls; it makes several only for topic filters. -/
structure Admits (cb : Callbacks σ) (A : σ → Prop) (allowed : σ → Call → Bool) : Prop where
  calls : ∀ (type : PacketType) u c, type.makes c → A u → allowed u c
  filters : ∀ (type : PacketType) u c, type = .subscribe ∨ type = .unsubscribe → type.makes c →
    A u → A (invoke cb u c).2

def Parser.makes (p : Parser) (c : Call) : Prop :=
  p.type.makes c = true ∧ (p.type = .connack → 2 ≤ p.buf.length)

structure AdmitsFor (cb : Callbacks σ) (B : Parser → σ → Prop) (allowed : σ → Call → Bool) :
    Prop where
  calls : ∀ (p : Parser) u c, p.makes c → B p u → allowed u c
  filters : ∀ (p : Parser) u c, p.type = .subscribe ∨ p.type = .unsubscribe → p.type.makes c →
    B p u → B p (invoke cb u c).2

theorem Admits.for {allowed : σ → Call → Bool} (h : Admits cb A allowed) :
    AdmitsFor cb (fun _ => A) allowed where
  calls p u c hc := h.calls p.type u c hc.1
  filters p u c := h.filters p.type u c

variable {allowed : σ → Call → Bool} (h : AdmitsFor cb B allowed)

variable {u : σ}

theorem invoke_only {c : Call} (hc : allowed u c = true) :
    invoke (cb.only allowed) u c = invoke cb u c := by
  unfold invoke Callbacks.only
  dsimp only
  rw [if_pos hc]

theorem callWith_only {c : Call} (hc : allowed u c = true) (p : Parser) :
    callWith (cb.only allowed) p u c = callWith cb p u c := by
  unfold callWith
  rw [invoke_only hc]

include h

variable {p : Parser}

theorem parsePacketId_only {c : ℕ → Call} (hc : ∀ id, p.makes (c id)) (hu : B p u) :
    parsePacketId (cb.only allowed) p u c = parsePacketId cb p u c := by
  unfold parsePacketId
  cases packetIdWithV5Props p with
  | none => rfl
  | some id => exact callWith_only (h.calls p u _ (hc id) hu) p

theorem grant_only (ht : p.type = .subscribe) (hu : B p u) (id : ℕ) (topic : Bytes) (qos : ℕ) :
    grant (cb.only allowed) u id topic qos = grant cb u id topic qos := by
  have hc := h.calls p u (.subscribe id topic qos) ⟨ht ▸ rfl, by simp [ht]⟩ hu
  unfold grant Callbacks.only
  dsimp only
  rw [if_pos hc]

theorem grantFilters_only (ht : p.type = .subscribe) (version id : ℕ) (left : ℕ) (d : Bytes)
    (hu : B p u) :
    grantFilters (cb.only allowed) version id left d u = grantFilters cb version id left d u ∧
      B p (grantFilters cb version id left d u).2 := by
  induction left generalizing d u with
  | zero => exact ⟨rfl, hu⟩
  | succ left ih =>
    unfold grantFilters
    cases takeU16 d with
    | none => exact ⟨rfl, hu⟩
    | some t =>
      dsimp only
      split
      · exact ⟨rfl, hu⟩
      · rw [grant_only h ht hu]
        have hnext : B p (grant cb u id (t.2.take t.1)
            (if version = 5 then (t.2.getD t.1 0).toNat % 4 else (t.2.getD t.1 0).toNat)).2 := by
          rw [grant_state]
          exact h.filters p u _ (Or.inl ht) (ht ▸ rfl) hu
        obtain ⟨heq, hkeep⟩ := ih (t.2.drop (t.1 + 1)) hnext
        exact ⟨by rw [heq], hkeep⟩

theorem dropFilters_only (ht : p.type = .unsubscribe) (id : ℕ) (fuel : ℕ) (d : Bytes) (hu : B p u) :
    dropFilters (cb.only allowed) id fuel d u = dropFilters cb id fuel d u := by
  induction fuel generalizing d u with
  | zero => rfl
  | succ fuel ih =>
    unfold dropFilters
    cases takeString d with
    | none => rfl
    | some t =>
      have hc := h.calls p u (.unsubscribe id t.1) ⟨ht ▸ rfl, by simp [ht]⟩ hu
      dsimp only
      rw [invoke_only hc, ih t.2 (h.filters p u _ (Or.inr ht) (ht ▸ rfl) hu)]

/-- A complete packet that reports nothing makes only calls that are allowed. -/
theorem dispatch_only (hp : bodyFaultless p = true) (hu : B p u) :
    dispatch (cb.only allowed) alloc p u = dispatch cb alloc p u := by
  unfold bodyFaultless at hp
  unfold dispatch
  cases ht : p.type with
  | connect =>
    rw [ht] at hp
    simp only [connectFaultless, decide_eq_true_eq] at hp
    dsimp only
    unfold parseConnectPayload
    dsimp only
    by_cases hshort : p.buf.length < 8
    · rw [if_pos hshort, if_pos hshort]
    · obtain ⟨hname, hknown⟩ := hp.resolve_left hshort
      have hlen : ¬ (ofU16 (p.buf.getD 0 0) (p.buf.getD 1 0) ≠ 4 ∧
          ofU16 (p.buf.getD 0 0) (p.buf.getD 1 0) ≠ 6) := by omega
      rw [if_neg hshort, if_neg hshort, if_neg hlen, if_neg hlen]
      by_cases hbody : p.buf.length < 2 + ofU16 (p.buf.getD 0 0) (p.buf.getD 1 0) + 4
      · rw [if_pos hbody, if_pos hbody]
      · have hok := hknown.resolve_left hbody
        rw [if_neg hbody, if_neg hbody, if_neg (not_not.mpr hok), if_neg (not_not.mpr hok)]
        split
        · rfl
        · exact callWith_only (h.calls p u _ ⟨ht ▸ rfl, by simp [ht]⟩ hu) _
  | connack =>
    dsimp only
    unfold parseConnack
    split
    · rfl
    · next hlong => exact callWith_only (h.calls p u _ ⟨ht ▸ rfl, fun _ => by omega⟩ hu) _
  | publish =>
    dsimp only
    unfold parsePublishPayload
    cases readPublish p with
    | none => rfl
    | some m => exact callWith_only (h.calls p u _ ⟨ht ▸ rfl, by simp [ht]⟩ hu) p
  | puback => exact parsePacketId_only h (fun _ => ⟨ht ▸ rfl, by simp [ht]⟩) hu
  | pubrec => exact parsePacketId_only h (fun _ => ⟨ht ▸ rfl, by simp [ht]⟩) hu
  | pubrel => exact parsePacketId_only h (fun _ => ⟨ht ▸ rfl, by simp [ht]⟩) hu
  | pubcomp => exact parsePacketId_only h (fun _ => ⟨ht ▸ rfl, by simp [ht]⟩) hu
  | subscribe =>
    dsimp only
    unfold parseSubscribePayload
    cases takePacketId p with
    | none => rfl
    | some t =>
      dsimp only
      split
      · rfl
      · obtain ⟨heq, hkeep⟩ :=
          grantFilters_only h ht p.protocolVersion t.1 (countFilters t.2.length t.2) t.2 hu
        rw [heq]
        exact callWith_only (h.calls p _ _ ⟨ht ▸ rfl, by simp [ht]⟩ hkeep) p
  | suback =>
    dsimp only
    unfold parseSubackPayload
    cases takePacketId p with
    | none => rfl
    | some t => exact callWith_only (h.calls p u _ ⟨ht ▸ rfl, by simp [ht]⟩ hu) p
  | unsubscribe =>
    dsimp only
    unfold parseUnsubscribePayload
    cases takePacketId p with
    | none => rfl
    | some t =>
      dsimp only
      rw [dropFilters_only h ht t.1 t.2.length t.2 hu]
  | unsuback =>
    dsimp only
    unfold parseUnsuback
    cases packetIdWithV5Props p with
    | none => rfl
    | some id =>
      have hi : (cb.only allowed).installed = cb.installed := rfl
      dsimp only
      rw [hi]
      split
      · exact callWith_only (h.calls p u _ ⟨ht ▸ rfl, by simp [ht]⟩ hu) p
      · rfl
  | pingreq => rw [ht] at hp; simp at hp
  | pingresp => rw [ht] at hp; simp at hp
  | disconnect => rw [ht] at hp; simp at hp
  | auth => rw [ht] at hp; simp at hp

variable {s : Parser × σ}

omit h in
theorem readType_only {b : UInt8} (hb : typeFaultless b = true) :
    readType (cb.only allowed) s b = readType cb s b := by
  unfold typeFaultless at hb
  unfold readType
  cases ht : PacketType.ofCode (b.toNat / 16) with
  | none => simp [ht] at hb
  | some t =>
    have hne : t ≠ .auth := by simpa [ht] using hb
    dsimp only
    rw [if_neg hne, if_neg hne]

variable {cur : Bytes}

omit h in
theorem fixedHeader_only (hp : s.1.faultless alloc cur = true) :
    fixedHeader (cb.only allowed) s cur = fixedHeader cb s cur := by
  unfold fixedHeader
  by_cases hs : s.1.state = .fixedHeader
  · rw [if_pos hs, if_pos hs]
    cases cur with
    | nil => rfl
    | cons b rest =>
      have hb : typeFaultless b = true := by simpa [Parser.faultless, hs] using hp
      dsimp only
      rw [readType_only hb]
  · rw [if_neg hs, if_neg hs]

theorem emptyPacket_only {q : Parser} (hq : q.type = p.type) (hu : B p u) :
    emptyPacket (cb.only allowed) q u = emptyPacket cb q u := by
  have hcalls (c : Call) (hc : q.type.makes c) (hne : q.type ≠ .connack) :
      invoke (cb.only allowed) u c = invoke cb u c :=
    invoke_only (h.calls p u c ⟨hq ▸ hc, fun ht => absurd (hq.trans ht) hne⟩ hu)
  unfold emptyPacket
  cases ht : q.type with
  | pingreq => dsimp only; rw [hcalls .pingreq (ht ▸ rfl) (by simp [ht])]
  | pingresp => dsimp only; rw [hcalls .pingresp (ht ▸ rfl) (by simp [ht])]
  | disconnect => dsimp only; rw [hcalls .disconnect (ht ▸ rfl) (by simp [ht])]
  | _ => rfl

theorem startPacket_only {val : ℕ} (hv : lengthFaultless alloc s.1 val = true)
    (hu : val = 0 → B s.1 s.2) :
    startPacket (cb.only allowed) alloc s val = startPacket cb alloc s val := by
  unfold lengthFaultless at hv
  obtain ⟨hmax, hbody⟩ := of_decide_eq_true hv
  unfold startPacket
  dsimp only
  rw [if_neg (Nat.not_lt.mpr hmax), if_neg (Nat.not_lt.mpr hmax)]
  by_cases hzero : val = 0
  · rw [if_pos hzero] at hbody
    rw [if_pos hzero, if_pos hzero]
    generalize hq : { s.1 with remainingLen := val, need := val, buf := [] } = q
    have htype : q.type = s.1.type := by rw [← hq]
    rw [emptyPacket_only h htype (hu hzero)]
    cases he : emptyPacket cb q s.2 with
    | none =>
      unfold emptyPacket at he
      simp only [List.mem_cons, List.not_mem_nil, or_false, ← htype] at hbody
      rcases hbody with ht | ht | ht <;> simp [ht] at he
    | some u => rfl
  · rw [if_neg hzero] at hbody
    rw [if_neg hzero, if_neg hzero]
    obtain ⟨q, hq⟩ := Option.isSome_iff_exists.mp hbody
    rw [hq]

theorem remainingLen_only (hp : ProperFor alloc B s cur) :
    remainingLen (cb.only allowed) alloc s cur = remainingLen cb alloc s cur := by
  obtain ⟨hfault, hready⟩ := hp
  unfold remainingLen
  by_cases hs : s.1.state = .remainingLen
  · rw [if_pos hs, if_pos hs]
    unfold Parser.faultless at hfault
    unfold Parser.completes Parser.completed at hready
    simp only [hs, reduceCtorEq, if_false] at hfault hready
    cases hd : decodeRemainingLength cur with
    | bad => simp [hd] at hfault
    | more => rfl
    | ok val n =>
      simp only [hd] at hfault hready
      have hstart := startPacket_only h hfault fun hzero => hready (by simpa using hzero)
      dsimp only
      rw [hstart]
  · rw [if_neg hs, if_neg hs]

theorem varheaderPayload_only (hp : ProperFor alloc B s cur) :
    varheaderPayload (cb.only allowed) alloc s cur = varheaderPayload cb alloc s cur := by
  obtain ⟨hfault, hready⟩ := hp
  unfold varheaderPayload
  by_cases hs : s.1.state = .varheaderPayload
  · rw [if_pos hs, if_pos hs]
    unfold Parser.faultless at hfault
    unfold Parser.completes Parser.completed at hready
    simp only [hs, decide_eq_true_eq, if_true] at hfault hready
    dsimp only
    by_cases hshort : cur.length < s.1.need
    · have hneed : (collect s.1 (cur.take (min cur.length s.1.need))).need ≠ 0 := by
        simp only [collect, List.length_take]
        omega
      rw [if_pos hneed, if_pos hneed]
    · have hmin : min cur.length s.1.need = s.1.need := by omega
      have hneed : ¬ (collect s.1 (cur.take s.1.need)).need ≠ 0 := by
        simp only [collect, List.length_take]
        omega
      rw [hmin, if_neg hneed, if_neg hneed]
      unfold finishPacket
      rw [dispatch_only h (hfault.resolve_left hshort) (hready (by omega))]
  · rw [if_neg hs, if_neg hs]

theorem passes_only (n : ℕ) (hp : properPassesFor cb alloc B n s cur) :
    passes (pass (cb.only allowed) alloc) n s cur = passes (pass cb alloc) n s cur := by
  induction n generalizing s cur with
  | zero => rfl
  | succ n ih =>
    obtain ⟨h₁, hp⟩ := hp
    simp only [passes, pass]
    rw [fixedHeader_only h₁.1]
    cases hf : fixedHeader cb s cur with
    | wait t rest => rfl
    | fail t => rfl
    | go t rest =>
      rw [hf] at hp
      obtain ⟨h₂, hp⟩ := hp
      simp only [Flow.go_andThen]
      rw [remainingLen_only h h₂]
      cases hr : remainingLen cb alloc t rest with
      | wait t rest => rfl
      | fail t => rfl
      | go t' rest' =>
        rw [hr] at hp
        obtain ⟨h₃, hp⟩ := hp
        simp only [Flow.go_andThen]
        rw [varheaderPayload_only h h₃]
        cases hv : varheaderPayload cb alloc t' rest' with
        | wait t rest => rfl
        | fail t => rfl
        | go t'' rest'' =>
          rw [hv] at hp
          exact ih hp

theorem execute_onlyFor {data : Bytes} (hp : ProperReadFor cb alloc B p u data) :
    execute cb alloc p u data = execute (cb.only allowed) alloc p u data := by
  unfold execute
  rw [passes_only h _ hp]

omit h in
theorem execute_only (h : Admits cb A allowed) {data : Bytes}
    (hp : ProperRead cb alloc A p u data) :
    execute cb alloc p u data = execute (cb.only allowed) alloc p u data := by
  refine execute_onlyFor h.for ?_
  unfold ProperReadFor
  rw [properPassesFor_const]
  exact hp

end

section
variable {σ : Type*} {cb : Callbacks σ} {alloc : ℕ → Bool} {B : Parser → σ → Prop}

/- A call that returns an error keeps `B`, and so do the calls for topic filters. -/
structure Steadfast (cb : Callbacks σ) (B : Parser → σ → Prop) : Prop where
  fails : ∀ p u c, B p u → (invoke cb u c).1 ≠ 0 → B p (invoke cb u c).2
  filters : ∀ (p : Parser) u c, p.type = .subscribe ∨ p.type = .unsubscribe → p.type.makes c →
    B p u → B p (invoke cb u c).2

variable (h : Steadfast cb B)
include h

theorem callWith_fails {p q : Parser} {u : σ} (hu : B p u) {c : Call}
    (hno : (callWith cb q u c).ok = false) : B p (callWith cb q u c).u := by
  refine h.fails p u c hu fun hzero => ?_
  have hok : (callWith cb q u c).ok = true := decide_eq_true hzero
  exact Bool.false_ne_true (hno.symm.trans hok)

theorem parsePacketId_fails {p : Parser} {u : σ} (hu : B p u) {c : ℕ → Call}
    (hno : (parsePacketId cb p u c).ok = false) : B p (parsePacketId cb p u c).u := by
  unfold parsePacketId at hno ⊢
  cases hid : packetIdWithV5Props p with
  | none => exact hu
  | some id =>
    rw [hid] at hno
    exact callWith_fails h hu hno

theorem dispatch_fails {p : Parser} (hp : bodyFaultless p = true) {u : σ} (hu : B p u)
    (hno : (dispatch cb alloc p u).ok = false) : B p (dispatch cb alloc p u).u := by
  unfold bodyFaultless at hp
  unfold dispatch at hno ⊢
  cases ht : p.type with
  | connect =>
    rw [ht] at hp hno
    simp only [connectFaultless, decide_eq_true_eq] at hp
    dsimp only at hno ⊢
    unfold parseConnectPayload at hno ⊢
    dsimp only at hno ⊢
    by_cases hshort : p.buf.length < 8
    · rw [if_pos hshort]
      exact hu
    · obtain ⟨hname, hknown⟩ := hp.resolve_left hshort
      have hlen : ¬ (ofU16 (p.buf.getD 0 0) (p.buf.getD 1 0) ≠ 4 ∧
          ofU16 (p.buf.getD 0 0) (p.buf.getD 1 0) ≠ 6) := by omega
      rw [if_neg hshort, if_neg hlen] at hno ⊢
      by_cases hbody : p.buf.length < 2 + ofU16 (p.buf.getD 0 0) (p.buf.getD 1 0) + 4
      · rw [if_pos hbody]
        exact hu
      · have hok := hknown.resolve_left hbody
        rw [if_neg hbody, if_neg (not_not.mpr hok)] at hno ⊢
        split
        · exact hu
        · next a hread =>
          rw [hread] at hno
          exact callWith_fails h hu hno
  | connack =>
    rw [ht] at hno
    dsimp only at hno ⊢
    unfold parseConnack at hno ⊢
    split
    · exact hu
    · next hlong =>
      rw [if_neg hlong] at hno
      exact callWith_fails h hu hno
  | publish =>
    rw [ht] at hno
    dsimp only at hno ⊢
    unfold parsePublishPayload at hno ⊢
    cases hread : readPublish p with
    | none => exact hu
    | some m =>
      rw [hread] at hno
      exact callWith_fails h hu hno
  | puback =>
    rw [ht] at hno
    exact parsePacketId_fails h hu hno
  | pubrec =>
    rw [ht] at hno
    exact parsePacketId_fails h hu hno
  | pubrel =>
    rw [ht] at hno
    exact parsePacketId_fails h hu hno
  | pubcomp =>
    rw [ht] at hno
    exact parsePacketId_fails h hu hno
  | subscribe =>
    rw [ht] at hno
    dsimp only at hno ⊢
    unfold parseSubscribePayload at hno ⊢
    cases hid : takePacketId p with
    | none => exact hu
    | some t =>
      rw [hid] at hno
      dsimp only at hno ⊢
      split
      · exact hu
      · next hmem =>
        rw [if_neg hmem] at hno
        refine callWith_fails h ?_ hno
        exact grantFilters_keeps cb _ t.1
          (fun u topic qos hu => h.filters p u _ (Or.inl ht) (ht ▸ rfl) hu) _ t.2 hu
  | suback =>
    rw [ht] at hno
    dsimp only at hno ⊢
    unfold parseSubackPayload at hno ⊢
    cases hid : takePacketId p with
    | none => exact hu
    | some t =>
      rw [hid] at hno
      exact callWith_fails h hu hno
  | unsubscribe =>
    dsimp only
    unfold parseUnsubscribePayload
    cases takePacketId p with
    | none => exact hu
    | some t =>
      exact dropFilters_keeps cb t.1
        (fun u topic hu => h.filters p u _ (Or.inr ht) (ht ▸ rfl) hu) t.2.length t.2 hu
  | unsuback =>
    rw [ht] at hno
    dsimp only at hno ⊢
    unfold parseUnsuback at hno ⊢
    cases hid : packetIdWithV5Props p with
    | none => exact hu
    | some id =>
      rw [hid] at hno
      dsimp only at hno ⊢
      split
      · next hi =>
        rw [if_pos hi] at hno
        exact callWith_fails h hu hno
      · exact hu
  | pingreq => rw [ht] at hp; simp at hp
  | pingresp => rw [ht] at hp; simp at hp
  | disconnect => rw [ht] at hp; simp at hp
  | auth => rw [ht] at hp; simp at hp

variable {s : Parser × σ} {cur : Bytes}

omit h in
theorem fixedHeader_fails {t : Parser × σ} (hp : s.1.faultless alloc cur = true) :
    fixedHeader cb s cur ≠ .fail t := by
  unfold fixedHeader
  by_cases hs : s.1.state = .fixedHeader
  · rw [if_pos hs]
    cases cur with
    | nil => simp
    | cons b rest =>
      have hb : typeFaultless b = true := by simpa [Parser.faultless, hs] using hp
      unfold typeFaultless at hb
      dsimp only
      unfold readType
      cases ht : PacketType.ofCode (b.toNat / 16) with
      | none => simp [ht] at hb
      | some t =>
        have hne : t ≠ .auth := by simpa [ht] using hb
        dsimp only
        rw [if_neg hne]
        simp [Turn.flow]
  · rw [if_neg hs]
    simp

omit h in
theorem startPacket_fails (cb : Callbacks σ) {val : ℕ} (hv : lengthFaultless alloc s.1 val = true) :
    ∃ t, startPacket cb alloc s val = .ok t := by
  unfold lengthFaultless at hv
  obtain ⟨hmax, hbody⟩ := of_decide_eq_true hv
  unfold startPacket
  dsimp only
  rw [if_neg (Nat.not_lt.mpr hmax)]
  by_cases hzero : val = 0
  · rw [if_pos hzero] at hbody ⊢
    unfold emptyPacket
    simp only [List.mem_cons, List.not_mem_nil, or_false] at hbody
    rcases hbody with ht | ht | ht <;> simp [ht]
  · rw [if_neg hzero] at hbody ⊢
    obtain ⟨q, hq⟩ := Option.isSome_iff_exists.mp hbody
    rw [hq]
    exact ⟨_, rfl⟩

omit h in
theorem remainingLen_fails {t : Parser × σ} (hp : s.1.faultless alloc cur = true) :
    remainingLen cb alloc s cur ≠ .fail t := by
  unfold remainingLen
  by_cases hs : s.1.state = .remainingLen
  · rw [if_pos hs]
    unfold Parser.faultless at hp
    simp only [hs] at hp
    cases hd : decodeRemainingLength cur with
    | bad => simp [hd] at hp
    | more => simp
    | ok val n =>
      simp only [hd] at hp
      obtain ⟨t, ht⟩ := startPacket_fails cb hp
      dsimp only
      rw [ht]
      simp [Turn.flow]
  · rw [if_neg hs]
    simp

def BodyFails (cb : Callbacks σ) (alloc : ℕ → Bool) (B : Parser → σ → Prop) (v : σ) : Prop :=
  ∃ p u, bodyFaultless p = true ∧ (dispatch cb alloc p u).ok = false ∧ B p v

theorem varheaderPayload_fails {t : Parser × σ} (hp : ProperFor alloc B s cur)
    (ht : varheaderPayload cb alloc s cur = .fail t) : BodyFails cb alloc B t.2 := by
  obtain ⟨hfault, hready⟩ := hp
  unfold varheaderPayload at ht
  by_cases hs : s.1.state = .varheaderPayload
  · rw [if_pos hs] at ht
    unfold Parser.faultless at hfault
    unfold Parser.completes Parser.completed at hready
    simp only [hs, decide_eq_true_eq, if_true] at hfault hready
    dsimp only at ht
    by_cases hshort : cur.length < s.1.need
    · have hneed : (collect s.1 (cur.take (min cur.length s.1.need))).need ≠ 0 := by
        simp only [collect, List.length_take]
        omega
      rw [if_pos hneed] at ht
      simp at ht
    · have hmin : min cur.length s.1.need = s.1.need := by omega
      have hneed : ¬ (collect s.1 (cur.take s.1.need)).need ≠ 0 := by
        simp only [collect, List.length_take]
        omega
      rw [hmin, if_neg hneed] at ht
      unfold finishPacket at ht
      dsimp only at ht
      split at ht
      · simp [Turn.flow] at ht
      · next hno =>
        have hbody := hfault.resolve_left hshort
        have hbad : (dispatch cb alloc (collect s.1 (cur.take s.1.need)) s.2).ok = false := by
          simpa using hno
        obtain rfl := Flow.fail.inj ht
        exact ⟨_, _, hbody, hbad, dispatch_fails h hbody (hready (by omega)) hbad⟩
  · rw [if_neg hs] at ht
    simp at ht

theorem passes_fails (n : ℕ) {t : Parser × σ} (hp : properPassesFor cb alloc B n s cur)
    (ht : passes (pass cb alloc) n s cur = .fail t) : BodyFails cb alloc B t.2 := by
  induction n generalizing s cur with
  | zero => simp [passes] at ht
  | succ n ih =>
    obtain ⟨h₁, hp⟩ := hp
    simp only [passes, pass] at ht
    cases hf : fixedHeader cb s cur with
    | wait t rest => simp [hf, Flow.andThen] at ht
    | fail t => exact absurd hf (fixedHeader_fails h₁.1)
    | go s₁ rest =>
      rw [hf] at hp ht
      obtain ⟨h₂, hp⟩ := hp
      simp only [Flow.go_andThen] at ht
      cases hr : remainingLen cb alloc s₁ rest with
      | wait t rest => simp [hr, Flow.andThen] at ht
      | fail t => exact absurd hr (remainingLen_fails h₂.1)
      | go s₂ rest' =>
        rw [hr] at hp ht
        obtain ⟨h₃, hp⟩ := hp
        simp only [Flow.go_andThen] at ht
        cases hv : varheaderPayload cb alloc s₂ rest' with
        | wait t rest => simp [hv, Flow.andThen] at ht
        | fail t' =>
          rw [hv] at ht
          obtain rfl := Flow.fail.inj ht
          exact varheaderPayload_fails h h₃ hv
        | go s₃ rest'' =>
          rw [hv] at hp ht
          exact ih hp ht

theorem execute_fails {p : Parser} {u : σ} {data : Bytes} (hs : p.state ≠ .error)
    (hp : ProperReadFor cb alloc B p u data) (hret : (execute cb alloc p u data).ret = none) :
    BodyFails cb alloc B (execute cb alloc p u data).u := by
  unfold execute at hret ⊢
  rw [if_neg hs] at hret ⊢
  cases hf : passes (pass cb alloc) (data.length + 2) (p, u) data with
  | wait t rest => simp [hf, Executed.ofFlow] at hret
  | go t rest => simp [hf, Executed.ofFlow] at hret
  | fail t => exact passes_fails h _ hp hf

end

def unheard : Callbacks Unit where
  installed _ := false
  run u _ := (0, u)

section
variable {σ : Type*} {cb : Callbacks σ} {alloc : ℕ → Bool}

theorem callWith_unset {c : Call} (hc : cb.installed c.target = false) (p : Parser) (u : σ) :
    callWith cb p u c = ⟨true, p, u⟩ := by
  unfold callWith invoke
  rw [if_neg (by rw [hc]; exact Bool.false_ne_true)]
  rfl

theorem parsePacketId_unset {c : ℕ → Call} (hc : ∀ id, cb.installed (c id).target = false)
    (p : Parser) (u : σ) : (parsePacketId cb p u c).ok = (parsePacketId unheard p () c).ok := by
  unfold parsePacketId
  cases packetIdWithV5Props p with
  | none => rfl
  | some id =>
    dsimp only
    rw [callWith_unset (hc id), callWith_unset rfl]

theorem dropFilters_unset (hc : cb.installed .onUnsubscribe = false) (id : ℕ) (fuel : ℕ)
    (d : Bytes) (u : σ) : dropFilters cb id fuel d u = (true, u) := by
  induction fuel generalizing d with
  | zero => rfl
  | succ fuel ih =>
    unfold dropFilters
    cases takeString d with
    | none => rfl
    | some t =>
      have hcall : invoke cb u (.unsubscribe id t.1) = (0, u) := by
        unfold invoke
        exact if_neg (by simp [Call.target, hc])
      dsimp only
      rw [hcall]
      exact ih t.2

/-- A packet of a type whose callbacks are not set is accepted or not as it would be if no
callback were. -/
theorem dispatch_unset {p : Parser}
    (hc : ∀ c : Call, p.type.makes c → cb.installed c.target = false) (u : σ) :
    (dispatch cb alloc p u).ok = (dispatch unheard alloc p ()).ok := by
  unfold dispatch
  cases ht : p.type with
  | connect =>
    rw [ht] at hc
    dsimp only
    unfold parseConnectPayload
    dsimp only
    split
    · rfl
    · split
      · rfl
      · split
        · rfl
        · split
          · rfl
          · split
            · rfl
            · rw [callWith_unset (hc _ rfl), callWith_unset rfl]
  | connack =>
    rw [ht] at hc
    dsimp only
    unfold parseConnack
    split
    · rfl
    · rw [callWith_unset (hc _ rfl), callWith_unset rfl]
  | publish =>
    rw [ht] at hc
    dsimp only
    unfold parsePublishPayload
    cases readPublish p with
    | none => rfl
    | some m => dsimp only; rw [callWith_unset (hc _ rfl), callWith_unset rfl]
  | puback =>
    rw [ht] at hc
    exact parsePacketId_unset (fun id => hc _ rfl) p u
  | pubrec =>
    rw [ht] at hc
    exact parsePacketId_unset (fun id => hc _ rfl) p u
  | pubrel =>
    rw [ht] at hc
    exact parsePacketId_unset (fun id => hc _ rfl) p u
  | pubcomp =>
    rw [ht] at hc
    exact parsePacketId_unset (fun id => hc _ rfl) p u
  | subscribe =>
    rw [ht] at hc
    dsimp only
    unfold parseSubscribePayload
    cases takePacketId p with
    | none => rfl
    | some t =>
      dsimp only
      split
      · rfl
      · rw [callWith_unset (hc _ rfl), callWith_unset rfl]
  | suback =>
    rw [ht] at hc
    dsimp only
    unfold parseSubackPayload
    cases takePacketId p with
    | none => rfl
    | some t => dsimp only; rw [callWith_unset (hc _ rfl), callWith_unset rfl]
  | unsubscribe =>
    rw [ht] at hc
    dsimp only
    unfold parseUnsubscribePayload
    cases takePacketId p with
    | none => rfl
    | some t =>
      dsimp only
      rw [dropFilters_unset (hc (.unsubscribe 0 []) rfl), dropFilters_unset rfl]
  | unsuback =>
    rw [ht] at hc
    dsimp only
    unfold parseUnsuback
    rw [show cb.installed .onUnsuback = false from hc (.unsuback 0) rfl]
    cases packetIdWithV5Props p with
    | none => rfl
    | some id => rfl
  | pingreq => rfl
  | pingresp => rfl
  | disconnect => rfl
  | auth => rfl

end

def leaves {S α : Type*} (f : Flow S α) (Q : S → Prop) : Prop :=
  match f with
  | .go t _ => Q t
  | .wait t _ => Q t
  | .fail t => Q t

theorem leaves_andThen {S α : Type*} {f : Flow S α} {k : S → List α → Flow S α} {Q : S → Prop}
    (hf : leaves f Q) (hk : ∀ t rest, Q t → leaves (k t rest) Q) : leaves (f.andThen k) Q := by
  cases f with
  | go t rest => exact hk t rest hf
  | wait t rest => exact hf
  | fail t => exact hf

theorem leaves_passes {S α : Type*} {pass : S → List α → Flow S α} {Q : S → Prop}
    (hpass : ∀ t cur, Q t → leaves (pass t cur) Q) (n : ℕ) {s : S} (hs : Q s) (cur : List α) :
    leaves (passes pass n s cur) Q := by
  induction n generalizing s cur with
  | zero => exact hs
  | succ n ih => exact leaves_andThen (hpass s cur hs) fun t rest ht => ih ht rest

section
variable {σ : Type*} {cb : Callbacks σ} {alloc : ℕ → Bool} {P : σ → Prop}
  (hcall : ∀ u c, P u → P (invoke cb u c).2)
include hcall

theorem readType_leaves {s : Parser × σ} (hs : P s.2) (b : UInt8) (rest : Bytes) :
    leaves ((readType cb s b).flow rest) fun t => P t.2 := by
  unfold readType
  cases PacketType.ofCode (b.toNat / 16) with
  | none => exact hcall s.2 _ hs
  | some t =>
    dsimp only
    split
    · exact hcall s.2 _ hs
    · exact hs

theorem startPacket_leaves {s : Parser × σ} (hs : P s.2) (val : ℕ) (rest : Bytes) :
    leaves ((startPacket cb alloc s val).flow rest) fun t => P t.2 := by
  unfold startPacket
  dsimp only
  split
  · exact hcall s.2 _ hs
  · split
    · split
      · exact hcall s.2 _ hs
      · next u hu =>
        have hkeep : P u := by
          unfold emptyPacket at hu
          dsimp only at hu
          split at hu
          · exact Option.some.inj hu ▸ hcall s.2 _ hs
          · exact Option.some.inj hu ▸ hcall s.2 _ hs
          · exact Option.some.inj hu ▸ hcall s.2 _ hs
          · simp at hu
        exact hkeep
    · split
      · exact hcall s.2 _ hs
      · exact hs

theorem finishPacket_leaves (p : Parser) {u : σ} (hu : P u) (rest : Bytes) :
    leaves ((finishPacket cb alloc p u).flow rest) fun t => P t.2 := by
  have hkeeps : Keeps cb p.type P P := ⟨fun u c _ hu => hcall u c hu, fun u _ hu => hcall u _ hu,
    fun _ hu => hu⟩
  have hdispatch : P (dispatch cb alloc p u).u := (dispatch_keeps alloc hkeeps hu).2
  unfold finishPacket
  dsimp only
  split
  · exact hdispatch
  · exact hdispatch

theorem pass_leaves (s : Parser × σ) (cur : Bytes) (hs : P s.2) :
    leaves (pass cb alloc s cur) fun t => P t.2 := by
  unfold pass
  refine leaves_andThen (leaves_andThen ?_ fun t rest ht => ?_) fun t rest ht => ?_
  · unfold fixedHeader
    split
    · cases cur with
      | nil => exact hs
      | cons b rest => exact readType_leaves hcall hs b rest
    · exact hs
  · unfold remainingLen
    split
    · cases decodeRemainingLength rest with
      | bad => exact hcall t.2 _ ht
      | more => exact ht
      | ok val n => exact startPacket_leaves hcall ht val _
    · exact ht
  · unfold varheaderPayload
    split
    · dsimp only
      split
      · exact ht
      · exact finishPacket_leaves hcall _ ht _
    · exact ht

theorem execute_keeps {p : Parser} {u : σ} (hu : P u) (data : Bytes) :
    P (execute cb alloc p u data).u := by
  unfold execute
  split
  · exact hu
  · have hpass (t : Parser × σ) (cur : Bytes) (ht : P t.2) :
        leaves (pass cb alloc t cur) fun t => P t.2 := pass_leaves hcall t cur ht
    have hleaves := leaves_passes hpass (data.length + 2) (s := (p, u)) hu data
    generalize passes (pass cb alloc) (data.length + 2) (p, u) data = f at hleaves ⊢
    cases f with
    | go t rest => exact hleaves
    | wait t rest => exact hleaves
    | fail t => exact hleaves

end

end Voxlib.Mqtt
