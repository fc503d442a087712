import Voxlib.Mqtt.Segments

/-!
# After an error

A packet body that is refused by a plain negative return leaves the parser at the complete
packet, and the next call hands it on again.
-/

namespace Voxlib.Mqtt
open CStr Wire Stream Option

section
variable {σ : Type*} (cb : Callbacks σ) (alloc : ℕ → Bool)

def CallRefused (u : σ) (c : Call) : Prop := (invoke cb u c).1 ≠ 0

/- The protocol name is one that the parser looks for, and then the body is too
   short or the callback refuses it. -/
def ConnectRefused (p : Parser) (u : σ) : Prop :=
  let protoLen := ofU16 (p.buf.getD 0 0) (p.buf.getD 1 0)
  let rest := p.buf.drop (2 + protoLen)
  let version := (rest.getD 0 0).toNat
  p.buf.length < 8 ∨
  (protoLen = 4 ∨ protoLen = 6) ∧
    (p.buf.length < 2 + protoLen + 4 ∨
      protocolKnown ((p.buf.drop 2).take protoLen) version = true ∧
        ∀ c, readConnect version (rest.getD 1 0) (ofU16 (rest.getD 2 0) (rest.getD 3 0))
            (rest.drop 4) = some c → CallRefused cb u (.connect c))

def IdRefused (p : Parser) (u : σ) (c : ℕ → Call) : Prop :=
  ∀ id, packetIdWithV5Props p = some id → CallRefused cb u (c id)

/-- The body of the complete packet is not well formed, or a callback or the
pool refuses it. -/
def BodyRefused (p : Parser) (u : σ) : Prop :=
  match p.type with
  | .connect => ConnectRefused cb p u
  | .connack =>
    2 ≤ p.buf.length ∧ CallRefused cb u (.connack (p.buf.getD 0 0 &&& 1) (p.buf.getD 1 0))
  | .publish => ∀ m, readPublish p = some m → CallRefused cb u (.publish m)
  | .puback => IdRefused cb p u .puback
  | .pubrec => IdRefused cb p u .pubrec
  | .pubrel => IdRefused cb p u .pubrel
  | .pubcomp => IdRefused cb p u .pubcomp
  | .subscribe => ∀ id d, takePacketId p = some (id, d) →
      (countFilters d.length d ≠ 0 ∧ ¬ alloc (countFilters d.length d)) ∨
      CallRefused cb (grantFilters cb p.protocolVersion id (countFilters d.length d) d u).2
        (.subscribeDone id
          (grantFilters cb p.protocolVersion id (countFilters d.length d) d u).1)
  | .suback => ∀ id d, takePacketId p = some (id, d) → CallRefused cb u (.suback id d)
  | .unsubscribe => ∀ id d, takePacketId p = some (id, d) →
      (dropFilters cb id d.length d u).1 = false
  | .unsuback => cb.installed .onUnsuback = true → IdRefused cb p u .unsuback
  | .pingreq | .pingresp | .disconnect | .auth => False

/- How the body of a packet is answered: it passes, the parser is told of the
   error, or the error is returned without a word to the parser. -/
inductive Verdict (refused : Prop) (p : Parser) (r : Reply σ) : Prop where
  | passed (hok : r.ok = true) (herror : r.p.hasError = p.hasError) (hspared : ¬ refused)
  | told (hok : r.ok = false) (hstate : r.p.state = .error) (herror : r.p.hasError = true)
      (hspared : ¬ refused)
  | untold (hok : r.ok = false) (hstate : r.p.state = p.state)
      (herror : r.p.hasError = p.hasError) (hrefused : refused)

variable {cb alloc}

variable {p : Parser}

theorem Verdict.congr {a b : Prop} {r : Reply σ} (hab : a ↔ b) (h : Verdict a p r) :
    Verdict b p r := by
  cases h with
  | passed hok herror hspared => exact .passed hok herror (fun hb => hspared (hab.mpr hb))
  | told hok hstate herror hspared =>
    exact .told hok hstate herror (fun hb => hspared (hab.mpr hb))
  | untold hok hstate herror hrefused => exact .untold hok hstate herror (hab.mp hrefused)

theorem failed_verdict {refused : Prop} (hr : refused) (p : Parser) (u : σ) :
    Verdict refused p (failed p u) := .untold rfl rfl rfl hr

theorem failedWith_verdict {refused : Prop} (hr : ¬ refused) (p p' : Parser) (u : σ)
    (msg : String) : Verdict refused p (failedWith cb p' u msg) := .told rfl rfl rfl hr

theorem callWith_verdict {p' : Parser} {u : σ} {c : Call} (hstate : p'.state = p.state)
    (herror : p'.hasError = p.hasError) : Verdict (CallRefused cb u c) p (callWith cb p' u c) := by
  by_cases h : (invoke cb u c).1 = 0
  · exact .passed (decide_eq_true h) herror (fun hr => hr h)
  · exact .untold (decide_eq_false h) hstate herror h

theorem read_verdict {β : Type*} {r : Option β} {refused : β → Prop} {reply : Reply σ}
    (hnone : r = none → Verdict True p reply)
    (hsome : ∀ b, r = some b → Verdict (refused b) p reply) :
    Verdict (∀ b, r = some b → refused b) p reply := by
  cases r with
  | none =>
    apply (hnone rfl).congr
    exact iff_of_true trivial (fun b hb => absurd hb (not_mem_none b))
  | some b =>
    apply (hsome b rfl).congr
    constructor
    · intro hb b' hb'
      rw [← some.inj hb']
      exact hb
    · exact fun hall => hall b rfl

theorem id_verdict {refused : ℕ → Bytes → Prop} {reply : Reply σ}
    (hnone : takePacketId p = none → Verdict True p reply)
    (hsome : ∀ id d, takePacketId p = some (id, d) → Verdict (refused id d) p reply) :
    Verdict (∀ id d, takePacketId p = some (id, d) → refused id d) p reply := by
  have h : Verdict (∀ b, takePacketId p = some b → refused b.1 b.2) p reply :=
    read_verdict hnone (fun b => hsome b.1 b.2)
  exact h.congr Prod.forall

theorem parsePacketId_verdict (p : Parser) (u : σ) (c : ℕ → Call) :
    Verdict (IdRefused cb p u c) p (parsePacketId cb p u c) := by
  apply read_verdict
  · intro h
    rw [parsePacketId, h]
    exact failed_verdict trivial p u
  · intro id h
    rw [parsePacketId, h]
    exact callWith_verdict rfl rfl

theorem parseConnect_verdict (p : Parser) (u : σ) :
    Verdict (ConnectRefused cb p u) p (parseConnectPayload cb p u) := by
  unfold parseConnectPayload ConnectRefused
  dsimp only
  by_cases hshort : p.buf.length < 8
  · rw [if_pos hshort]
    exact failed_verdict (Or.inl hshort) p u
  rw [if_neg hshort]
  by_cases hlen : ofU16 (p.buf.getD 0 0) (p.buf.getD 1 0) ≠ 4 ∧
      ofU16 (p.buf.getD 0 0) (p.buf.getD 1 0) ≠ 6
  · rw [if_pos hlen]
    apply failedWith_verdict
    rintro (h | ⟨h4 | h6, _⟩)
    · exact hshort h
    · exact hlen.1 h4
    · exact hlen.2 h6
  rw [if_neg hlen]
  have hlen' : ofU16 (p.buf.getD 0 0) (p.buf.getD 1 0) = 4 ∨
      ofU16 (p.buf.getD 0 0) (p.buf.getD 1 0) = 6 := by omega
  by_cases hcut : p.buf.length < 2 + ofU16 (p.buf.getD 0 0) (p.buf.getD 1 0) + 4
  · rw [if_pos hcut]
    exact failed_verdict (Or.inr ⟨hlen', Or.inl hcut⟩) p u
  rw [if_neg hcut]
  by_cases hknown : protocolKnown ((p.buf.drop 2).take (ofU16 (p.buf.getD 0 0) (p.buf.getD 1 0)))
      ((p.buf.drop (2 + ofU16 (p.buf.getD 0 0) (p.buf.getD 1 0))).getD 0 0).toNat = true
  · rw [if_neg (not_not.mpr hknown)]
    apply Verdict.congr (a := ∀ c, readConnect
        ((p.buf.drop (2 + ofU16 (p.buf.getD 0 0) (p.buf.getD 1 0))).getD 0 0).toNat
        ((p.buf.drop (2 + ofU16 (p.buf.getD 0 0) (p.buf.getD 1 0))).getD 1 0)
        (ofU16 ((p.buf.drop (2 + ofU16 (p.buf.getD 0 0) (p.buf.getD 1 0))).getD 2 0)
          ((p.buf.drop (2 + ofU16 (p.buf.getD 0 0) (p.buf.getD 1 0))).getD 3 0))
        ((p.buf.drop (2 + ofU16 (p.buf.getD 0 0) (p.buf.getD 1 0))).drop 4) = some c →
          CallRefused cb u (.connect c))
    · constructor
      · exact fun h => Or.inr ⟨hlen', Or.inr ⟨hknown, h⟩⟩
      · rintro (h | ⟨_, h | ⟨_, h⟩⟩)
        · exact absurd h hshort
        · exact absurd h hcut
        · exact h
    · apply read_verdict
      · intro h
        rw [h]
        exact .untold rfl rfl rfl trivial
      · intro c h
        rw [h]
        exact callWith_verdict rfl rfl
  · rw [if_pos hknown]
    apply failedWith_verdict
    rintro (h | ⟨_, h | ⟨h, _⟩⟩)
    · exact hshort h
    · exact hcut h
    · exact hknown h

theorem dispatch_verdict (p : Parser) (u : σ) :
    Verdict (BodyRefused cb alloc p u) p (dispatch cb alloc p u) := by
  unfold BodyRefused dispatch
  cases htype : p.type with
  | connect => exact parseConnect_verdict p u
  | connack =>
    dsimp only
    unfold parseConnack
    by_cases hshort : p.buf.length < 2
    · rw [if_pos hshort]
      exact .passed rfl rfl (fun h => by omega)
    · rw [if_neg hshort]
      dsimp only
      apply Verdict.congr (a := CallRefused cb u
        (.connack (p.buf.getD 0 0 &&& 1) (p.buf.getD 1 0)))
      · exact ⟨fun h => ⟨by omega, h⟩, fun h => h.2⟩
      · split
        · exact callWith_verdict rfl rfl
        · exact callWith_verdict rfl rfl
  | publish =>
    apply read_verdict
    · intro h
      rw [parsePublishPayload, h]
      exact failed_verdict trivial p u
    · intro m h
      rw [parsePublishPayload, h]
      exact callWith_verdict rfl rfl
  | puback => exact parsePacketId_verdict p u .puback
  | pubrec => exact parsePacketId_verdict p u .pubrec
  | pubrel => exact parsePacketId_verdict p u .pubrel
  | pubcomp => exact parsePacketId_verdict p u .pubcomp
  | subscribe =>
    apply id_verdict
    · intro h
      rw [parseSubscribePayload, h]
      exact failed_verdict trivial p u
    · intro id d h
      rw [parseSubscribePayload, h]
      dsimp only
      split
      · rename_i hfull
        exact failed_verdict (Or.inl hfull) p u
      · rename_i hroom
        apply Verdict.congr (or_iff_right hroom).symm
        exact callWith_verdict rfl rfl
  | suback =>
    apply id_verdict
    · intro h
      rw [parseSubackPayload, h]
      exact failed_verdict trivial p u
    · intro id d h
      rw [parseSubackPayload, h]
      exact callWith_verdict rfl rfl
  | unsubscribe =>
    apply id_verdict
    · intro h
      rw [parseUnsubscribePayload, h]
      exact failed_verdict trivial p u
    · intro id d h
      rw [parseUnsubscribePayload, h]
      dsimp only
      cases hdrop : (dropFilters cb id d.length d u).1 with
      | true => exact .passed rfl rfl (by decide)
      | false => exact .untold rfl rfl rfl rfl
  | unsuback =>
    dsimp only
    unfold parseUnsuback
    by_cases hset : cb.installed .onUnsuback = true
    · apply Verdict.congr (a := IdRefused cb p u .unsuback)
      · exact ⟨fun h _ => h, fun h => h hset⟩
      · apply read_verdict
        · intro h
          rw [h]
          exact failed_verdict trivial p u
        · intro id h
          rw [h]
          dsimp only
          rw [if_pos hset]
          exact callWith_verdict rfl rfl
    · have hrefused : cb.installed .onUnsuback = true → IdRefused cb p u .unsuback :=
        fun h => absurd h hset
      cases packetIdWithV5Props p with
      | none => exact failed_verdict hrefused p u
      | some id =>
        dsimp only
        rw [if_neg hset]
        exact failed_verdict hrefused p u
  | pingreq => exact failedWith_verdict id p p u _
  | pingresp => exact failedWith_verdict id p p u _
  | disconnect => exact failedWith_verdict id p p u _
  | auth => exact failedWith_verdict id p p u _

/-- The complete packets that a call hands to the switch, each with the user
data of that moment. -/
inductive Hands (cb : Callbacks σ) (alloc : ℕ → Bool) :
    Parser × σ → Bytes → Parser × σ → Prop where
  | now {s t : Parser × σ} {cur rest : Bytes}
      (h : (fixedHeader cb s cur).andThen (remainingLen cb alloc) = .go t rest)
      (hstate : t.1.state = .varheaderPayload) (hfull : t.1.need ≤ rest.length) :
      Hands cb alloc s cur (collect t.1 (rest.take t.1.need), t.2)
  | later {s t q : Parser × σ} {cur rest : Bytes} (h : pass cb alloc s cur = .go t rest)
      (hq : Hands cb alloc t rest q) : Hands cb alloc s cur q

/- What becomes of has_error in a part of the loop: an error is told to the
   parser, and without one nothing changes. -/
def Tells (s : Parser × σ) : Flow (Parser × σ) UInt8 → Prop
  | .go t _ => t.1.hasError = s.1.hasError
  | .wait t _ => t.1.hasError = s.1.hasError
  | .fail t => t.1.state = .error ∧ t.1.hasError = true

variable (s : Parser × σ)

theorem readType_tells (b : UInt8) (rest : Bytes) : Tells s ((readType cb s b).flow rest) := by
  unfold readType
  split
  · exact ⟨rfl, rfl⟩
  · dsimp only
    split
    · exact ⟨rfl, rfl⟩
    · rfl

theorem fixedHeader_tells (cur : Bytes) : Tells s (fixedHeader cb s cur) := by
  by_cases hs : s.1.state = .fixedHeader
  · cases cur with
    | nil =>
      rw [fixedHeader_nil cb hs]
      rfl
    | cons b cur =>
      rw [fixedHeader_cons cb hs]
      exact readType_tells s b cur
  · rw [fixedHeader_skip cb hs]
    rfl

theorem ensureBuf_hasError {p' : Parser} {need : ℕ} (h : ensureBuf alloc p need = some p') :
    p'.hasError = p.hasError := by
  unfold ensureBuf at h
  by_cases henough : p.bufCap ≥ need
  · rw [if_pos henough] at h
    rw [some.inj h]
  · rw [if_neg henough, ite_none_left_eq_some, ite_none_right_eq_some] at h
    rw [← some.inj h.2.2]

theorem startPacket_tells (val : ℕ) (rest : Bytes) :
    Tells s ((startPacket cb alloc s val).flow rest) := by
  unfold startPacket
  dsimp only
  split
  · exact ⟨rfl, rfl⟩
  · split
    · split
      · exact ⟨rfl, rfl⟩
      · rfl
    · split
      · exact ⟨rfl, rfl⟩
      · rename_i p' hp
        have hsame := ensureBuf_hasError hp
        exact hsame

theorem remainingLen_tells (cur : Bytes) : Tells s (remainingLen cb alloc s cur) := by
  by_cases hs : s.1.state = .remainingLen
  · cases hd : decodeVarint cur with
    | more =>
      rw [remainingLen_more cb alloc hs hd]
      rfl
    | bad =>
      rw [remainingLen_bad cb alloc hs hd]
      exact ⟨rfl, rfl⟩
    | ok val size =>
      rw [remainingLen_ok cb alloc hs hd]
      exact startPacket_tells s val _
  · rw [remainingLen_skip cb alloc hs]
    rfl

theorem header_tells (cur : Bytes) :
    Tells s ((fixedHeader cb s cur).andThen (remainingLen cb alloc)) := by
  have h : Tells s (fixedHeader cb s cur) := fixedHeader_tells s cur
  cases hf : fixedHeader cb s cur with
  | go t rest =>
    rw [hf] at h
    have hr : Tells t (remainingLen cb alloc t rest) := remainingLen_tells t rest
    rw [Flow.go_andThen]
    have hts : t.1.hasError = s.1.hasError := h
    unfold Tells at hr ⊢
    rw [hts] at hr
    exact hr
  | wait t rest =>
    rw [hf] at h
    exact h
  | fail t =>
    rw [hf] at h
    exact h

inductive PassCase (cb : Callbacks σ) (alloc : ℕ → Bool) (s : Parser × σ) (cur : Bytes) :
    Flow (Parser × σ) UInt8 → Prop where
  | quiet {f : Flow (Parser × σ) UInt8} (htells : Tells s f)
      (hspared : ∀ t rest, (fixedHeader cb s cur).andThen (remainingLen cb alloc) = .go t rest →
        t.1.state = .varheaderPayload → t.1.need ≤ rest.length →
        ¬ BodyRefused cb alloc (collect t.1 (rest.take t.1.need)) t.2) :
      PassCase cb alloc s cur f
  | refused {t q : Parser × σ} (herror : t.1.hasError = s.1.hasError)
      (hq : Hands cb alloc s cur q) (hrefused : BodyRefused cb alloc q.1 q.2) :
      PassCase cb alloc s cur (.fail t)

theorem pass_cases (cur : Bytes) : PassCase cb alloc s cur (pass cb alloc s cur) := by
  have hhead : Tells s ((fixedHeader cb s cur).andThen (remainingLen cb alloc)) :=
    header_tells s cur
  unfold pass
  cases hf : (fixedHeader cb s cur).andThen (remainingLen cb alloc) with
  | fail t =>
    rw [hf] at hhead
    apply PassCase.quiet hhead
    intro t' rest' h
    rw [hf] at h
    cases h
  | wait t rest =>
    rw [hf] at hhead
    apply PassCase.quiet hhead
    intro t' rest' h
    rw [hf] at h
    cases h
  | go t rest =>
    rw [hf] at hhead
    have hts : t.1.hasError = s.1.hasError := hhead
    rw [Flow.go_andThen]
    by_cases hstate : t.1.state = .varheaderPayload
    · by_cases hfull : t.1.need ≤ rest.length
      · have hhands := Hands.now hf hstate hfull
        have hverdict : Verdict (BodyRefused cb alloc (collect t.1 (rest.take t.1.need)) t.2)
            (collect t.1 (rest.take t.1.need))
            (dispatch cb alloc (collect t.1 (rest.take t.1.need)) t.2) :=
          dispatch_verdict _ t.2
        rw [varheaderPayload_full cb alloc hstate hfull]
        unfold finishPacket
        dsimp only
        -- the packet that this pass hands over is this one
        have hone : ¬ BodyRefused cb alloc (collect t.1 (rest.take t.1.need)) t.2 →
            ∀ t' rest', (fixedHeader cb s cur).andThen (remainingLen cb alloc) = .go t' rest' →
              t'.1.state = .varheaderPayload → t'.1.need ≤ rest'.length →
              ¬ BodyRefused cb alloc (collect t'.1 (rest'.take t'.1.need)) t'.2 := by
          intro hnot t' rest' h _ _
          rw [hf] at h
          obtain ⟨rfl, rfl⟩ := Flow.go.inj h
          exact hnot
        cases hverdict with
        | passed hok herror hspared =>
          rw [if_pos hok]
          apply PassCase.quiet
          · exact herror.trans hts
          · exact hone hspared
        | told hok hstate' herror hspared =>
          rw [if_neg (by rw [hok]; decide)]
          apply PassCase.quiet
          · exact ⟨hstate', herror⟩
          · exact hone hspared
        | untold hok hstate' herror hrefused =>
          rw [if_neg (by rw [hok]; decide)]
          exact .refused (herror.trans hts) hhands hrefused
      · rw [varheaderPayload_short cb alloc hstate (not_le.mp hfull)]
        apply PassCase.quiet (show Tells s (.wait (collect t.1 rest, t.2) []) from hts)
        intro t' rest' h _ hfull'
        rw [hf] at h
        obtain ⟨rfl, rfl⟩ := Flow.go.inj h
        exact absurd hfull' hfull
    · rw [varheaderPayload_skip cb alloc hstate]
      apply PassCase.quiet (show Tells s (.go t rest) from hts)
      intro t' rest' h hstate'
      rw [hf] at h
      obtain ⟨rfl, rfl⟩ := Flow.go.inj h
      exact absurd hstate' hstate

theorem passes_fail (n : ℕ) : ∀ {s t : Parser × σ} {cur : Bytes}, s.1.hasError = false →
    passes (pass cb alloc) n s cur = .fail t → ((t.1.state = .error ∧ t.1.hasError = true) ∧
      ∀ q, Hands cb alloc s cur q → ¬ BodyRefused cb alloc q.1 q.2) ∨
    (t.1.hasError = false ∧ ∃ q, Hands cb alloc s cur q ∧ BodyRefused cb alloc q.1 q.2) := by
  induction n with
  | zero =>
    intro s t cur _ h
    cases h
  | succ n ih =>
    intro s t cur hfine h
    rw [passes] at h
    have hcase : PassCase cb alloc s cur (pass cb alloc s cur) := pass_cases s cur
    cases hp : pass cb alloc s cur with
    | wait u rest =>
      rw [hp] at h
      cases h
    | fail u =>
      rw [hp] at h hcase
      obtain rfl := Flow.fail.inj h
      cases hcase with
      | quiet htells hspared =>
        refine Or.inl ⟨htells, ?_⟩
        intro q hq
        cases hq with
        | now hnow hstate hfull => exact hspared _ _ hnow hstate hfull
        | later hlater _ =>
          rw [hp] at hlater
          cases hlater
      | refused herror hq hrefused => exact Or.inr ⟨herror.trans hfine, _, hq, hrefused⟩
    | go u rest =>
      rw [hp] at h hcase
      cases hcase with
      | quiet htells hspared =>
        have hgoes : u.1.hasError = false := Eq.trans htells hfine
        rcases ih hgoes h with ⟨htold, hnone⟩ | ⟨herror, q, hq, hrefused⟩
        · refine Or.inl ⟨htold, ?_⟩
          intro q hq
          cases hq with
          | now hnow hstate hfull => exact hspared _ _ hnow hstate hfull
          | later hlater hq' =>
            rw [hp] at hlater
            obtain ⟨rfl, rfl⟩ := Flow.go.inj hlater
            exact hnone q hq'
        · exact Or.inr ⟨herror, q, .later hp hq, hrefused⟩

/-- The parsers that calls of vox_mqtt_parser_execute lead to while none of
them has failed. -/
inductive Reached (cb : Callbacks σ) (maxPayload version : ℕ) : Parser → σ → Prop where
  | create (alloc : ℕ → Bool) (u : σ) :
      Reached cb maxPayload version (create alloc maxPayload version) u
  | call {p p' : Parser} {u u' : σ} {n : ℕ} (h : Reached cb maxPayload version p u)
      (alloc : ℕ → Bool) (data : Bytes) (hrun : execute cb alloc p u data = ⟨some n, p', u'⟩) :
      Reached cb maxPayload version p' u'

def Fine (s : Parser × σ) : Prop := s.1.live ∧ s.1.hasError = false

theorem pass_fine (cur : Bytes) (h : Fine s) : (pass cb alloc s cur).Holds Fine := by
  have hcase : PassCase cb alloc s cur (pass cb alloc s cur) := pass_cases s cur
  cases hp : pass cb alloc s cur with
  | fail t => trivial
  | go t rest =>
    rw [hp] at hcase
    cases hcase with
    | quiet htells _ =>
      refine ⟨?_, Eq.trans htells h.2⟩
      unfold Parser.live
      rw [(pass_go cb alloc h.1 hp).1]
      decide
  | wait t rest =>
    rw [hp] at hcase
    cases hcase with
    | quiet htells _ => exact ⟨pass_wait cb alloc hp, Eq.trans htells h.2⟩

theorem Reached.fine {maxPayload version : ℕ} {u : σ} (h : Reached cb maxPayload version p u) :
    Fine (p, u) := by
  induction h with
  | create alloc u => exact ⟨(create_ready alloc maxPayload version).1, rfl⟩
  | @call p p' u u' n _ alloc data hrun ih =>
    have hkeep : (passes (pass cb alloc) (data.length + 2) (p, u) data).Holds Fine :=
      passes_holds pass_fine (data.length + 2) ih data
    unfold execute at hrun
    rw [if_neg ih.1] at hrun
    cases hf : passes (pass cb alloc) (data.length + 2) (p, u) data with
    | fail t =>
      rw [hf] at hrun
      cases hrun
    | go t rest =>
      rw [hf] at hrun hkeep
      cases hrun
      exact hkeep
    | wait t rest =>
      rw [hf] at hrun hkeep
      cases hrun
      exact hkeep

/-- The error is known, and every later call returns -1 and changes nothing. -/
def Sticks (cb : Callbacks σ) (p : Parser) (u : σ) : Prop :=
  p.hasError = true ∧ ∀ (alloc : ℕ → Bool) (data : Bytes), execute cb alloc p u data = ⟨none, p, u⟩

theorem sticks_of_error (hstate : p.state = .error) (herror : p.hasError = true) (u : σ) :
    Sticks cb p u := by
  refine ⟨herror, ?_⟩
  intro alloc data
  unfold execute
  rw [if_pos hstate]

end

/-- The first call that returns -1 leaves the parser in the error state, without
a callback in any later call, exactly when none of the packets of the call was
refused without set_error. -/
theorem error_sticks_iff {σ : Type*} (cb : Callbacks σ) {maxPayload version : ℕ} {p p' : Parser}
    {u u' : σ × List Call} (hreach : Reached cb.logged maxPayload version p u) (alloc : ℕ → Bool)
    (data : Bytes) (hfail : execute cb.logged alloc p u data = ⟨none, p', u'⟩) :
    Sticks cb.logged p' u' ↔
      ∀ q, Hands cb.logged alloc (p, u) data q → ¬ BodyRefused cb.logged alloc q.1 q.2 := by
  obtain ⟨hlive, hfine⟩ := hreach.fine
  unfold execute at hfail
  rw [if_neg hlive] at hfail
  cases hf : passes (pass cb.logged alloc) (data.length + 2) (p, u) data with
  | go t rest =>
    rw [hf] at hfail
    cases hfail
  | wait t rest =>
    rw [hf] at hfail
    cases hfail
  | fail t =>
    rw [hf] at hfail
    cases hfail
    rcases passes_fail _ hfine hf with ⟨⟨hstate, herror⟩, hnone⟩ | ⟨herror, q, hq, hrefused⟩
    · exact iff_of_true (sticks_of_error hstate herror _) hnone
    · apply iff_of_false
      · intro hsticks
        rw [hsticks.1] at herror
        cases herror
      · exact fun hall => hall q hq hrefused

/- The reserved type 0 is an error that stays. -/
theorem reserved_type_sticks :
    ∃ p u, execute willing.logged (fun _ => true) (create (fun _ => true) 0 4) ((), []) [0x00] =
        ⟨none, p, u⟩ ∧ (Sticks willing.logged p u ↔ ∀ q, Hands willing.logged (fun _ => true)
        (create (fun _ => true) 0 4, ((), [])) [0x00] q →
          ¬ BodyRefused willing.logged (fun _ => true) q.1 q.2) :=
  ⟨_, _, rfl, error_sticks_iff willing (.create (fun _ => true) ((), [])) _ _ rfl⟩

def refusing : Callbacks Unit := ⟨fun _ => true, fun _ _ => (-1, ())⟩

/- A message is refused: has_error is false, and a call with no data hands the
   message over once more. -/
theorem refused_publish_again : ∃ p p' : Parser, ∃ log : List Call,
      execute refusing.logged (fun _ => true) (create (fun _ => true) 0 4) ((), [])
        [0x30, 3, 0, 1, 97] = ⟨none, p, ((), log)⟩ ∧ p.hasError = false ∧ log.length = 1 ∧
      execute refusing.logged (fun _ => true) p ((), log) [] = ⟨none, p', ((), log ++ log)⟩ :=
  ⟨_, _, _, rfl, rfl, rfl, rfl⟩

end Voxlib.Mqtt
