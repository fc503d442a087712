import Voxlib.Mqtt.Faults
import Voxlib.Mqtt.Reconnect

/-!
# The failure of one connection of the MQTT client (vox_mqtt_client.c)
-/

namespace Voxlib.Mqtt
open CStr Run List

def ClientReport.small : ClientReport → Bool
  | .message .. | .suback .. | .called _ => true
  | _ => false

def ClientReport.isFailed : ClientReport → Bool
  | .failed _ => true
  | _ => false

def ClientReport.isError : ClientReport → Bool
  | .error _ => true
  | _ => false

def ClientReport.isDisconnect : ClientReport → Bool
  | .disconnect => true
  | _ => false

def ClientReport.answers : ClientReport → Option ℕ
  | .connect cb _ => some cb
  | .connectFailed cb => some cb
  | _ => none

/-- client_fail at most once; connect_cb exactly once when the attempt is over; error_cb and
disconnect_cb at most once; no callback of the parser behind the failure. -/
structure ToldOnce (cb : Option ℕ) (connecting : Bool) (log : List ClientReport) : Prop where
  failed : log.countP ClientReport.isFailed ≤ 1
  answered : log.filterMap ClientReport.answers = if connecting then [] else cb.toList
  errors : log.countP ClientReport.isError ≤ 1
  disconnects : log.countP ClientReport.isDisconnect ≤ 1
  silent : ∀ front msg back, log = front ++ .failed msg :: back → ∀ call, .called call ∉ back

def Session.Told (cb : Option ℕ) (before : List ClientReport) (s : Session) : Prop :=
  ∃ log, s.c.reported = before ++ log ∧ ToldOnce cb s.c.connecting log

inductive Occurrence where
  | dns (found : Bool)
  | tcp (established : Bool)
  | read (data : Bytes)
  | written
  | closed (failed : Bool)
  deriving DecidableEq

def Occurrence.possible (c : Client) : Occurrence → Prop
  | .dns _ => c.transport = .resolving
  | .tcp _ => c.transport = .connecting
  | .read data => c.transport = .reading ∧ data ≠ []
  | .written => c.writeQueue ≠ []
  | .closed _ => c.transport = .reading

instance Occurrence.decidablePossible (c : Client) : ∀ e, Decidable (Occurrence.possible c e)
  | .dns _ => inferInstanceAs (Decidable (c.transport = .resolving))
  | .tcp _ => inferInstanceAs (Decidable (c.transport = .connecting))
  | .read data => inferInstanceAs (Decidable (c.transport = .reading ∧ data ≠ []))
  | .written => inferInstanceAs (Decidable (c.writeQueue ≠ []))
  | .closed _ => inferInstanceAs (Decidable (c.transport = .reading))

section
variable (env : ClientEnv)

def Session.meet (s : Session) : Occurrence → Session
  | .dns found => { s with c := s.c.dnsCb env found }
  | .tcp established => { s with c := s.c.tcpConnectCb env established }
  | .read data => s.feedParserOrFail env data
  | .written => { s with c := s.c.writeDone }
  | .closed failed => s.closed env failed

def Session.occur (s : Session) (e : Occurrence) : Option Session :=
  if e.possible s.c then some (s.meet env e) else none

def Parser.quiet (p : Parser) : Bool :=
  match p.type with
  | .pingreq | .pingresp | .disconnect => true
  | .connack => p.buf.length < 2
  | .connect | .subscribe | .unsubscribe => (dispatch unheard env.alloc p ()).ok
  | _ => false

/- A packet that is complete when the client has failed is quiet. -/
def Heard (p : Parser) (c : Client) : Prop := c.alive ∨ p.quiet env = true

instance (p : Parser) : DecidablePred (Heard env p) := fun c =>
  inferInstanceAs (Decidable (c.alive ∨ p.quiet env = true))

/-- The occurrences that tell of a failure once: the parser has not given up and finds no fault
that it reports, and a client that has failed neither gets another packet nor the end. -/
def Session.Mild (s : Session) : Occurrence → Prop
  | .read data => s.p.state ≠ .error ∧
      ProperReadFor (clientCallbacks env) env.alloc (Heard env) s.p s.c data
  | .closed _ => s.c.alive
  | _ => True

instance (s : Session) : ∀ e, Decidable (s.Mild env e)
  | .read _ => inferInstanceAs (Decidable (_ ∧ _))
  | .closed _ => inferInstanceAs (Decidable s.c.alive)
  | .dns _ => .isTrue trivial
  | .tcp _ => .isTrue trivial
  | .written => .isTrue trivial

end

variable {env : ClientEnv} {c d e : Client} {cb : Option ℕ} {before : List ClientReport}

def Client.face (c : Client) : Bool × Bool × Option ℕ × List ClientReport :=
  (c.connecting, c.connected, c.connectCb, c.reported)

/- From `c` to `d` only small things were told. -/
def Client.Chats (c d : Client) : Prop :=
  ∃ new, d.face = (c.connecting, c.connected, c.connectCb, c.reported ++ new) ∧
    ∀ r ∈ new, r.small = true

theorem chats_same (h : d.face = c.face) : c.Chats d :=
  ⟨[], by rw [h, append_nil]; rfl, fun _ hr => absurd hr not_mem_nil⟩

theorem chats_report {r : ClientReport} (hr : r.small = true) (c : Client) :
    c.Chats (c.report r) := by
  refine ⟨[r], rfl, fun r' hr' => ?_⟩
  rw [mem_singleton.mp hr']
  exact hr

theorem Client.Chats.trans (h : c.Chats d) (h' : d.Chats e) : c.Chats e := by
  obtain ⟨new, hd, hsmall⟩ := h
  obtain ⟨new', he, hsmall'⟩ := h'
  simp only [Client.face, Prod.mk.injEq] at hd he
  obtain ⟨hc, hconn, hcb, hlog⟩ := hd
  obtain ⟨hc', hconn', hcb', hlog'⟩ := he
  refine ⟨new ++ new', ?_, fun r hr => ?_⟩
  · unfold Client.face
    rw [hc', hconn', hcb', hlog', hc, hconn, hcb, hlog, append_assoc]
  · rcases mem_append.mp hr with hr | hr
    · exact hsmall r hr
    · exact hsmall' r hr

theorem sendBuf_face (c : Client) (b : BufId) : (c.sendBuf env b).2.face = c.face := by
  unfold Client.sendBuf
  split
  · rfl
  · rfl

theorem sendPacket_face {enc : Bytes → ℕ × Bytes} {r : Bool × Client}
    (h : c.sendPacket env enc = some r) : r.2.face = c.face := by
  unfold Client.sendPacket at h
  split at h
  · obtain rfl := Option.some.inj h
    have hsend : ((c.newBuf (encoded enc)).2.sendBuf env (c.newBuf (encoded enc)).1).2.face =
        c.face := sendBuf_face (c.newBuf (encoded enc)).2 _
    dsimp only
    split
    · exact hsend
    · exact hsend
  · simp at h

theorem trySend_face (c : Client) (enc : Bytes → ℕ × Bytes) :
    (c.trySend env enc).face = c.face := by
  unfold Client.trySend
  cases h : c.sendPacket env enc with
  | none => rfl
  | some r => exact sendPacket_face h

theorem resubscribe_face (c : Client) (sub : Subscription) :
    (c.resubscribe env sub).face = c.face := by
  unfold Client.resubscribe
  dsimp only
  split
  · exact trySend_face c.takeId _
  · rfl

theorem resubscribeAll_face (subs : List Subscription) (c : Client) :
    (subs.foldl (Client.resubscribe env) c).face = c.face := by
  induction subs generalizing c with
  | nil => rfl
  | cons sub subs ih => exact (ih _).trans (resubscribe_face c sub)

theorem writeDone_face (c : Client) : c.writeDone.face = c.face := by
  unfold Client.writeDone
  split
  · rfl
  · rfl

theorem sendConnect_face (env : ClientEnv) (c : Client) : (match c.pendingConnectBuf with
      | some b =>
        let s := c.sendBuf env b
        { (if s.1 then s.2 else s.2.freeBuf b) with pendingConnectBuf := none }
      | none => c).face = c.face := by
  split
  · next b _ =>
    dsimp only
    split
    · exact sendBuf_face c b
    · exact sendBuf_face c b
  · rfl

theorem connectCleanupOnFail_face (c : Client) :
    c.connectCleanupOnFail.face = (false, c.connected, c.connectCb, c.reported) := by
  unfold Client.connectCleanupOnFail
  dsimp only
  split
  · rfl
  · rfl

theorem onPublish_chats (c : Client) (m : Publish) : c.Chats (c.onPublish env m).2 := by
  unfold Client.onPublish
  split
  · dsimp only
    split
    · exact chats_report rfl c
    · exact chats_same rfl
  · split
    · exact chats_same rfl
    · split
      · exact chats_same rfl
      · split
        · exact chats_same rfl
        · dsimp only
          split
          · exact chats_same rfl
          · next r hr =>
            have hface := sendPacket_face hr
            exact chats_same hface

theorem onPuback_face (c : Client) (id : ℕ) : (c.onPuback id).2.face = c.face := by
  have hstop (d : Client) :
      (if d.pendingQos1 = [] then { d with qosRetryTimer := false } else d).face = d.face := by
    split <;> rfl
  unfold Client.onPuback
  dsimp only
  rw [hstop]
  split <;> rfl

theorem onPubrec_face (c : Client) (id : ℕ) : (c.onPubrec env id).2.face = c.face := by
  unfold Client.onPubrec
  split
  · exact trySend_face _ _
  · rfl

theorem onPubcomp_face (c : Client) (id : ℕ) : (c.onPubcomp id).2.face = c.face := by
  have hstop (d : Client) : d.stopIfIdle.face = d.face := by
    unfold Client.stopIfIdle
    split <;> rfl
  unfold Client.onPubcomp
  dsimp only
  rw [hstop]
  split <;> rfl

theorem onPubrel_chats (c : Client) (id : ℕ) : c.Chats (c.onPubrel env id).2 := by
  unfold Client.onPubrel
  split
  · exact chats_same rfl
  · next p _ =>
    have hsend : c.Chats (Client.trySend env
        { c with pendingQos2In := c.pendingQos2In.eraseP fun p => p.packetId = id }
        (encodePubcomp · (UInt16.ofNat id))) := chats_same (trySend_face _ _)
    dsimp only
    split
    · exact hsend.trans (chats_report rfl _)
    · exact hsend

theorem onSuback_chats (c : Client) (id : ℕ) (codes : Bytes) : c.Chats (c.onSuback id codes).2 := by
  have hgiven : c.Chats { c with pendingSuback := none } := chats_same rfl
  unfold Client.onSuback
  split
  · exact hgiven.trans (chats_report rfl _)
  · exact chats_same rfl

theorem call_chats (c : Client) {call : Call} (hconnack : call.target ≠ .onConnack)
    (herror : call.target ≠ .onError) : c.Chats ((clientCallbacks env).run c call).2 := by
  refine (chats_report (r := .called call) rfl c).trans ?_
  cases call with
  | connack present code => exact absurd rfl hconnack
  | error msg => exact absurd rfl herror
  | publish m => exact onPublish_chats _ m
  | puback id => exact chats_same (onPuback_face _ id)
  | pubrec id => exact chats_same (onPubrec_face _ id)
  | pubrel id => exact onPubrel_chats _ id
  | pubcomp id => exact chats_same (onPubcomp_face _ id)
  | suback id codes => exact onSuback_chats _ id codes
  | _ => exact chats_same rfl

theorem call_fails {u : Client} {call : Call} (h : (invoke (clientCallbacks env) u call).1 ≠ 0) :
    u.Chats (invoke (clientCallbacks env) u call).2 := by
  unfold invoke at h ⊢
  split
  · next hset =>
    rw [if_pos hset] at h
    refine call_chats u (fun hconnack => h ?_) fun herror => h ?_
    · cases call with
      | connack present code =>
        show ((u.report _).onConnack env present code).1 = 0
        unfold Client.onConnack
        dsimp only
        split
        · rfl
        · split
          · rfl
          · rfl
      | _ => exact absurd hconnack (by simp [Call.target])
    · cases call with
      | error msg => rfl
      | _ => exact absurd herror (by simp [Call.target])
  · exact chats_same rfl

theorem tellFailure_told (c : Client) (cb : Option ℕ) (msg : String) :
    ∃ err dis, (c.tellFailure cb msg).reported =
        c.reported ++ ((cb.map .connectFailed).toList ++ (err ++ dis)) ∧
      (err = [] ∨ err = [ClientReport.error msg]) ∧
      (dis = [] ∨ dis = [ClientReport.disconnect]) := by
  have hend (e : Client) : ∃ err dis, (let e' := if e.errorCb then e.report (.error msg) else e
      if e'.disconnectCb then e'.report .disconnect else e').reported =
        e.reported ++ (err ++ dis) ∧
      (err = [] ∨ err = [ClientReport.error msg]) ∧
      (dis = [] ∨ dis = [ClientReport.disconnect]) := by
    dsimp only
    cases e.errorCb with
    | true =>
      rw [if_pos rfl]
      split
      · exact ⟨[.error msg], [.disconnect], by simp [Client.report], Or.inr rfl, Or.inr rfl⟩
      · exact ⟨[.error msg], [], by simp [Client.report], Or.inr rfl, Or.inl rfl⟩
    | false =>
      rw [if_neg Bool.false_ne_true]
      split
      · exact ⟨[], [.disconnect], by simp [Client.report], Or.inl rfl, Or.inr rfl⟩
      · exact ⟨[], [], by simp, Or.inl rfl, Or.inl rfl⟩
  cases cb with
  | none => exact hend c
  | some cb =>
    obtain ⟨err, dis, htold, herr, hdis⟩ := hend (c.report (.connectFailed cb))
    refine ⟨err, dis, htold.trans ?_, herr, hdis⟩
    show (c.reported ++ [ClientReport.connectFailed cb]) ++ (err ++ dis) = _
    rw [append_assoc]
    rfl

/-- connect_cb where it was not called yet, then error_cb and disconnect_cb where they are set. -/
theorem fail_told (env : ClientEnv) (c : Client) (msg : String) :
    ∃ err dis, (c.fail env msg).reported = c.reported ++
        .failed msg :: ((c.connectCb.map .connectFailed).toList ++ (err ++ dis)) ∧
      (err = [] ∨ err = [ClientReport.error msg]) ∧
      (dis = [] ∨ dis = [ClientReport.disconnect]) := by
  have hface : ∃ a b, (if (c.report (.failed msg)).connecting then
      (c.report (.failed msg)).connectCleanupOnFail else c.report (.failed msg)).face =
      (a, b, c.connectCb, c.reported ++ [ClientReport.failed msg]) := by
    split
    · exact ⟨_, _, connectCleanupOnFail_face _⟩
    · exact ⟨_, _, rfl⟩
  unfold Client.fail
  dsimp only
  generalize (if (c.report (.failed msg)).connecting then
    (c.report (.failed msg)).connectCleanupOnFail else c.report (.failed msg)) = b at hface ⊢
  obtain ⟨_, _, hface⟩ := hface
  simp only [Client.face, Prod.mk.injEq] at hface
  obtain ⟨-, -, hcb, hlog⟩ := hface
  have hsame (d : Client) : (d.scheduleReconnect env).reported = d.reported := by
    unfold Client.scheduleReconnect
    split
    · split <;> rfl
    · rfl
  obtain ⟨err, dis, htold, hrest⟩ := tellFailure_told
    (Client.scheduleReconnect env
      { b with connected := false, connecting := false, connectCb := none }) b.connectCb msg
  refine ⟨err, dis, ?_, hrest⟩
  rw [htold, hsame, hcb]
  show b.reported ++ _ = _
  rw [hlog, append_assoc]
  rfl

/- The connection has not failed; `owed` is the connect callback that is still to be called. -/
structure OpenLog (cb : Option ℕ) (connecting : Bool) (owed : Option ℕ)
    (log : List ClientReport) : Prop where
  going : ∀ r ∈ log, r.isFailed = false ∧ r.isError = false ∧ r.isDisconnect = false
  answered : log.filterMap ClientReport.answers = if connecting then [] else cb.toList
  owes : owed = if connecting then cb else none

variable {connecting : Bool} {owed : Option ℕ} {log new : List ClientReport}

theorem OpenLog.counts (h : OpenLog cb connecting owed log) :
    log.countP ClientReport.isFailed = 0 ∧ log.countP ClientReport.isError = 0 ∧
      log.countP ClientReport.isDisconnect = 0 :=
  ⟨countP_eq_zero.mpr fun r hr => by simp [(h.going r hr).1],
    countP_eq_zero.mpr fun r hr => by simp [(h.going r hr).2.1],
    countP_eq_zero.mpr fun r hr => by simp [(h.going r hr).2.2]⟩

theorem OpenLog.told (h : OpenLog cb connecting owed log) : ToldOnce cb connecting log where
  failed := by
    rw [h.counts.1]
    exact Nat.zero_le 1
  answered := h.answered
  errors := by
    rw [h.counts.2.1]
    exact Nat.zero_le 1
  disconnects := by
    rw [h.counts.2.2]
    exact Nat.zero_le 1
  silent front msg back hlog := by
    have hmem : ClientReport.failed msg ∈ log := by
      rw [hlog]
      simp
    exact absurd (h.going _ hmem).1 (by simp [ClientReport.isFailed])

theorem small_going {r : ClientReport} (h : r.small = true) :
    (r.isFailed = false ∧ r.isError = false ∧ r.isDisconnect = false) ∧ r.answers = none := by
  cases r with
  | message _ _ _ _ => exact ⟨⟨rfl, rfl, rfl⟩, rfl⟩
  | suback _ _ => exact ⟨⟨rfl, rfl, rfl⟩, rfl⟩
  | called _ => exact ⟨⟨rfl, rfl, rfl⟩, rfl⟩
  | _ => exact absurd h Bool.false_ne_true

theorem OpenLog.small (h : OpenLog cb connecting owed log) (hnew : ∀ r ∈ new, r.small = true) :
    OpenLog cb connecting owed (log ++ new) where
  going r hr := by
    rcases mem_append.mp hr with hr | hr
    · exact h.going r hr
    · exact (small_going (hnew r hr)).1
  answered := by
    have hnone : new.filterMap ClientReport.answers = [] :=
      filterMap_eq_nil_iff.mpr fun r hr => (small_going (hnew r hr)).2
    rw [filterMap_append, hnone, append_nil]
    exact h.answered
  owes := h.owes

theorem OpenLog.connect (h : OpenLog cb true owed log) (code : ℕ) :
    OpenLog cb false none (log ++ (owed.map (ClientReport.connect · code)).toList) where
  going r hr := by
    rcases mem_append.mp hr with hr | hr
    · exact h.going r hr
    · obtain ⟨a, -, rfl⟩ := Option.map_eq_some_iff.mp (Option.mem_toList.mp hr)
      exact ⟨rfl, rfl, rfl⟩
  answered := by
    rw [filterMap_append, h.answered, h.owes]
    cases cb <;> rfl
  owes := rfl

theorem behind_failed {rest front back : List ClientReport} {msg msg' : String}
    (hlog : ∀ r ∈ log, r.isFailed = false)
    (h : log ++ .failed msg :: rest = front ++ .failed msg' :: back) : ∀ r ∈ back, r ∈ rest := by
  intro r hr
  rcases append_eq_append_iff.mp h with ⟨mid, hfront, hmid⟩ | ⟨mid, hmid, hback⟩
  · cases mid with
    | nil =>
      obtain ⟨-, rfl⟩ := List.cons.inj hmid
      exact hr
    | cons a mid =>
      obtain ⟨-, rfl⟩ := List.cons.inj hmid
      exact mem_append_right mid (mem_cons_of_mem _ hr)
  · cases mid with
    | nil =>
      obtain ⟨-, rfl⟩ := List.cons.inj hback
      exact hr
    | cons a mid =>
      obtain ⟨rfl, -⟩ := List.cons.inj hback
      have hmem : ClientReport.failed msg' ∈ log := by
        rw [hmid]
        simp
      exact absurd (hlog _ hmem) (by simp [ClientReport.isFailed])

theorem OpenLog.fail (h : OpenLog cb connecting owed log) (msg : String)
    {err dis : List ClientReport} (herr : err = [] ∨ err = [ClientReport.error msg])
    (hdis : dis = [] ∨ dis = [ClientReport.disconnect]) : ToldOnce cb false
      (log ++ .failed msg :: ((owed.map .connectFailed).toList ++ (err ++ dis))) where
  failed := by
    rw [countP_append, h.counts.1]
    rcases herr with rfl | rfl <;> rcases hdis with rfl | rfl <;>
      cases owed <;> simp [countP_cons, ClientReport.isFailed]
  answered := by
    rw [filterMap_append, h.answered, h.owes]
    rcases herr with rfl | rfl <;> rcases hdis with rfl | rfl <;>
      cases connecting <;> cases cb <;> simp [filterMap_cons, ClientReport.answers]
  errors := by
    rw [countP_append, h.counts.2.1]
    rcases herr with rfl | rfl <;> rcases hdis with rfl | rfl <;>
      cases owed <;> simp [countP_cons, ClientReport.isError]
  disconnects := by
    rw [countP_append, h.counts.2.2]
    rcases herr with rfl | rfl <;> rcases hdis with rfl | rfl <;>
      cases owed <;> simp [countP_cons, ClientReport.isDisconnect]
  silent front msg' back hlog call hcall := by
    have hrest := behind_failed (fun r hr => (h.going r hr).1) hlog _ hcall
    rcases herr with rfl | rfl <;> rcases hdis with rfl | rfl <;>
      cases owed <;> simp at hrest

def Client.Tells (cb : Option ℕ) (before : List ClientReport) (c : Client) : Prop :=
  ∃ log, c.reported = before ++ log ∧
    (c.alive ∧ OpenLog cb c.connecting c.connectCb log ∨ ¬ c.alive ∧ ToldOnce cb false log)

variable {s : Session}

theorem Client.Tells.told (h : s.c.Tells cb before) : s.Told cb before := by
  obtain ⟨log, hlog, ⟨-, hopen⟩ | ⟨hdead, htold⟩⟩ := h
  · exact ⟨log, hlog, hopen.told⟩
  · have hc : s.c.connecting = false := by
      unfold Client.alive at hdead
      simpa using (not_or.mp hdead).1
    exact ⟨log, hlog, hc ▸ htold⟩

theorem Client.Chats.alive_iff (h : c.Chats d) : d.alive ↔ c.alive := by
  obtain ⟨new, hd, -⟩ := h
  simp only [Client.face, Prod.mk.injEq] at hd
  unfold Client.alive
  rw [hd.1, hd.2.1]

theorem Client.Tells.chats (h : c.Tells cb before) (ha : c.alive) (hd : c.Chats d) :
    d.Tells cb before := by
  have halive := hd.alive_iff.mpr ha
  obtain ⟨log, hlog, ⟨-, hopen⟩ | ⟨hdead, -⟩⟩ := h
  · obtain ⟨new, hd, hsmall⟩ := hd
    simp only [Client.face, Prod.mk.injEq] at hd
    obtain ⟨hc, -, hcb, hreported⟩ := hd
    refine ⟨log ++ new, by rw [hreported, hlog, append_assoc], Or.inl ⟨halive, ?_⟩⟩
    rw [hc, hcb]
    exact hopen.small hsmall
  · exact absurd ha hdead

theorem Client.Tells.same (h : c.Tells cb before) (hd : d.face = c.face) : d.Tells cb before := by
  simp only [Client.face, Prod.mk.injEq] at hd
  obtain ⟨hc, hconn, hcb, hreported⟩ := hd
  unfold Client.Tells Client.alive
  rw [hc, hconn, hcb, hreported]
  exact h

theorem OpenLog.fails (h : OpenLog cb connecting c.connectCb log)
    (hlog : c.reported = before ++ log) (env : ClientEnv) (msg : String) :
    (c.fail env msg).Tells cb before := by
  have hf := fail_failed env c msg
  obtain ⟨err, dis, htold, herr, hdis⟩ := fail_told env c msg
  refine ⟨_, ?_, Or.inr ⟨not_alive hf.connecting hf.connected, h.fail msg herr hdis⟩⟩
  rw [htold, hlog, append_assoc]

theorem Client.Tells.fail (h : c.Tells cb before) (ha : c.alive) (env : ClientEnv) (msg : String) :
    (c.fail env msg).Tells cb before := by
  obtain ⟨log, hlog, ⟨-, hopen⟩ | ⟨hdead, -⟩⟩ := h
  · exact hopen.fails hlog env msg
  · exact absurd ha hdead

theorem Client.Tells.cleaned_fail (h : c.Tells cb before) (ha : c.alive) (env : ClientEnv)
    (msg : String) : (c.connectCleanupOnFail.fail env msg).Tells cb before := by
  have hface := connectCleanupOnFail_face c
  simp only [Client.face, Prod.mk.injEq] at hface
  obtain ⟨log, hlog, ⟨-, hopen⟩ | ⟨hdead, -⟩⟩ := h
  · exact OpenLog.fails (hface.2.2.1 ▸ hopen) (hface.2.2.2.trans hlog) env msg
  · exact absurd ha hdead

theorem onConnack_tells (h : c.Tells cb before) (ha : c.alive) (present code : UInt8) :
    (c.onConnack env present code).2.Tells cb before := by
  unfold Client.onConnack
  split
  · exact h
  · next hc =>
    have hc : c.connecting = true := not_not.mp hc
    obtain ⟨log, hlog, ⟨-, hopen⟩ | ⟨hdead, -⟩⟩ := h
    · rw [hc] at hopen
      have hanswered := hopen.connect code.toNat
      -- `d` is the client that has called connect_cb
      have hgo (d : Client) (hface : d.face = (false, decide (code = 0), none,
          before ++ (log ++ (c.connectCb.map (ClientReport.connect · code.toNat)).toList))) :
          (if code ≠ 0 then ((0 : ℤ), d.fail env "connack refused")
            else
              let c := { d with
                pingTimer := if d.keepaliveSec > 0 then env.timerStart else d.pingTimer
                reconnectAttempts := 0
                currentReconnectDelayMs := d.initialReconnectDelayMs }
              (0, if present = 0 then c.subscriptions.foldl (Client.resubscribe env) c
                else c)).2.Tells cb before := by
        simp only [Client.face, Prod.mk.injEq] at hface
        obtain ⟨hd1, hd2, hd3, hd4⟩ := hface
        rw [← hd3] at hanswered
        split
        · exact hanswered.fails hd4 env _
        · next hzero =>
          have hlive : d.alive := Or.inr (by rw [hd2]; simpa using hzero)
          have hd5 : d.Tells cb before := ⟨_, hd4, Or.inl ⟨hlive, hd1 ▸ hanswered⟩⟩
          dsimp only
          split
          · exact hd5.same (resubscribeAll_face _ _)
          · exact hd5.same rfl
      cases hcb : c.connectCb with
      | none => exact hgo _ (by simp [Client.face, hlog, hcb])
      | some cb' => exact hgo _ (by simp [Client.face, Client.report, hlog, hcb])
    · exact absurd ha hdead

/- What the client may be called for: not on_error, and nothing that is set once it has failed. -/
def Client.hears (env : ClientEnv) (c : Client) (call : Call) : Bool :=
  call.target ≠ .onError ∧ (c.alive ∨ (clientCallbacks env).installed call.target = false)

theorem quiet_unset {p : Parser} {call : Call} (hq : p.quiet env = true)
    (hc : p.type.makes call = true) (hlong : p.type = .connack → 2 ≤ p.buf.length) :
    (clientCallbacks env).installed call.target = false := by
  unfold Parser.quiet at hq
  cases ht : p.type with
  | connack =>
    rw [ht] at hq
    have hshort : p.buf.length < 2 := by simpa using hq
    have := hlong ht
    omega
  | connect => cases call <;> simp_all [PacketType.makes, clientCallbacks, Call.target]
  | subscribe => cases call <;> simp_all [PacketType.makes, clientCallbacks, Call.target]
  | unsubscribe => cases call <;> simp_all [PacketType.makes, clientCallbacks, Call.target]
  | pingreq => cases call <;> simp_all [PacketType.makes, clientCallbacks, Call.target]
  | pingresp => cases call <;> simp_all [PacketType.makes, clientCallbacks, Call.target]
  | disconnect => cases call <;> simp_all [PacketType.makes, clientCallbacks, Call.target]
  | _ => simp [ht] at hq

theorem heard_filters (env : ClientEnv) (p : Parser) (u : Client) (call : Call)
    (ht : p.type = .subscribe ∨ p.type = .unsubscribe) (hc : p.type.makes call = true)
    (h : Heard env p u) : Heard env p (invoke (clientCallbacks env) u call).2 := by
  have hunset : (clientCallbacks env).installed call.target = false := by
    rcases ht with ht | ht <;>
      cases call <;> simp_all [PacketType.makes, clientCallbacks, Call.target]
  unfold invoke
  rw [if_neg (by rw [hunset]; exact Bool.false_ne_true)]
  exact h

theorem admits_client (env : ClientEnv) :
    AdmitsFor (clientCallbacks env) (Heard env) (Client.hears env) where
  calls p u call hc h := by
    have herror : call.target ≠ .onError := by
      cases call with
      | error msg => exact absurd hc.1 (by simp [PacketType.makes])
      | _ => simp [Call.target]
    refine decide_eq_true ⟨herror, ?_⟩
    rcases h with halive | hquiet
    · exact Or.inl halive
    · exact Or.inr (quiet_unset hquiet hc.1 hc.2)
  filters := heard_filters env

theorem steadfast_client (env : ClientEnv) : Steadfast (clientCallbacks env) (Heard env) where
  fails _ _ _ h hne := h.imp_left (call_fails hne).alive_iff.mpr
  filters := heard_filters env

theorem bodyFails_alive (h : BodyFails (clientCallbacks env) env.alloc (Heard env) c) :
    c.alive := by
  obtain ⟨p, u, hbody, hbad, hheard⟩ := h
  refine hheard.resolve_right fun hquiet => ?_
  have hunset (call : Call) (hc : p.type.makes call = true) (hne : p.type ≠ .connack) :
      (clientCallbacks env).installed call.target = false :=
    quiet_unset hquiet hc fun ht => absurd ht hne
  have haccepted (hne : p.type ≠ .connack) (hok : (dispatch unheard env.alloc p ()).ok = true) :
      False := by
    rw [dispatch_unset (fun call hc => hunset call hc hne) u, hok] at hbad
    exact Bool.false_ne_true hbad.symm
  unfold Parser.quiet at hquiet
  unfold bodyFaultless at hbody
  cases ht : p.type with
  | pingreq => simp [ht] at hbody
  | pingresp => simp [ht] at hbody
  | disconnect => simp [ht] at hbody
  | connack =>
    rw [ht] at hquiet
    have hshort : p.buf.length < 2 := by simpa using hquiet
    unfold dispatch at hbad
    rw [ht] at hbad
    dsimp only at hbad
    unfold parseConnack at hbad
    rw [if_pos hshort] at hbad
    exact Bool.false_ne_true hbad.symm
  | connect =>
    rw [ht] at hquiet
    exact haccepted (by simp [ht]) hquiet
  | subscribe =>
    rw [ht] at hquiet
    exact haccepted (by simp [ht]) hquiet
  | unsubscribe =>
    rw [ht] at hquiet
    exact haccepted (by simp [ht]) hquiet
  | _ => simp [ht] at hquiet

theorem only_tells (h : c.Tells cb before) (call : Call) :
    (invoke ((clientCallbacks env).only (Client.hears env)) c call).2.Tells cb before := by
  unfold invoke Callbacks.only
  dsimp only
  split
  · next hset =>
    split
    · next hears =>
      obtain ⟨herror, hlive⟩ := of_decide_eq_true hears
      have ha : c.alive := hlive.resolve_right (by rw [hset]; simp)
      by_cases hconnack : call.target = .onConnack
      · cases call with
        | connack present code =>
          have hcalled : c.Chats (c.report (.called (.connack present code))) :=
            chats_report rfl c
          exact onConnack_tells (h.chats ha hcalled) (hcalled.alive_iff.mpr ha) present code
        | _ => exact absurd hconnack (by simp [Call.target])
      · exact h.chats ha (call_chats c hconnack herror)
    · exact h
  · exact h

theorem read_tells (h : s.c.Tells cb before) {data : Bytes} (hmild : s.Mild env (.read data)) :
    (s.feedParserOrFail env data).c.Tells cb before := by
  obtain ⟨hstate, hproper⟩ := hmild
  have hkeep : (execute (clientCallbacks env) env.alloc s.p s.c data).u.Tells cb before := by
    rw [execute_onlyFor (admits_client env) hproper]
    exact execute_keeps (P := Client.Tells cb before) (fun u call hu => only_tells hu call) h data
  have hfails := execute_fails (steadfast_client env) hstate hproper
  unfold Session.feedParserOrFail
  dsimp only
  split
  · next hret => exact hkeep.fail (bodyFails_alive (hfails hret)) env _
  · exact hkeep

theorem transport_face (c : Client) (t : Transport) : ({ c with transport := t }).face = c.face :=
  rfl

theorem dns_tells (h : c.Tells cb before) (found : Bool) : (c.dnsCb env found).Tells cb before := by
  have hidle : ({ c with transport := .idle } : Client).Tells cb before :=
    h.same (transport_face c .idle)
  unfold Client.dnsCb
  dsimp only
  split
  · exact hidle
  · next hc =>
    have ha : ({ c with transport := .idle } : Client).alive := Or.inl (not_not.mp hc)
    split
    · exact hidle.fail ha env _
    · split
      · exact h.same (transport_face c .connecting)
      · exact hidle.fail ha env _

theorem tcp_tells (h : c.Tells cb before) (established : Bool) :
    (c.tcpConnectCb env established).Tells cb before := by
  have hidle : ({ c with transport := .idle } : Client).Tells cb before :=
    h.same (transport_face c .idle)
  unfold Client.tcpConnectCb
  dsimp only
  split
  · exact hidle
  · next hc =>
    have ha : ({ c with transport := .idle } : Client).alive := Or.inl (not_not.mp hc)
    split
    · exact hidle.cleaned_fail ha env _
    · -- `d` is the client that has sent the CONNECT
      have hgo (d : Client) (hface : d.face = ({ c with transport := .idle } : Client).face) :
          (if env.readStart then { d with transport := .reading }
            else d.connectCleanupOnFail.fail env "tcp read_start failed").Tells cb before := by
        have hd : d.Tells cb before := hidle.same hface
        simp only [Client.face, Prod.mk.injEq] at hface
        split
        · exact hd.same (transport_face d .reading)
        · exact hd.cleaned_fail (Or.inl (hface.1.trans (not_not.mp hc))) env _
      exact hgo _ (sendConnect_face env { c with transport := .idle })

theorem occur_tells {t : Session} {e : Occurrence} (h : s.c.Tells cb before) (hmild : s.Mild env e)
    (ht : s.occur env e = some t) : t.c.Tells cb before := by
  unfold Session.occur at ht
  split at ht
  · obtain rfl := Option.some.inj ht
    cases e with
    | dns found => exact dns_tells h found
    | tcp established => exact tcp_tells h established
    | read data => exact read_tells h hmild
    | written => exact h.same (writeDone_face s.c)
    | closed failed => exact h.fail hmild env _
  · simp at ht

theorem prepareConnect_face {o : ConnectOptions} {n : ℕ} (h : c.prepareConnect env o n = .ok d) :
    d.face = c.face := by
  unfold Client.prepareConnect at h
  dsimp only at h
  split at h
  · simp at h
  · obtain rfl := Except.ok.inj h
    rfl

theorem ok_of_ite {ε α : Type*} {p : Prop} [Decidable p] {a : ε} {r : Except ε α} {x : α}
    (h : (if p then .error a else r) = .ok x) : ¬ p ∧ r = .ok x := by
  split at h
  · simp at h
  · next hp => exact ⟨hp, h⟩

theorem beginConnect_face {host : Bytes} {port : ℕ} {o o' : ConnectOptions}
    (h : c.beginConnect env host port o o' cb = .ok d) :
    d.face = (true, false, cb, c.reported) := by
  obtain ⟨hidle, h⟩ := ok_of_ite h
  have hconn : c.connected = false := by simpa using (not_or.mp hidle).1
  obtain ⟨-, h⟩ := ok_of_ite h
  obtain ⟨-, h⟩ := ok_of_ite h
  obtain ⟨-, h⟩ := ok_of_ite h
  rw [prepareConnect_face h]
  show (true, c.connected, cb, c.reported) = _
  rw [hconn]

theorem startTransport_face {host : Bytes} : (c.startTransport env host).1 = true →
    (c.startTransport env host).2.face = c.face := by
  unfold Client.startTransport
  split
  · split
    · exact fun _ => rfl
    · exact fun h => absurd h Bool.false_ne_true
  · split
    · exact fun _ => rfl
    · exact fun h => absurd h Bool.false_ne_true

theorem connect_tells {host : Bytes} {port : ℕ} {o o' : ConnectOptions}
    (h : (s.connect env host port o o' cb).1 = true) :
    (s.connect env host port o o' cb).2.c.Tells cb s.c.reported := by
  unfold Session.connect at h ⊢
  cases hb : s.c.beginConnect env host port o o' cb with
  | error d => simp [hb] at h
  | ok d =>
    rw [hb] at h
    have hface := beginConnect_face hb
    have hstart := startTransport_face h
    rw [hface] at hstart
    simp only [Client.face, Prod.mk.injEq] at hstart
    obtain ⟨hc, -, hcb, hlog⟩ := hstart
    refine ⟨[], by rw [append_nil]; exact hlog, Or.inl ⟨Or.inl hc, ?_⟩⟩
    rw [hc, hcb]
    exact ⟨fun _ hr => absurd hr not_mem_nil, rfl, rfl⟩

/-- As long as the failures are mild the application is told once of each thing. -/
theorem failures_told_once (env : ClientEnv) (s : Session) (host : Bytes) (port : ℕ)
    (o o' : ConnectOptions) (cb : Option ℕ) (es : List Occurrence)
    (hcall : (s.connect env host port o o' cb).1 = true)
    (hg : Guarded (Session.occur env) (Session.Mild env) (s.connect env host port o o' cb).2 es) :
    Along (Session.occur env) (Session.Told cb s.c.reported) (s.connect env host port o o' cb).2
      es :=
  along_mono (fun _ h => h.told)
    (along_of_guarded (I := fun t => t.c.Tells cb s.c.reported)
      (fun _ _ _ h hmild ht => occur_tells h hmild ht) (connect_tells hcall) hg)

def sampleOccurrences : List Occurrence :=
  [.tcp true, .written, .read [0x20, 0x02, 0x00, 0x00], .read [0x30, 0x03, 0x00],
    .read [0x01, 0x74, 0xD0, 0x00], .closed false]

def sampleOptions : ConnectOptions := { clientId := ⟨lit "c", 0⟩ }

theorem sample_told_once : Along (Session.occur ample) (Session.Told (some 1) [])
    ((createSession ample.alloc).connect ample (lit "h") 1883 sampleOptions sampleOptions
      (some 1)).2 sampleOccurrences :=
  failures_told_once ample (createSession ample.alloc) _ _ _ _ _ _ (by decide +kernel)
    (by decide +kernel)

/-- An AUTH packet fails a connection twice: on_error fails it, and so does the read. -/
theorem reported_fault_fails_twice :
    ¬ ∀ (env : ClientEnv) (s : Session) (host : Bytes) (port : ℕ) (o : ConnectOptions)
      (cb : Option ℕ) (es : List Occurrence) (t : Session),
      (s.connect env host port o o cb).1 = true →
      exec (Session.occur env) (s.connect env host port o o cb).2 es = some t →
      t.Told cb s.c.reported := by
  intro hall
  have hrun : ((exec (Session.occur ample)
      ((createSession ample.alloc).connect ample (lit "h") 1883 sampleOptions sampleOptions
        (some 1)).2 [.tcp true, .read [0xF0]]).map
      fun t => t.c.reported.countP ClientReport.isFailed) = some 2 := by decide +kernel
  obtain ⟨t, ht, hcount⟩ := Option.map_eq_some_iff.mp hrun
  obtain ⟨log, hlog, htold⟩ := hall ample (createSession ample.alloc) _ _ _ _ _ t
    (by decide +kernel) ht
  have hle := htold.failed
  rw [show t.c.reported = log from hlog] at hcount
  omega

end Voxlib.Mqtt
