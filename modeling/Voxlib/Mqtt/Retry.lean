import Voxlib.Mqtt.Buffers

/-!
# The retry timer of the MQTT client (vox_mqtt_client.c)
-/

namespace Voxlib.Mqtt
open CStr Run

variable {env : ClientEnv} {c d : Client}

/-- The timer runs while a message waits for its acknowledgement. -/
def Client.TimerRuns (c : Client) : Prop :=
  c.pendingQos1 ≠ [] ∨ c.pendingQos2Out ≠ [] → c.qosRetryTimer = true

theorem stopIfIdle_runs (h : c.TimerRuns) : c.stopIfIdle.TimerRuns := by
  unfold Client.stopIfIdle
  split
  · next hidle =>
    intro hpending
    exact absurd hpending (by simp [hidle.1, hidle.2])
  · exact h

theorem runs_of_timer (h : c.qosRetryTimer = true) : c.TimerRuns := fun _ => h

theorem qosRetryTimerCb_runs (h : c.TimerRuns) (ht : c.qosRetryTimer = true) :
    (c.qosRetryTimerCb env).TimerRuns := by
  unfold Client.qosRetryTimerCb
  split
  · exact h
  · have h1 : c.SameLists (Client.retryQos1 env c.pendingQos1 c).2 := retryQos1_sameLists _ c
    dsimp only
    generalize Client.retryQos1 env c.pendingQos1 c = r1 at h1 ⊢
    let d : Client := { r1.2 with pendingQos1 := r1.1 }
    have h2 : d.SameLists (Client.retryQos2 env d.pendingQos2Out d).2 := retryQos2_sameLists _ d
    have htimer : d.qosRetryTimer = true := h1.timer.trans ht
    exact stopIfIdle_runs (runs_of_timer (h2.timer.trans htimer))

theorem onPuback_lists (c : Client) (packetId : ℕ) :
    (c.onPuback packetId).2.pendingQos1 = c.pendingQos1.eraseP (fun p => p.packetId = packetId) ∧
      (c.onPuback packetId).2.pendingQos2Out = c.pendingQos2Out ∧
      ((c.onPuback packetId).2.qosRetryTimer = true ↔
        c.qosRetryTimer = true ∧ c.pendingQos1.eraseP (fun p => p.packetId = packetId) ≠ []) := by
  have hstop (d : Client) (l : List PendingQos1) (hl : d.pendingQos1 = l) :
      let e := if d.pendingQos1 = [] then { d with qosRetryTimer := false } else d
      e.pendingQos1 = l ∧ e.pendingQos2Out = d.pendingQos2Out ∧
        (e.qosRetryTimer = true ↔ d.qosRetryTimer = true ∧ l ≠ []) := by
    subst hl
    dsimp only
    split
    · next hnil => simp [hnil]
    · next hne => simp [hne]
  unfold Client.onPuback
  dsimp only
  cases hp : c.pendingQos1.find? fun p => p.packetId = packetId with
  | none =>
    have hsame : c.pendingQos1.eraseP (fun p => p.packetId = packetId) = c.pendingQos1 :=
      List.eraseP_of_forall_not fun p hmem => List.find?_eq_none.mp hp p hmem
    rw [hsame]
    exact hstop c c.pendingQos1 rfl
  | some p => exact hstop _ _ rfl

theorem onPubcomp_runs (h : c.TimerRuns) (packetId : ℕ) : (c.onPubcomp packetId).2.TimerRuns := by
  unfold Client.onPubcomp
  dsimp only
  refine stopIfIdle_runs ?_
  cases hp : c.pendingQos2Out.find? fun p => p.packetId = packetId with
  | none => exact h
  | some p =>
    have hne : c.pendingQos2Out ≠ [] := List.ne_nil_of_mem (List.mem_of_find?_eq_some hp)
    exact runs_of_timer (h (Or.inr hne))

theorem receivePubrec_nil {packetId now : ℕ} {ps : List PendingQos2Out} :
    receivePubrec packetId now ps = [] ↔ ps = [] := by
  cases ps with
  | nil => simp [receivePubrec]
  | cons p ps =>
    unfold receivePubrec
    split
    · simp
    · simp

theorem onPubrec_runs (h : c.TimerRuns) (packetId : ℕ) : (c.onPubrec env packetId).2.TimerRuns := by
  unfold Client.onPubrec
  split
  · let d : Client := { c with pendingQos2Out := receivePubrec packetId c.now c.pendingQos2Out }
    have hsame : d.SameLists (d.trySend env (encodePubrel · (UInt16.ofNat packetId))) :=
      trySend_sameLists d _
    intro hpending
    refine hsame.timer.trans (h ?_)
    rw [hsame.qos1, hsame.qos2] at hpending
    exact hpending.imp_right (mt receivePubrec_nil.mpr)
  · exact h

theorem publish_sent {topic payload : Bytes} {qos : ℕ} {retain : Bool}
    (hsent : (c.publish env topic payload qos retain).1 = true) :
    qos ≤ 2 ∧ ∃ (c' d : Client) (b : BufId) (packetId : ℕ), c.SameLists c' ∧
      c'.keep env b qos packetId = some d ∧
      d.SameLists (c.publish env topic payload qos retain).2 := by
  unfold Client.publish at hsent ⊢
  split at hsent
  · exact absurd hsent Bool.false_ne_true
  · next hconn =>
    rw [if_neg hconn]
    split at hsent
    · exact absurd hsent Bool.false_ne_true
    · next hqos =>
      rw [if_neg hqos]
      refine ⟨not_lt.mp hqos, ?_⟩
      have hid : c.SameLists (if qos > 0 then c.takeId else c) := by
        split
        · exact ⟨rfl, rfl, rfl⟩
        · exact Client.SameLists.refl c
      dsimp only at hsent ⊢
      generalize (if qos > 0 then c.takeId else c) = c₁ at hid hsent ⊢
      generalize (if qos > 0 then c₁.nextPacketId else 0 : UInt16) = id at hsent ⊢
      split at hsent
      · exact absurd hsent Bool.false_ne_true
      · next hsize =>
        rw [if_neg hsize]
        split at hsent
        · exact absurd hsent Bool.false_ne_true
        · next halloc =>
          rw [if_neg halloc]
          generalize hr : c₁.newBuf (encoded _) = r at hsent ⊢
          have hnew : c₁.SameLists r.2 := by
            rw [← hr]
            exact ⟨rfl, rfl, rfl⟩
          cases hk : r.2.keep env r.1 qos id.toNat with
          | none =>
            rw [hk] at hsent
            exact absurd hsent Bool.false_ne_true
          | some d =>
            rw [hk] at hsent
            dsimp only at hsent ⊢
            split at hsent
            · next hs =>
              rw [if_pos hs]
              exact ⟨r.2, d, r.1, id.toNat, hid.trans hnew, hk, sendBuf_sameLists d r.1⟩
            · exact absurd hsent Bool.false_ne_true

def Activity.succeeds (env : ClientEnv) (c : Client) : Activity → Prop
  | .publish topic payload qos retain => (c.publish env topic payload qos retain).1 = true
  | _ => True

instance (env : ClientEnv) (c : Client) : ∀ a, Decidable (Activity.succeeds env c a)
  | .publish topic payload qos retain =>
    inferInstanceAs (Decidable ((c.publish env topic payload qos retain).1 = true))
  | .writeDone => .isTrue trivial
  | .retry => .isTrue trivial
  | .puback _ => .isTrue trivial
  | .pubrec _ => .isTrue trivial
  | .pubcomp _ => .isTrue trivial
  | .wait _ => .isTrue trivial

def Client.advance (env : ClientEnv) (c : Client) (a : Activity) : Option Client :=
  if a.succeeds env c then c.step env a else none

/-- A QoS 1 message is left when one is acknowledged while a QoS 2 message is pending; and the
timer can be started when it has to be. -/
def Activity.timed (env : ClientEnv) (c : Client) : Activity → Prop
  | .publish _ _ qos _ => qos = 0 ∨ c.qosRetryTimer = true ∨ env.timerStart = true
  | .puback packetId =>
    c.pendingQos2Out ≠ [] → c.pendingQos1.eraseP (fun p => p.packetId = packetId) ≠ []
  | _ => True

instance (env : ClientEnv) (c : Client) : ∀ a, Decidable (Activity.timed env c a)
  | .publish _ _ qos _ =>
    inferInstanceAs (Decidable (qos = 0 ∨ c.qosRetryTimer = true ∨ env.timerStart = true))
  | .puback packetId =>
    inferInstanceAs (Decidable (c.pendingQos2Out ≠ [] →
      c.pendingQos1.eraseP (fun p => p.packetId = packetId) ≠ []))
  | .writeDone => .isTrue trivial
  | .retry => .isTrue trivial
  | .pubrec _ => .isTrue trivial
  | .pubcomp _ => .isTrue trivial
  | .wait _ => .isTrue trivial

theorem publish_runs_iff (h : c.TimerRuns) {topic payload : Bytes} {qos : ℕ} {retain : Bool}
    (hsent : (c.publish env topic payload qos retain).1 = true) :
    (c.publish env topic payload qos retain).2.TimerRuns ↔
      qos = 0 ∨ c.qosRetryTimer = true ∨ env.timerStart = true := by
  obtain ⟨hqos, c', d, b, packetId, hsame, hkeep, hlast⟩ := publish_sent hsent
  unfold Client.TimerRuns
  rw [hlast.qos1, hlast.qos2, hlast.timer]
  unfold Client.keep at hkeep
  by_cases hzero : qos = 0
  · subst hzero
    simp only [Nat.zero_ne_one, if_false, OfNat.zero_ne_ofNat, Option.some.injEq] at hkeep
    subst hkeep
    rw [hsame.qos1, hsame.qos2, hsame.timer]
    exact iff_of_true h (Or.inl rfl)
  · have htimer : c'.qosRetryTimer = c.qosRetryTimer := hsame.timer
    rcases show qos = 1 ∨ qos = 2 by omega with rfl | rfl
    · simp only [if_true] at hkeep
      split at hkeep
      · obtain rfl := Option.some.inj hkeep
        simp [Client.startRetryTimer, htimer]
      · simp at hkeep
    · simp only [OfNat.ofNat_ne_one, if_false, if_true] at hkeep
      split at hkeep
      · obtain rfl := Option.some.inj hkeep
        simp [Client.startRetryTimer, htimer]
      · simp at hkeep

theorem onPuback_runs_iff (h : c.TimerRuns) (packetId : ℕ) : (c.onPuback packetId).2.TimerRuns ↔
      (c.pendingQos2Out ≠ [] → c.pendingQos1.eraseP (fun p => p.packetId = packetId) ≠ []) := by
  obtain ⟨hqos1, hqos2, htimer⟩ := onPuback_lists c packetId
  unfold Client.TimerRuns
  rw [hqos1, hqos2, htimer]
  constructor
  · intro hruns hpending
    exact (hruns (Or.inr hpending)).2
  · intro hleft hpending
    have hne : c.pendingQos1.eraseP (fun p => p.packetId = packetId) ≠ [] :=
      hpending.elim id hleft
    have hsome : c.pendingQos1 ≠ [] := by
      intro hnil
      exact hne (by rw [hnil, List.eraseP_nil])
    exact ⟨h (Or.inl hsome), hne⟩

/-- An activity keeps the timer running if and only if it is `timed`. -/
theorem advance_runs_iff (h : c.TimerRuns) {a : Activity} (hd : c.advance env a = some d) :
    d.TimerRuns ↔ a.timed env c := by
  unfold Client.advance at hd
  split at hd
  · next hsucceeds =>
    obtain ⟨hpossible, rfl⟩ := step_cases hd
    cases a with
    | publish topic payload qos retain => exact publish_runs_iff h hsucceeds
    | puback packetId => exact onPuback_runs_iff h packetId
    | pubrec packetId => exact iff_of_true (onPubrec_runs h packetId) trivial
    | pubcomp packetId => exact iff_of_true (onPubcomp_runs h packetId) trivial
    | retry => exact iff_of_true (qosRetryTimerCb_runs h hpossible) trivial
    | wait ms => exact iff_of_true h trivial
    | writeDone =>
      refine iff_of_true ?_ trivial
      show c.writeDone.TimerRuns
      unfold Client.writeDone
      cases c.writeQueue with
      | nil => exact h
      | cons b rest => exact h
  · simp at hd

/-- The retry timer runs in every state of a run if and only if no PUBACK of the last QoS 1
message comes while a QoS 2 message is pending, and the timer can be started for each message. -/
theorem retry_timer_runs (h : c.TimerRuns) (as : List Activity) :
    Along (Client.advance env) Client.TimerRuns c as ↔
      Guarded (Client.advance env) (Activity.timed env) c as :=
  along_iff_guarded (P := Client.TimerRuns) (fun _ h => h)
    (fun _ _ _ h ha hd => (advance_runs_iff h hd).mpr ha)
    (fun _ _ _ h hd hruns => (advance_runs_iff h hd).mp hruns) h

theorem greeting_runs : greeting.TimerRuns := by simp [Client.TimerRuns, greeting]

theorem sample_timer_runs : Along (Client.advance ample) Client.TimerRuns greeting
    [.publish (lit "a") [2] 2 true, .publish (lit "a") [1] 1 false, .pubrec 1, .pubcomp 1,
      .wait 5000, .retry, .puback 2] :=
  (retry_timer_runs greeting_runs _).mpr (by decide +kernel)

/-- The PUBACK of the only QoS 1 message stops the timer that the QoS 2 message needs. -/
theorem puback_stops_retries : ¬ ∀ (c d : Client) (as : List Activity), c.TimerRuns →
      exec (Client.advance ample) c as = some d → d.TimerRuns := by
  intro hall
  have hrun : ((exec (Client.advance ample) greeting [.publish (lit "a") [2] 2 true,
      .publish (lit "a") [1] 1 false, .puback 2]).map fun d =>
        (d.pendingQos2Out.length, d.qosRetryTimer)) = some (1, false) := by decide +kernel
  obtain ⟨d, hd, hlists⟩ := Option.map_eq_some_iff.mp hrun
  obtain ⟨hlen, htimer⟩ := Prod.mk.injEq .. ▸ hlists
  have hne : d.pendingQos2Out ≠ [] := List.ne_nil_of_length_pos (by omega)
  exact Bool.false_ne_true (htimer.symm.trans (hall greeting d _ greeting_runs hd (Or.inr hne)))

end Voxlib.Mqtt
