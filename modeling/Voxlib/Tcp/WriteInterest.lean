import Voxlib.Tcp

/-!
# Pending data keeps the write interest
-/

namespace Voxlib.Tcp
open Run Option

def Armed (t : VoxTcp) : Prop :=
  t.writeQueue ≠ [] → t.backendRegistered = true ∧ t.backendEvents.write = true

structure TcpInv (t : VoxTcp) : Prop where
  unregistered : t.backendRegistered = false → t.backendEvents = Events.none
  opened : t.writeQueue ≠ [] → t.fdValid = true
  armed : Armed t

@[simp] theorem updateBackend_queue (t : VoxTcp) (ev : Events) :
    (updateBackend t ev).writeQueue = t.writeQueue := by
  unfold updateBackend registerBackend
  split
  · split
    · rfl
    · rfl
  · rfl

@[simp] theorem updateBackend_fdValid (t : VoxTcp) (ev : Events) :
    (updateBackend t ev).fdValid = t.fdValid := by
  unfold updateBackend registerBackend
  split
  · split
    · rfl
    · rfl
  · rfl

@[simp] theorem unregisterBackend_queue (t : VoxTcp) :
    (unregisterBackend t).writeQueue = t.writeQueue := by
  unfold unregisterBackend
  split
  · rfl
  · rfl

@[simp] theorem setEvents_queue (t : VoxTcp) (ev : Events) :
    (setEvents t ev).writeQueue = t.writeQueue := by
  unfold setEvents
  split
  · exact unregisterBackend_queue t
  · exact updateBackend_queue t ev

variable {t : VoxTcp}

variable (ev : Events)

theorem updateBackend_open (hfd : t.fdValid = true) :
    (updateBackend t ev).backendRegistered = true ∧ (updateBackend t ev).backendEvents = ev := by
  unfold updateBackend registerBackend
  rw [if_pos hfd]
  split
  · exact ⟨rfl, rfl⟩
  · rename_i hreg
    simp only [Bool.not_eq_true', Bool.not_eq_false] at hreg
    exact ⟨hreg, rfl⟩

theorem inv_of_updated {ev : Events} (hfd : t.fdValid = true)
    (hw : t.writeQueue ≠ [] → ev.write = true) : TcpInv (updateBackend t ev) := by
  obtain ⟨hreg, hev⟩ := updateBackend_open ev hfd
  constructor
  · intro h
    rw [hreg] at h
    cases h
  · intro _
    rw [updateBackend_fdValid]
    exact hfd
  · intro hq
    rw [updateBackend_queue] at hq
    rw [hev]
    exact ⟨hreg, hw hq⟩

theorem inv_of_empty (hempty : t.writeQueue = [])
    (hreg : t.backendRegistered = false → t.backendEvents = Events.none) : TcpInv t := by
  constructor
  · exact hreg
  · intro hq
    exact absurd hempty hq
  · intro hq
    exact absurd hempty hq

theorem unregisterBackend_off (hreg : t.backendRegistered = false → t.backendEvents = Events.none) :
    (unregisterBackend t).backendEvents = Events.none := by
  unfold unregisterBackend
  split
  · rename_i h
    exact hreg (by simpa using h)
  · rfl

theorem updateBackend_inv {ev : Events} (hinv : TcpInv t)
    (hw : t.writeQueue ≠ [] → ev.write = true) : TcpInv (updateBackend t ev) := by
  by_cases hfd : t.fdValid = true
  · exact inv_of_updated hfd hw
  · have hempty : t.writeQueue = [] := by
      by_contra hq
      exact hfd (hinv.opened hq)
    apply inv_of_empty
    · rw [updateBackend_queue]
      exact hempty
    · intro h
      cases hreg : t.backendRegistered with
      | false =>
        simp only [updateBackend, registerBackend, hreg, hfd]
        exact hinv.unregistered hreg
      | true => simp [updateBackend, hreg] at h

theorem setEvents_inv {ev : Events} (hinv : TcpInv t) (hw : t.writeQueue ≠ [] → ev.write = true) :
    TcpInv (setEvents t ev) := by
  unfold setEvents
  split
  · rename_i hnone
    have hempty : t.writeQueue = [] := by
      by_contra hq
      have hwrite := hw hq
      rw [hnone] at hwrite
      cases hwrite
    apply inv_of_empty
    · rw [unregisterBackend_queue]
      exact hempty
    · intro _
      exact unregisterBackend_off hinv.unregistered
  · exact updateBackend_inv hinv hw

theorem readStop_inv (hinv : TcpInv t) : TcpInv (readStop t) := by
  unfold readStop
  split
  · exact hinv
  · apply setEvents_inv
    · exact ⟨hinv.unregistered, hinv.opened, hinv.armed⟩
    · intro hq
      exact (hinv.armed hq).2

theorem readStart_inv (cb : Bool) (hinv : TcpInv t) : TcpInv (readStart t cb).2 := by
  unfold readStart
  split
  · exact hinv
  · split
    · exact hinv
    · apply updateBackend_inv
      · exact ⟨hinv.unregistered, hinv.opened, hinv.armed⟩
      · intro hq
        exact (hinv.armed hq).2

@[simp] theorem call_tcp (s : State) (cb : Bool) : (s.call cb).tcp = s.tcp := by
  unfold State.call
  split
  · rfl
  · rfl

@[simp] theorem callWrite_tcp (s : State) (id : ℕ) (cb : Bool) (status : ℤ) :
    (s.callWrite id cb status).tcp = s.tcp := by
  unfold State.callWrite
  split
  · rfl
  · rfl

theorem registerBackend_inv (hfd : t.fdValid = true) (hempty : t.writeQueue = []) :
    TcpInv (registerBackend t ev) := by
  unfold registerBackend
  rw [if_pos hfd]
  constructor
  · intro h
    cases h
  · intro _
    exact hfd
  · intro hq
    exact absurd hempty hq

variable {s : State}

theorem connect_inv (cb : Bool) (r : Connect) (hinv : TcpInv s.tcp) :
    TcpInv (connect s cb r).2.tcp := by
  unfold connect
  split
  · exact hinv
  · rename_i hfd
    have hempty : s.tcp.writeQueue = [] := by
      by_contra hq
      exact hfd (hinv.opened hq)
    split
    · exact hinv
    · cases r with
      | noSocket => exact hinv
      | refused => exact ⟨hinv.unregistered, hinv.opened, hinv.armed⟩
      | inProgress =>
        exact registerBackend_inv (t := { s.tcp with fdValid := true, connectCb := cb }) _ rfl
          hempty
      | immediate =>
        dsimp only
        rw [call_tcp]
        exact registerBackend_inv (t := { s.tcp with
          fdValid := true, connectCb := cb, connected := true }) _ rfl hempty

theorem write_inv (buf : List UInt8) (cb : Bool) (r : Send) (hinv : TcpInv s.tcp) :
    TcpInv (write s buf cb r).2.tcp := by
  unfold write
  split
  · exact hinv
  · split
    · exact hinv
    · rename_i hfd
      simp only [Bool.not_eq_true', Bool.not_eq_false] at hfd
      split
      · exact hinv
      · split
        · rename_i hq
          unfold writeQueued
          dsimp only
          split
          · exact inv_of_updated hfd (fun _ => rfl)
          · rename_i hw
            simp only [Bool.not_eq_true', Bool.not_eq_false] at hw
            exact ⟨hinv.unregistered, fun _ => hfd, fun _ => ⟨(hinv.armed hq).1, hw⟩⟩
        · unfold writeDirect
          dsimp only
          split
          · rw [callWrite_tcp]
            exact hinv
          · exact inv_of_updated hfd (fun _ => rfl)

theorem hangupPart_inv (hangup : Bool) (hinv : TcpInv s.tcp) :
    TcpInv (hangupPart s hangup).tcp := by
  unfold hangupPart
  split
  · split
    · rw [call_tcp]
      exact hinv
    · exact readStop_inv hinv
  · exact hinv

theorem endQueue_inv (hangup : Bool) (hinv : TcpInv s.tcp) : TcpInv (endQueue s hangup).tcp := by
  unfold endQueue
  apply hangupPart_inv
  dsimp only
  split
  · rename_i hempty
    split
    · apply setEvents_inv hinv
      intro hq
      exact absurd hempty hq
    · exact hinv
  · exact hinv

theorem startQueue_inv (hangup : Bool) (hinv : TcpInv s.tcp) :
    TcpInv (startQueue s hangup).tcp := by
  unfold startQueue
  split
  · exact hangupPart_inv hangup hinv
  · exact hinv

theorem writePart_inv (hinv : TcpInv s.tcp) : TcpInv (writePart s ev).tcp := by
  unfold writePart
  split
  · exact startQueue_inv ev.hangup hinv
  · exact hangupPart_inv ev.hangup hinv

theorem readPart_inv (r : Recv) (hinv : TcpInv s.tcp) : TcpInv (readPart s ev r).tcp := by
  unfold readPart
  split
  · cases r with
    | noBuffer => exact writePart_inv ev hinv
    | data =>
      dsimp only
      rw [call_tcp]
      exact hinv
    | eof =>
      dsimp only
      rw [call_tcp]
      exact hinv
    | error =>
      dsimp only
      rw [call_tcp]
      exact hinv
    | wouldBlock => exact hinv
  · exact writePart_inv ev hinv

theorem eventCb_inv (soError : Bool) (r : Recv) (hinv : TcpInv s.tcp) :
    TcpInv (eventCb s ev soError r).tcp := by
  unfold eventCb
  split
  · split
    · rw [call_tcp]
      exact hinv
    · exact hinv
  · split
    · split
      · rw [call_tcp]
        exact ⟨hinv.unregistered, hinv.opened, hinv.armed⟩
      · rw [call_tcp]
        exact ⟨hinv.unregistered, hinv.opened, hinv.armed⟩
    · exact readPart_inv ev r hinv

theorem inv_of_queue {q : List WriteReq} (hinv : TcpInv t) (hq : q ≠ [] → t.writeQueue ≠ []) :
    TcpInv { t with writeQueue := q } := by
  constructor
  · exact hinv.unregistered
  · intro h
    exact hinv.opened (hq h)
  · intro h
    exact hinv.armed (hq h)

theorem queueRound_inv {t : State} {hangup : Bool} {id : ℕ} {r : Send} (hinv : TcpInv s.tcp)
    (h : queueRound s hangup id r = some t) : TcpInv t.tcp := by
  unfold queueRound at h
  dsimp only at h
  split at h
  · cases h
  · rename_i req rest hq
    have hne : s.tcp.writeQueue ≠ [] := by
      intro hnil
      simp [hnil] at hq
    have hdone : ∀ (u : State) (status : ℤ), u.tcp = s.tcp →
        TcpInv (completeReq u hangup req rest status).tcp := by
      intro u status hu
      unfold completeReq
      rw [callWrite_tcp, hu]
      exact inv_of_queue hinv (fun _ => hne)
    split at h
    · rw [← some.inj h]
      exact hdone s 0 rfl
    · cases r with
      | wouldBlock =>
        rw [← some.inj h]
        exact endQueue_inv hangup hinv
      | error =>
        rw [← some.inj h]
        exact hdone s (-1) rfl
      | accepts n =>
        dsimp only at h
        split at h
        · split at h
          · rw [← some.inj h]
            exact hdone _ 0 rfl
          · rw [← some.inj h]
            apply endQueue_inv
            exact inv_of_queue hinv (fun _ => hne)
        · cases h

theorem connectDone_queue (t : VoxTcp) : (connectDone t).writeQueue = t.writeQueue := by
  unfold connectDone
  split
  · exact setEvents_queue t _
  · rfl

theorem connectEvents_write (current : Events) : (connectEvents current).write = false := by
  unfold connectEvents
  split
  · rfl
  · rfl

theorem connectDone_write (hreg : t.backendRegistered = false → t.backendEvents = Events.none) :
    (connectDone t).backendEvents.write = false := by
  unfold connectDone
  split
  · rename_i hnew
    unfold setEvents
    split
    · rw [unregisterBackend_off hreg]
      rfl
    · rename_i hsome
      cases hr : t.backendRegistered with
      | false =>
        rw [hreg hr] at hsome
        exact absurd (by decide) hsome
      | true =>
        simp only [updateBackend, hr, Bool.not_true, Bool.false_eq_true, if_false]
        exact connectEvents_write t.backendEvents
  · rename_i hsame
    rw [← not_not.mp hsame]
    exact connectEvents_write t.backendEvents

theorem connectDone_inv (hinv : TcpInv t) (hempty : t.writeQueue = []) :
    TcpInv (connectDone t) := by
  unfold connectDone
  split
  · apply setEvents_inv hinv
    intro hq
    exact absurd hempty hq
  · exact hinv

/- What the claim needs of a run: a successful connect callback returns with an
   empty write queue. -/
def ConnectDrained (s : State) (a : Action) : Prop :=
  a = .cont → s.depth = 0 → s.cont = .connectDone → s.tcp.writeQueue = []

theorem continueCb_inv {t : State} (hinv : TcpInv s.tcp)
    (hok : s.cont = .connectDone → s.tcp.writeQueue = []) (h : continueCb s = some t) :
    TcpInv t.tcp := by
  unfold continueCb at h
  split at h
  · cases h
  · rename_i hcont
    rw [← some.inj h]
    exact connectDone_inv hinv (hok hcont)
  · rw [← some.inj h]
    exact ⟨hinv.unregistered, hinv.opened, hinv.armed⟩
  · rw [← some.inj h]
    apply writePart_inv
    dsimp only
    split
    · exact readStop_inv hinv
    · exact hinv
  · rw [← some.inj h]
    exact endQueue_inv _ hinv
  · cases h
  · rw [← some.inj h]
    exact readStop_inv hinv

theorem step_tcpInv (s : State) (a : Action) (t : State) (hinv : TcpInv s.tcp)
    (hok : ConnectDrained s a) (h : step s a = some t) : TcpInv t.tcp := by
  cases a with
  | connect cb r =>
    obtain ⟨_, ht⟩ := ite_none_right_eq_some.mp h
    rw [← some.inj ht]
    exact connect_inv cb r hinv
  | readStart cb =>
    obtain ⟨_, ht⟩ := ite_none_right_eq_some.mp h
    rw [← some.inj ht]
    exact readStart_inv cb hinv
  | readStop =>
    obtain ⟨_, ht⟩ := ite_none_right_eq_some.mp h
    rw [← some.inj ht]
    exact readStop_inv hinv
  | write buf cb r =>
    obtain ⟨_, ht⟩ := ite_none_right_eq_some.mp h
    rw [← some.inj ht]
    exact write_inv buf cb r hinv
  | event ev soError r =>
    obtain ⟨_, ht⟩ := ite_none_right_eq_some.mp h
    rw [← some.inj ht]
    exact eventCb_inv ev soError r hinv
  | ret =>
    obtain ⟨_, ht⟩ := ite_none_right_eq_some.mp h
    rw [← some.inj ht]
    exact hinv
  | cont =>
    obtain ⟨hdepth, hcont⟩ := ite_none_right_eq_some.mp h
    exact continueCb_inv hinv (hok rfl hdepth) hcont
  | send r =>
    simp only [step] at h
    split at h
    · obtain ⟨_, hround⟩ := ite_none_right_eq_some.mp h
      exact queueRound_inv hinv hround
    · cases h

theorem armed_step_drained (s : State) (a : Action) (t : State) (hinv : TcpInv s.tcp)
    (h : step s a = some t) (harmed : t.between = true → Armed t.tcp) : ConnectDrained s a := by
  intro ha hdepth hcont
  subst ha
  simp only [step, hdepth, continueCb, hcont, if_true, Option.some.injEq] at h
  subst h
  have hbetween := harmed (by simp [State.between])
  by_contra hq
  have hstill : (connectDone s.tcp).writeQueue ≠ [] := by
    rw [connectDone_queue]
    exact hq
  have hwrite := (hbetween hstill).2
  rw [connectDone_write hinv.unregistered] at hwrite
  cases hwrite

theorem init_tcpInv : TcpInv ({} : VoxTcp) := by
  apply inv_of_empty
  · rfl
  · intro _
    rfl

theorem armed_iff_connect_drained (as : List Action) :
    Along step (fun s => s.between = true → Armed s.tcp) {} as ↔
      Guarded step ConnectDrained {} as := by
  apply along_iff_guarded (P := fun s => TcpInv s.tcp)
  · intro s hinv _
    exact hinv.armed
  · exact step_tcpInv
  · exact armed_step_drained
  · exact init_tcpInv

/- The connect callback writes while the socket is full. -/
theorem connect_callback_write_stranded :
    ∃ s, exec step {} [.connect true .inProgress, .event { write := true } false .noBuffer,
        .write [1] true .wouldBlock, .ret, .cont] = some s ∧
      s.between = true ∧ s.tcp.writeQueue ≠ [] ∧ s.tcp.backendRegistered = false ∧
      ¬ Armed s.tcp := by
  refine ⟨_, rfl, rfl, by decide, rfl, ?_⟩
  intro harmed
  exact absurd (harmed (by decide)).1 (by decide)

end Voxlib.Tcp
