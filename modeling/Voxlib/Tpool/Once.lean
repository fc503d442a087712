import Voxlib.Tpool.Books
import Voxlib.Tpool.Records

/-!
# Every task is run once

Runs without a shutdown: no task is taken twice, and at rest all that was accepted has been run.
-/

namespace Voxlib.Tpool
open Run Tally

variable {C W : Type} [Fintype C] [Fintype W] [DecidableEq C] [DecidableEq W]

def Open (s : State C W) : Prop :=
  s.pool.state = .running ∧ ∀ c, s.caller c ≠ .shutdownExchange

def noShutdown : Action C W → Bool
  | .call _ .callShutdown => false
  | _ => true

variable {s : State C W}

omit [Fintype C] [Fintype W] [DecidableEq W] in
theorem open_goto (h : Open s) (c : C) {pc : CallerPc} (hpc : pc ≠ .shutdownExchange) :
    Open (s.goto c pc) := by
  refine ⟨h.1, ?_⟩
  intro c'
  simp only [State.goto, Function.update_apply]
  split
  · exact hpc
  · exact h.2 c'

omit [DecidableEq W] in
theorem access_open {s' : State C W} (hb : Books s) (h : Open s) (c : C)
    (hs : access s c = some s') : Open s' := by
  have hgo : ∀ pc : CallerPc, pc ≠ .shutdownExchange → Open (s.goto c pc) :=
    fun pc hpc => open_goto h c hpc
  have hstop : (s.caller c).inShutdown = true → False := fun hin => hb.stopped c hin h.1
  unfold access at hs
  cases hpc : s.caller c with
  | idle =>
    rw [hpc] at hs
    cases hs
  | submitLoadState task =>
    rw [hpc] at hs
    dsimp only at hs
    split at hs
    · cases hs
      exact hgo _ (by simp)
    · cases hs
      exact hgo _ (by simp)
  | submitEnqueue task =>
    rw [hpc] at hs
    cases hs
    exact hgo (.submitTotal s.pool.tasks.length) (by simp)
  | submitTotal pos =>
    rw [hpc] at hs
    cases hs
    exact hgo (.submitPost pos) (by simp)
  | submitPost pos =>
    rw [hpc] at hs
    cases hs
    exact hgo .idle (by simp)
  | waitFailed v pending running total completed =>
    rw [hpc] at hs
    dsimp only at hs
    split at hs
    · cases hs
      unfold State.waitReturns
      split
      · exact hgo _ (by simp)
      · exact hgo .idle (by simp)
    · cases hs
      exact hgo _ (by simp)
  | shutdownExchange => exact absurd hpc (h.2 c)
  | shutdownStore =>
    rw [hpc] at hstop
    exact (hstop rfl).elim
  | shutdownPost left =>
    rw [hpc] at hstop
    exact (hstop rfl).elim
  | shutdownJoin =>
    rw [hpc] at hstop
    exact (hstop rfl).elim
  | _ =>
    rw [hpc] at hs
    cases hs
    exact hgo _ (by simp)

/- An upper bound for the steps that a worker still takes before it waits. -/
def WorkerPc.stepsLeft : WorkerPc → ℕ
  | .semaphoreWait => 0
  | .loadState => 7
  | .dequeue => 6
  | .emptyLoadState => 4
  | .emptyHead => 3
  | .emptyTail _ => 2
  | .emptyRunning => 1
  | .incrementRunning _ _ => 5
  | .runTask _ _ => 4
  | .callComplete _ _ _ => 3
  | .countResult _ _ => 2
  | .decrementRunning _ => 1
  | .exited => 0

def stepsLeft (s : State C W) : ℕ :=
  8 * s.pool.semaphore + tally WorkerPc.stepsLeft s.worker

structure Worked (s : State C W) (w : W) (s' : State C W) : Prop where
  caller : s'.caller = s.caller
  state : s'.pool.state = s.pool.state
  moved : ∃ pc : WorkerPc, s'.worker = Function.update s.worker w pc ∧
    8 * s'.pool.semaphore + pc.stepsLeft < 8 * s.pool.semaphore + (s.worker w).stepsLeft

omit [Fintype C] [Fintype W] [DecidableEq C] in
theorem work_worked {s' : State C W} (w : W) (hs : work s w = some s') : Worked s w s' := by
  have hmove : ∀ {pool : Pool} {hist : History W} (pc : WorkerPc), pool.state = s.pool.state →
      8 * pool.semaphore + pc.stepsLeft < 8 * s.pool.semaphore + (s.worker w).stepsLeft →
      Worked s w ⟨pool, s.caller, Function.update s.worker w pc, hist⟩ :=
    fun pc hstate hlt => ⟨rfl, hstate, pc, rfl, hlt⟩
  have hworks := work_cases hs
  generalize s.worker w = pc at hworks hmove
  cases hworks with
  | move hm =>
    cases hm with
    | _ => exact hmove _ rfl (by simp [WorkerPc.stepsLeft])
  | wake hsem => exact hmove .loadState rfl (by simp only [WorkerPc.stepsLeft]; omega)
  | _ => exact hmove _ rfl (by simp [WorkerPc.stepsLeft, State.workerGoto])

omit [Fintype C] in
theorem workers_rest {t : State C W} {ws : List W}
    (hs : exec step s (ws.map Action.work) = some t) : ws.length + stepsLeft t ≤ stepsLeft s := by
  induction ws generalizing s with
  | nil =>
    rw [← Option.some.inj hs]
    exact (Nat.zero_add _).le
  | cons w ws ih =>
    obtain ⟨m, hm, hrest⟩ := Option.bind_eq_some_iff.mp hs
    obtain ⟨-, -, pc, hpc, hlt⟩ := work_worked w hm
    have hup := tally_update WorkerPc.stepsLeft s.worker w pc
    have hleft := ih hrest
    have hless : stepsLeft m < stepsLeft s := by
      unfold stepsLeft
      rw [hpc]
      omega
    rw [List.length_cons]
    omega

theorem step_open {s' : State C W} (hb : Books s) (h : Open s) (a : Action C W)
    (hno : noShutdown a = true) (hs : step s a = some s') : Open s' := by
  cases a with
  | work w =>
    obtain ⟨hcaller, hstate, -⟩ := work_worked w hs
    refine ⟨hstate.trans h.1, ?_⟩
    rw [hcaller]
    exact h.2
  | call c command =>
    cases command with
    | access => exact access_open hb h c hs
    | callSubmit task =>
      simp only [step] at hs
      split at hs
      · split at hs
        · cases hs
          exact open_goto h c (by simp)
        · cases hs
          exact h
      · cases hs
    | callWait =>
      simp only [step] at hs
      split at hs
      · cases hs
        exact open_goto h c (by simp)
      · cases hs
    | callShutdown => cases hno
    | refuse =>
      simp only [step] at hs
      split at hs
      · cases hs
        exact open_goto h c (by simp)
      · cases hs

def Blocked (s : State C W) (w : W) : Prop :=
  s.worker w = .semaphoreWait ∧ s.pool.semaphore = 0

def DoneOnce (s : State C W) (pos : ℕ) : Prop :=
  ∃ w, (w, pos) ∈ s.hist.ran ∧ (∀ w', (w', pos) ∈ s.hist.dequeued → w' = w) ∧
    ∀ task, s.pool.tasks[pos]? = some task → task.completeFunc = true → (w, pos) ∈ s.hist.called

structure RunOnce (s : State C W) : Prop where
  dequeuedOnce : (s.hist.dequeued.map Prod.snd).Nodup
  ranOnce : (s.hist.ran.map Prod.snd).Nodup
  calledOnce : (s.hist.called.map Prod.snd).Nodup
  ranDequeued : ∀ x ∈ s.hist.ran, x ∈ s.hist.dequeued
  calledRan : ∀ x ∈ s.hist.called, x ∈ s.hist.ran
  /- A worker that was woken does not find the queue empty. -/
  woken : ∀ w, s.worker w = .dequeue → s.pool.head < s.pool.tasks.length
  /- The workers alone come to rest. -/
  rests : ∀ (ws : List W) (t : State C W), exec step s (ws.map Action.work) = some t →
    ws.length ≤ stepsLeft s
  /- At rest everything is done and counted. -/
  rest : (∀ c, (s.caller c).inSubmit = false) → (∀ w, Blocked s w) →
    s.pool.head = s.pool.tasks.length ∧ s.pool.runningTasks = 0 ∧
      s.pool.completedTasks + s.pool.failedTasks = s.pool.totalTasks ∧
      ∀ pos ∈ s.hist.accepted, DoneOnce s pos

theorem unposted_of_returned {pc : CallerPc} (h : pc.inSubmit = false) :
    pc.unposted = 0 ∧ pc.uncounted = 0 := by
  cases pc with
  | submitEnqueue task => cases h
  | submitTotal pos => cases h
  | submitPost pos => cases h
  | _ => exact ⟨rfl, rfl⟩

omit [Fintype C] [Fintype W] [DecidableEq C] [DecidableEq W] in
theorem doneOnce_at_rest (hr : Records s) {pos : ℕ} (hpos : pos < s.pool.head)
    (hw : ∀ w, s.worker w = .semaphoreWait) : DoneOnce s pos := by
  have hmem : pos ∈ s.hist.dequeued.map Prod.snd := by
    rw [hr.dequeued]
    exact List.mem_range.mpr hpos
  obtain ⟨⟨w, p⟩, hdeq, heq⟩ := List.mem_map.mp hmem
  dsimp only at heq
  subst heq
  have hran : (w, p) ∈ s.hist.ran := by
    cases hr.dequeuedRan w p hdeq with
    | inl h => exact h
    | inr h =>
      obtain ⟨task, ht⟩ := h
      rw [hw w] at ht
      rcases ht with ht | ht <;> cases ht
  refine ⟨w, hran, fun w' hw' => dequeued_unique hr hw' hdeq, ?_⟩
  intro task htask hc
  cases hr.ranCalled w p hran task htask hc with
  | inl h => exact h
  | inr h =>
    obtain ⟨t, r, ht⟩ := h
    rw [hw w] at ht
    cases ht

theorem runOnce_of_books [Nonempty W] (hb : Books s) (hr : Records s) (ho : Open s) :
    RunOnce s := by
  refine ⟨?_, hr.ranNodup, hr.calledNodup, hr.ranDequeued, hr.calledRan, ?_, ?_, ?_⟩
  · rw [hr.dequeued]
    exact List.nodup_range
  · intro w hw
    have hawake := le_tally WorkerPc.awake s.worker w
    have htok := hb.tokens ho.1
    rw [hw] at hawake
    simp only [WorkerPc.awake] at hawake
    omega
  · intro ws t ht
    have := workers_rest ht
    omega
  · intro hret hblocked
    obtain ⟨w₀⟩ := ‹Nonempty W›
    have hsem := (hblocked w₀).2
    have hzero : ∀ g : WorkerPc → ℕ, g .semaphoreWait = 0 → tally g s.worker = 0 := by
      intro g hg
      rw [tally_eq_zero]
      intro w
      rw [(hblocked w).1]
      exact hg
    have hun : tally CallerPc.unposted s.caller = 0 := by
      rw [tally_eq_zero]
      exact fun c => (unposted_of_returned (hret c)).1
    have huc : tally CallerPc.uncounted s.caller = 0 := by
      rw [tally_eq_zero]
      exact fun c => (unposted_of_returned (hret c)).2
    have htok := hb.tokens ho.1
    have hawake := hzero WorkerPc.awake rfl
    have hundone := hzero WorkerPc.undone rfl
    have hdone := hb.done
    have hcounted := hb.counted
    have hempty : s.pool.head = s.pool.tasks.length := by omega
    refine ⟨hempty, ?_, ?_, ?_⟩
    · rw [hb.running, hzero WorkerPc.busy rfl]
      rfl
    · rw [hb.completed, hb.failed, hb.total, ← BitVec.ofNat_add]
      congr 1
      omega
    · intro pos hpos
      refine doneOnce_at_rest hr ?_ (fun w => (hblocked w).1)
      rw [hempty]
      exact hr.acceptedLt pos hpos

theorem run_kept {t : State C W} {as : List (Action C W)} (hb : Books s) (hr : Records s)
    (ho : Open s) (hno : ∀ a ∈ as, noShutdown a = true) (hs : exec step s as = some t) :
    Books t ∧ Records t ∧ Open t := by
  induction as generalizing s with
  | nil => exact Option.some.inj hs ▸ ⟨hb, hr, ho⟩
  | cons a as ih =>
    obtain ⟨m, hm, hrest⟩ := Option.bind_eq_some_iff.mp hs
    have ha := hno a List.mem_cons_self
    have hok : NoSubmitOvertaken s a := by
      cases a with
      | work w => trivial
      | call c command =>
        cases command with
        | access => exact fun hpc => absurd hpc (ho.2 c)
        | _ => trivial
    exact ih (step_books hb a hok hm) (step_records hr a hm) (step_open hb ho a ha hm)
      (fun b hmem => hno b (List.mem_cons_of_mem a hmem)) hrest

def twoSubmits : List (Action (Fin 2) (Fin 2)) :=
  [.call 0 (.callSubmit ⟨true, true⟩), .call 1 (.callSubmit ⟨true, false⟩), .call 0 .access,
    .call 1 .access, .call 1 .access, .call 0 .access, .call 0 .access, .call 0 .access, .work 0,
    .work 0, .work 0, .call 1 .access, .call 1 .access, .work 1, .work 1, .work 1, .work 1,
    .work 0, .work 0, .work 1, .work 1, .work 1, .work 1, .work 0, .work 0, .work 0]

end Voxlib.Tpool
