import Voxlib.Tpool
import Voxlib.Lib.Tally

/-!
# The counters of the thread pool

How the semaphore, the queue and the counters stand to the places of the threads.
-/

namespace Voxlib.Tpool
open Run Tally List

def CallerPc.inSubmit : CallerPc → Bool
  | .submitEnqueue _ => true
  | .submitTotal _ => true
  | .submitPost _ => true
  | _ => false

/- In vox_tpool_shutdown behind the exchange of the state. -/
def CallerPc.inShutdown : CallerPc → Bool
  | .waitHead v => v.inShutdown
  | .waitTail v _ => v.inShutdown
  | .waitRunning v _ => v.inShutdown
  | .waitTotal v _ _ => v.inShutdown
  | .waitCompleted v _ _ _ => v.inShutdown
  | .waitFailed v _ _ _ _ => v.inShutdown
  | .shutdownStore => true
  | .shutdownPost _ => true
  | .shutdownJoin => true
  | _ => false

def CallerPc.unposted : CallerPc → ℕ
  | .submitTotal _ => 1
  | .submitPost _ => 1
  | _ => 0

def CallerPc.uncounted : CallerPc → ℕ
  | .submitTotal _ => 1
  | _ => 0

def WorkerPc.awake : WorkerPc → ℕ
  | .loadState => 1
  | .dequeue => 1
  | _ => 0

def WorkerPc.undone : WorkerPc → ℕ
  | .incrementRunning _ _ => 1
  | .runTask _ _ => 1
  | .callComplete _ _ _ => 1
  | .countResult _ _ => 1
  | _ => 0

def WorkerPc.busy : WorkerPc → ℕ
  | .runTask _ _ => 1
  | .callComplete _ _ _ => 1
  | .countResult _ _ => 1
  | .decrementRunning _ => 1
  | _ => 0

variable {C W : Type} [Fintype C] [Fintype W]

structure Books (s : State C W) : Prop where
  headLe : s.pool.head ≤ s.pool.tasks.length
  tokens : s.pool.state = .running → s.pool.tasks.length = s.pool.head + s.pool.semaphore +
    tally WorkerPc.awake s.worker + tally CallerPc.unposted s.caller
  closed : s.pool.state ≠ .running → ∀ c, (s.caller c).inSubmit = false
  stopped : ∀ c, (s.caller c).inShutdown = true → s.pool.state ≠ .running
  total : s.pool.totalTasks = BitVec.ofNat 32 s.hist.counted
  counted : s.hist.counted + tally CallerPc.uncounted s.caller = s.pool.tasks.length
  accepted : s.hist.accepted.length + tally CallerPc.unposted s.caller = s.pool.tasks.length
  running : s.pool.runningTasks = BitVec.ofNat 32 (tally WorkerPc.busy s.worker)
  completed : s.pool.completedTasks = BitVec.ofNat 32 s.hist.completed
  failed : s.pool.failedTasks = BitVec.ofNat 32 s.hist.failed
  done : s.hist.completed + s.hist.failed + tally WorkerPc.undone s.worker = s.pool.head

theorem tally_const {T α : Type} [Fintype T] (g : α → ℕ) (a : α) (h : g a = 0) :
    tally g (fun _ : T => a) = 0 := by
  rw [tally_eq_zero]
  exact fun _ => h

theorem init_books : Books (State.init C W) := by
  have hcaller : ∀ g : CallerPc → ℕ, g .idle = 0 → tally g (State.init C W).caller = 0 :=
    fun g hg => tally_const g .idle hg
  have hworker : ∀ g : WorkerPc → ℕ, g .semaphoreWait = 0 →
      tally g (State.init C W).worker = 0 := fun g hg => tally_const g .semaphoreWait hg
  refine ⟨le_refl _, ?_, fun h => absurd rfl h, ?_, rfl, ?_, ?_, ?_, rfl, rfl, ?_⟩
  · intro _
    rw [hcaller _ rfl, hworker _ rfl]
    rfl
  · intro c hc
    cases hc
  · rw [hcaller _ rfl]
    rfl
  · rw [hcaller _ rfl]
    rfl
  · rw [hworker _ rfl]
    rfl
  · rw [hworker _ rfl]
    rfl

theorem inc_ofNat (n : ℕ) : BitVec.ofNat 32 n + 1 = BitVec.ofNat 32 (n + 1) :=
  (BitVec.ofNat_add n 1).symm

theorem dec_ofNat (n : ℕ) : BitVec.ofNat 32 (n + 1) - 1 = BitVec.ofNat 32 n := by
  rw [BitVec.ofNat_add]
  exact BitVec.add_sub_cancel _ _

theorem submit_running {s : State C W} (h : Books s) {c : C} (hin : (s.caller c).inSubmit = true) :
    s.pool.state = .running := by
  by_contra hne
  rw [h.closed hne c] at hin
  cases hin

theorem shutdown_books {s : State C W} (h : Books s) (state : PoolState) (semaphore : ℕ)
    (hstate : state ≠ .running) (hclosed : ∀ c, (s.caller c).inSubmit = false) :
    Books { s with pool := { s.pool with state := state, semaphore := semaphore } } :=
  { h with
    tokens := fun hr => absurd hr hstate
    closed := fun _ => hclosed
    stopped := fun _ _ => hstate }

section Callers
variable [DecidableEq C]

variable {s : State C W}

section
variable (h : Books s)
include h

theorem no_shutdown (c : C) (pc : CallerPc) (hpc : pc.inShutdown = false) (c' : C)
    (hin : (Function.update s.caller c pc c').inShutdown = true) : s.pool.state ≠ .running := by
  rw [Function.update_apply] at hin
  split at hin
  · rw [hpc] at hin
    cases hin
  · exact h.stopped c' hin

theorem books_goto (c : C) (pc : CallerPc) (hu : pc.unposted = (s.caller c).unposted)
    (hc : pc.uncounted = (s.caller c).uncounted)
    (hin : s.pool.state ≠ .running → pc.inSubmit = false)
    (hst : pc.inShutdown = true → s.pool.state ≠ .running) : Books (s.goto c pc) := by
  have hup := tally_update CallerPc.unposted s.caller c pc
  have hun := tally_update CallerPc.uncounted s.caller c pc
  obtain ⟨h1, h2, h3, h3', h4, h5, h6, h7, h8, h9, h10⟩ := h
  refine ⟨h1, ?_, ?_, ?_, h4, ?_, ?_, h7, h8, h9, h10⟩
  · intro hr
    have := h2 hr
    simp only [State.goto]
    omega
  · intro hr c'
    simp only [State.goto, Function.update_apply]
    split
    · exact hin hr
    · exact h3 hr c'
  · intro c'
    simp only [State.goto, Function.update_apply]
    split
    · exact hst
    · exact h3' c'
  · simp only [State.goto]
    omega
  · simp only [State.goto]
    omega

theorem enqueue_books {c : C} {task : Task} (hpc : s.caller c = .submitEnqueue task) :
    Books { s.goto c (.submitTotal s.pool.tasks.length) with
      pool := { s.pool with tasks := s.pool.tasks ++ [task] } } := by
  have hrun := submit_running h (c := c) (by rw [hpc]; rfl)
  have hup := tally_update CallerPc.unposted s.caller c (.submitTotal s.pool.tasks.length)
  have hun := tally_update CallerPc.uncounted s.caller c (.submitTotal s.pool.tasks.length)
  rw [hpc] at hup hun
  simp only [CallerPc.unposted, CallerPc.uncounted] at hup hun
  have hopen := no_shutdown h
  obtain ⟨h1, h2, h3, h3', h4, h5, h6, h7, h8, h9, h10⟩ := h
  have h2 := h2 hrun
  refine ⟨?_, ?_, fun hne => absurd hrun hne, hopen c _ rfl, h4, ?_, ?_, h7, h8, h9, h10⟩
  · simp only [length_append, length_singleton]
    omega
  · intro _
    simp only [State.goto, length_append, length_singleton]
    omega
  · simp only [State.goto, length_append, length_singleton]
    omega
  · simp only [State.goto, length_append, length_singleton]
    omega

theorem count_books {c : C} {pos : ℕ} (hpc : s.caller c = .submitTotal pos) :
    Books { s.goto c (.submitPost pos) with
      pool := { s.pool with totalTasks := s.pool.totalTasks + 1 }
      hist := { s.hist with counted := s.hist.counted + 1 } } := by
  have hrun := submit_running h (c := c) (by rw [hpc]; rfl)
  have hup := tally_update CallerPc.unposted s.caller c (.submitPost pos)
  have hun := tally_update CallerPc.uncounted s.caller c (.submitPost pos)
  rw [hpc] at hup hun
  simp only [CallerPc.unposted, CallerPc.uncounted] at hup hun
  have hopen := no_shutdown h
  obtain ⟨h1, h2, h3, h3', h4, h5, h6, h7, h8, h9, h10⟩ := h
  have h2 := h2 hrun
  refine ⟨h1, ?_, fun hne => absurd hrun hne, hopen c _ rfl, ?_, ?_, ?_, h7, h8, h9, h10⟩
  · intro _
    simp only [State.goto]
    omega
  · simp only [h4]
    exact inc_ofNat _
  · simp only [State.goto]
    omega
  · simp only [State.goto]
    omega

theorem post_books {c : C} {pos : ℕ} (hpc : s.caller c = .submitPost pos) :
    Books { s.goto c .idle with
      pool := { s.pool with semaphore := s.pool.semaphore + 1 }
      hist := { s.hist with accepted := s.hist.accepted ++ [pos] } } := by
  have hrun := submit_running h (c := c) (by rw [hpc]; rfl)
  have hup := tally_update CallerPc.unposted s.caller c .idle
  have hun := tally_update CallerPc.uncounted s.caller c .idle
  rw [hpc] at hup hun
  simp only [CallerPc.unposted, CallerPc.uncounted] at hup hun
  have hopen := no_shutdown h
  obtain ⟨h1, h2, h3, h3', h4, h5, h6, h7, h8, h9, h10⟩ := h
  have h2 := h2 hrun
  refine ⟨h1, ?_, fun hne => absurd hrun hne, hopen c _ rfl, h4, ?_, ?_, h7, h8, h9, h10⟩
  · intro _
    simp only [State.goto]
    omega
  · simp only [State.goto]
    omega
  · simp only [State.goto, length_append, length_singleton]
    omega

theorem waitReturns_books {c : C} {v v' : Waiting} {pending : ℕ}
    {running total completed : BitVec 32} (hv : v'.inShutdown = v.inShutdown)
    (hpc : s.caller c = .waitFailed v pending running total completed) :
    Books (s.waitReturns c v') := by
  have hst := h.stopped c
  rw [hpc] at hst
  have hmove : ∀ pc : CallerPc, pc.unposted = 0 → pc.uncounted = 0 → pc.inSubmit = false →
      (pc.inShutdown = true → v'.inShutdown = true) → Books (s.goto c pc) := by
    intro pc hu hc hin hsd
    refine books_goto h c pc (by rw [hpc]; exact hu) (by rw [hpc]; exact hc) (fun _ => hin) ?_
    intro hp
    exact hst (hv.symm.trans (hsd hp))
  unfold State.waitReturns
  split
  · rename_i hin
    exact hmove .shutdownStore rfl rfl rfl (fun _ => hin)
  · have hidle : Books (s.goto c .idle) := hmove .idle rfl rfl rfl (fun h => by cases h)
    exact { hidle with }

end

end Callers

section Workers
variable [DecidableEq W]

theorem books_work {s : State C W} (h : Books s) (w : W) (pc : WorkerPc) {pool : Pool}
    {hist : History W} (hsame : pool.state = s.pool.state ∧ pool.tasks = s.pool.tasks ∧
      pool.totalTasks = s.pool.totalTasks ∧ hist.counted = s.hist.counted ∧
      hist.accepted = s.hist.accepted) (hhead : pool.head ≤ s.pool.tasks.length)
    (htok : s.pool.state = .running → pool.head + pool.semaphore + pc.awake =
      s.pool.head + s.pool.semaphore + (s.worker w).awake)
    (hbusy : ∀ n, s.pool.runningTasks = BitVec.ofNat 32 (n + (s.worker w).busy) →
      pool.runningTasks = BitVec.ofNat 32 (n + pc.busy))
    (hcompleted : pool.completedTasks = BitVec.ofNat 32 hist.completed)
    (hfailed : pool.failedTasks = BitVec.ofNat 32 hist.failed)
    (hdone : hist.completed + hist.failed + pc.undone + s.pool.head =
      s.hist.completed + s.hist.failed + (s.worker w).undone + pool.head) :
    Books ⟨pool, s.caller, Function.update s.worker w pc, hist⟩ := by
  have haw := tally_update WorkerPc.awake s.worker w pc
  have hun := tally_update WorkerPc.undone s.worker w pc
  have hbu := tally_update WorkerPc.busy s.worker w pc
  have hle := le_tally WorkerPc.busy s.worker w
  obtain ⟨hstate, htasks, htotal, hcounted, haccepted⟩ := hsame
  obtain ⟨h1, h2, h3, h3', h4, h5, h6, h7, h8, h9, h10⟩ := h
  refine ⟨?_, ?_, ?_, ?_, ?_, ?_, ?_, ?_, hcompleted, hfailed, ?_⟩
  · rw [htasks]
    exact hhead
  · intro hr
    dsimp only at hr ⊢
    rw [hstate] at hr
    have := h2 hr
    have := htok hr
    rw [htasks]
    omega
  · dsimp only
    rw [hstate]
    exact h3
  · dsimp only
    rw [hstate]
    exact h3'
  · dsimp only
    rw [htotal, hcounted]
    exact h4
  · dsimp only
    rw [hcounted, htasks]
    exact h5
  · dsimp only
    rw [haccepted, htasks]
    exact h6
  · dsimp only
    have hn := hbusy (tally WorkerPc.busy s.worker - (s.worker w).busy)
      (by rw [h7]; congr 1; omega)
    rw [hn]
    congr 1
    omega
  · dsimp only
    omega

theorem books_workerGoto {s : State C W} (h : Books s) (w : W) (pc : WorkerPc)
    (ha : s.pool.state = .running → pc.awake = (s.worker w).awake)
    (hd : pc.undone = (s.worker w).undone) (hb : pc.busy = (s.worker w).busy) :
    Books (s.workerGoto w pc) :=
  books_work h w pc ⟨rfl, rfl, rfl, rfl, rfl⟩ h.headLe (fun hr => by rw [ha hr])
    (fun n hn => by rw [hb]; exact hn) h.completed h.failed (by rw [hd])

end Workers

section Steps
variable [DecidableEq C]

/- The shutdown does not overtake a submit that has passed its test of the state. -/
def NoSubmitOvertaken (s : State C W) : Action C W → Prop
  | .call c .access =>
    s.caller c = .shutdownExchange → ∀ c', (s.caller c').inSubmit = false
  | _ => True

theorem waitRound_inShutdown (v : Waiting) (pending : ℕ) (running total completed failed : BitVec 32)
    (settles : Bool) :
    (waitRound v pending running total completed failed settles).2.inShutdown = v.inShutdown := by
  unfold waitRound
  split
  · rfl
  · split
    · rfl
    · rfl

theorem access_books {s s' : State C W} (h : Books s) (c : C)
    (hok : NoSubmitOvertaken s (.call c .access)) (hs : access s c = some s') : Books s' := by
  have hmove : ∀ pc : CallerPc, pc.unposted = (s.caller c).unposted →
      pc.uncounted = (s.caller c).uncounted → pc.inSubmit = false →
      (pc.inShutdown = true → (s.caller c).inShutdown = true) → Books (s.goto c pc) :=
    fun pc hu hc hin hst => books_goto h c pc hu hc (fun _ => hin) (fun hp => h.stopped c (hst hp))
  unfold access at hs
  cases hpc : s.caller c with
  | idle =>
    rw [hpc] at hs
    cases hs
  | submitLoadState task =>
    rw [hpc] at hs hmove
    dsimp only at hs
    split at hs
    · cases hs
      exact hmove .idle rfl rfl rfl id
    · rename_i hrun
      rw [not_not] at hrun
      cases hs
      exact books_goto h c _ (by rw [hpc]; rfl) (by rw [hpc]; rfl) (fun hne => absurd hrun hne)
        (fun hp => by cases hp)
  | submitEnqueue task =>
    rw [hpc] at hs
    cases hs
    exact enqueue_books h hpc
  | submitTotal pos =>
    rw [hpc] at hs
    cases hs
    exact count_books h hpc
  | submitPost pos =>
    rw [hpc] at hs
    cases hs
    exact post_books h hpc
  | waitHead v =>
    rw [hpc] at hs hmove
    cases hs
    exact hmove _ rfl rfl rfl id
  | waitTail v head =>
    rw [hpc] at hs hmove
    cases hs
    exact hmove _ rfl rfl rfl id
  | waitRunning v pending =>
    rw [hpc] at hs hmove
    cases hs
    exact hmove _ rfl rfl rfl id
  | waitTotal v pending running =>
    rw [hpc] at hs hmove
    cases hs
    exact hmove _ rfl rfl rfl id
  | waitCompleted v pending running total =>
    rw [hpc] at hs hmove
    cases hs
    exact hmove _ rfl rfl rfl id
  | waitFailed v pending running total completed =>
    rw [hpc] at hs hmove
    dsimp only at hs
    have hv := waitRound_inShutdown v pending running total completed s.pool.failedTasks
      (s.pool.totalTasks = total)
    split at hs
    · cases hs
      exact waitReturns_books h hv hpc
    · cases hs
      exact hmove _ rfl rfl rfl (fun hp => hv.symm.trans hp)
  | shutdownExchange =>
    have hclosed := hok hpc
    rw [hpc] at hs
    dsimp only at hs
    have hstop := shutdown_books h .shuttingDown s.pool.semaphore (by decide) hclosed
    have hgo : ∀ pc : CallerPc, pc.unposted = 0 → pc.uncounted = 0 → pc.inSubmit = false →
        Books (State.goto { s with pool := { s.pool with state := .shuttingDown } } c pc) := by
      intro pc hu hc hin
      exact books_goto hstop c pc (by rw [hpc]; exact hu) (by rw [hpc]; exact hc) (fun _ => hin)
        (fun _ hr => by cases hr)
    split at hs
    · cases hs
      have hidle := hgo .idle rfl rfl rfl
      exact { hidle with }
    · cases hs
      exact hgo _ rfl rfl rfl
  | shutdownStore =>
    have hne := h.stopped c (by rw [hpc]; rfl)
    rw [hpc] at hs hmove
    cases hs
    have hgo := hmove (.shutdownPost (Fintype.card W)) rfl rfl rfl (fun _ => rfl)
    exact shutdown_books hgo .shutdown s.pool.semaphore (by decide) (hgo.closed hne)
  | shutdownPost left =>
    have hne := h.stopped c (by rw [hpc]; rfl)
    rw [hpc] at hs hmove
    dsimp only at hs
    split at hs
    · cases hs
      exact hmove .shutdownJoin rfl rfl rfl (fun _ => rfl)
    · cases hs
      have hgo := hmove (.shutdownPost (left - 1)) rfl rfl rfl (fun _ => rfl)
      exact shutdown_books hgo s.pool.state (s.pool.semaphore + 1) hne (hgo.closed hne)
  | shutdownJoin =>
    rw [hpc] at hs hmove
    dsimp only at hs
    split at hs
    · cases hs
      have hidle := hmove .idle rfl rfl rfl (fun hp => by cases hp)
      exact { hidle with }
    · cases hs

variable [DecidableEq W]

omit [DecidableEq C] in
theorem work_books {s s' : State C W} (h : Books s) (w : W) (hs : work s w = some s') :
    Books s' := by
  have hworks := work_cases hs
  have hmove : ∀ pc : WorkerPc, (s.pool.state = .running → pc.awake = (s.worker w).awake) →
      pc.undone = (s.worker w).undone → pc.busy = (s.worker w).busy → Books (s.workerGoto w pc) :=
    fun pc ha hd hb => books_workerGoto h w pc ha hd hb
  have hawake := le_tally WorkerPc.awake s.worker w
  generalize hpc : s.worker w = pc at hworks hmove hawake
  cases hworks with
  | move hm =>
    cases hm with
    | quit hshut => exact hmove .exited (fun hr => by rw [hr] at hshut; cases hshut) rfl rfl
    | noTask hnone =>
      refine hmove .emptyLoadState ?_ rfl rfl
      intro hr
      have hlen := h.tokens hr
      have hge := List.getElem?_eq_none_iff.mp hnone
      simp only [WorkerPc.awake] at hawake
      omega
    | _ => exact hmove _ (fun _ => rfl) rfl rfl
  | wake hsem =>
    refine books_work h w .loadState ⟨rfl, rfl, rfl, rfl, rfl⟩ h.headLe ?_ ?_ h.completed h.failed ?_
    · intro _
      rw [hpc]
      simp only [WorkerPc.awake]
      omega
    · rw [hpc]
      exact fun _ hn => hn
    · rw [hpc]
      rfl
  | @take task htask =>
    have hlt := (List.getElem?_eq_some_iff.mp htask).1
    refine books_work h w (.incrementRunning s.pool.head task) ⟨rfl, rfl, rfl, rfl, rfl⟩ hlt ?_ ?_
      h.completed h.failed ?_
    · intro _
      rw [hpc]
      simp only [WorkerPc.awake]
      omega
    · rw [hpc]
      exact fun _ hn => hn
    · rw [hpc]
      simp only [WorkerPc.undone]
      omega
  | start pos task =>
    refine books_work h w (.runTask pos task) ⟨rfl, rfl, rfl, rfl, rfl⟩ h.headLe ?_ ?_ h.completed
      h.failed ?_
    · rw [hpc]
      exact fun _ => rfl
    · rw [hpc]
      intro n hn
      dsimp only
      rw [hn]
      exact inc_ofNat n
    · rw [hpc]
      rfl
  | @run pos task _ =>
    have hgo := hmove (.callComplete pos task 0) (fun _ => rfl) rfl rfl
    exact { hgo with }
  | skip => exact hmove _ (fun _ => rfl) rfl rfl
  | @report pos task result _ =>
    have hgo := hmove (.countResult pos result) (fun _ => rfl) rfl rfl
    exact { hgo with }
  | silent => exact hmove _ (fun _ => rfl) rfl rfl
  | @succeed pos result _ =>
    refine books_work h w (.decrementRunning pos) ⟨rfl, rfl, rfl, rfl, rfl⟩ h.headLe ?_ ?_ ?_
      h.failed ?_
    · rw [hpc]
      exact fun _ => rfl
    · rw [hpc]
      exact fun _ hn => hn
    · simp only [h.completed]
      exact inc_ofNat _
    · rw [hpc]
      simp only [WorkerPc.undone]
      omega
  | @fail pos result _ =>
    refine books_work h w (.decrementRunning pos) ⟨rfl, rfl, rfl, rfl, rfl⟩ h.headLe ?_ ?_
      h.completed ?_ ?_
    · rw [hpc]
      exact fun _ => rfl
    · rw [hpc]
      exact fun _ hn => hn
    · simp only [h.failed]
      exact inc_ofNat _
    · rw [hpc]
      simp only [WorkerPc.undone]
      omega
  | finish pos =>
    refine books_work h w .semaphoreWait ⟨rfl, rfl, rfl, rfl, rfl⟩ h.headLe ?_ ?_ h.completed
      h.failed ?_
    · rw [hpc]
      exact fun _ => rfl
    · rw [hpc]
      intro n hn
      dsimp only
      rw [hn]
      exact dec_ofNat n
    · rw [hpc]
      rfl

/-- The counters stay in step as long as no shutdown overtakes a submit. -/
theorem step_books {s s' : State C W} (h : Books s) (a : Action C W)
    (hok : NoSubmitOvertaken s a) (hs : step s a = some s') : Books s' := by
  have hidle : ∀ {c : C} {pc : CallerPc}, s.caller c = .idle → pc.unposted = 0 →
      pc.uncounted = 0 → pc.inSubmit = false → pc.inShutdown = false → Books (s.goto c pc) := by
    intro c pc hpc hu hc hin hsd
    refine books_goto h c pc (by rw [hpc]; exact hu) (by rw [hpc]; exact hc) (fun _ => hin) ?_
    intro hp
    rw [hsd] at hp
    cases hp
  cases a with
  | work w => exact work_books h w hs
  | call c command =>
    cases command with
    | access => exact access_books h c hok hs
    | callSubmit task =>
      simp only [step] at hs
      split at hs
      · rename_i hpc
        split at hs
        · cases hs
          exact hidle hpc rfl rfl rfl rfl
        · cases hs
          exact h
      · cases hs
    | callWait =>
      simp only [step] at hs
      split at hs
      · rename_i hpc
        cases hs
        exact hidle hpc rfl rfl rfl rfl
      · cases hs
    | callShutdown =>
      simp only [step] at hs
      split at hs
      · rename_i hpc
        cases hs
        exact hidle hpc rfl rfl rfl rfl
      · cases hs
    | refuse =>
      simp only [step] at hs
      split at hs
      · rename_i task hpc
        cases hs
        exact books_goto h c .idle (by rw [hpc]; rfl) (by rw [hpc]; rfl) (fun _ => rfl)
          (fun hp => by cases hp)
      · cases hs

end Steps

end Voxlib.Tpool
