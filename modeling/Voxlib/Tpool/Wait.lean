import Voxlib.Tpool.Books
import Voxlib.Tpool.Records

/-!
# vox_tpool_wait and vox_tpool_shutdown
-/

namespace Voxlib.Tpool
open Run Tally List Function

variable {C W : Type}

def Ran (hist : History W) (pos : ℕ) : Prop := pos ∈ hist.ran.map Prod.snd

structure Kept (s : State C W) : Prop where
  waited : ∀ pos ∈ s.hist.waited, Ran s.hist pos
  shutdown : s.hist.shutdownReturned = true → ∀ pos ∈ s.hist.accepted, Ran s.hist pos

/- The steps for which the protocol holds: the exchange of a shutdown when no
   submit is behind its test of the state; an enqueue while the counters do not
   wrap; the return of a wait when one of its agreeing rounds saw total_tasks
   unchanged. -/
def StepOk (s : State C W) : Action C W → Prop
  | .call c .access =>
    match s.caller c with
    | .shutdownExchange => ∀ c', (s.caller c').inSubmit = false
    | .submitEnqueue _ => s.pool.tasks.length + 1 < 2 ^ 32
    | .waitFailed v pending running total completed =>
      let r := waitRound v pending running total completed s.pool.failedTasks
        (s.pool.totalTasks = total)
      v.inShutdown = false → total ≠ 0 → r.1 = true → r.2.settled = true
    | _ => True
  | _ => True

instance [Fintype C] (s : State C W) : ∀ a : Action C W, Decidable (StepOk s a)
  | .call c .access =>
    match h : s.caller c with
    | .shutdownExchange =>
      decidable_of_iff (∀ c', (s.caller c').inSubmit = false) (by simp [StepOk, h])
    | .submitEnqueue _ =>
      decidable_of_iff (s.pool.tasks.length + 1 < 2 ^ 32) (by simp [StepOk, h])
    | .waitFailed v pending running total completed =>
      decidable_of_iff (v.inShutdown = false → total ≠ 0 →
        (waitRound v pending running total completed s.pool.failedTasks
          (s.pool.totalTasks = total)).1 = true →
        (waitRound v pending running total completed s.pool.failedTasks
          (s.pool.totalTasks = total)).2.settled = true) (by simp [StepOk, h])
    | .idle => .isTrue (by simp [StepOk, h])
    | .submitLoadState _ => .isTrue (by simp [StepOk, h])
    | .submitTotal _ => .isTrue (by simp [StepOk, h])
    | .submitPost _ => .isTrue (by simp [StepOk, h])
    | .waitHead _ => .isTrue (by simp [StepOk, h])
    | .waitTail _ _ => .isTrue (by simp [StepOk, h])
    | .waitRunning _ _ => .isTrue (by simp [StepOk, h])
    | .waitTotal _ _ _ => .isTrue (by simp [StepOk, h])
    | .waitCompleted _ _ _ _ => .isTrue (by simp [StepOk, h])
    | .shutdownStore => .isTrue (by simp [StepOk, h])
    | .shutdownPost _ => .isTrue (by simp [StepOk, h])
    | .shutdownJoin => .isTrue (by simp [StepOk, h])
  | .call _ (.callSubmit _) => .isTrue trivial
  | .call _ .callWait => .isTrue trivial
  | .call _ .callShutdown => .isTrue trivial
  | .call _ .refuse => .isTrue trivial
  | .work _ => .isTrue trivial

/- The tasks that were accepted before the call. -/
structure WaitingOk (hist : History W) (v : Waiting) : Prop where
  before : v.before <+: hist.accepted
  settled : v.settled = true → ∀ pos ∈ v.before, Ran hist pos
  inShutdown : v.inShutdown = true → v.before = hist.accepted

def SeenEmpty (pool : Pool) (v : Waiting) (pending : ℕ) : Prop :=
  pending = 0 → ∀ pos ∈ v.before, pos < pool.head

def SeenTotal (pool : Pool) (v : Waiting) (total : BitVec 32) : Prop :=
  v.before.length ≤ total.toNat ∧ (v.inShutdown = true → total = pool.totalTasks)

def Knows (pool : Pool) (hist : History W) : CallerPc → Prop
  | .waitHead v => WaitingOk hist v
  | .waitTail v head => WaitingOk hist v ∧ head ≤ pool.head
  | .waitRunning v pending => WaitingOk hist v ∧ SeenEmpty pool v pending
  | .waitTotal v pending _ => WaitingOk hist v ∧ SeenEmpty pool v pending
  | .waitCompleted v pending _ total =>
    WaitingOk hist v ∧ SeenEmpty pool v pending ∧ SeenTotal pool v total
  | .waitFailed v pending _ total completed =>
    WaitingOk hist v ∧ SeenEmpty pool v pending ∧ SeenTotal pool v total ∧
      ∃ n, n ≤ hist.completed ∧ completed = BitVec.ofNat 32 n
  | .shutdownStore => ∀ pos ∈ hist.accepted, Ran hist pos
  | .shutdownPost _ => ∀ pos ∈ hist.accepted, Ran hist pos
  | .shutdownJoin => ∀ pos ∈ hist.accepted, Ran hist pos
  | _ => True

structure Grows (s s' : State C W) : Prop where
  accepted : s.hist.accepted <+: s'.hist.accepted
  ran : ∀ x ∈ s.hist.ran, x ∈ s'.hist.ran
  head : s.pool.head ≤ s'.pool.head
  completed : s.hist.completed ≤ s'.hist.completed
  stopped : s.pool.state ≠ .running → s'.pool.state ≠ .running ∧
    s'.hist.accepted = s.hist.accepted ∧ s'.pool.totalTasks = s.pool.totalTasks

variable {s s' : State C W}

theorem Grows.ranOf (h : Grows s s') {pos : ℕ} (hr : Ran s.hist pos) : Ran s'.hist pos := by
  obtain ⟨x, hx, heq⟩ := mem_map.mp hr
  exact mem_map.mpr ⟨x, h.ran x hx, heq⟩

theorem waitingOk_grows {v : Waiting} (h : WaitingOk s.hist v) (hg : Grows s s')
    (hst : v.inShutdown = true → s.pool.state ≠ .running) : WaitingOk s'.hist v := by
  refine ⟨h.before.trans hg.accepted, ?_, ?_⟩
  · intro hs pos hp
    exact hg.ranOf (h.settled hs pos hp)
  · intro hin
    rw [(hg.stopped (hst hin)).2.1]
    exact h.inShutdown hin

theorem seenTotal_grows {v : Waiting} {total : BitVec 32} (h : SeenTotal s.pool v total)
    (hg : Grows s s') (hst : v.inShutdown = true → s.pool.state ≠ .running) :
    SeenTotal s'.pool v total := by
  refine ⟨h.1, ?_⟩
  intro hin
  rw [(hg.stopped (hst hin)).2.2]
  exact h.2 hin

theorem knows_grows {pc : CallerPc} (h : Knows s.pool s.hist pc) (hg : Grows s s')
    (hst : pc.inShutdown = true → s.pool.state ≠ .running) : Knows s'.pool s'.hist pc := by
  have hempty : ∀ {v : Waiting} {pending : ℕ}, SeenEmpty s.pool v pending → SeenEmpty s'.pool v pending :=
    fun he hp pos hmem => (he hp pos hmem).trans_le hg.head
  have hall : (∀ pos ∈ s.hist.accepted, Ran s.hist pos) → s.pool.state ≠ .running →
      ∀ pos ∈ s'.hist.accepted, Ran s'.hist pos := by
    intro ha hne pos hp
    rw [(hg.stopped hne).2.1] at hp
    exact hg.ranOf (ha pos hp)
  cases pc with
  | waitHead v => exact waitingOk_grows h hg hst
  | waitTail v head => exact ⟨waitingOk_grows h.1 hg hst, h.2.trans hg.head⟩
  | waitRunning v pending => exact ⟨waitingOk_grows h.1 hg hst, hempty h.2⟩
  | waitTotal v pending running => exact ⟨waitingOk_grows h.1 hg hst, hempty h.2⟩
  | waitCompleted v pending running total =>
    exact ⟨waitingOk_grows h.1 hg hst, hempty h.2.1, seenTotal_grows h.2.2 hg hst⟩
  | waitFailed v pending running total completed =>
    obtain ⟨hw, he, ht, n, hn, hc⟩ := h
    exact ⟨waitingOk_grows hw hg hst, hempty he, seenTotal_grows ht hg hst, n,
      hn.trans hg.completed, hc⟩
  | shutdownStore => exact hall h (hst rfl)
  | shutdownPost left => exact hall h (hst rfl)
  | shutdownJoin => exact hall h (hst rfl)
  | _ => trivial

variable [Fintype C] [Fintype W]

theorem uncounted_le_unposted (pc : CallerPc) : pc.uncounted ≤ pc.unposted := by
  cases pc with
  | submitTotal pos => exact le_refl _
  | _ => exact Nat.zero_le _

theorem accepted_le_counted (h : Books s) : s.hist.accepted.length ≤ s.hist.counted := by
  have hle := tally_mono s.caller uncounted_le_unposted
  have hacc := h.accepted
  have hcnt := h.counted
  omega

theorem head_le_counted (h : Books s) : s.pool.head ≤ s.hist.counted := by
  have hle := tally_mono s.caller uncounted_le_unposted
  have hcnt := h.counted
  by_cases hrun : s.pool.state = .running
  · have htok := h.tokens hrun
    omega
  · have hzero : tally CallerPc.uncounted s.caller = 0 := by
      rw [tally_eq_zero]
      intro c
      have hin := h.closed hrun c
      cases hpc : s.caller c with
      | submitTotal pos =>
        rw [hpc] at hin
        cases hin
      | _ => rfl
    have hhead := h.headLe
    omega

theorem total_toNat (h : Books s) (hsmall : s.pool.tasks.length < 2 ^ 32) :
    s.pool.totalTasks.toNat = s.hist.counted := by
  have hcnt := h.counted
  rw [h.total, BitVec.toNat_ofNat]
  exact Nat.mod_eq_of_lt (by omega)

theorem ran_of_dequeued (hb : Books s) (hr : Records s)
    (hall : s.hist.completed + s.hist.failed = s.pool.head) {pos : ℕ} (hpos : pos < s.pool.head) :
    Ran s.hist pos := by
  have hundone : tally WorkerPc.undone s.worker = 0 := by
    have := hb.done
    omega
  rw [tally_eq_zero] at hundone
  have hmem : pos ∈ s.hist.dequeued.map Prod.snd := by
    rw [hr.dequeued]
    exact mem_range.mpr hpos
  obtain ⟨⟨w, p⟩, hdeq, heq⟩ := mem_map.mp hmem
  cases hr.dequeuedRan w p hdeq with
  | inl hran => exact mem_map.mpr ⟨(w, p), hran, heq⟩
  | inr hrun =>
    obtain ⟨task, ht⟩ := hrun
    have hw := hundone w
    rcases ht with ht | ht
    · rw [ht] at hw
      cases hw
    · rw [ht] at hw
      cases hw

theorem settled_round {v : Waiting} {pending n : ℕ} {total completed : BitVec 32} (hb : Books s)
    (hr : Records s) (hsmall : s.pool.tasks.length < 2 ^ 32) (hempty : SeenEmpty s.pool v pending)
    (hpending : pending = 0) (hn : n ≤ s.hist.completed) (hc : completed = BitVec.ofNat 32 n)
    (htotal : s.pool.totalTasks = total) (hsum : completed + s.pool.failedTasks = total) :
    ∀ pos ∈ v.before, Ran s.hist pos := by
  have hhead := head_le_counted hb
  have hcnt := hb.counted
  have hdone := hb.done
  have hnat : n + s.hist.failed = s.hist.counted := by
    have hbits : (BitVec.ofNat 32 (n + s.hist.failed)).toNat =
        (BitVec.ofNat 32 s.hist.counted).toNat := by
      rw [BitVec.ofNat_add, ← hc, ← hb.failed, hsum, ← htotal, hb.total]
    rw [BitVec.toNat_ofNat, BitVec.toNat_ofNat, Nat.mod_eq_of_lt (by omega),
      Nat.mod_eq_of_lt (by omega)] at hbits
    exact hbits
  have hall : s.hist.completed + s.hist.failed = s.pool.head := by omega
  intro pos hpos
  exact ran_of_dequeued hb hr hall (hempty hpending pos hpos)

structure WaitInv (s : State C W) : Prop where
  books : Books s
  records : Records s
  small : s.pool.tasks.length < 2 ^ 32
  knows : ∀ c, Knows s.pool s.hist (s.caller c)
  kept : Kept s
  shut : s.pool.state = .shutdown → ∀ pos ∈ s.hist.accepted, Ran s.hist pos
  returned : s.hist.shutdownReturned = true → s.pool.state ≠ .running

theorem init_waitInv : WaitInv (State.init C W) := by
  refine ⟨init_books, init_records, Nat.two_pow_pos 32, fun c => trivial, ⟨?_, ?_⟩, ?_, ?_⟩
  · intro pos hp
    cases hp
  · intro hr
    cases hr
  · intro hs
    cases hs
  · intro hr
    cases hr

theorem waitInv_grows (h : WaitInv s) (hb : Books s') (hr : Records s') (hg : Grows s s')
    (hsmall : s'.pool.tasks.length < 2 ^ 32) (hknows : ∀ c, Knows s'.pool s'.hist (s'.caller c))
    (hwaited : s'.hist.waited = s.hist.waited)
    (hreturned : s'.hist.shutdownReturned = s.hist.shutdownReturned)
    (hshut : s'.pool.state = .shutdown → ∀ pos ∈ s'.hist.accepted, Ran s'.hist pos) :
    WaitInv s' := by
  refine ⟨hb, hr, hsmall, hknows, ⟨?_, ?_⟩, hshut, ?_⟩
  · intro pos hp
    rw [hwaited] at hp
    exact hg.ranOf (h.kept.waited pos hp)
  · intro hret pos hp
    rw [hreturned] at hret
    rw [(hg.stopped (h.returned hret)).2.1] at hp
    exact hg.ranOf (h.kept.shutdown hret pos hp)
  · intro hret
    rw [hreturned] at hret
    exact (hg.stopped (h.returned hret)).1

theorem shut_grows (h : WaitInv s) (hg : Grows s s') (hstate : s'.pool.state = s.pool.state) :
    s'.pool.state = .shutdown → ∀ pos ∈ s'.hist.accepted, Ran s'.hist pos := by
  intro hs pos hp
  rw [hstate] at hs
  have hne : s.pool.state ≠ .running := by
    rw [hs]
    decide
  rw [(hg.stopped hne).2.1] at hp
  exact hg.ranOf (h.shut hs pos hp)

section Workers
variable [DecidableEq W]

omit [Fintype C] [Fintype W] in
theorem work_grows {s s' : State C W} (w : W) (hs : work s w = some s') :
    Grows s s' ∧ s'.caller = s.caller ∧ s'.pool.tasks = s.pool.tasks ∧
      s'.pool.state = s.pool.state ∧ s'.hist.waited = s.hist.waited ∧
      s'.hist.shutdownReturned = s.hist.shutdownReturned := by
  have hsame : ∀ pc : WorkerPc, Grows s (s.workerGoto w pc) := fun pc =>
    ⟨prefix_refl _, fun _ hx => hx, le_refl _, le_refl _, fun hne => ⟨hne, rfl, rfl⟩⟩
  have hworks := work_cases hs
  generalize s.worker w = pc at hworks
  cases hworks with
  | move => exact ⟨hsame _, rfl, rfl, rfl, rfl, rfl⟩
  | wake => exact ⟨{ hsame .loadState with }, rfl, rfl, rfl, rfl, rfl⟩
  | @take task _ =>
    refine ⟨{ hsame (.incrementRunning s.pool.head task) with head := ?_ }, rfl, rfl, rfl, rfl, rfl⟩
    exact Nat.le_succ _
  | start pos task => exact ⟨{ hsame (.runTask pos task) with }, rfl, rfl, rfl, rfl, rfl⟩
  | @run pos task _ =>
    refine ⟨{ hsame (.callComplete pos task 0) with ran := ?_ }, rfl, rfl, rfl, rfl, rfl⟩
    exact fun x hx => mem_append_left _ hx
  | skip => exact ⟨hsame _, rfl, rfl, rfl, rfl, rfl⟩
  | @report pos task result _ =>
    exact ⟨{ hsame (.countResult pos result) with }, rfl, rfl, rfl, rfl, rfl⟩
  | silent => exact ⟨hsame _, rfl, rfl, rfl, rfl, rfl⟩
  | @succeed pos result _ =>
    refine ⟨{ hsame (.decrementRunning pos) with completed := ?_ }, rfl, rfl, rfl, rfl, rfl⟩
    exact Nat.le_succ _
  | @fail pos result _ =>
    exact ⟨{ hsame (.decrementRunning pos) with }, rfl, rfl, rfl, rfl, rfl⟩
  | finish => exact ⟨{ hsame .semaphoreWait with }, rfl, rfl, rfl, rfl, rfl⟩

theorem work_waitInv {s s' : State C W} (h : WaitInv s) (w : W) (hs : work s w = some s') :
    WaitInv s' := by
  obtain ⟨hg, hcaller, htasks, hstate, hwaited, hreturned⟩ := work_grows w hs
  refine waitInv_grows h (work_books h.books w hs) (work_records h.records w hs) hg
    (htasks ▸ h.small) ?_ hwaited hreturned (shut_grows h hg hstate)
  intro c
  rw [hcaller]
  exact knows_grows (h.knows c) hg (h.books.stopped c)

end Workers

theorem waitRound_ok {s : State C W} (h : WaitInv s) {v : Waiting} {pending : ℕ}
    {running total completed : BitVec 32}
    (hk : Knows s.pool s.hist (.waitFailed v pending running total completed)) :
    WaitingOk s.hist (waitRound v pending running total completed s.pool.failedTasks
      (s.pool.totalTasks = total)).2 := by
  obtain ⟨hw, hempty, htotal, n, hn, hc⟩ := hk
  unfold waitRound
  split
  · exact hw
  · split
    · rename_i hagree
      refine ⟨hw.before, ?_, hw.inShutdown⟩
      intro hset
      dsimp only at hset
      cases hv : v.settled with
      | true => exact hw.settled hv
      | false =>
        rw [hv] at hset
        have hsame : s.pool.totalTasks = total := by simpa using hset
        exact settled_round h.books h.records h.small hempty hagree.1 hn hc hsame hagree.2.2
    · refine ⟨hw.before, ?_, hw.inShutdown⟩
      intro hset
      cases hset

/- A wait that returns has seen the tasks of its call run. -/
theorem waitRound_returns {s : State C W} (h : WaitInv s) {v : Waiting} {pending : ℕ}
    {running total completed : BitVec 32}
    (hk : Knows s.pool s.hist (.waitFailed v pending running total completed))
    (hret : (waitRound v pending running total completed s.pool.failedTasks
      (s.pool.totalTasks = total)).1 = true)
    (hok : v.inShutdown = false → total ≠ 0 → (waitRound v pending running total completed
      s.pool.failedTasks (s.pool.totalTasks = total)).2.settled = true) :
    ∀ pos ∈ v.before, Ran s.hist pos := by
  have hround := waitRound_ok h hk
  obtain ⟨hw, hempty, htotal, n, hn, hc⟩ := hk
  by_cases hzero : total = 0
  · -- nothing had been accepted
    have hlen := htotal.1
    rw [hzero] at hlen
    have hnil : v.before = [] := length_eq_zero_iff.mp (Nat.le_zero.mp hlen)
    rw [hnil]
    intro pos hp
    cases hp
  · cases hin : v.inShutdown with
    | false =>
      have hset := hround.settled (hok hin hzero)
      unfold waitRound at hset
      rw [if_neg hzero] at hset
      split at hset
      · exact hset
      · exact hset
    | true =>
      unfold waitRound at hret
      rw [if_neg hzero] at hret
      split at hret
      · rename_i hagree
        exact settled_round h.books h.records h.small hempty hagree.1 hn hc
          (htotal.2 hin).symm hagree.2.2
      · cases hret

theorem waitRound_before (v : Waiting) (pending : ℕ) (running total completed failed : BitVec 32)
    (settles : Bool) :
    (waitRound v pending running total completed failed settles).2.before = v.before := by
  unfold waitRound
  split
  · rfl
  · split
    · rfl
    · rfl

section Callers
variable [DecidableEq C]

variable {s : State C W}

section
variable (h : WaitInv s)
include h

theorem goto_waitInv (c : C) (pc : CallerPc) (hb : Books (s.goto c pc))
    (hpc : Knows s.pool s.hist pc) (hok : CallerOk s.pool pc) : WaitInv (s.goto c pc) := by
  refine ⟨hb, records_goto h.records c pc hok, h.small, ?_, ⟨h.kept.waited, h.kept.shutdown⟩, h.shut,
    h.returned⟩
  intro c'
  simp only [State.goto, update_apply]
  split
  · exact hpc
  · exact h.knows c'

theorem grown_waitInv (c : C) (pc : CallerPc) {pool : Pool} {hist : History W}
    (hb : Books ⟨pool, Function.update s.caller c pc, s.worker, hist⟩)
    (hr : Records ⟨pool, Function.update s.caller c pc, s.worker, hist⟩)
    (hg : Grows s ⟨pool, Function.update s.caller c pc, s.worker, hist⟩)
    (hsmall : pool.tasks.length < 2 ^ 32) (hpc : Knows pool hist pc)
    (hwaited : hist.waited = s.hist.waited)
    (hreturned : hist.shutdownReturned = s.hist.shutdownReturned)
    (hshut : pool.state = .shutdown → ∀ pos ∈ hist.accepted, Ran hist pos) :
    WaitInv ⟨pool, Function.update s.caller c pc, s.worker, hist⟩ := by
  refine waitInv_grows h hb hr hg hsmall ?_ hwaited hreturned hshut
  intro c'
  by_cases heq : c' = c
  · subst heq
    dsimp only
    rw [update_self]
    exact hpc
  · dsimp only
    rw [update_of_ne heq]
    exact knows_grows (h.knows c') hg (h.books.stopped c')

theorem waitFailed_waitInv {s' : State C W} {c : C} {v : Waiting} {pending : ℕ}
    {running total completed : BitVec 32}
    (hpc : s.caller c = .waitFailed v pending running total completed)
    (hok : StepOk s (.call c .access)) (hb : Books s') (hs : access s c = some s') :
    WaitInv s' := by
  have hk := h.knows c
  rw [hpc] at hk
  have hgrow : ∀ waited : List ℕ, Grows s { s with hist := { s.hist with waited := waited } } :=
    fun waited => ⟨prefix_refl _, fun _ hx => hx, le_refl _, le_refl _,
      fun hne => ⟨hne, rfl, rfl⟩⟩
  have hround := waitRound_ok h hk
  have hv := waitRound_inShutdown v pending running total completed s.pool.failedTasks
    (s.pool.totalTasks = total)
  have hbefore := waitRound_before v pending running total completed s.pool.failedTasks
    (s.pool.totalTasks = total)
  simp only [StepOk, hpc] at hok
  unfold access at hs
  rw [hpc] at hs
  dsimp only at hs
  split at hs
  · rename_i hret
    have hran := waitRound_returns h hk hret (fun hin hne => hok hin hne hret)
    have heq := Option.some.inj hs
    unfold State.waitReturns at heq
    split at heq
    · rename_i hin
      rw [hv] at hin
      subst heq
      refine goto_waitInv h c _ hb ?_ trivial
      intro pos hp
      rw [← hk.1.inShutdown hin] at hp
      exact hran pos hp
    · subst heq
      have hidle := records_goto h.records c .idle trivial
      refine ⟨hb, { hidle with }, h.small, ?_, ⟨?_, h.kept.shutdown⟩, h.shut, h.returned⟩
      · intro c'
        simp only [State.goto, update_apply]
        split
        · trivial
        · exact knows_grows (h.knows c') (hgrow _) (h.books.stopped c')
      · intro pos hp
        cases mem_append.mp hp with
        | inl hold => exact h.kept.waited pos hold
        | inr hnew =>
          rw [hbefore] at hnew
          exact hran pos hnew
  · cases hs
    exact goto_waitInv h c _ hb hround trivial

theorem submit_waitInv {s' : State C W} {c : C} (hin : (s.caller c).inSubmit = true)
    (hok : StepOk s (.call c .access)) (hb : Books s') (hr : Records s')
    (hs : access s c = some s') : WaitInv s' := by
  have hrun := submit_running h.books hin
  have hno : ∀ {P : Prop}, s.pool.state ≠ .running → P := fun hne => absurd hrun hne
  have hopen : s.pool.state = .shutdown → False := by
    rw [hrun]
    intro hs
    cases hs
  unfold access at hs
  cases hpc : s.caller c with
  | submitEnqueue task =>
    simp only [StepOk, hpc] at hok
    rw [hpc] at hs
    cases hs
    refine grown_waitInv h c _ hb hr ⟨prefix_refl _, fun _ hx => hx, le_refl _, le_refl _, hno⟩
      ?_ trivial rfl rfl (fun hs => (hopen hs).elim)
    rw [length_append]
    exact hok
  | submitTotal pos =>
    rw [hpc] at hs
    cases hs
    exact grown_waitInv h c _ hb hr ⟨prefix_refl _, fun _ hx => hx, le_refl _, le_refl _, hno⟩
      h.small trivial rfl rfl (fun hs => (hopen hs).elim)
  | submitPost pos =>
    rw [hpc] at hs
    cases hs
    exact grown_waitInv h c _ hb hr
      ⟨prefix_append _ _, fun _ hx => hx, le_refl _, le_refl _, hno⟩
      h.small trivial rfl rfl (fun hs => (hopen hs).elim)
  | _ =>
    rw [hpc] at hin
    cases hin

theorem shutdown_waitInv {s' : State C W} {c : C} (hb : Books s') (hr : Records s')
    (hs : access s c = some s')
    (hpc : s.caller c = .shutdownExchange ∨ s.caller c = .shutdownStore ∨
      (∃ left, s.caller c = .shutdownPost left) ∨ s.caller c = .shutdownJoin) : WaitInv s' := by
  have hk := h.knows c
  have hgrow : ∀ (pool : Pool) (caller : C → CallerPc) (returned : Bool), pool.head = s.pool.head →
      pool.state ≠ .running → pool.totalTasks = s.pool.totalTasks →
      Grows s ⟨pool, caller, s.worker, { s.hist with shutdownReturned := returned }⟩ :=
    fun pool caller returned hh hne ht => ⟨prefix_refl _, fun _ hx => hx, hh.ge, le_refl _,
      fun _ => ⟨hne, rfl, ht⟩⟩
  unfold access at hs
  rcases hpc with hpc | hpc | ⟨left, hpc⟩ | hpc
  · rw [hpc] at hs
    dsimp only at hs
    split at hs
    · -- the state was SHUTDOWN: an earlier shutdown has seen the tasks run
      rename_i hstate
      cases hs
      have hran := h.shut hstate
      refine ⟨hb, hr, h.small, ?_, ⟨h.kept.waited, fun _ => hran⟩, fun _ => hran, ?_⟩
      · intro c'
        simp only [State.goto, update_apply]
        split
        · trivial
        · exact knows_grows (h.knows c') (hgrow { s.pool with state := .shuttingDown } s.caller true
            rfl (by simp) rfl) (h.books.stopped c')
      · intro _ hr
        cases hr
    · cases hs
      refine grown_waitInv h c _ hb hr
        (hgrow { s.pool with state := .shuttingDown } _ s.hist.shutdownReturned rfl (by simp) rfl)
        h.small ⟨prefix_refl _, (fun hset => by cases hset), fun _ => rfl⟩ rfl rfl ?_
      intro hs
      cases hs
  · rw [hpc] at hs hk
    cases hs
    exact grown_waitInv h c _ hb hr
      (hgrow { s.pool with state := .shutdown } _ s.hist.shutdownReturned rfl (by simp) rfl)
      h.small hk rfl rfl (fun _ => hk)
  · have hne := h.books.stopped c (by rw [hpc]; rfl)
    rw [hpc] at hs hk
    dsimp only at hs
    split at hs
    · cases hs
      exact goto_waitInv h c _ hb hk trivial
    · cases hs
      exact grown_waitInv h c _ hb hr
        (hgrow { s.pool with semaphore := s.pool.semaphore + 1 } _ s.hist.shutdownReturned rfl hne rfl)
        h.small hk rfl rfl (fun _ => hk)
  · have hne := h.books.stopped c (by rw [hpc]; rfl)
    rw [hpc] at hs hk
    dsimp only at hs
    split at hs
    · cases hs
      refine ⟨hb, hr, h.small, ?_, ⟨h.kept.waited, fun _ => hk⟩, fun _ => hk, fun _ => hne⟩
      intro c'
      simp only [State.goto, update_apply]
      split
      · trivial
      · exact knows_grows (h.knows c') (hgrow s.pool s.caller true rfl hne rfl)
          (h.books.stopped c')
    · cases hs

theorem access_waitInv {s' : State C W} (c : C) (hok : StepOk s (.call c .access))
    (hs : access s c = some s') : WaitInv s' := by
  have hfree : NoSubmitOvertaken s (.call c .access) := by
    intro hpc
    simp only [StepOk, hpc] at hok
    exact hok
  have hb := access_books h.books c hfree hs
  have hr := access_records h.records c hs
  have hk := h.knows c
  have hfull := hs
  unfold access at hs
  cases hpc : s.caller c with
  | idle =>
    rw [hpc] at hs
    cases hs
  | submitLoadState task =>
    have hfunc := h.records.callers c
    rw [hpc] at hs hfunc
    dsimp only at hs
    split at hs
    · cases hs
      exact goto_waitInv h c _ hb trivial trivial
    · cases hs
      exact goto_waitInv h c _ hb trivial hfunc
  | submitEnqueue task => exact submit_waitInv h (by rw [hpc]; rfl) hok hb hr hfull
  | submitTotal pos => exact submit_waitInv h (by rw [hpc]; rfl) hok hb hr hfull
  | submitPost pos => exact submit_waitInv h (by rw [hpc]; rfl) hok hb hr hfull
  | waitHead v =>
    rw [hpc] at hs hk
    cases hs
    exact goto_waitInv h c _ hb ⟨hk, le_refl _⟩ trivial
  | waitTail v head =>
    rw [hpc] at hs hk
    cases hs
    refine goto_waitInv h c _ hb ⟨hk.1, ?_⟩ trivial
    -- a queue without elements between the two loads: all that was accepted is taken
    intro hzero pos hp
    have hlt := h.records.acceptedLt pos (hk.1.before.subset hp)
    have hle := hk.2
    unfold queueSize at hzero
    omega
  | waitRunning v pending =>
    rw [hpc] at hs hk
    cases hs
    exact goto_waitInv h c _ hb hk trivial
  | waitTotal v pending running =>
    have hst := h.books.stopped c
    rw [hpc] at hs hk hst
    cases hs
    refine goto_waitInv h c _ hb ⟨hk.1, hk.2, ?_, fun _ => rfl⟩ trivial
    rw [total_toNat h.books h.small]
    exact hk.1.before.length_le.trans (accepted_le_counted h.books)
  | waitCompleted v pending running total =>
    rw [hpc] at hs hk
    cases hs
    exact goto_waitInv h c _ hb ⟨hk.1, hk.2.1, hk.2.2, _, le_refl _, h.books.completed⟩ trivial
  | waitFailed v pending running total completed => exact waitFailed_waitInv h hpc hok hb hfull
  | shutdownExchange => exact shutdown_waitInv h hb hr hfull (.inl hpc)
  | shutdownStore => exact shutdown_waitInv h hb hr hfull (.inr (.inl hpc))
  | shutdownPost left => exact shutdown_waitInv h hb hr hfull (.inr (.inr (.inl ⟨left, hpc⟩)))
  | shutdownJoin => exact shutdown_waitInv h hb hr hfull (.inr (.inr (.inr hpc)))

end

end Callers

section Runs
variable [DecidableEq C] [DecidableEq W]

theorem step_waitInv {s s' : State C W} (h : WaitInv s) (a : Action C W) (hok : StepOk s a)
    (hs : step s a = some s') : WaitInv s' := by
  cases a with
  | work w => exact work_waitInv h w hs
  | call c command =>
    cases command with
    | access => exact access_waitInv h c hok hs
    | callSubmit task =>
      have hb := step_books h.books (.call c (.callSubmit task)) trivial hs
      simp only [step] at hs
      split at hs
      · split at hs
        · rename_i hfunc
          cases hs
          exact goto_waitInv h c _ hb trivial hfunc
        · cases hs
          exact h
      · cases hs
    | callWait =>
      have hb := step_books h.books (.call c .callWait) trivial hs
      simp only [step] at hs
      split at hs
      · cases hs
        refine goto_waitInv h c _ hb ⟨prefix_refl _, ?_, ?_⟩ trivial
        · intro hset
          cases hset
        · intro hin
          cases hin
      · cases hs
    | callShutdown =>
      have hb := step_books h.books (.call c .callShutdown) trivial hs
      simp only [step] at hs
      split at hs
      · cases hs
        exact goto_waitInv h c _ hb trivial trivial
      · cases hs
    | refuse =>
      have hb := step_books h.books (.call c .refuse) trivial hs
      simp only [step] at hs
      split at hs
      · cases hs
        exact goto_waitInv h c _ hb trivial trivial
      · cases hs

end Runs

def submitOf {C W : Type} (c : C) : List (Action C W) :=
  .call c (.callSubmit ⟨true, false⟩) :: List.replicate 4 (.call c .access)

def quietRun : List (Action (Fin 1) (Fin 1)) :=
  submitOf 0 ++ List.replicate 8 (.work 0) ++ .call 0 .callWait :: List.replicate 18 (.call 0 .access)
    ++ .call 0 .callShutdown :: List.replicate 22 (.call 0 .access) ++ List.replicate 2 (.work 0)
    ++ [.call 0 .access]

/- A task that a worker has taken and not begun, three rounds of a wait, and in
   each of them another task that is submitted and run behind the load of the total. -/
def overtakenWait : List (Action (Fin 2) (Fin 2)) :=
  submitOf 0 ++ List.replicate 3 (.work 0) ++ [.call 1 .callWait] ++
    (List.replicate 3 (List.replicate 4 (.call 1 .access) ++ submitOf 0 ++ List.replicate 8 (.work 1)
      ++ List.replicate 2 (.call 1 .access))).flatten

/- A submit that has passed its test of the state before the whole shutdown. -/
def overtakenSubmit : List (Action (Fin 2) (Fin 1)) :=
  [.call 0 (.callSubmit ⟨true, false⟩), .call 0 .access, .call 1 .callShutdown] ++
    List.replicate 10 (.call 1 .access) ++ List.replicate 2 (.work 0) ++ [.call 1 .access] ++
    List.replicate 3 (.call 0 .access)

end Voxlib.Tpool
