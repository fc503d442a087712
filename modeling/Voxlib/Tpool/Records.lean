import Voxlib.Tpool

/-!
# The tasks of the thread pool

Every task taken from the queue is taken once, by the worker that runs and reports it.
-/

namespace Voxlib.Tpool
open Run List Function

variable {C W : Type}

def WorkerOk (pool : Pool) (hist : History W) (w : W) : WorkerPc → Prop
  | .incrementRunning pos task =>
    pool.tasks[pos]? = some task ∧ (w, pos) ∈ hist.dequeued ∧ pos ∉ hist.ran.map Prod.snd
  | .runTask pos task =>
    pool.tasks[pos]? = some task ∧ (w, pos) ∈ hist.dequeued ∧ pos ∉ hist.ran.map Prod.snd
  | .callComplete pos task _ =>
    pool.tasks[pos]? = some task ∧ (w, pos) ∈ hist.ran ∧ pos ∉ hist.called.map Prod.snd
  | _ => True

def CallerOk (pool : Pool) : CallerPc → Prop
  | .submitLoadState task => task.taskFunc = true
  | .submitEnqueue task => task.taskFunc = true
  | .submitTotal pos => pos < pool.tasks.length
  | .submitPost pos => pos < pool.tasks.length
  | _ => True

def WorkerPc.toRun (pc : WorkerPc) (pos : ℕ) : Prop :=
  ∃ task, pc = .incrementRunning pos task ∨ pc = .runTask pos task

def WorkerPc.toReport (pc : WorkerPc) (pos : ℕ) : Prop := ∃ task result, pc = .callComplete pos task result

structure Records (s : State C W) : Prop where
  funcs : ∀ task ∈ s.pool.tasks, task.taskFunc = true
  headLe : s.pool.head ≤ s.pool.tasks.length
  acceptedLt : ∀ pos ∈ s.hist.accepted, pos < s.pool.tasks.length
  dequeued : s.hist.dequeued.map Prod.snd = List.range s.pool.head
  ranDequeued : ∀ x ∈ s.hist.ran, x ∈ s.hist.dequeued
  ranNodup : (s.hist.ran.map Prod.snd).Nodup
  calledRan : ∀ x ∈ s.hist.called, x ∈ s.hist.ran
  calledNodup : (s.hist.called.map Prod.snd).Nodup
  dequeuedRan : ∀ w pos, (w, pos) ∈ s.hist.dequeued →
    (w, pos) ∈ s.hist.ran ∨ (s.worker w).toRun pos
  ranCalled : ∀ w pos, (w, pos) ∈ s.hist.ran → ∀ task, s.pool.tasks[pos]? = some task →
    task.completeFunc = true → (w, pos) ∈ s.hist.called ∨ (s.worker w).toReport pos
  workers : ∀ w, WorkerOk s.pool s.hist w (s.worker w)
  callers : ∀ c, CallerOk s.pool (s.caller c)

theorem init_records : Records (State.init C W) := by
  refine ⟨?_, le_refl _, ?_, rfl, ?_, nodup_nil, ?_, nodup_nil, ?_, ?_, ?_, ?_⟩
  · intro task h
    cases h
  · intro pos h
    cases h
  · intro x h
    cases h
  · intro x h
    cases h
  · intro w pos h
    cases h
  · intro w pos h
    cases h
  · intro w
    trivial
  · intro c
    trivial

theorem dequeued_unique {s : State C W} (h : Records s) {w w' : W} {pos : ℕ}
    (hw : (w, pos) ∈ s.hist.dequeued) (hw' : (w', pos) ∈ s.hist.dequeued) : w = w' := by
  have hnodup : (s.hist.dequeued.map Prod.snd).Nodup := by
    rw [h.dequeued]
    exact nodup_range
  have heq := inj_on_of_nodup_map hnodup hw hw' rfl
  exact (Prod.mk.inj heq).1

theorem dequeued_lt {s : State C W} (h : Records s) {w : W} {pos : ℕ}
    (hw : (w, pos) ∈ s.hist.dequeued) : pos < s.pool.head := by
  have hmem := mem_map_of_mem (f := Prod.snd) hw
  rw [h.dequeued] at hmem
  exact mem_range.mp hmem

theorem not_mem_append_new {l : List (W × ℕ)} {w : W} {pos pos' : ℕ} (h : pos' ∉ l.map Prod.snd)
    (hne : pos' ≠ pos) : pos' ∉ (l ++ [(w, pos)]).map Prod.snd := by
  rw [map_append, map_singleton]
  intro hmem
  cases mem_append.mp hmem with
  | inl hold => exact h hold
  | inr hnew => exact hne (mem_singleton.mp hnew)

theorem nodup_append_new {l : List (W × ℕ)} {w : W} {pos : ℕ} (h : (l.map Prod.snd).Nodup)
    (hnew : pos ∉ l.map Prod.snd) : ((l ++ [(w, pos)]).map Prod.snd).Nodup := by
  rw [map_append, map_singleton]
  refine nodup_append.mpr ⟨h, nodup_singleton _, ?_⟩
  intro a ha b hb heq
  rw [heq, mem_singleton.mp hb] at ha
  exact hnew ha

section Callers
variable [DecidableEq C]

variable {s : State C W}

theorem records_goto (h : Records s) (c : C) (pc : CallerPc) (hpc : CallerOk s.pool pc) :
    Records (s.goto c pc) := by
  refine { h with callers := ?_ }
  intro c'
  simp only [State.goto, update_apply]
  split
  · exact hpc
  · exact h.callers c'

theorem callerOk_append {pool : Pool} {pc : CallerPc} (task : Task) (h : CallerOk pool pc) :
    CallerOk { pool with tasks := pool.tasks ++ [task] } pc := by
  cases pc with
  | submitTotal pos =>
    simp only [CallerOk, length_append] at h ⊢
    omega
  | submitPost pos =>
    simp only [CallerOk, length_append] at h ⊢
    omega
  | _ => exact h

theorem getElem?_of_append {tasks : List Task} {task : Task} {pos : ℕ} {x : Task}
    (hpos : pos < tasks.length) : (tasks ++ [task])[pos]? = some x ↔ tasks[pos]? = some x := by
  rw [List.getElem?_append_left hpos]

theorem enqueue_records (h : Records s) {c : C} {task : Task}
    (hpc : s.caller c = .submitEnqueue task) :
    Records { s.goto c (.submitTotal s.pool.tasks.length) with
      pool := { s.pool with tasks := s.pool.tasks ++ [task] } } := by
  have hfunc : task.taskFunc = true := by
    have := h.callers c
    rwa [hpc] at this
  have hlt : ∀ {w : W} {pos : ℕ}, (w, pos) ∈ s.hist.dequeued → pos < s.pool.tasks.length :=
    fun hw => (dequeued_lt h hw).trans_le h.headLe
  refine ⟨?_, ?_, ?_, h.dequeued, h.ranDequeued, h.ranNodup, h.calledRan, h.calledNodup,
    h.dequeuedRan, ?_, ?_, ?_⟩
  · intro t ht
    cases mem_append.mp ht with
    | inl hold => exact h.funcs t hold
    | inr hnew =>
      rw [mem_singleton.mp hnew]
      exact hfunc
  · have := h.headLe
    simp only [length_append]
    omega
  · intro pos hp
    have := h.acceptedLt pos hp
    simp only [length_append]
    omega
  · intro w pos hw t ht
    exact h.ranCalled w pos hw t ((getElem?_of_append (hlt (h.ranDequeued _ hw))).mp ht)
  · intro w
    have hok := h.workers w
    simp only [State.goto]
    cases hw : s.worker w with
    | incrementRunning pos t =>
      rw [hw] at hok
      exact ⟨(getElem?_of_append (hlt hok.2.1)).mpr hok.1, hok.2⟩
    | runTask pos t =>
      rw [hw] at hok
      exact ⟨(getElem?_of_append (hlt hok.2.1)).mpr hok.1, hok.2⟩
    | callComplete pos t result =>
      rw [hw] at hok
      exact ⟨(getElem?_of_append (hlt (h.ranDequeued _ hok.2.1))).mpr hok.1, hok.2⟩
    | _ => trivial
  · intro c'
    simp only [State.goto, update_apply]
    split
    · simp [CallerOk]
    · exact callerOk_append task (h.callers c')

theorem post_records (h : Records s) {c : C} {pos : ℕ} (hpc : s.caller c = .submitPost pos) :
    Records { s.goto c .idle with
      pool := { s.pool with semaphore := s.pool.semaphore + 1 }
      hist := { s.hist with accepted := s.hist.accepted ++ [pos] } } := by
  have hpos : pos < s.pool.tasks.length := by
    have := h.callers c
    rwa [hpc] at this
  have hgo := records_goto h c .idle trivial
  refine { hgo with acceptedLt := ?_ }
  intro p hp
  cases mem_append.mp hp with
  | inl hold => exact h.acceptedLt p hold
  | inr hnew =>
    rw [mem_singleton.mp hnew]
    exact hpos

theorem waitReturns_records (h : Records s) (c : C) (v : Waiting) :
    Records (s.waitReturns c v) := by
  unfold State.waitReturns
  split
  · exact records_goto h c _ trivial
  · have hgo := records_goto h c .idle trivial
    exact { hgo with }

theorem access_records [Fintype W] {s' : State C W} (h : Records s) (c : C)
    (hs : access s c = some s') : Records s' := by
  have hok := h.callers c
  unfold access at hs
  cases hpc : s.caller c with
  | idle =>
    rw [hpc] at hs
    cases hs
  | submitLoadState task =>
    rw [hpc] at hs hok
    dsimp only at hs
    split at hs
    · cases hs
      exact records_goto h c _ trivial
    · cases hs
      exact records_goto h c _ hok
  | submitEnqueue task =>
    rw [hpc] at hs
    cases hs
    exact enqueue_records h hpc
  | submitTotal pos =>
    rw [hpc] at hs hok
    cases hs
    have hgo := records_goto h c (.submitPost pos) hok
    exact { hgo with }
  | submitPost pos =>
    rw [hpc] at hs
    cases hs
    exact post_records h hpc
  | waitFailed v pending running total completed =>
    rw [hpc] at hs
    dsimp only at hs
    split at hs
    · cases hs
      exact waitReturns_records h c _
    · cases hs
      exact records_goto h c _ trivial
  | shutdownExchange =>
    rw [hpc] at hs
    dsimp only at hs
    split at hs
    · cases hs
      have hgo := records_goto h c .idle trivial
      exact { hgo with }
    · cases hs
      have hgo := records_goto h c (.waitHead { inShutdown := true, before := s.hist.accepted })
        trivial
      exact { hgo with }
  | shutdownStore =>
    rw [hpc] at hs
    cases hs
    have hgo := records_goto h c (.shutdownPost (Fintype.card W)) trivial
    exact { hgo with }
  | shutdownPost left =>
    rw [hpc] at hs
    dsimp only at hs
    split at hs
    · cases hs
      exact records_goto h c _ trivial
    · cases hs
      have hgo := records_goto h c (.shutdownPost (left - 1)) trivial
      exact { hgo with }
  | shutdownJoin =>
    rw [hpc] at hs
    dsimp only at hs
    split at hs
    · cases hs
      have hgo := records_goto h c .idle trivial
      exact { hgo with }
    · cases hs
  | _ =>
    rw [hpc] at hs
    cases hs
    exact records_goto h c _ trivial

end Callers

section Workers
variable [DecidableEq W]

variable {s : State C W}

theorem records_workerGoto (h : Records s) (w : W) (pc : WorkerPc)
    (hrun : ∀ pos, (s.worker w).toRun pos → pc.toRun pos)
    (hreport : ∀ pos task, s.pool.tasks[pos]? = some task → task.completeFunc = true →
      (s.worker w).toReport pos → pc.toReport pos) (hpc : WorkerOk s.pool s.hist w pc) :
    Records (s.workerGoto w pc) := by
  refine { h with dequeuedRan := ?_, ranCalled := ?_, workers := ?_ }
  · intro w' pos hw
    have hold := h.dequeuedRan w' pos hw
    simp only [State.workerGoto, update_apply]
    split
    · rename_i heq
      subst heq
      exact hold.imp id (hrun pos)
    · exact hold
  · intro w' pos hw task ht hc
    have hold := h.ranCalled w' pos hw task ht hc
    simp only [State.workerGoto, update_apply]
    split
    · rename_i heq
      subst heq
      exact hold.imp id (hreport pos task ht hc)
    · exact hold
  · intro w'
    simp only [State.workerGoto, update_apply]
    split
    · rename_i heq
      subst heq
      exact hpc
    · exact h.workers w'

theorem records_free (h : Records s) (w : W) (pc : WorkerPc)
    (hrun : ∀ pos, ¬ (s.worker w).toRun pos) (hreport : ∀ pos, ¬ (s.worker w).toReport pos)
    (hpc : WorkerOk s.pool s.hist w pc) : Records (s.workerGoto w pc) :=
  records_workerGoto h w pc (fun pos hp => absurd hp (hrun pos))
    (fun pos _ _ _ hp => absurd hp (hreport pos)) hpc

theorem dequeue_records (h : Records s) {w : W} {task : Task} (hpc : s.worker w = .dequeue)
    (htask : s.pool.tasks[s.pool.head]? = some task) :
    Records { s.workerGoto w (.incrementRunning s.pool.head task) with
      pool := { s.pool with head := s.pool.head + 1 }
      hist := { s.hist with dequeued := s.hist.dequeued ++ [(w, s.pool.head)] } } := by
  have hlt := (List.getElem?_eq_some_iff.mp htask).1
  have hnew : s.pool.head ∉ s.hist.ran.map Prod.snd := by
    intro hmem
    obtain ⟨x, hx, heq⟩ := mem_map.mp hmem
    have := dequeued_lt h (h.ranDequeued x hx)
    omega
  refine ⟨h.funcs, hlt, h.acceptedLt, ?_, ?_, h.ranNodup, h.calledRan, h.calledNodup, ?_, ?_, ?_,
    h.callers⟩
  · rw [map_append, h.dequeued, range_succ]
    rfl
  · intro x hx
    exact mem_append_left _ (h.ranDequeued x hx)
  · intro w' pos hw
    simp only [State.workerGoto, update_apply]
    cases mem_append.mp hw with
    | inl hold =>
      have hcase := h.dequeuedRan w' pos hold
      split
      · rename_i heq
        subst heq
        refine hcase.imp id (fun hrun => ?_)
        obtain ⟨t, ht⟩ := hrun
        rw [hpc] at ht
        rcases ht with ht | ht <;> cases ht
      · exact hcase
    | inr hnew =>
      obtain ⟨rfl, rfl⟩ := Prod.mk.inj (mem_singleton.mp hnew)
      rw [if_pos rfl]
      exact .inr ⟨task, .inl rfl⟩
  · intro w' pos hw t ht hc
    have hcase := h.ranCalled w' pos hw t ht hc
    simp only [State.workerGoto, update_apply]
    split
    · rename_i heq
      subst heq
      refine hcase.imp id (fun hrep => ?_)
      obtain ⟨t', r', ht'⟩ := hrep
      rw [hpc] at ht'
      cases ht'
    · exact hcase
  · intro w'
    have hok := h.workers w'
    simp only [State.workerGoto, update_apply]
    split
    · rename_i heq
      subst heq
      exact ⟨htask, mem_append_right _ (mem_singleton.mpr rfl), hnew⟩
    · cases hw' : s.worker w' with
      | incrementRunning pos t =>
        rw [hw'] at hok
        exact ⟨hok.1, mem_append_left _ hok.2.1, hok.2.2⟩
      | runTask pos t =>
        rw [hw'] at hok
        exact ⟨hok.1, mem_append_left _ hok.2.1, hok.2.2⟩
      | callComplete pos t result =>
        rw [hw'] at hok
        exact hok
      | _ => trivial

theorem run_records (h : Records s) {w : W} {pos : ℕ} {task : Task}
    (hpc : s.worker w = .runTask pos task) :
    Records { s.workerGoto w (.callComplete pos task 0) with
      hist := { s.hist with ran := s.hist.ran ++ [(w, pos)] } } := by
  have hok := h.workers w
  rw [hpc] at hok
  obtain ⟨htask, hdeq, hnew⟩ := hok
  have hother : ∀ {w' : W} {pos' : ℕ}, w' ≠ w → (w', pos') ∈ s.hist.dequeued → pos' ≠ pos := by
    intro w' pos' hne hmem heq
    subst heq
    exact hne (dequeued_unique h hmem hdeq)
  refine ⟨h.funcs, h.headLe, h.acceptedLt, h.dequeued, ?_, nodup_append_new h.ranNodup hnew, ?_,
    h.calledNodup, ?_, ?_, ?_, h.callers⟩
  · intro x hx
    cases mem_append.mp hx with
    | inl hold => exact h.ranDequeued x hold
    | inr hnew => exact (mem_singleton.mp hnew) ▸ hdeq
  · intro x hx
    exact mem_append_left _ (h.calledRan x hx)
  · intro w' pos' hw
    have hcase := h.dequeuedRan w' pos' hw
    simp only [State.workerGoto, update_apply]
    cases hcase with
    | inl hran => exact .inl (mem_append_left _ hran)
    | inr hrun =>
      by_cases heq : w' = w
      · subst heq
        obtain ⟨t, ht⟩ := hrun
        rw [hpc] at ht
        rcases ht with ht | ht
        · cases ht
        · obtain ⟨rfl, rfl⟩ := WorkerPc.runTask.inj ht
          exact .inl (mem_append_right _ (mem_singleton.mpr rfl))
      · rw [if_neg heq]
        exact .inr hrun
  · intro w' pos' hw t ht hc
    simp only [State.workerGoto, update_apply]
    by_cases heq : w' = w
    · subst heq
      rw [if_pos rfl]
      cases mem_append.mp hw with
      | inl hold =>
        refine (h.ranCalled w' pos' hold t ht hc).imp id (fun hrep => ?_)
        obtain ⟨t', r', ht'⟩ := hrep
        rw [hpc] at ht'
        cases ht'
      | inr hnew =>
        obtain ⟨-, rfl⟩ := Prod.mk.inj (mem_singleton.mp hnew)
        exact .inr ⟨task, 0, rfl⟩
    · rw [if_neg heq]
      cases mem_append.mp hw with
      | inl hold => exact h.ranCalled w' pos' hold t ht hc
      | inr hnew => exact absurd (Prod.mk.inj (mem_singleton.mp hnew)).1 heq
  · intro w'
    have hok' := h.workers w'
    simp only [State.workerGoto, update_apply]
    by_cases heq : w' = w
    · subst heq
      rw [if_pos rfl]
      refine ⟨htask, mem_append_right _ (mem_singleton.mpr rfl), ?_⟩
      intro hmem
      obtain ⟨x, hx, hxp⟩ := mem_map.mp hmem
      exact hnew (mem_map.mpr ⟨x, h.calledRan x hx, hxp⟩)
    · rw [if_neg heq]
      cases hw' : s.worker w' with
      | incrementRunning pos' t =>
        rw [hw'] at hok'
        exact ⟨hok'.1, hok'.2.1, not_mem_append_new hok'.2.2 (hother heq hok'.2.1)⟩
      | runTask pos' t =>
        rw [hw'] at hok'
        exact ⟨hok'.1, hok'.2.1, not_mem_append_new hok'.2.2 (hother heq hok'.2.1)⟩
      | callComplete pos' t result =>
        rw [hw'] at hok'
        exact ⟨hok'.1, mem_append_left _ hok'.2.1, hok'.2.2⟩
      | _ => trivial

theorem call_records (h : Records s) {w : W} {pos : ℕ} {task : Task} {result : ℤ}
    (hpc : s.worker w = .callComplete pos task result) :
    Records { s.workerGoto w (.countResult pos result) with
      hist := { s.hist with called := s.hist.called ++ [(w, pos)] } } := by
  have hok := h.workers w
  rw [hpc] at hok
  obtain ⟨htask, hran, hnew⟩ := hok
  refine ⟨h.funcs, h.headLe, h.acceptedLt, h.dequeued, h.ranDequeued, h.ranNodup, ?_,
    nodup_append_new h.calledNodup hnew, ?_, ?_, ?_, h.callers⟩
  · intro x hx
    cases mem_append.mp hx with
    | inl hold => exact h.calledRan x hold
    | inr hnew => exact (mem_singleton.mp hnew) ▸ hran
  · intro w' pos' hw
    have hcase := h.dequeuedRan w' pos' hw
    simp only [State.workerGoto, update_apply]
    split
    · rename_i heq
      subst heq
      refine hcase.imp id (fun hrun => ?_)
      obtain ⟨t, ht⟩ := hrun
      rw [hpc] at ht
      rcases ht with ht | ht <;> cases ht
    · exact hcase
  · intro w' pos' hw t ht hc
    have hcase := h.ranCalled w' pos' hw t ht hc
    simp only [State.workerGoto, update_apply]
    cases hcase with
    | inl hold => exact .inl (mem_append_left _ hold)
    | inr hrep =>
      by_cases heq : w' = w
      · subst heq
        obtain ⟨t', r', ht'⟩ := hrep
        rw [hpc] at ht'
        obtain ⟨rfl, -, -⟩ := WorkerPc.callComplete.inj ht'
        exact .inl (mem_append_right _ (mem_singleton.mpr rfl))
      · rw [if_neg heq]
        exact .inr hrep
  · intro w'
    have hok' := h.workers w'
    simp only [State.workerGoto, update_apply]
    by_cases heq : w' = w
    · rw [if_pos heq]
      trivial
    · rw [if_neg heq]
      cases hw' : s.worker w' with
      | incrementRunning pos' t =>
        rw [hw'] at hok'
        exact hok'
      | runTask pos' t =>
        rw [hw'] at hok'
        exact hok'
      | callComplete pos' t r =>
        rw [hw'] at hok'
        refine ⟨hok'.1, hok'.2.1, not_mem_append_new hok'.2.2 ?_⟩
        intro hsame
        subst hsame
        exact heq (dequeued_unique h (h.ranDequeued _ hok'.2.1) (h.ranDequeued _ hran))
      | _ => trivial

omit [DecidableEq W] in
theorem Moves.free {p : Pool} {pc pc' : WorkerPc} (h : Moves p pc pc') (hist : History W) (w : W) :
    (∀ pos, ¬ pc.toRun pos) ∧ (∀ pos, ¬ pc.toReport pos) ∧ WorkerOk p hist w pc' := by
  cases h with
  | _ => exact ⟨by simp [WorkerPc.toRun], by simp [WorkerPc.toReport], trivial⟩

theorem work_records {s' : State C W} (h : Records s) (w : W) (hs : work s w = some s') :
    Records s' := by
  have hworks := work_cases hs
  have hok := h.workers w
  have hfree : ∀ pc : WorkerPc, (∀ pos, ¬ (s.worker w).toRun pos) →
      (∀ pos, ¬ (s.worker w).toReport pos) → WorkerOk s.pool s.hist w pc →
      Records (s.workerGoto w pc) := fun pc => records_free h w pc
  generalize hpc : s.worker w = pc at hworks hok hfree
  cases hworks with
  | move hm =>
    obtain ⟨hrun, hreport, hplace⟩ := hm.free s.hist w
    exact hfree _ hrun hreport hplace
  | wake =>
    have hgo := hfree .loadState (by simp [WorkerPc.toRun]) (by simp [WorkerPc.toReport]) trivial
    exact { hgo with }
  | take htask => exact dequeue_records h hpc htask
  | start pos task =>
    have hgo : Records (s.workerGoto w (.runTask pos task)) := by
      refine records_workerGoto h w _ ?_ ?_ hok
      · rw [hpc]
        intro pos' hrun
        obtain ⟨t, ht⟩ := hrun
        rcases ht with ht | ht
        · obtain ⟨rfl, rfl⟩ := WorkerPc.incrementRunning.inj ht
          exact ⟨task, .inr rfl⟩
        · cases ht
      · rw [hpc]
        intro pos' t' _ _ hrep
        obtain ⟨t, r, ht⟩ := hrep
        cases ht
    exact { hgo with }
  | run => exact run_records h hpc
  | @skip pos task hnone => exact absurd (h.funcs task (mem_of_getElem? hok.1)) hnone
  | report => exact call_records h hpc
  | @silent pos task result hnone =>
    refine records_workerGoto h w _ ?_ ?_ trivial
    · rw [hpc]
      intro pos' hrun
      obtain ⟨t, ht⟩ := hrun
      rcases ht with ht | ht <;> cases ht
    · rw [hpc]
      intro pos' t ht hc hrep
      obtain ⟨t', r, heq⟩ := hrep
      obtain ⟨rfl, -, -⟩ := WorkerPc.callComplete.inj heq
      have hsame : task = t := Option.some.inj (hok.1.symm.trans ht)
      rw [hsame] at hnone
      exact absurd hc hnone
  | @succeed pos result _ =>
    have hgo := hfree (.decrementRunning pos) (by simp [WorkerPc.toRun])
      (by simp [WorkerPc.toReport]) trivial
    exact { hgo with }
  | @fail pos result _ =>
    have hgo := hfree (.decrementRunning pos) (by simp [WorkerPc.toRun])
      (by simp [WorkerPc.toReport]) trivial
    exact { hgo with }
  | finish =>
    have hgo := hfree .semaphoreWait (by simp [WorkerPc.toRun]) (by simp [WorkerPc.toReport])
      trivial
    exact { hgo with }

end Workers

theorem step_records [DecidableEq C] [DecidableEq W] [Fintype W] {s s' : State C W} (h : Records s)
    (a : Action C W) (hs : step s a = some s') : Records s' := by
  cases a with
  | work w => exact work_records h w hs
  | call c command =>
    cases command with
    | access => exact access_records h c hs
    | callSubmit task =>
      simp only [step] at hs
      split at hs
      · split at hs
        · rename_i hfunc
          cases hs
          exact records_goto h c _ hfunc
        · cases hs
          exact h
      · cases hs
    | callWait =>
      simp only [step] at hs
      split at hs
      · cases hs
        exact records_goto h c _ trivial
      · cases hs
    | callShutdown =>
      simp only [step] at hs
      split at hs
      · cases hs
        exact records_goto h c _ trivial
      · cases hs
    | refuse =>
      simp only [step] at hs
      split at hs
      · cases hs
        exact records_goto h c _ trivial
      · cases hs

end Voxlib.Tpool
