import Voxlib.Lib.Run

/-!
# Coroutine scheduling (coroutine/vox_coroutine.c, Unix path)

The state and the caller context of every coroutine, the promise it waits for,
and `s_current_coroutine`. A saved context is the party whose code continues
(`none`: the main program) and, for a coroutine's own context, the call it
continues in.
-/

namespace Voxlib.Coroutine
open Run Option

/-- `vox_coroutine_state_t` (vox_coroutine.h:29-35). -/
inductive State where
  | ready
  | running
  | suspended
  | completed
  | error
  deriving DecidableEq, Repr

/-- Where `co->context` continues: in the entry wrapper, or behind the
`swapcontext` of `vox_coroutine_yield`, called by the user or by
`vox_coroutine_await`. -/
inductive Point where
  | entry
  | inYield
  | inAwait (promise : ℕ)
  deriving DecidableEq, Repr

/-- The scheduling fields of `struct vox_coroutine`. A caller context is
`none` for NULL and `some c` for the saved context of `c`. -/
structure Co where
  state : State := .ready
  callerContext : Option (Option ℕ) := none
  context : Point := .entry
  waitingPromise : Option ℕ := none

/-- The fields of `vox_coroutine_promise_t` that await and complete use. -/
structure Promise where
  completed : Bool := false
  status : ℤ := 0
  waitingCoroutine : Option ℕ := none

/-- All coroutines and promises of one thread. A coroutine that was only
created is READY, so an unused index stands for one still to be created. -/
structure World where
  co : ℕ → Co
  promise : ℕ → Promise
  /-- `s_current_coroutine`. -/
  current : Option ℕ
  /-- The party whose code executes, `none` for the main program. -/
  executing : Option ℕ

def World.init : World := ⟨fun _ => {}, fun _ => {}, none, none⟩

def World.setCo (w : World) (i : ℕ) (c : Co) : World :=
  { w with co := Function.update w.co i c }

def World.setPromise (w : World) (p : ℕ) (x : Promise) : World :=
  { w with promise := Function.update w.promise p x }

variable (w : World)

@[simp] theorem setCo_co_same (i : ℕ) (c : Co) : (w.setCo i c).co i = c := by
  simp [World.setCo]

theorem setCo_co (i j : ℕ) (c : Co) : (w.setCo i c).co j = if j = i then c else w.co j := by
  simp [World.setCo, Function.update_apply]

@[simp] theorem setCo_current (i : ℕ) (c : Co) : (w.setCo i c).current = w.current := rfl

@[simp] theorem setCo_executing (i : ℕ) (c : Co) : (w.setCo i c).executing = w.executing := rfl

@[simp] theorem setCo_promise (i : ℕ) (c : Co) : (w.setCo i c).promise = w.promise := rfl

@[simp] theorem setPromise_co (p : ℕ) (x : Promise) : (w.setPromise p x).co = w.co := rfl

@[simp] theorem setPromise_current (p : ℕ) (x : Promise) :
    (w.setPromise p x).current = w.current := rfl

@[simp] theorem setPromise_executing (p : ℕ) (x : Promise) :
    (w.setPromise p x).executing = w.executing := rfl

/-- What a call does: return to its caller, or leave it for another context. -/
inductive Outcome where
  | ret (rc : ℤ) (w : World)
  | switch (w : World)

def Outcome.world : Outcome → World
  | .ret _ w => w
  | .switch w => w

/-- The tail of `vox_coroutine_await` behind its yield (vox_coroutine.c:365-368). -/
def afterAwait (w : World) (i p : ℕ) : World :=
  (w.setCo i { w.co i with waitingPromise := none }).setPromise p
    { w.promise p with waitingCoroutine := none }

/-- Switch to `co->context`: the entry wrapper of a fresh coroutine sets the
current coroutine and the state (vox_coroutine.c:99-103), a suspended one
continues behind its `swapcontext`, where nothing is set. -/
def enter (w : World) (i : ℕ) : World :=
  match (w.co i).context with
  | .entry =>
    { w.setCo i { w.co i with state := .running } with current := some i, executing := some i }
  | .inYield => { w with executing := some i }
  | .inAwait p => { afterAwait w i p with executing := some i }

/-- `vox_coroutine_resume` (vox_coroutine.c:265-304). -/
def resume (w : World) (i : ℕ) : Outcome :=
  if (w.co i).state = .completed then .ret (-1) w
  else if (w.co i).state = .running then .ret (-1) w
  else
    .switch (enter (w.setCo i { w.co i with
      callerContext := some w.executing
      state := if (w.co i).state = .ready then .running else (w.co i).state }) i)

/-- `vox_coroutine_yield` (vox_coroutine.c:307-333); `pt` is the point that
the `swapcontext` saves. -/
def yieldAt (w : World) (i : ℕ) (pt : Point) : Outcome :=
  if w.current ≠ some i then .ret (-1) w
  else
    let suspended := w.setCo i { w.co i with state := .suspended }
    match (w.co i).callerContext with
    | none => .ret (-1) suspended
    | some c =>
      .switch { w.setCo i { w.co i with state := .suspended, context := pt } with executing := c }

def yield (w : World) (i : ℕ) : Outcome := yieldAt w i .inYield

/-- `vox_coroutine_await` (vox_coroutine.c:336-369). -/
def await (w : World) (i p : ℕ) : Outcome :=
  if w.current ≠ some i then .ret (-1) w
  else if (w.promise p).completed then .ret (w.promise p).status w
  else
    let waiting := (w.setCo i { w.co i with waitingPromise := some p, state := .suspended }).setPromise p
      { w.promise p with waitingCoroutine := some i }
    match yieldAt waiting i (.inAwait p) with
    | .ret _ w' => .ret (w'.promise p).status (afterAwait w' i p)
    | .switch w' => .switch w'

/-- The end of `coroutine_entry_wrapper` (vox_coroutine.c:110-119). Without a
caller context the wrapper runs off its `uc_link`, which is NULL. -/
def complete (w : World) (i : ℕ) : Option World :=
  let ended := { w.setCo i { w.co i with state := .completed } with current := none }
  (w.co i).callerContext.map fun c => { ended with executing := c }

/-- `vox_coroutine_promise_complete`; the queued resume is a later `resume`
of the main program. -/
def promiseComplete (w : World) (p : ℕ) (status : ℤ) : World :=
  if (w.promise p).completed then w
  else w.setPromise p { w.promise p with completed := true, status := status }

inductive Action where
  | resume (i : ℕ)
  | yield
  | await (promise : ℕ)
  | finish
  | promiseComplete (promise : ℕ) (status : ℤ)
  deriving DecidableEq, Repr

/-- One action of the executing party; yield, await and the end of a body
belong to an executing coroutine. -/
def step (w : World) : Action → Option World
  | .resume i => some (resume w i).world
  | .yield => w.executing.map fun i => (yield w i).world
  | .await p => w.executing.map fun i => (await w i p).world
  | .finish => w.executing.bind fun i => complete w i
  | .promiseComplete p status => some (promiseComplete w p status)

/-- The current coroutine is the executing one and RUNNING; in the main
program there is none. -/
def CurrentOk (w : World) : Prop :=
  w.current = w.executing ∧ ∀ i, w.executing = some i → (w.co i).state = .running

/-- `CurrentOk` with its consequences for the executing coroutine: yield and
await of an open promise suspend it, and resuming it is refused. -/
def Scheduled (w : World) : Prop :=
  CurrentOk w ∧ ∀ i, w.executing = some i →
    (∃ w', yield w i = .switch w' ∧ (w'.co i).state = .suspended) ∧
    (∀ p, (w.promise p).completed = false →
      ∃ w', await w i p = .switch w' ∧ (w'.co i).state = .suspended) ∧
    resume w i = .ret (-1) w

/-- The step suspends no coroutine, and ends none that another coroutine
resumed. -/
def NoReturnIntoCaller (w : World) : Action → Prop
  | .yield => False
  | .await p => (w.promise p).completed = true
  | .finish => ∀ i, w.executing = some i → (w.co i).callerContext = some none
  | _ => True

/-- No coroutine is suspended, and whoever executes or is saved as a caller
has been resumed by somebody. -/
structure Inv (w : World) : Prop where
  currentOk : CurrentOk w
  resumed : ∀ i, (w.executing = some i ∨ ∃ k, (w.co k).callerContext = some (some i)) →
    (w.co i).callerContext ≠ none
  started : ∀ i, (w.co i).state = .ready ∧ (w.co i).context = .entry ∨
    (w.co i).state = .running ∨ (w.co i).state = .completed

theorem init_inv : Inv World.init := by
  refine ⟨⟨rfl, ?_⟩, ?_, ?_⟩
  · intro i hi
    cases hi
  · rintro i (hi | ⟨k, hk⟩)
    · cases hi
    · cases hk
  · intro i
    exact Or.inl ⟨rfl, rfl⟩

theorem yieldAt_current (i : ℕ) (pt : Point) (c : Option ℕ) (hcur : w.current = some i)
    (hc : (w.co i).callerContext = some c) : yieldAt w i pt = .switch
      { w.setCo i { w.co i with state := .suspended, context := pt } with executing := c } := by
  simp only [yieldAt, hcur, ne_eq, not_true_eq_false, if_false, hc]

/-- An await of an open promise by the current coroutine gives control to
the caller with the coroutine suspended and the current pointer untouched. -/
theorem await_open (i p : ℕ) (c : Option ℕ) (hcur : w.current = some i)
    (hc : (w.co i).callerContext = some c) (hp : (w.promise p).completed = false) :
    ∃ w', await w i p = .switch w' ∧ w'.executing = c ∧ w'.current = some i ∧
      (w'.co i).state = .suspended := by
  simp only [await, hcur, ne_eq, not_true_eq_false, if_false, hp, Bool.false_eq_true]
  rw [yieldAt_current _ i (.inAwait p) c (by simp [hcur]) (by simp [hc])]
  exact ⟨_, rfl, rfl, by simp [hcur], by simp⟩

theorem resume_running (i : ℕ) (h : (w.co i).state = .running) : resume w i = .ret (-1) w := by
  simp [resume, h]

theorem inv_scheduled (h : Inv w) : Scheduled w := by
  refine ⟨h.currentOk, ?_⟩
  intro i hi
  have hcur : w.current = some i := h.currentOk.1.trans hi
  obtain ⟨c, hc⟩ := ne_none_iff_exists'.mp (h.resumed i (Or.inl hi))
  refine ⟨?_, ?_, resume_running w i (h.currentOk.2 i hi)⟩
  · exact ⟨_, yieldAt_current w i .inYield c hcur hc, by simp⟩
  · intro p hp
    obtain ⟨w', hw', _, _, hs⟩ := await_open w i p c hcur hc hp
    exact ⟨w', hw', hs⟩

theorem resume_cases (h : Inv w) (i : ℕ) : resume w i = .ret (-1) w ∨
    (w.co i).state = .ready ∧ resume w i = .switch
      { w.setCo i { w.co i with callerContext := some w.executing, state := .running } with
        current := some i, executing := some i } := by
  rcases h.started i with ⟨hr, hp⟩ | hr | hr
  · right
    refine ⟨hr, ?_⟩
    simp [resume, hr, enter, hp, World.setCo]
  · exact Or.inl (resume_running w i hr)
  · left
    simp [resume, hr]

theorem resume_inv (h : Inv w) (i : ℕ) : Inv (resume w i).world := by
  rcases resume_cases w h i with hr | ⟨hready, hr⟩
  · rw [hr]
    exact h
  · rw [hr]
    refine ⟨⟨rfl, ?_⟩, ?_, ?_⟩
    · intro j hj
      have hij : i = j := some.inj hj
      subst hij
      simp [Outcome.world]
    · intro j hj
      by_cases hji : j = i
      · subst hji
        simp [Outcome.world]
      · have hold : (w.co j).callerContext ≠ none := by
          apply h.resumed j
          rcases hj with hj | ⟨k, hk⟩
          · exact absurd (some.inj hj).symm hji
          · by_cases hki : k = i
            · subst hki
              left
              simpa [Outcome.world] using hk
            · right
              exact ⟨k, by simpa [Outcome.world, setCo_co, hki] using hk⟩
        simpa [Outcome.world, setCo_co, hji] using hold
    · intro j
      by_cases hji : j = i
      · subst hji
        simp [Outcome.world]
      · simpa [Outcome.world, setCo_co, hji] using h.started j

theorem complete_caller (w w' : World) (i : ℕ) (c : Option ℕ)
    (hc : (w.co i).callerContext = some c) (hw : complete w i = some w') :
    w' = { w.setCo i { w.co i with state := .completed } with current := none, executing := c } := by
  simp only [complete, hc, map_some, Option.some.injEq] at hw ⊢
  exact hw.symm

theorem complete_inv (w w' : World) (h : Inv w) (i : ℕ)
    (hc : (w.co i).callerContext = some none) (hw : complete w i = some w') : Inv w' := by
  have hw' := complete_caller w w' i none hc hw
  subst hw'
  refine ⟨⟨rfl, ?_⟩, ?_, ?_⟩
  · intro j hj
    cases hj
  · intro j hj
    have hcaller : ∀ k, ((w.setCo i { w.co i with state := .completed }).co k).callerContext =
        (w.co k).callerContext := by
      intro k
      rw [setCo_co]
      split
      · rename_i hk
        rw [hk]
      · rfl
    rcases hj with hj | ⟨k, hk⟩
    · cases hj
    · have hold := h.resumed j (Or.inr ⟨k, by rw [← hcaller k]; exact hk⟩)
      intro hn
      exact hold ((hcaller j).symm.trans hn)
  · intro j
    by_cases hji : j = i
    · subst hji
      simp
    · simpa [setCo_co, hji] using h.started j

theorem promiseComplete_inv (h : Inv w) (p : ℕ) (status : ℤ) :
    Inv (promiseComplete w p status) := by
  unfold promiseComplete
  split
  · exact h
  · exact ⟨h.currentOk, h.resumed, h.started⟩

/-- Step lemma: the invariant survives every step that returns into no caller. -/
theorem step_inv (a : Action) (w' : World) (h : Inv w) (hok : NoReturnIntoCaller w a)
    (hs : step w a = some w') : Inv w' := by
  cases a with
  | resume i =>
    have hw : (resume w i).world = w' := some.inj hs
    exact hw ▸ resume_inv w h i
  | yield => exact hok.elim
  | await p =>
    obtain ⟨i, hi, hw⟩ := map_eq_some_iff.mp hs
    have hcur : w.current = some i := h.currentOk.1.trans hi
    have hp : (w.promise p).completed = true := hok
    have hret : await w i p = .ret (w.promise p).status w := by
      simp [await, hcur, hp]
    rw [hret] at hw
    exact hw ▸ h
  | finish =>
    obtain ⟨i, hi, hw⟩ := bind_eq_some_iff.mp hs
    exact complete_inv w w' h i (hok i hi) hw
  | promiseComplete p status =>
    have hw : promiseComplete w p status = w' := some.inj hs
    exact hw ▸ promiseComplete_inv w h p status

theorem suspended_not_scheduled (w' : World) (i : ℕ) (hcur : w'.current = some i)
    (hsus : (w'.co i).state = .suspended) : ¬ Scheduled w' := by
  intro hsch
  have hexec : w'.executing = some i := hsch.1.1.symm.trans hcur
  have hrun := hsch.1.2 i hexec
  rw [hsus] at hrun
  cases hrun

theorem scheduled_step_ok (a : Action) (w' : World) (h : Inv w) (hs : step w a = some w')
    (hsch : Scheduled w') : NoReturnIntoCaller w a := by
  cases a with
  | resume i => trivial
  | yield =>
    obtain ⟨i, hi, hw⟩ := map_eq_some_iff.mp hs
    have hcur : w.current = some i := h.currentOk.1.trans hi
    obtain ⟨c, hc⟩ := ne_none_iff_exists'.mp (h.resumed i (Or.inl hi))
    rw [yield, yieldAt_current w i .inYield c hcur hc] at hw
    subst hw
    exact suspended_not_scheduled _ i (by simp [Outcome.world, hcur]) (by simp [Outcome.world]) hsch
  | await p =>
    obtain ⟨i, hi, hw⟩ := map_eq_some_iff.mp hs
    have hcur : w.current = some i := h.currentOk.1.trans hi
    obtain ⟨c, hc⟩ := ne_none_iff_exists'.mp (h.resumed i (Or.inl hi))
    by_contra hopen
    have hp : (w.promise p).completed = false := by simpa [NoReturnIntoCaller] using hopen
    obtain ⟨w'', hw'', _, hcur', hsus⟩ := await_open w i p c hcur hc hp
    rw [hw''] at hw
    subst hw
    exact suspended_not_scheduled _ i hcur' hsus hsch
  | finish =>
    obtain ⟨j, hj, hw⟩ := bind_eq_some_iff.mp hs
    intro i hi
    have hij : i = j := some.inj (hi.symm.trans hj)
    subst hij
    obtain ⟨c, hc⟩ := ne_none_iff_exists'.mp (h.resumed i (Or.inl hi))
    have hw' := complete_caller w w' i c hc hw
    subst hw'
    have hnone : none = c := hsch.1.1
    rw [hc, ← hnone]
  | promiseComplete p status => trivial

/-- Every state of a run is scheduled exactly when no step of the run
suspends a coroutine or ends one that another coroutine resumed. -/
theorem scheduled_iff_no_return_into_caller (as : List Action) :
    Along step Scheduled World.init as ↔ Guarded step NoReturnIntoCaller World.init as :=
  along_iff_guarded inv_scheduled step_inv scheduled_step_ok init_inv

/-- The main program resumes coroutine 0, which yields: the main program
then runs with coroutine 0 as the current one. -/
theorem yield_leaves_current :
    ∃ w, exec step World.init [.resume 0, .yield] = some w ∧ w.executing = none ∧
      w.current = some 0 ∧ ¬ Scheduled w := by
  refine ⟨_, rfl, rfl, rfl, ?_⟩
  intro hsch
  have hcur := hsch.1.1
  cases hcur

end Voxlib.Coroutine
