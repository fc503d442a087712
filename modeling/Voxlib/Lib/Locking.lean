import Voxlib.Lib.Run

/-!
# Activations that share one lock

`scan` reads off the events of an activation whether it holds the lock; `Clean` judges its code.
-/

namespace Voxlib.Locking

variable {σ L P ρ E : Type}

/-- What is left of an activation. `L` labels decisions, `P` names procedures, which give back a
`ρ`. -/
inductive Code (σ L P ρ : Type) where
  | done
  | lock (next : Code σ L P ρ)
  | unlock (next : Code σ L P ρ)
  | write (change : σ → σ) (next : Code σ L P ρ)
  | callback (next : Code σ L P ρ)
  | read (label : L) (next : σ → Code σ L P ρ)
  | ask (label : L) (next : Bool → Code σ L P ρ)
  | call (p : P) (next : ρ → Code σ L P ρ)

inductive Event where
  | locked
  | unlocked
  | wrote
  | called
  deriving DecidableEq

/-- The shared data, who holds the lock, what each activation has left, and what happened. -/
structure System (σ L P ρ : Type) where
  data : σ
  owner : Option ℕ
  code : ℕ → Code σ L P ρ
  log : List (ℕ × Event)

/-- The entry points and the procedures of a program. -/
structure Program (σ L P ρ E : Type) where
  entry : E → Code σ L P ρ
  body : P → (ρ → Code σ L P ρ) → Code σ L P ρ

inductive Move (E : Type) where
  /-- A new activation `t` starts at an entry point. -/
  | start (t : ℕ) (e : E)
  /-- The activation `t` takes its next step; `answer` is what it is told if it asks. -/
  | run (t : ℕ) (answer : Bool)

def System.goOn (s : System σ L P ρ) (t : ℕ) (c : Code σ L P ρ) : System σ L P ρ :=
  { s with code := Function.update s.code t c }

def System.after (s : System σ L P ρ) (t : ℕ) (e : Event) (c : Code σ L P ρ) : System σ L P ρ :=
  { s.goOn t c with log := s.log ++ [(t, e)] }

@[simp] theorem System.goOn_self (s : System σ L P ρ) (t : ℕ) (c : Code σ L P ρ) :
    (s.goOn t c).code t = c := Function.update_self ..

theorem System.goOn_of_ne (s : System σ L P ρ) {t u : ℕ} (h : u ≠ t) (c : Code σ L P ρ) :
    (s.goOn t c).code u = s.code u := Function.update_of_ne h ..

@[simp] theorem System.after_code (s : System σ L P ρ) (t : ℕ) (e : Event) (c : Code σ L P ρ) :
    (s.after t e c).code = (s.goOn t c).code := rfl

@[simp] theorem System.after_log (s : System σ L P ρ) (t : ℕ) (e : Event) (c : Code σ L P ρ) :
    (s.after t e c).log = s.log ++ [(t, e)] := rfl

def step (p : Program σ L P ρ E) (s : System σ L P ρ) : Move E → Option (System σ L P ρ)
  | .start t e =>
    match s.code t with
    | .done => some (s.goOn t (p.entry e))
    | _ => none
  | .run t answer =>
    match s.code t with
    | .done => none
    | .lock next =>
      if s.owner = none then some { s.after t .locked next with owner := some t } else none
    | .unlock next => some { s.after t .unlocked next with owner := none }
    | .write change next => some { s.after t .wrote next with data := change s.data }
    | .callback next => some (s.after t .called next)
    | .read _ next => some (s.goOn t (next s.data))
    | .ask _ next => some (s.goOn t (next answer))
    | .call q next => some (s.goOn t (p.body q next))

def System.init (data : σ) : System σ L P ρ := ⟨data, none, fun _ => .done, []⟩

/-- Whether the lock is held after some events, when it was held before them or not; `none` is a
breach: the lock taken twice, given back when it is not held, data changed without it, or a
callback run under it. -/
def scan : Bool → List Event → Option Bool
  | held, [] => some held
  | false, .locked :: es => scan true es
  | true, .unlocked :: es => scan false es
  | true, .wrote :: es => scan true es
  | false, .called :: es => scan false es
  | _, _ :: _ => none

theorem scan_append (held : Bool) (es fs : List Event) :
    scan held (es ++ fs) = (scan held es).bind fun h => scan h fs := by
  induction es generalizing held with
  | nil => rfl
  | cons e es ih => cases held <;> cases e <;> simp [scan, ih]

def System.events (s : System σ L P ρ) (t : ℕ) : List Event :=
  (s.log.filter fun e => e.1 = t).map Prod.snd

/-- Every activation has kept the discipline, and gave the lock back if it has ended. -/
def Disciplined (s : System σ L P ρ) : Prop :=
  ∀ t, ∃ held, scan false (s.events t) = some held ∧ (s.code t = .done → held = false)

/-- Which outcomes of a decision are admitted. -/
structure Admits (σ L : Type) where
  read : L → σ → Prop
  ask : L → Bool → Prop

/-- The code keeps the discipline from here on along the admitted outcomes, if `held` says whether
the lock is held now. Procedures are called with the lock and come back with it. -/
def Clean (a : Admits σ L) : Bool → Code σ L P ρ → Prop
  | held, .done => held = false
  | held, .lock next => held = false ∧ Clean a true next
  | held, .unlock next => held = true ∧ Clean a false next
  | held, .write _ next => held = true ∧ Clean a true next
  | held, .callback next => held = false ∧ Clean a false next
  | held, .read l next => ∀ s, a.read l s → Clean a held (next s)
  | held, .ask l next => ∀ b, a.ask l b → Clean a held (next b)
  | held, .call _ next => held = true ∧ ∀ r, Clean a true (next r)

/-- The entry points are clean, and the procedures are when what follows them is. -/
structure CleanProgram (a : Admits σ L) (p : Program σ L P ρ E) : Prop where
  entry : ∀ e, Clean a false (p.entry e)
  body : ∀ q next, (∀ r, Clean a true (next r)) → Clean a true (p.body q next)

/-- The decision that a move takes has an admitted outcome. -/
def Admitted (a : Admits σ L) (s : System σ L P ρ) : Move E → Prop
  | .start _ _ => True
  | .run t answer =>
    match s.code t with
    | .read l _ => a.read l s.data
    | .ask l _ => a.ask l answer
    | _ => True

/-- What every activation has done, and what it has left to do, is clean. -/
def CleanSystem (a : Admits σ L) (s : System σ L P ρ) : Prop :=
  ∀ t, ∃ held, scan false (s.events t) = some held ∧ Clean a held (s.code t)

variable {a : Admits σ L} {s : System σ L P ρ}

theorem CleanSystem.disciplined (h : CleanSystem a s) : Disciplined s := by
  intro t
  obtain ⟨held, hscan, hclean⟩ := h t
  refine ⟨held, hscan, fun hdone => ?_⟩
  rw [hdone] at hclean
  exact hclean

theorem cleanSystem_init (a : Admits σ L) (data : σ) :
    CleanSystem a (System.init data : System σ L P ρ) := fun _ => ⟨false, rfl, rfl⟩

theorem goOn_clean {t : ℕ} {b c : Code σ L P ρ} (h : CleanSystem a s) (hb : s.code t = b)
    (hc : ∀ held, Clean a held b → Clean a held c) : CleanSystem a (s.goOn t c) := by
  intro u
  obtain ⟨held, hscan, hclean⟩ := h u
  refine ⟨held, hscan, ?_⟩
  by_cases hut : u = t
  · rw [hut, hb] at hclean
    rw [hut, System.goOn_self]
    exact hc held hclean
  · rw [System.goOn_of_ne s hut]
    exact hclean

theorem after_clean {s' : System σ L P ρ} {t : ℕ} {e : Event} {b c : Code σ L P ρ}
    (h : CleanSystem a s) (hb : s.code t = b) (hcode : s'.code = (s.after t e c).code)
    (hlog : s'.log = (s.after t e c).log)
    (hc : ∀ held, Clean a held b → ∃ held', scan held [e] = some held' ∧ Clean a held' c) :
    CleanSystem a s' := by
  intro u
  obtain ⟨held, hscan, hclean⟩ := h u
  by_cases hut : u = t
  · subst hut
    obtain ⟨held', hstep, hrest⟩ := hc held (hb ▸ hclean)
    have hevents : s'.events u = s.events u ++ [e] := by
      simp [System.events, hlog]
    refine ⟨held', ?_, ?_⟩
    · rw [hevents, scan_append, hscan]
      exact hstep
    · rw [hcode, System.after_code, System.goOn_self]
      exact hrest
  · have hevents : s'.events u = s.events u := by
      have hne : ¬ t = u := fun heq => hut heq.symm
      simp [System.events, hlog, hne]
    refine ⟨held, by rw [hevents]; exact hscan, ?_⟩
    rw [hcode, System.after_code, System.goOn_of_ne s hut]
    exact hclean

theorem step_clean {p : Program σ L P ρ E} (hp : CleanProgram a p) {s' : System σ L P ρ}
    {m : Move E} (h : CleanSystem a s) (hm : Admitted a s m) (hstep : step p s m = some s') :
    CleanSystem a s' := by
  cases m with
  | start t e =>
    cases hcode : s.code t with
    | done =>
      simp only [step, hcode, Option.some.injEq] at hstep
      subst hstep
      refine goOn_clean h hcode fun held hclean => ?_
      obtain rfl : held = false := hclean
      exact hp.entry e
    | _ => simp [step, hcode] at hstep
  | run t answer =>
    cases hcode : s.code t with
    | done => simp [step, hcode] at hstep
    | lock next =>
      simp only [step, hcode, Option.ite_none_right_eq_some, Option.some.injEq] at hstep
      obtain ⟨-, rfl⟩ := hstep
      refine after_clean h hcode rfl rfl ?_
      rintro held ⟨rfl, hnext⟩
      exact ⟨true, rfl, hnext⟩
    | unlock next =>
      simp only [step, hcode, Option.some.injEq] at hstep
      subst hstep
      refine after_clean h hcode rfl rfl ?_
      rintro held ⟨rfl, hnext⟩
      exact ⟨false, rfl, hnext⟩
    | write change next =>
      simp only [step, hcode, Option.some.injEq] at hstep
      subst hstep
      refine after_clean h hcode rfl rfl ?_
      rintro held ⟨rfl, hnext⟩
      exact ⟨true, rfl, hnext⟩
    | callback next =>
      simp only [step, hcode, Option.some.injEq] at hstep
      subst hstep
      refine after_clean h hcode rfl rfl ?_
      rintro held ⟨rfl, hnext⟩
      exact ⟨false, rfl, hnext⟩
    | read l next =>
      simp only [step, hcode, Option.some.injEq] at hstep
      subst hstep
      refine goOn_clean h hcode fun held hclean => ?_
      simp only [Admitted, hcode] at hm
      exact hclean s.data hm
    | ask l next =>
      simp only [step, hcode, Option.some.injEq] at hstep
      subst hstep
      refine goOn_clean h hcode fun held hclean => ?_
      simp only [Admitted, hcode] at hm
      exact hclean answer hm
    | call q next =>
      simp only [step, hcode, Option.some.injEq] at hstep
      subst hstep
      refine goOn_clean h hcode ?_
      rintro held ⟨rfl, hnext⟩
      exact hp.body q next hnext

theorem disciplined_of_clean {p : Program σ L P ρ E} (hp : CleanProgram a p) (data : σ)
    (moves : List (Move E)) (hrun : Run.Guarded (step p) (Admitted a) (System.init data) moves) :
    Run.Along (step p) Disciplined (System.init data) moves :=
  Run.along_mono (fun _ h => h.disciplined)
    (Run.along_of_guarded (fun _ _ _ h hm hstep => step_clean hp h hm hstep)
      (cleanSystem_init a data) hrun)

end Voxlib.Locking
