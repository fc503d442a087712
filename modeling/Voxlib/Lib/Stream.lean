import Mathlib.Tactic

/-!
# Loops over a stream that arrives in pieces

`Incremental` says that what a pass decided stays decided when more follows, so that pieces do
not matter.
-/

namespace Voxlib.Stream
open List

variable {S α : Type*}

inductive Flow (S α : Type*) where
  | go (s : S) (rest : List α)
  | wait (s : S) (rest : List α)
  | fail (s : S)
  deriving DecidableEq

def Flow.andThen (f : Flow S α) (k : S → List α → Flow S α) : Flow S α :=
  match f with
  | .go s rest => k s rest
  | .wait s rest => .wait s rest
  | .fail s => .fail s

@[simp]
theorem Flow.go_andThen (s : S) (rest : List α) (k : S → List α → Flow S α) :
    (Flow.go s rest).andThen k = k s rest := rfl

@[simp]
theorem Flow.wait_andThen (s : S) (rest : List α) (k : S → List α → Flow S α) :
    (Flow.wait s rest).andThen k = .wait s rest := rfl

@[simp]
theorem Flow.fail_andThen (s : S) (k : S → List α → Flow S α) :
    (Flow.fail s).andThen k = .fail s := rfl

def Flow.state : Flow S α → S
  | .go s _ => s
  | .wait s _ => s
  | .fail s => s

theorem Flow.andThen_state {P : S → Prop} {f : Flow S α} {k : S → List α → Flow S α}
    (hf : P f.state) (hk : ∀ s cur, P s → P (k s cur).state) : P (f.andThen k).state := by
  cases f with
  | go s rest => exact hk s rest hf
  | wait s rest => exact hf
  | fail s => exact hf

variable (pass : S → List α → Flow S α)

/-- The pass repeated, at most `n` times. -/
def passes : ℕ → S → List α → Flow S α
  | 0, s, cur => .wait s cur
  | n + 1, s, cur => (pass s cur).andThen (passes n)

/-- One call after the other, each on what the one before left over and the next piece. -/
def deliver (call : S → List α → Flow S α) : S → List α → List (List α) → Flow S α
  | s, left, [] => .wait s left
  | s, left, piece :: rest =>
    match call s (left ++ piece) with
    | .wait t left' => deliver call t left' rest
    | .go t left' => .go t left'
    | .fail t => .fail t

/-- What more input behind the input at hand changes: nothing where the pass went on or failed;
where it waited, the rest with the new input gives what all of it gives. -/
inductive Decides (s : S) (cur : List α) : Prop
  | go (t : S) (rest : List α) (hs : rest <:+ cur)
      (h : ∀ x, pass s (cur ++ x) = .go t (rest ++ x))
  | fail (t : S) (h : ∀ x, pass s (cur ++ x) = .fail t)
  | wait (t : S) (rest : List α) (hs : rest <:+ cur) (hw : pass s cur = .wait t rest)
      (h : ∀ x, pass t (rest ++ x) = pass s (cur ++ x))

def Stage : Prop := ∀ s cur, Decides pass s cur

structure Incremental (live : S → Prop) (rank : S → ℕ) : Prop where
  stage : Stage pass
  live_go : ∀ {s cur t rest}, live s → pass s cur = .go t rest → live t
  live_wait : ∀ {s cur t rest}, live s → pass s cur = .wait t rest → live t
  falls : ∀ {s cur t rest}, live s → pass s cur = .go t rest →
    rest.length + rank t < cur.length + rank s

/-- Each pass that goes on uses up some of the input, or of a rank. -/
structure Falling (live : S → Prop) (rank : S → ℕ) : Prop where
  live_go : ∀ {s cur t rest}, live s → pass s cur = .go t rest → live t
  falls : ∀ {s cur t rest}, live s → pass s cur = .go t rest →
    rest.length + rank t < cur.length + rank s

def settle (rank : S → ℕ) (s : S) (cur : List α) : Flow S α :=
  passes pass (cur.length + rank s + 1) s cur

variable {pass} {live : S → Prop} {rank : S → ℕ}

def Flow.Holds (P : S → Prop) : Flow S α → Prop
  | .go s _ => P s
  | .wait s _ => P s
  | .fail _ => True

variable {s : S}

theorem passes_holds {P : S → Prop} (h : ∀ s cur, P s → (pass s cur).Holds P) (n : ℕ) (hs : P s)
    (cur : List α) : (passes pass n s cur).Holds P := by
  induction n generalizing s cur with
  | zero => exact hs
  | succ n ih =>
    have hpass := h s cur hs
    simp only [passes]
    cases hp : pass s cur with
    | go t rest =>
      rw [hp] at hpass
      exact ih hpass rest
    | wait t rest =>
      rw [hp] at hpass
      exact hpass
    | fail t => trivial

variable (pass) in
/-- `n` passes in a row go on. -/
def Lasts : ℕ → S → List α → Prop
  | 0, _, _ => True
  | n + 1, s, cur => ∃ t rest, pass s cur = .go t rest ∧ Lasts n t rest

variable (pass) in
/-- `P` holds in front of each of the first `n` passes. -/
def Fronts (P : S → List α → Prop) : ℕ → S → List α → Prop
  | 0, _, _ => True
  | n + 1, s, cur => P s cur ∧ ∀ t rest, pass s cur = .go t rest → Fronts P n t rest

/-- What holds where a pass goes on, where it waits and where it fails. -/
def Flow.Gives (G W : S → List α → Prop) (F : S → Prop) : Flow S α → Prop
  | .go s rest => G s rest
  | .wait s rest => W s rest
  | .fail s => F s

instance Fronts.decidable {P : S → List α → Prop} [∀ s cur, Decidable (P s cur)] :
    ∀ (n : ℕ) (s : S) (cur : List α), Decidable (Fronts pass P n s cur)
  | 0, _, _ => .isTrue trivial
  | n + 1, s, cur =>
    match h : pass s cur with
    | .go t rest =>
      haveI : Decidable (Fronts pass P n t rest) := Fronts.decidable n t rest
      decidable_of_iff (P s cur ∧ Fronts pass P n t rest) (by simp [Fronts, h])
    | .wait t rest => decidable_of_iff (P s cur) (by simp [Fronts, h])
    | .fail t => decidable_of_iff (P s cur) (by simp [Fronts, h])

variable (pass) in
theorem passes_state {P : S → Prop} (h : ∀ s cur, P s → P (pass s cur).state) (n : ℕ) (hs : P s)
    (cur : List α) : Fronts pass (fun s _ => P s) n s cur ∧ P (passes pass n s cur).state := by
  induction n generalizing s cur with
  | zero => exact ⟨trivial, hs⟩
  | succ n ih =>
    refine ⟨⟨hs, fun t rest hp => ?_⟩, Flow.andThen_state (h s cur hs) fun t rest ht => ?_⟩
    · have ht := h s cur hs
      rw [hp] at ht
      exact (ih ht rest).1
    · exact (ih ht rest).2

variable {n : ℕ} {cur : List α}

theorem fronts_of {I P Q : S → List α → Prop} (hstep : ∀ s cur, I s cur → P s cur →
      Q s cur ∧ ∀ t rest, pass s cur = .go t rest → I t rest) (h0 : I s cur)
    (hP : Fronts pass P n s cur) : Fronts pass Q n s cur := by
  induction n generalizing s cur with
  | zero => trivial
  | succ n ih =>
    obtain ⟨hQ, hnext⟩ := hstep s cur h0 hP.1
    exact ⟨hQ, fun t rest hp => ih (hnext t rest hp) (hP.2 t rest hp)⟩

theorem passes_gives {I P : S → List α → Prop} {F : S → Prop}
    (hstep : ∀ s cur, I s cur → P s cur → (pass s cur).Gives I I F) (h0 : I s cur)
    (hP : Fronts pass P n s cur) : (passes pass n s cur).Gives I I F := by
  induction n generalizing s cur with
  | zero => exact h0
  | succ n ih =>
    have hpass := hstep s cur h0 hP.1
    simp only [passes]
    cases hp : pass s cur with
    | go t rest =>
      rw [hp] at hpass
      exact ih hpass (hP.2 t rest hp)
    | wait t rest =>
      rw [hp] at hpass
      exact hpass
    | fail t =>
      rw [hp] at hpass
      exact hpass

variable {t : S} {rest : List α}

theorem Stage.go_append (hf : Stage pass) (h : pass s cur = .go t rest) :
    rest <:+ cur ∧ ∀ x, pass s (cur ++ x) = .go t (rest ++ x) := by
  cases hf s cur with
  | go t' rest' hs hx =>
    have h0 := hx []
    rw [append_nil, append_nil, h] at h0
    obtain ⟨rfl, rfl⟩ : t = t' ∧ rest = rest' := by simpa using h0
    exact ⟨hs, hx⟩
  | fail t' hx =>
    have h0 := hx []
    simp [h] at h0
  | wait t' rest' hs hw hx => simp [h] at hw

theorem Stage.fail_append (hf : Stage pass) (h : pass s cur = .fail t) (x : List α) :
    pass s (cur ++ x) = .fail t := by
  cases hf s cur with
  | go t' rest' hs hx =>
    have h0 := hx []
    simp [h] at h0
  | fail t' hx =>
    have h0 := hx []
    rw [append_nil, h] at h0
    rw [hx, h0]
  | wait t' rest' hs hw hx => simp [h] at hw

theorem Stage.wait_append (hf : Stage pass) (h : pass s cur = .wait t rest) :
    rest <:+ cur ∧ ∀ x, pass t (rest ++ x) = pass s (cur ++ x) := by
  cases hf s cur with
  | go t' rest' hs hx =>
    have h0 := hx []
    simp [h] at h0
  | fail t' hx =>
    have h0 := hx []
    simp [h] at h0
  | wait t' rest' hs hw hx =>
    obtain ⟨rfl, rfl⟩ : t = t' ∧ rest = rest' := by simpa [h] using hw
    exact ⟨hs, hx⟩

theorem Stage.andThen {f g : S → List α → Flow S α} (hf : Stage f) (hg : Stage g)
    (hskip : ∀ {s cur t rest}, g s cur = .wait t rest → ∀ y, f t y = .go t y) :
    Stage fun s cur => (f s cur).andThen g := by
  intro s cur
  cases hf s cur with
  | fail t hx => exact .fail t fun x => by rw [hx, Flow.fail_andThen]
  | wait t rest hs hw hx =>
    exact .wait t rest hs (by rw [hw, Flow.wait_andThen]) fun x => by rw [hx]
  | go t rest hs hx =>
    have h0 : f s cur = .go t rest := by simpa using hx []
    cases hg t rest with
    | fail t' hx' => exact .fail t' fun x => by rw [hx, Flow.go_andThen, hx']
    | go t' rest' hs' hx' =>
      exact .go t' rest' (hs'.trans hs) fun x => by rw [hx, Flow.go_andThen, hx']
    | wait t' rest' hs' hw hx' =>
      refine .wait t' rest' (hs'.trans hs) (by rw [h0, Flow.go_andThen, hw]) fun x => ?_
      rw [hskip hw, Flow.go_andThen, hx, Flow.go_andThen, hx']

theorem Incremental.falling (h : Incremental pass live rank) : Falling pass live rank :=
  ⟨h.live_go, h.falls⟩

theorem passes_enough (h : Falling pass live rank) {m : ℕ} (hs : live s)
    (hn : cur.length + rank s < n) (hm : cur.length + rank s < m) :
    passes pass n s cur = passes pass m s cur := by
  induction n generalizing m s cur with
  | zero => omega
  | succ n ih =>
    cases m with
    | zero => omega
    | succ m =>
      simp only [passes]
      cases hp : pass s cur with
      | wait t rest => rfl
      | fail t => rfl
      | go t rest =>
        have hf := h.falls hs hp
        exact ih (h.live_go hs hp) (by omega) (by omega)

theorem Falling.lasts_le (h : Falling pass live rank) (hs : live s) (hl : Lasts pass n s cur) :
    n ≤ cur.length + rank s := by
  induction n generalizing s cur with
  | zero => omega
  | succ n ih =>
    obtain ⟨t, rest, hp, hl⟩ := hl
    have hf := h.falls hs hp
    have hn := ih (h.live_go hs hp) hl
    omega

theorem passes_eq_settle (h : Falling pass live rank) (hs : live s) (hn : cur.length + rank s < n) :
    passes pass n s cur = settle pass rank s cur :=
  passes_enough h hs hn (Nat.lt_succ_self _)

theorem settle_eq (h : Falling pass live rank) (hs : live s) :
    settle pass rank s cur = (pass s cur).andThen (settle pass rank) := by
  unfold settle
  simp only [passes]
  cases hp : pass s cur with
  | wait t rest => rfl
  | fail t => rfl
  | go t rest =>
    have hf := h.falls hs hp
    exact passes_eq_settle h (h.live_go hs hp) hf

theorem settle_induction (h : Falling pass live rank) {P : S → List α → Prop}
    (step : ∀ s cur, live s → (∀ t rest, pass s cur = .go t rest → P t rest) → P s cur)
    (hs : live s) (cur : List α) : P s cur := by
  induction hn : cur.length + rank s using Nat.strong_induction_on generalizing s cur with
  | _ n ih =>
    refine step s cur hs fun t rest hp => ?_
    have hf := h.falls hs hp
    exact ih _ (by omega) (h.live_go hs hp) rest rfl

theorem settle_ne_go (h : Falling pass live rank) (hs : live s) (cur : List α) (t : S)
    (rest : List α) : settle pass rank s cur ≠ .go t rest := by
  refine settle_induction h (P := fun s cur => settle pass rank s cur ≠ .go t rest)
    (fun s cur hs ih => ?_) hs cur
  rw [settle_eq h hs]
  cases hp : pass s cur with
  | wait t' rest' => simp
  | fail t' => simp
  | go t' rest' => exact ih t' rest' hp

theorem settle_wait (h : Incremental pass live rank) (hs : live s)
    (hw : settle pass rank s cur = .wait t rest) : live t ∧ rest <:+ cur := by
  revert hw
  refine settle_induction h.falling (P := fun s cur => settle pass rank s cur = .wait t rest →
    live t ∧ rest <:+ cur) (fun s cur hs ih hw => ?_) hs cur
  rw [settle_eq h.falling hs] at hw
  cases hp : pass s cur with
  | wait t' rest' =>
    rw [hp] at hw
    obtain ⟨rfl, rfl⟩ : t' = t ∧ rest' = rest := by simpa using hw
    exact ⟨h.live_wait hs hp, (h.stage.wait_append hp).1⟩
  | fail t' =>
    rw [hp] at hw
    simp at hw
  | go t' rest' =>
    rw [hp] at hw
    obtain ⟨hl, hsuf⟩ := ih t' rest' hp hw
    exact ⟨hl, hsuf.trans ((h.stage.go_append hp).1)⟩

theorem settle_wait_append (h : Incremental pass live rank) (hs : live s)
    (hw : settle pass rank s cur = .wait t rest) (x : List α) :
    settle pass rank t (rest ++ x) = settle pass rank s (cur ++ x) := by
  revert hw
  refine settle_induction h.falling (P := fun s cur => settle pass rank s cur = .wait t rest →
    settle pass rank t (rest ++ x) = settle pass rank s (cur ++ x)) (fun s cur hs ih hw => ?_)
    hs cur
  rw [settle_eq h.falling hs] at hw
  rw [settle_eq h.falling hs]
  cases hp : pass s cur with
  | wait t' rest' =>
    rw [hp] at hw
    obtain ⟨rfl, rfl⟩ : t' = t ∧ rest' = rest := by simpa using hw
    rw [settle_eq h.falling (h.live_wait hs hp), (h.stage.wait_append hp).2 x]
  | fail t' =>
    rw [hp] at hw
    simp at hw
  | go t' rest' =>
    rw [hp] at hw
    rw [(h.stage.go_append hp).2 x]
    exact ih t' rest' hp hw

theorem settle_fail_append (h : Incremental pass live rank) (hs : live s)
    (hf : settle pass rank s cur = .fail t) (x : List α) :
    settle pass rank s (cur ++ x) = .fail t := by
  revert hf
  refine settle_induction h.falling (P := fun s cur => settle pass rank s cur = .fail t →
    settle pass rank s (cur ++ x) = .fail t) (fun s cur hs ih hf => ?_) hs cur
  rw [settle_eq h.falling hs] at hf
  rw [settle_eq h.falling hs]
  cases hp : pass s cur with
  | wait t' rest' =>
    rw [hp] at hf
    simp at hf
  | fail t' =>
    rw [hp] at hf
    rw [h.stage.fail_append hp x]
    exact hf
  | go t' rest' =>
    rw [hp] at hf
    rw [(h.stage.go_append hp).2 x]
    exact ih t' rest' hp hf

theorem deliver_suffix (h : Incremental pass live rank) (hs : live s) {left : List α}
    {pieces : List (List α)} (hw : deliver (settle pass rank) s left pieces = .wait t rest) :
    rest <:+ left ++ pieces.flatten := by
  induction pieces generalizing s left with
  | nil =>
    obtain ⟨-, rfl⟩ : s = t ∧ left = rest := by simpa [deliver] using hw
    rw [flatten_nil, append_nil]
  | cons piece pieces ih =>
    simp only [deliver] at hw
    rw [flatten_cons, ← append_assoc]
    cases hc : settle pass rank s (left ++ piece) with
    | go t' left' => exact absurd hc (settle_ne_go h.falling hs _ t' left')
    | fail t' => simp [hc] at hw
    | wait t' left' =>
      rw [hc] at hw
      obtain ⟨ht, hsuf⟩ := settle_wait h hs hc
      obtain ⟨front, hfront⟩ := hsuf
      refine (ih ht hw).trans ⟨front, ?_⟩
      rw [← append_assoc, hfront]

theorem deliver_ne_go (h : Incremental pass live rank) (hs : live s) (left : List α)
    (pieces : List (List α)) (t : S) (rest : List α) :
    deliver (settle pass rank) s left pieces ≠ .go t rest := by
  induction pieces generalizing s left with
  | nil => simp [deliver]
  | cons piece pieces ih =>
    simp only [deliver]
    cases hc : settle pass rank s (left ++ piece) with
    | go t' left' => exact absurd hc (settle_ne_go h.falling hs _ t' left')
    | fail t' => simp
    | wait t' left' => exact ih (settle_wait h hs hc).1 left'

theorem deliver_eq_settle (h : Incremental pass live rank) (hs : live s) {left : List α}
    (hl : settle pass rank s left = .wait s left) (pieces : List (List α)) :
    deliver (settle pass rank) s left pieces = settle pass rank s (left ++ pieces.flatten) := by
  induction pieces generalizing s left with
  | nil =>
    rw [flatten_nil, append_nil, hl]
    rfl
  | cons piece rest ih =>
    rw [flatten_cons, ← append_assoc]
    simp only [deliver]
    cases hc : settle pass rank s (left ++ piece) with
    | go t left' => exact absurd hc (settle_ne_go h.falling hs _ t left')
    | fail t => exact (settle_fail_append h hs hc _).symm
    | wait t left' =>
      obtain ⟨ht, -⟩ := settle_wait h hs hc
      have hidle : settle pass rank t left' = .wait t left' := by
        have := settle_wait_append h hs hc []
        rwa [append_nil, append_nil, hc] at this
      rw [← settle_wait_append h hs hc]
      exact ih ht hidle

end Voxlib.Stream
