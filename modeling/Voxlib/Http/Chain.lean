import Mathlib.Tactic

/-!
# The handler chain (vox_http_context.c)

A handler is code that may call `vox_http_context_next`, `..._abort` and
`..._defer` in any order, depending on all it sees, and change the rest of the
context, the `world`. The events of the chain runner are recorded.
-/

namespace Voxlib.Http
open List

variable {ω : Type}

structure Ctx (ω : Type) where
  index : ℕ
  aborted : Bool
  deferred : Bool
  world : ω
  deriving DecidableEq, Repr

/- The rest of a handler's execution: what it has made of the world, the call it
   makes, and how it goes on with the context it finds afterwards. -/
inductive Body (ω : Type) where
  | ret (w : ω)
  | next (w : ω) (k : Ctx ω → Body ω)
  | abort (w : ω) (k : Ctx ω → Body ω)
  | defer (w : ω) (k : Ctx ω → Body ω)

abbrev Handler (ω : Type) := Ctx ω → Body ω

inductive Event (ω : Type) where
  | call (position : ℕ) (ctx : Ctx ω)
  | abort
  | defer
  deriving DecidableEq, Repr

-- vox_http_context_abort (vox_http_context.c:42-46)
def contextAbort (count : ℕ) (c : Ctx ω) : Ctx ω := { c with aborted := true, index := count }

-- vox_http_context_defer (vox_http_context.c:81-91)
def contextDefer (count : ℕ) (c : Ctx ω) : Ctx ω := contextAbort count { c with deferred := true }

/- Execution of a handler; `next` is the chain runner it may re-enter. -/
def runBody (count : ℕ) (next : Ctx ω → Ctx ω × List (Event ω)) :
    Body ω → Ctx ω → Ctx ω × List (Event ω)
  | .ret w, c => ({ c with world := w }, [])
  | .next w k, c =>
    let inner := next { c with world := w }
    let rest := runBody count next (k inner.1) inner.1
    (rest.1, inner.2 ++ rest.2)
  | .abort w k, c =>
    let c₁ := contextAbort count { c with world := w }
    let rest := runBody count next (k c₁) c₁
    (rest.1, .abort :: rest.2)
  | .defer w k, c =>
    let c₁ := contextDefer count { c with world := w }
    let rest := runBody count next (k c₁) c₁
    (rest.1, .defer :: rest.2)

def handlerAt (handlers : List (Option (Handler ω))) (i : ℕ) : Option (Handler ω) :=
  (handlers[i]?).join

/- vox_http_context_next (vox_http_context.c:28-40). The index grows with every
   round, also of an inner call, so the number of entries is fuel enough. -/
def contextNext (handlers : List (Option (Handler ω))) : ℕ → Ctx ω → Ctx ω × List (Event ω)
  | 0, c => (c, [])
  | fuel + 1, c =>
    if c.index < handlers.length ∧ c.aborted = false then
      let c₁ := { c with index := c.index + 1 }
      match handlerAt handlers c.index with
      | none => contextNext handlers fuel c₁
      | some cb =>
        let called := runBody handlers.length (contextNext handlers fuel) (cb c₁) c₁
        let rest := contextNext handlers fuel called.1
        (rest.1, .call c.index c₁ :: (called.2 ++ rest.2))
    else (c, [])

-- vox_http_context_dispatch (vox_http_context.c:66-78)
def contextDispatch (handlers : List (Option (Handler ω))) (deferred : Bool) (w : ω) :
    Ctx ω × List (Event ω) :=
  contextNext handlers handlers.length ⟨0, false, deferred, w⟩

section Index
variable {handlers : List (Option (Handler ω))} {count : ℕ}

def Grows (count : ℕ) (c c' : Ctx ω) : Prop := c.index ≤ c'.index ∧ c'.index ≤ count

theorem runBody_grows {next : Ctx ω → Ctx ω × List (Event ω)}
    (hnext : ∀ c, c.index ≤ count → Grows count c (next c).1) (b : Body ω) (c : Ctx ω)
    (hc : c.index ≤ count) : Grows count c (runBody count next b c).1 := by
  induction b generalizing c with
  | ret w => exact ⟨le_rfl, hc⟩
  | next w k ih =>
    obtain ⟨hlow, hhigh⟩ := hnext { c with world := w } hc
    have hrest := ih (next { c with world := w }).1 (next { c with world := w }).1 hhigh
    exact ⟨hlow.trans hrest.1, hrest.2⟩
  | abort w k ih =>
    have hrest := ih (contextAbort count { c with world := w })
      (contextAbort count { c with world := w }) le_rfl
    exact ⟨hc.trans hrest.1, hrest.2⟩
  | defer w k ih =>
    have hrest := ih (contextDefer count { c with world := w })
      (contextDefer count { c with world := w }) le_rfl
    exact ⟨hc.trans hrest.1, hrest.2⟩

theorem contextNext_grows (fuel : ℕ) (c : Ctx ω) (hc : c.index ≤ handlers.length) :
    Grows handlers.length c (contextNext handlers fuel c).1 := by
  induction fuel generalizing c with
  | zero => exact ⟨le_rfl, hc⟩
  | succ fuel ih =>
    unfold contextNext
    split
    · rename_i hgo
      have hstep : c.index + 1 ≤ handlers.length := hgo.1
      cases hcb : handlerAt handlers c.index with
      | none =>
        obtain ⟨hlow, hhigh⟩ := ih { c with index := c.index + 1 } hstep
        exact ⟨(Nat.le_succ c.index).trans hlow, hhigh⟩
      | some cb =>
        obtain ⟨hlow, hhigh⟩ := runBody_grows (fun c hc => ih c hc)
          (cb { c with index := c.index + 1 }) { c with index := c.index + 1 } hstep
        obtain ⟨hlow', hhigh'⟩ := ih _ hhigh
        exact ⟨(Nat.le_succ c.index).trans (hlow.trans hlow'), hhigh'⟩
    · exact ⟨le_rfl, hc⟩

theorem contextNext_ends (fuel : ℕ) (c : Ctx ω) (hc : c.index ≤ handlers.length)
    (hfuel : handlers.length - c.index ≤ fuel) :
    (contextNext handlers fuel c).1.index = handlers.length ∨
      (contextNext handlers fuel c).1.aborted = true := by
  induction fuel generalizing c with
  | zero =>
    left
    show c.index = handlers.length
    omega
  | succ fuel ih =>
    unfold contextNext
    split
    · rename_i hgo
      have hstep : c.index + 1 ≤ handlers.length := hgo.1
      cases hcb : handlerAt handlers c.index with
      | none => exact ih { c with index := c.index + 1 } hstep (by dsimp only; omega)
      | some cb =>
        obtain ⟨hlow, hhigh⟩ := runBody_grows (fun c hc => contextNext_grows fuel c hc)
          (cb { c with index := c.index + 1 }) { c with index := c.index + 1 } hstep
        exact ih _ hhigh (by dsimp only at hlow; omega)
    · rename_i hstop
      by_cases hidx : c.index < handlers.length
      · right
        by_contra hab
        exact hstop ⟨hidx, by simpa using hab⟩
      · left
        show c.index = handlers.length
        omega

end Index

theorem runBody_calls {count : ℕ} {next : Ctx ω → Ctx ω × List (Event ω)} {P : ℕ → Prop}
    (hnext : ∀ c p d, Event.call p d ∈ (next c).2 → P p) (b : Body ω) (c : Ctx ω) (p : ℕ) (d : Ctx ω)
    (h : Event.call p d ∈ (runBody count next b c).2) : P p := by
  induction b generalizing c with
  | ret w => cases h
  | next w k ih =>
    rcases mem_append.mp h with hin | hrest
    · exact hnext _ p d hin
    · exact ih _ _ hrest
  | abort w k ih =>
    rcases mem_cons.mp h with heq | hrest
    · cases heq
    · exact ih _ _ hrest
  | defer w k ih =>
    rcases mem_cons.mp h with heq | hrest
    · cases heq
    · exact ih _ _ hrest

theorem contextNext_calls {handlers : List (Option (Handler ω))} (fuel : ℕ) (c : Ctx ω) (p : ℕ)
    (d : Ctx ω) (h : Event.call p d ∈ (contextNext handlers fuel c).2) :
    (handlerAt handlers p).isSome = true := by
  induction fuel generalizing c p d with
  | zero => cases h
  | succ fuel ih =>
    unfold contextNext at h
    split at h
    · cases hcb : handlerAt handlers c.index with
      | none =>
        simp only [hcb] at h
        exact ih _ p d h
      | some cb =>
        simp only [hcb] at h
        rcases mem_cons.mp h with heq | hmore
        · obtain ⟨rfl, _⟩ := Event.call.inj heq
          simp [hcb]
        · rcases mem_append.mp hmore with hcalled | hrest
          · exact runBody_calls (P := fun p => (handlerAt handlers p).isSome = true)
              (fun c p d hp => ih c p d hp) _ _ p d hcalled
          · exact ih _ p d hrest
    · cases h

def Event.isCall : Event ω → Bool
  | .call _ _ => true
  | _ => false

def Event.position : Event ω → Option ℕ
  | .call p _ => some p
  | _ => none

def positions (events : List (Event ω)) : List ℕ := events.filterMap Event.position

theorem mem_positions {events : List (Event ω)} {p : ℕ} :
    p ∈ positions events ↔ ∃ d, Event.call p d ∈ events := by
  unfold positions
  rw [mem_filterMap]
  constructor
  · intro ⟨e, he, hp⟩
    cases e with
    | call q d =>
      obtain rfl := Option.some.inj hp
      exact ⟨d, he⟩
    | abort => cases hp
    | defer => cases hp
  · intro ⟨d, hd⟩
    exact ⟨_, hd, rfl⟩

def Ordered (c : Ctx ω) (r : Ctx ω × List (Event ω)) : Prop :=
  (positions r.2).Pairwise (· < ·) ∧ ∀ p ∈ positions r.2, c.index ≤ p ∧ p < r.1.index

theorem ordered_append {c c₁ c₂ : Ctx ω} {es₁ es₂ : List (Event ω)} (h₁ : Ordered c (c₁, es₁))
    (h₂ : Ordered c₁ (c₂, es₂)) (hlow : c.index ≤ c₁.index) (hhigh : c₁.index ≤ c₂.index) :
    Ordered c (c₂, es₁ ++ es₂) := by
  obtain ⟨hsorted₁, hbound₁⟩ := h₁
  obtain ⟨hsorted₂, hbound₂⟩ := h₂
  dsimp only at hsorted₁ hbound₁ hsorted₂ hbound₂
  unfold Ordered
  dsimp only
  rw [positions, filterMap_append, ← positions, ← positions]
  constructor
  · apply pairwise_append.mpr
    refine ⟨hsorted₁, hsorted₂, ?_⟩
    intro p hp q hq
    have := hbound₁ p hp
    have := hbound₂ q hq
    omega
  · intro p hp
    rcases mem_append.mp hp with hp₁ | hp₂
    · have := hbound₁ p hp₁
      omega
    · have := hbound₂ p hp₂
      omega

theorem runBody_ordered {count : ℕ} {next : Ctx ω → Ctx ω × List (Event ω)}
    (hgrow : ∀ c, c.index ≤ count → Grows count c (next c).1)
    (hnext : ∀ c, c.index ≤ count → Ordered c (next c)) (b : Body ω) (c : Ctx ω)
    (hc : c.index ≤ count) : Ordered c (runBody count next b c) := by
  induction b generalizing c with
  | ret w => exact ⟨List.Pairwise.nil, by simp [runBody, positions]⟩
  | next w k ih =>
    obtain ⟨hlow, hhigh⟩ := hgrow { c with world := w } hc
    have hinner : Ordered c (next { c with world := w }) := hnext { c with world := w } hc
    have hrest := ih (next { c with world := w }).1 (next { c with world := w }).1 hhigh
    have hmore := runBody_grows hgrow (k (next { c with world := w }).1) _ hhigh
    exact ordered_append hinner hrest hlow hmore.1
  | abort w k ih =>
    have hrest := ih (contextAbort count { c with world := w })
      (contextAbort count { c with world := w }) le_rfl
    refine ⟨hrest.1, ?_⟩
    intro p hp
    exact ⟨hc.trans (hrest.2 p hp).1, (hrest.2 p hp).2⟩
  | defer w k ih =>
    have hrest := ih (contextDefer count { c with world := w })
      (contextDefer count { c with world := w }) le_rfl
    refine ⟨hrest.1, ?_⟩
    intro p hp
    exact ⟨hc.trans (hrest.2 p hp).1, (hrest.2 p hp).2⟩

theorem contextNext_ordered {handlers : List (Option (Handler ω))} (fuel : ℕ) (c : Ctx ω)
    (hc : c.index ≤ handlers.length) : Ordered c (contextNext handlers fuel c) := by
  induction fuel generalizing c with
  | zero => exact ⟨List.Pairwise.nil, by simp [contextNext, positions]⟩
  | succ fuel ih =>
    unfold contextNext
    split
    · rename_i hgo
      have hstep : c.index + 1 ≤ handlers.length := hgo.1
      cases hcb : handlerAt handlers c.index with
      | none =>
        obtain ⟨hsorted, hbound⟩ := ih { c with index := c.index + 1 } hstep
        refine ⟨hsorted, ?_⟩
        intro p hp
        obtain ⟨hlow, hhigh⟩ := hbound p hp
        exact ⟨(Nat.le_succ c.index).trans hlow, hhigh⟩
      | some cb =>
        have hgrow : ∀ c : Ctx ω, c.index ≤ handlers.length →
            Grows handlers.length c (contextNext handlers fuel c).1 :=
          fun c hc => contextNext_grows fuel c hc
        obtain ⟨hlow, hhigh⟩ := runBody_grows hgrow (cb { c with index := c.index + 1 })
          { c with index := c.index + 1 } hstep
        have hcalled := runBody_ordered hgrow (fun c hc => ih c hc)
          (cb { c with index := c.index + 1 }) { c with index := c.index + 1 } hstep
        have hmore := (contextNext_grows fuel _ hhigh).1
        obtain ⟨hsorted, hbound⟩ := ordered_append hcalled (ih _ hhigh) hlow hmore
        dsimp only at hsorted hbound hlow hmore ⊢
        constructor
        · apply pairwise_cons.mpr
          refine ⟨?_, hsorted⟩
          intro p hp
          have := hbound p hp
          omega
        · intro p hp
          rcases mem_cons.mp hp with rfl | hlater
          · dsimp only
            omega
          · have := hbound p hlater
            dsimp only
            omega
    · exact ⟨List.Pairwise.nil, by simp [positions]⟩

section PlainReturn
variable {handlers : List (Option (Handler ω))}

theorem contextNext_goes_on (fuel : ℕ) (c : Ctx ω) (hfuel : handlers.length - c.index ≤ fuel)
    (hab : c.aborted = false) (j : ℕ) (hj : c.index ≤ j)
    (hcb : (handlerAt handlers j).isSome = true) :
    ∃ p d, Event.call p d ∈ (contextNext handlers fuel c).2 ∧ c.index ≤ p := by
  have hlen : j < handlers.length := by
    by_contra hge
    rw [handlerAt, List.getElem?_eq_none (by omega)] at hcb
    cases hcb
  induction fuel generalizing c with
  | zero => omega
  | succ fuel ih =>
    unfold contextNext
    rw [if_pos ⟨by omega, hab⟩]
    cases hhere : handlerAt handlers c.index with
    | none =>
      have hne : c.index ≠ j := by
        intro he
        rw [he] at hhere
        simp [hhere] at hcb
      obtain ⟨p, d, hp, hle⟩ := ih { c with index := c.index + 1 } (by dsimp only; omega) hab
        (by dsimp only; omega)
      exact ⟨p, d, hp, (Nat.le_succ c.index).trans hle⟩
    | some cb => exact ⟨c.index, _, mem_cons_self, le_rfl⟩

/- The runner called something behind position `k` after the event. -/
def PassedOn (k : ℕ) (events : List (Event ω)) : Prop := ∃ p d, Event.call p d ∈ events ∧ k < p

theorem PassedOn.mono {k : ℕ} {es es' : List (Event ω)} (h : PassedOn k es) (hsub : es ⊆ es') :
    PassedOn k es' := by
  obtain ⟨p, d, hp, hk⟩ := h
  exact ⟨p, d, hsub hp, hk⟩

theorem runBody_passedOn {count k : ℕ} {d : Ctx ω} {next : Ctx ω → Ctx ω × List (Event ω)}
    (hgrow : ∀ c, c.index ≤ count → Grows count c (next c).1) (low : ℕ)
    (hnext : ∀ c, low ≤ c.index → c.index ≤ count → Event.call k d ∈ (next c).2 →
      PassedOn k (next c).2) (b : Body ω) (c : Ctx ω) (hlow : low ≤ c.index) (hc : c.index ≤ count)
    (h : Event.call k d ∈ (runBody count next b c).2) : PassedOn k (runBody count next b c).2 := by
  induction b generalizing c with
  | ret w => cases h
  | next w kont ih =>
    obtain ⟨hmore, hhigh⟩ := hgrow { c with world := w } hc
    rcases mem_append.mp h with hin | hrest
    · exact (hnext { c with world := w } hlow hc hin).mono (subset_append_left _ _)
    · exact (ih _ _ (hlow.trans hmore) hhigh hrest).mono (subset_append_right _ _)
  | abort w kont ih =>
    rcases mem_cons.mp h with heq | hrest
    · cases heq
    · exact (ih _ _ (hlow.trans hc) le_rfl hrest).mono (subset_cons_self _ _)
  | defer w kont ih =>
    rcases mem_cons.mp h with heq | hrest
    · cases heq
    · exact (ih _ _ (hlow.trans hc) le_rfl hrest).mono (subset_cons_self _ _)

/- If the handler at `k` returns without a call to the chain, the loop that
   called it goes on behind it. The induction is on the fuel; the call may be
   one of an inner loop. -/
theorem contextNext_passedOn (fuel : ℕ) (c : Ctx ω) (hc : c.index ≤ handlers.length)
    (hfuel : handlers.length - c.index ≤ fuel) {k : ℕ} {cb : Handler ω} {d : Ctx ω} {w : ω}
    (hcb : handlerAt handlers k = some cb) (hret : cb d = .ret w) {j : ℕ} (hj : k < j)
    (hlater : (handlerAt handlers j).isSome = true)
    (h : Event.call k d ∈ (contextNext handlers fuel c).2) :
    PassedOn k (contextNext handlers fuel c).2 := by
  induction fuel generalizing c with
  | zero => cases h
  | succ fuel ih =>
    unfold contextNext at h ⊢
    split at h
    · rename_i hgo
      rw [if_pos hgo]
      have hstep : c.index + 1 ≤ handlers.length := hgo.1
      cases hhere : handlerAt handlers c.index with
      | none =>
        simp only [hhere] at h ⊢
        exact ih _ hstep (by dsimp only; omega) h
      | some cb' =>
        simp only [hhere] at h ⊢
        have hgrow : ∀ c : Ctx ω, c.index ≤ handlers.length →
            Grows handlers.length c (contextNext handlers fuel c).1 :=
          fun c hc => contextNext_grows fuel c hc
        obtain ⟨hlow, hhigh⟩ := runBody_grows hgrow (cb' { c with index := c.index + 1 })
          { c with index := c.index + 1 } hstep
        dsimp only at hlow
        rcases mem_cons.mp h with heq | hmore
        · obtain ⟨hk, hd⟩ := Event.call.inj heq
          rw [← hk, hcb] at hhere
          have hcb' : cb = cb' := Option.some.inj hhere
          rw [← hcb', ← hd, hret]
          obtain ⟨p, e, hp, hle⟩ := contextNext_goes_on fuel { d with world := w }
            (by rw [hd]; dsimp only; omega) (by rw [hd]; exact hgo.2) j
            (by rw [hd]; dsimp only; omega) hlater
          rw [hd] at hle
          dsimp only at hle
          refine ⟨p, e, mem_cons_of_mem _ ?_, by omega⟩
          exact mem_append_right _ hp
        · rcases mem_append.mp hmore with hcalled | hrest
          · have hpass := runBody_passedOn hgrow (c.index + 1)
              (fun c' hlow' hc' hin => ih c' hc' (by omega) hin) _ _ le_rfl hstep hcalled
            apply hpass.mono
            intro e he
            exact mem_cons_of_mem _ (mem_append_left _ he)
          · apply (ih _ hhigh (by omega) hrest).mono
            intro e he
            exact mem_cons_of_mem _ (mem_append_right _ he)
    · cases h

end PlainReturn

def entries (handlers : List (Option (Handler ω))) (i j : ℕ) : List ℕ :=
  (List.range' i (j - i)).filter (fun p => (handlerAt handlers p).isSome)

theorem entries_append {handlers : List (Option (Handler ω))} {i j k : ℕ} (hij : i ≤ j)
    (hjk : j ≤ k) : entries handlers i j ++ entries handlers j k = entries handlers i k := by
  unfold entries
  rw [← filter_append]
  have hrange : List.range' i (j - i) ++ List.range' j (k - j) = List.range' i (k - i) := by
    have hj : j = i + (j - i) := by omega
    have hlen : k - i = (j - i) + (k - j) := by omega
    rw [hlen, ← range'_append_1, ← hj]
  rw [hrange]

@[simp] theorem entries_self (handlers : List (Option (Handler ω))) (i : ℕ) :
    entries handlers i i = [] := by
  simp [entries]

def Complete (handlers : List (Option (Handler ω))) (c : Ctx ω) (r : Ctx ω × List (Event ω)) :
    Prop :=
  r.1.aborted = false ∧ c.index ≤ r.1.index ∧ r.1.index ≤ handlers.length ∧
    positions r.2 = entries handlers c.index r.1.index

theorem runBody_complete {handlers : List (Option (Handler ω))}
    {next : Ctx ω → Ctx ω × List (Event ω)} (low : ℕ)
    (hnext : ∀ c, low ≤ c.index → c.index ≤ handlers.length → c.aborted = false →
      (∀ e ∈ (next c).2, e.isCall = true) → Complete handlers c (next c))
    (b : Body ω) (c : Ctx ω) (hlow : low ≤ c.index) (hc : c.index ≤ handlers.length) (hab : c.aborted = false)
    (hquiet : ∀ e ∈ (runBody handlers.length next b c).2, e.isCall = true) :
    Complete handlers c (runBody handlers.length next b c) := by
  induction b generalizing c with
  | ret w => exact ⟨hab, le_rfl, hc, by simp [runBody, positions]⟩
  | next w k ih =>
    simp only [runBody, mem_append] at hquiet
    obtain ⟨hab₁, hlow₁, hhigh₁, hpos₁⟩ := hnext { c with world := w } hlow hc hab
      (fun e he => hquiet e (Or.inl he))
    obtain ⟨hab₂, hlow₂, hhigh₂, hpos₂⟩ := ih _ (next { c with world := w }).1
      (hlow.trans hlow₁) hhigh₁ hab₁ (fun e he => hquiet e (Or.inr he))
    refine ⟨hab₂, hlow₁.trans hlow₂, hhigh₂, ?_⟩
    simp only [runBody, positions, filterMap_append]
    rw [positions] at hpos₁ hpos₂
    rw [hpos₁, hpos₂]
    exact entries_append hlow₁ hlow₂
  | abort w k ih =>
    have habort := hquiet .abort mem_cons_self
    cases habort
  | defer w k ih =>
    have hdefer := hquiet .defer mem_cons_self
    cases hdefer

theorem contextNext_complete {handlers : List (Option (Handler ω))} (fuel : ℕ) (c : Ctx ω)
    (hc : c.index ≤ handlers.length) (hfuel : handlers.length - c.index ≤ fuel)
    (hab : c.aborted = false) (hquiet : ∀ e ∈ (contextNext handlers fuel c).2, e.isCall = true) :
    (contextNext handlers fuel c).1.index = handlers.length ∧
      Complete handlers c (contextNext handlers fuel c) := by
  induction fuel generalizing c with
  | zero =>
    have hidx : c.index = handlers.length := by omega
    exact ⟨hidx, hab, le_rfl, hc, by simp [contextNext, positions]⟩
  | succ fuel ih =>
    by_cases hgo : c.index < handlers.length ∧ c.aborted = false
    · have hstep : c.index + 1 ≤ handlers.length := hgo.1
      have hfirst : entries handlers c.index (c.index + 1) =
          if (handlerAt handlers c.index).isSome then [c.index] else [] := by
        simp [entries, filter_cons]
      unfold contextNext at hquiet ⊢
      rw [if_pos hgo] at hquiet ⊢
      cases hhere : handlerAt handlers c.index with
      | none =>
        simp only [hhere] at hquiet ⊢
        obtain ⟨hend, hab', hlow, hhigh, hpos⟩ := ih { c with index := c.index + 1 } hstep
          (by dsimp only; omega) hab hquiet
        refine ⟨hend, hab', (Nat.le_succ c.index).trans hlow, hhigh, ?_⟩
        rw [hpos, ← entries_append (Nat.le_succ c.index) hlow, hfirst]
        simp [hhere]
      | some cb =>
        simp only [hhere, mem_cons, mem_append] at hquiet ⊢
        obtain ⟨hab₁, hlow₁, hhigh₁, hpos₁⟩ := runBody_complete (c.index + 1)
          (fun c' hlow' hc' hab' hq => (ih c' hc' (by omega) hab' hq).2)
          (cb { c with index := c.index + 1 }) { c with index := c.index + 1 } le_rfl hstep hab
          (fun e he => hquiet e (Or.inr (Or.inl he)))
        obtain ⟨hend, hab₂, hlow₂, hhigh₂, hpos₂⟩ := ih _ hhigh₁
          (by dsimp only at hlow₁; omega) hab₁ (fun e he => hquiet e (Or.inr (Or.inr he)))
        refine ⟨hend, hab₂, (Nat.le_succ c.index).trans (hlow₁.trans hlow₂), hhigh₂, ?_⟩
        rw [positions] at hpos₁ hpos₂ ⊢
        simp only [filterMap_cons, Event.position, filterMap_append]
        rw [hpos₁, hpos₂, entries_append hlow₁ hlow₂,
          ← entries_append (Nat.le_succ c.index) (hlow₁.trans hlow₂), hfirst]
        simp [hhere]
    · have hidx : c.index = handlers.length := by
        by_contra hne
        exact hgo ⟨by omega, hab⟩
      unfold contextNext
      rw [if_neg hgo]
      exact ⟨hidx, hab, le_rfl, hc, by simp [positions]⟩

theorem dispatch_complete (handlers : List (Option (Handler ω))) (deferred : Bool) (w : ω)
    (hquiet : ∀ e ∈ (contextDispatch handlers deferred w).2, e.isCall = true) :
    positions (contextDispatch handlers deferred w).2 = entries handlers 0 handlers.length := by
  obtain ⟨hend, _, _, _, hpos⟩ := contextNext_complete handlers.length ⟨0, false, deferred, w⟩
    (Nat.zero_le _) (by simp) rfl hquiet
  rw [hend] at hpos
  exact hpos

/- After a handler that just returns nothing is called exactly when there is
   nothing left to call. -/
theorem dispatch_plain_return (handlers : List (Option (Handler ω))) (deferred : Bool) (w : ω)
    {k : ℕ} {cb : Handler ω} {d : Ctx ω} {w' : ω} {before after : List (Event ω)}
    (hcb : handlerAt handlers k = some cb) (hret : cb d = .ret w')
    (h : (contextDispatch handlers deferred w).2 = before ++ .call k d :: after) :
    ¬ PassedOn k after ↔ ∀ j, k < j → handlerAt handlers j = none := by
  constructor
  · intro hnot j hj
    by_contra hsome
    have hcall : Event.call k d ∈ (contextDispatch handlers deferred w).2 := by
      rw [h]
      exact mem_append_right _ mem_cons_self
    obtain ⟨p, e, hp, hk⟩ := contextNext_passedOn handlers.length ⟨0, false, deferred, w⟩
      (Nat.zero_le _) (by simp) hcb hret hj (Option.isSome_iff_ne_none.mpr hsome) hcall
    obtain ⟨hsorted, _⟩ := contextNext_ordered handlers.length ⟨0, false, deferred, w⟩
      (Nat.zero_le handlers.length)
    change Event.call p e ∈ (contextDispatch handlers deferred w).2 at hp
    change (positions (contextDispatch handlers deferred w).2).Pairwise (· < ·) at hsorted
    rw [h] at hp hsorted
    rw [positions, filterMap_append, pairwise_append] at hsorted
    rcases mem_append.mp hp with hearly | hlate
    · have hlt := hsorted.2.2 p (mem_positions.mpr ⟨e, hearly⟩) k (by simp [Event.position])
      omega
    · rcases mem_cons.mp hlate with heq | hafter
      · have := (Event.call.inj heq).1
        omega
      · exact hnot ⟨p, e, hafter, hk⟩
  · intro hnull hpass
    obtain ⟨p, e, hp, hk⟩ := hpass
    have hmem : Event.call p e ∈ (contextDispatch handlers deferred w).2 := by
      rw [h]
      exact mem_append_right _ (mem_cons_of_mem _ hp)
    have hsome := contextNext_calls handlers.length ⟨0, false, deferred, w⟩ p e hmem
    rw [hnull p hk] at hsome
    cases hsome

/-- Whatever the handlers do, each is called at most once and in its turn, no NULL entry is called,
and the runner stops at the end of the chain or because of an abort. -/
theorem dispatch_in_turn (handlers : List (Option (Handler ω))) (deferred : Bool) (w : ω) :
    (positions (contextDispatch handlers deferred w).2).Pairwise (· < ·) ∧
      (∀ p ∈ positions (contextDispatch handlers deferred w).2, (handlerAt handlers p).isSome) ∧
      ((contextDispatch handlers deferred w).1.index = handlers.length ∨
        (contextDispatch handlers deferred w).1.aborted = true) := by
  refine ⟨(contextNext_ordered _ _ (Nat.zero_le _)).1, fun p hp => ?_, ?_⟩
  · obtain ⟨d, hd⟩ := mem_positions.mp hp
    exact contextNext_calls _ _ p d hd
  · exact contextNext_ends _ _ (Nat.zero_le _) (Nat.sub_le _ _)

end Voxlib.Http
