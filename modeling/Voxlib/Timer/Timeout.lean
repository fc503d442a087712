import Voxlib.Lib.CStr
import Voxlib.Timer.Service

/-!
# How long the loop may sleep

The answer is the deadline of the root, which the comparator does not make the first one.
-/

namespace Voxlib.Timer
open Run MHeap CStr

/- The loop over the stopped timers at the root (vox_timer.c:230-236). -/
def skipInactive : ℕ → Loop → Loop
  | 0, l => l
  | fuel + 1, l =>
    match pop (timerCmp l.timer) l.timers with
    | none => l
    | some (i, h) => if (l.timer i).active then l else skipInactive fuel { l with timers := h }

-- vox_timer_get_next_timeout (vox_timer.c:218-249)
def timerGetNextTimeout (l : Loop) : ℤ × Loop :=
  let l' := skipInactive l.timers.elements.length l
  match peek l'.timers with
  | none => (-1, l')
  | some i =>
    if (l'.timer i).timeout ≤ l'.loopTime then (0, l')
    else (toInt (((l'.timer i).timeout - l'.loopTime) / 1000), l')

/- A sleep of `ms` milliseconds ends with the last whole millisecond before the
   earliest deadline, and does not end only when there is no deadline. -/
structure Wakes (l : Loop) (ms : ℤ) : Prop where
  idle : (∀ i, (l.timer i).active = false) → ms = -1
  nonneg : (∃ i, (l.timer i).active = true) → 0 ≤ ms
  inTime : ∀ i, (l.timer i).active = true →
    ms ≤ (((l.timer i).timeout - l.loopTime) / 1000 : ℕ)

/- The root of the heap is due, or the low 32 bits of its milliseconds are not
   negative as an int and not more than any active timer has left. -/
def RootFirst (l : Loop) : Prop :=
  ∀ i, peek l.timers = some i → l.loopTime < (l.timer i).timeout →
    let ms := ((l.timer i).timeout - l.loopTime) / 1000 % 2 ^ 32
    ms < 2 ^ 31 ∧ ∀ j, (l.timer j).active = true → ms ≤ ((l.timer j).timeout - l.loopTime) / 1000

theorem skipInactive_same {l : Loop} (hinv : LoopInv l ∅) (fuel : ℕ) : skipInactive fuel l = l := by
  cases fuel with
  | zero => rfl
  | succ fuel =>
    unfold skipInactive
    cases hp : pop (timerCmp l.timer) l.timers with
    | none => rfl
    | some p =>
      have hroot : p.1 ∈ l.timers.elements := List.mem_of_mem_head? (pop_head hp)
      dsimp only
      rw [if_pos (hinv.heapActive p.1 hroot)]

theorem peek_none {l : Loop} (hinv : LoopInv l ∅) (hp : peek l.timers = none) (i : ℕ) :
    (l.timer i).active = false := by
  have hnil : l.timers.elements = [] := List.head?_eq_none_iff.mp hp
  by_contra hon
  rcases hinv.activeHeap i (Bool.eq_true_of_not_eq_false hon) with hmem | haway
  · rw [hnil] at hmem
    exact absurd hmem List.not_mem_nil
  · exact haway

theorem toInt_nonneg_iff (j : ℕ) : 0 ≤ toInt j ↔ j % 2 ^ 32 < 2 ^ 31 := by
  unfold toInt
  split
  · omega
  · omega

theorem toInt_of_nonneg {j : ℕ} (h : j % 2 ^ 32 < 2 ^ 31) : toInt j = (j % 2 ^ 32 : ℕ) := by
  unfold toInt
  rw [if_pos h]

theorem wakes_iff {l : Loop} (hinv : LoopInv l ∅) :
    Wakes l (timerGetNextTimeout l).1 ↔ RootFirst l := by
  unfold timerGetNextTimeout
  rw [skipInactive_same hinv]
  dsimp only
  cases hp : peek l.timers with
  | none =>
    have hoff := peek_none hinv hp
    constructor
    · intro _ i hi
      rw [hp] at hi
      cases hi
    · intro _
      refine ⟨fun _ => rfl, ?_, ?_⟩
      · intro ⟨i, hi⟩
        rw [hoff i] at hi
        cases hi
      · intro i hi
        rw [hoff i] at hi
        cases hi
  | some r =>
    have hon : (l.timer r).active = true := hinv.heapActive r (List.mem_of_mem_head? hp)
    have hbusy : ¬ ∀ i, (l.timer i).active = false := by
      intro hoff
      rw [hoff r] at hon
      cases hon
    dsimp only
    by_cases hdue : (l.timer r).timeout ≤ l.loopTime
    · rw [if_pos hdue]
      constructor
      · intro _ i hi hlate
        rw [hp] at hi
        obtain rfl := Option.some.inj hi
        omega
      · intro _
        refine ⟨fun hoff => absurd hoff hbusy, fun _ => le_refl 0, ?_⟩
        intro i _
        exact Int.natCast_nonneg _
    · rw [if_neg hdue]
      constructor
      · intro hwakes i hi _
        rw [hp] at hi
        obtain rfl := Option.some.inj hi
        have hfits := (toInt_nonneg_iff _).mp (hwakes.nonneg ⟨r, hon⟩)
        refine ⟨hfits, ?_⟩
        intro j hj
        have hj' := hwakes.inTime j hj
        rw [toInt_of_nonneg hfits] at hj'
        exact Int.ofNat_le.mp hj'
      · intro hfirst
        obtain ⟨hfits, hleast⟩ := hfirst r hp (not_le.mp hdue)
        refine ⟨fun hoff => absurd hoff hbusy, fun _ => (toInt_nonneg_iff _).mpr hfits, ?_⟩
        intro j hj
        rw [toInt_of_nonneg hfits]
        exact Int.ofNat_le.mpr (hleast j hj)

/-- In every state that calls can lead to, the answer is right exactly when the
timer at the root says it for all. -/
theorem next_timeout_iff (self loopTime : ℕ) (cs : List Call) (l : Loop)
    (hrun : exec callStep (Loop.init self loopTime) cs = some l) :
    Wakes l (timerGetNextTimeout l).1 ↔ RootFirst l :=
  wakes_iff (calls_inv cs (init_inv self loopTime) hrun)

/- The timer that was started first is the earlier one. -/
theorem next_timeout_two_timers : ∃ l, exec callStep (Loop.init 7 0) [.start 0 1 0 (some 1) 0 true,
        .start 1 2 0 (some 1) 0 true] = some l ∧
      (timerGetNextTimeout l).1 = 1 ∧ (Wakes l (timerGetNextTimeout l).1 ↔ RootFirst l) := by
  have hrun : (exec callStep (Loop.init 7 0) [.start 0 1 0 (some 1) 0 true,
      .start 1 2 0 (some 1) 0 true]).isSome = true := by rfl
  obtain ⟨l, hl⟩ := Option.isSome_iff_exists.mp hrun
  have hone : (timerGetNextTimeout l).1 = 1 := by
    rw [← Option.some.inj hl]
    rfl
  exact ⟨l, hl, hone, next_timeout_iff 7 0 _ l hl⟩

/- A timer of one second stands before one of a millisecond; and 2^31
   milliseconds are negative as an int. -/
theorem sleeps_past_deadline : (∃ l, exec callStep (Loop.init 7 0) [.start 0 1000 0 (some 1) 0 true,
        .start 1 1 0 (some 1) 0 true] = some l ∧
      (timerGetNextTimeout l).1 = 1000 ∧ ¬ Wakes l (timerGetNextTimeout l).1) ∧
    (∃ l, exec callStep (Loop.init 7 0) [.start 0 (2 ^ 31) 0 (some 1) 0 true] = some l ∧
      (timerGetNextTimeout l).1 = -2 ^ 31 ∧ ¬ Wakes l (timerGetNextTimeout l).1) := by
  constructor
  · refine ⟨_, rfl, rfl, ?_⟩
    intro hwakes
    exact absurd (hwakes.inTime 1 rfl) (by decide)
  · refine ⟨_, rfl, by decide, ?_⟩
    intro hwakes
    exact absurd (hwakes.nonneg ⟨0, rfl⟩) (by decide)

end Voxlib.Timer
