import Mathlib.Data.List.TakeWhile
import Voxlib.Timer.Booking

/-!
# Which timers one call of vox_timer_process_expired serves
-/

namespace Voxlib.Timer
open Run MHeap List Option Function

section Fires
variable {α : Type} {due due' oneShot oneShot' : α → Bool}

def fires (due oneShot : α → Bool) : List α → List α
  | [] => []
  | x :: rest =>
    if due x then
      if oneShot x then x :: fires due oneShot rest else x :: (rest.take 1).filter due
    else []

theorem fires_sublist (s : List α) : (fires due oneShot s).Sublist s := by
  induction s with
  | nil => exact List.Sublist.refl []
  | cons x rest ih =>
    unfold fires
    split
    · split
      · exact ih.cons_cons x
      · exact (filter_sublist.trans (take_sublist 1 rest)).cons_cons x
    · exact nil_sublist _

theorem fires_congr {s : List α} (hd : ∀ x ∈ s, due' x = due x)
    (ho : ∀ x ∈ s, oneShot' x = oneShot x) : fires due' oneShot' s = fires due oneShot s := by
  induction s with
  | nil => rfl
  | cons x rest ih =>
    have hrest := ih (fun y hy => hd y (mem_cons_of_mem x hy))
      (fun y hy => ho y (mem_cons_of_mem x hy))
    have hfilter : (rest.take 1).filter due' = (rest.take 1).filter due := by
      apply filter_congr
      intro y hy
      exact hd y (mem_cons_of_mem x (mem_of_mem_take hy))
    unfold fires
    rw [hd x mem_cons_self, ho x mem_cons_self, hrest, hfilter]

theorem fires_put_back {x : α} (rest : List α) (hx : due x = false) :
    fires due oneShot (rest.take 1 ++ x :: rest.drop 1) = (rest.take 1).filter due := by
  cases rest with
  | nil => simp [fires, hx]
  | cons y rest =>
    by_cases hy : due y = true
    · by_cases ho : oneShot y = true
      · simp [fires, hx, hy, ho]
      · simp [fires, hx, hy, ho]
    · simp [fires, hy]

theorem fires_round {x : α} {rest s : List α} (hnd : (x :: rest).Nodup) (hx : due x = true)
    (hd : ∀ y, y ≠ x → due' y = due y) (ho : ∀ y, y ≠ x → oneShot' y = oneShot y)
    (hs : (oneShot x = true ∧ s = rest) ∨
      (oneShot x = false ∧ due' x = false ∧ s = rest.take 1 ++ x :: rest.drop 1)) :
    fires due oneShot (x :: rest) = x :: fires due' oneShot' s ∧
      x ∉ fires due' oneShot' s ∧ s.countP due' + 1 = (x :: rest).countP due := by
  have hnot : ∀ y ∈ rest, y ≠ x := fun y hy he => (nodup_cons.mp hnd).1 (he ▸ hy)
  have hcount : rest.countP due' = rest.countP due := by
    apply countP_congr
    intro y hy
    rw [hd y (hnot y hy)]
  rw [countP_cons_of_pos hx, ← hcount, fires, if_pos hx]
  rcases hs with ⟨hone, rfl⟩ | ⟨hrep, hlater, rfl⟩
  · rw [if_pos hone, fires_congr (fun y hy => hd y (hnot y hy)) (fun y hy => ho y (hnot y hy))]
    refine ⟨rfl, ?_, rfl⟩
    intro hmem
    exact hnot x ((fires_sublist s).subset hmem) rfl
  · rw [if_neg (by simp [hrep]), fires_put_back rest hlater]
    have hfilter : (rest.take 1).filter due' = (rest.take 1).filter due := by
      apply filter_congr
      intro y hy
      exact hd y (hnot y (mem_of_mem_take hy))
    refine ⟨by rw [hfilter], ?_, ?_⟩
    · intro hmem
      exact hnot x (mem_of_mem_take (mem_filter.mp hmem).1) rfl
    · rw [countP_append, countP_cons_of_neg (by simp [hlater]), ← countP_append,
        take_append_drop]

theorem fires_head (s : List α) : fires due oneShot s <+: s.takeWhile due := by
  induction s with
  | nil => exact prefix_refl []
  | cons x rest ih =>
    unfold fires
    split
    · rename_i hx
      rw [takeWhile_cons_of_pos hx]
      split
      · exact cons_prefix_cons.mpr ⟨rfl, ih⟩
      · apply cons_prefix_cons.mpr ⟨rfl, ?_⟩
        cases rest with
        | nil => exact prefix_refl []
        | cons y rest =>
          by_cases hy : due y = true
          · simp [hy]
          · simp [hy]
    · exact List.nil_prefix

/- All but the last two of the due timers at the front must be one-shot. -/
theorem fires_eq_takeWhile (s : List α) : fires due oneShot s = s.takeWhile due ↔
      ∀ x ∈ (s.takeWhile due).take ((s.takeWhile due).length - 2), oneShot x = true := by
  induction s with
  | nil => simp [fires]
  | cons x rest ih =>
    unfold fires
    by_cases hx : due x = true
    · rw [if_pos hx, takeWhile_cons_of_pos hx]
      generalize hw : rest.takeWhile due = d at ih
      have htake : (x :: d).take ((x :: d).length - 2) =
          if 2 ≤ d.length then x :: d.take (d.length - 2) else [] := by
        split
        · rename_i hlen
          have harith : (x :: d).length - 2 = (d.length - 2) + 1 := by
            simp only [length_cons]
            omega
          rw [harith, take_succ_cons]
        · rename_i hlen
          have harith : (x :: d).length - 2 = 0 := by
            simp only [length_cons]
            omega
          rw [harith, take_zero]
      rw [htake]
      split
      · rename_i hone
        rw [cons_inj_right, ih]
        split
        · simp [hone]
        · rename_i hlen
          have harith : d.length - 2 = 0 := by omega
          rw [harith, take_zero]
      · rename_i hrep
        have hhead : (rest.take 1).filter due = d.take 1 := by
          rw [← hw]
          cases rest with
          | nil => rfl
          | cons y rest =>
            by_cases hy : due y = true
            · simp [hy]
            · simp [hy]
        rw [cons_inj_right, hhead, take_eq_self_iff]
        split
        · simp [hrep]
          omega
        · simp
          omega
    · rw [if_neg hx, takeWhile_cons_of_neg hx]
      simp

theorem fires_all_iff (due oneShot : α → Bool) {s : List α} (hnd : s.Nodup) (r : α → α → Prop) :
    ((∀ x ∈ s, due x = true → x ∈ fires due oneShot s) ∧ (fires due oneShot s).Pairwise r) ↔
      ((∀ x ∈ s, due x = true → x ∈ s.takeWhile due) ∧ (s.takeWhile due).Pairwise r ∧
        ∀ x ∈ (s.takeWhile due).take ((s.takeWhile due).length - 2), oneShot x = true) := by
  constructor
  · intro ⟨hall, hsorted⟩
    have hsub : (s.takeWhile due) ⊆ fires due oneShot s := by
      intro x hx
      exact hall x ((takeWhile_sublist due).subset hx) (mem_takeWhile_imp hx)
    have hlen : (s.takeWhile due).length ≤ (fires due oneShot s).length :=
      ((takeWhile_sublist due).nodup hnd).subperm hsub |>.length_le
    have heq : fires due oneShot s = s.takeWhile due := (fires_head s).eq_of_length_le hlen
    rw [heq] at hall hsorted
    exact ⟨hall, hsorted, (fires_eq_takeWhile s).mp heq⟩
  · intro ⟨hall, hsorted, hone⟩
    rw [fires_eq_takeWhile s |>.mpr hone]
    exact ⟨hall, hsorted⟩

end Fires

def due (l : Loop) (now i : ℕ) : Bool := (l.timer i).timeout ≤ now

def oneShot (l : Loop) (i : ℕ) : Bool := (l.timer i).repeatUs = 0

/- Steps of `vox_timer_process_expired` until it returns. -/
def drive (alloc : Bool) : ℕ → State → Option State
  | 0, s => if s.ctl = .idle then some s else none
  | fuel + 1, s => if s.ctl = .idle then some s else (tick alloc s).bind (drive alloc fuel)

/- A whole call whose callbacks touch no timer: two steps for each timer and one
   to stop are enough. -/
def processExpired (alloc : Bool) (l : Loop) : Option State :=
  drive alloc (2 * l.timers.elements.length + 1) { loop := l, ctl := .looping l.loopTime }

def afterFire (now : ℕ) (t : VoxTimer) : VoxTimer :=
  if 0 < t.repeatUs then { t with timeout := (now + t.repeatUs) % 2 ^ 64 }
  else { t with active := false }

theorem timerCmp_flat {timer : ℕ → VoxTimer} {self : ℕ} (hsame : ∀ i, (timer i).loop = self)
    (i j : ℕ) : 0 ≤ timerCmp timer i j := by
  unfold timerCmp firstWord
  rw [hsame i, hsame j]
  simp

variable {l : Loop}

theorem rearm_flat {i : ℕ} (alloc : Bool) (now : ℕ) (hsame : ∀ j, (l.timer j).loop = l.self)
    (hon : (l.timer i).active = true) (hroom : l.timers.elements.length < l.timers.capacity) :
    (rearm alloc l now i).timer = Function.update l.timer i (afterFire now (l.timer i)) ∧
      flatOrder (rearm alloc l now i).timers.elements =
        if oneShot l i then flatOrder l.timers.elements
        else (flatOrder l.timers.elements).take 1 ++ i :: (flatOrder l.timers.elements).drop 1 := by
  unfold rearm afterFire oneShot
  by_cases hrep : 0 < (l.timer i).repeatUs
  · have hsame' : ∀ j, ((l.setTimer i { l.timer i with
        timeout := (now + (l.timer i).repeatUs) % 2 ^ 64 }).timer j).loop = l.self := by
      intro j
      rw [setTimer_timer]
      split
      · exact hsame i
      · exact hsame j
    have hne : (l.timer i).repeatUs ≠ 0 := by omega
    rw [if_pos ⟨hrep, hon⟩, if_pos hrep]
    dsimp only
    rw [setTimer_timers, push_flat (timerCmp_flat hsame') alloc i hroom]
    simp only [hne, decide_false, Bool.false_eq_true, if_false]
    exact ⟨rfl, flatOrder_append_singleton _ _⟩
  · have hzero : (l.timer i).repeatUs = 0 := by omega
    rw [if_neg (fun h => hrep h.1), if_neg hrep]
    simp only [hzero, decide_true, if_true]
    exact ⟨rfl, rfl⟩

variable {alloc : Bool} {now : ℕ}

theorem tick_stops {fired : List (ℕ × ℕ)} (hinv : LoopInv l ∅)
    (hstop : ∀ x rest, flatOrder l.timers.elements = x :: rest → due l now x = false) :
    tick alloc ⟨l, .looping now, fired⟩ = some ⟨l, .idle, fired⟩ := by
  simp only [tick, expireRoot]
  cases hs : flatOrder l.timers.elements with
  | nil =>
    have hnil : l.timers.elements = [] := by
      cases hl : l.timers.elements with
      | nil => rfl
      | cons r m => simp [hl, flatOrder] at hs
    simp [pop, hnil]
  | cons x rest =>
    obtain ⟨h, hp, _⟩ := pop_flat (timerCmp_flat hinv.sameLoop) hs
    have hmem : x ∈ l.timers.elements := by
      rw [← mem_flatOrder, hs]
      exact mem_cons_self
    have hlate := hstop x rest hs
    simp only [due, decide_eq_false_iff_not, not_le] at hlate
    rw [hp]
    simp [hinv.heapActive x hmem, hlate]

theorem tick_round {x : ℕ} {rest : List ℕ} (alloc : Bool) (fired : List (ℕ × ℕ))
    (hinv : LoopInv l ∅) (hs : flatOrder l.timers.elements = x :: rest) (hx : due l now x = true) :
    ∃ l', ((tick alloc ⟨l, .looping now, fired⟩).bind (tick alloc)) =
        some ⟨l', .looping now, fired ++ [(x, (l.timer x).timeout)]⟩ ∧
      LoopInv l' ∅ ∧ l'.timer = Function.update l.timer x (afterFire now (l.timer x)) ∧
      flatOrder l'.timers.elements =
        if oneShot l x then rest else rest.take 1 ++ x :: rest.drop 1 := by
  obtain ⟨h, hp, hrest, hcap, hlen⟩ := pop_flat (timerCmp_flat hinv.sameLoop) hs
  have hmem : x ∈ l.timers.elements := by
    rw [← mem_flatOrder, hs]
    exact mem_cons_self
  have hon := hinv.heapActive x hmem
  obtain ⟨f, hf⟩ := isSome_iff_exists.mp (hinv.callback x hon)
  have hnow : ¬ (l.timer x).timeout > now := by
    simp only [due, decide_eq_true_eq] at hx
    omega
  have hd := dropped_of_perm (pop_perm hp) (pop_capacity hp) hinv.nodup
  have hroom : h.elements.length < h.capacity := by
    have := hinv.roomy.2
    omega
  have hfirst : tick alloc ⟨l, .looping now, fired⟩ = some ⟨{ l with timers := h },
      .inCallback now x, fired ++ [(x, (l.timer x).timeout)]⟩ := by
    simp only [tick, expireRoot, hp, hon, hf, if_neg hnow, Bool.not_true, Bool.false_eq_true,
      if_false]
  have hout : x ∉ h.elements := fun hi => ((hd.mem x).mp hi).2 rfl
  have hinv' := rearm_inv alloc now (hinv.drop hd) hout (fun _ _ => Or.inl hroom)
  obtain ⟨htimer, horder⟩ := rearm_flat (l := { l with timers := h }) alloc now hinv.sameLoop hon
    hroom
  rw [hrest] at horder
  refine ⟨rearm alloc { l with timers := h } now x, ?_, hinv'.mono (by simp), htimer, horder⟩
  rw [hfirst]
  rfl

theorem drive_two {s t : State} (fuel : ℕ) (hs : s.ctl ≠ .idle)
    (ht : (tick alloc s).bind (tick alloc) = some t) :
    drive alloc (fuel + 2) s = drive alloc fuel t := by
  obtain ⟨u, hu, hut⟩ := bind_eq_some_iff.mp ht
  have hbusy : u.ctl ≠ .idle := by
    intro hidle
    simp [tick, hidle] at hut
  rw [drive, if_neg hs, hu, bind_some, drive, if_neg hbusy, hut, bind_some]

theorem drive_stops {fuel : ℕ} {fired : List (ℕ × ℕ)} (hinv : LoopInv l ∅) (hfuel : 1 ≤ fuel)
    (hstop : ∀ x rest, flatOrder l.timers.elements = x :: rest → due l now x = false) :
    drive alloc fuel ⟨l, .looping now, fired⟩ = some ⟨l, .idle, fired⟩ := by
  obtain ⟨n, rfl⟩ : ∃ n, fuel = n + 1 := ⟨fuel - 1, by omega⟩
  rw [drive, if_neg (by simp), tick_stops hinv hstop, bind_some]
  cases n with
  | zero => simp [drive]
  | succ n => simp [drive]

theorem fires_stop {α : Type} {due oneShot : α → Bool} {s : List α}
    (hstop : ∀ x rest, s = x :: rest → due x = false) : fires due oneShot s = [] := by
  cases s with
  | nil => rfl
  | cons x rest => rw [fires, if_neg (by simp [hstop x rest rfl])]

theorem afterFire_repeatUs (now : ℕ) (t : VoxTimer) : (afterFire now t).repeatUs = t.repeatUs := by
  unfold afterFire
  split
  · rfl
  · rfl

theorem fires_after_round {l' : Loop} {x : ℕ} {rest : List ℕ} (hnd : (x :: rest).Nodup)
    (hx : due l now x = true) (hwrap : now + (l.timer x).repeatUs < 2 ^ 64)
    (htimer : l'.timer = Function.update l.timer x (afterFire now (l.timer x))) {s : List ℕ}
    (hs : s = if oneShot l x then rest else rest.take 1 ++ x :: rest.drop 1) :
    fires (due l now) (oneShot l) (x :: rest) = x :: fires (due l' now) (oneShot l') s ∧
      x ∉ fires (due l' now) (oneShot l') s ∧
      s.countP (due l' now) + 1 = (x :: rest).countP (due l now) := by
  have hother : ∀ y, y ≠ x → l'.timer y = l.timer y := by
    intro y hy
    rw [htimer, update_of_ne hy]
  apply fires_round hnd hx
  · intro y hy
    rw [due, due, hother y hy]
  · intro y hy
    rw [oneShot, oneShot, hother y hy]
  · by_cases hone : oneShot l x = true
    · left
      rw [if_pos hone] at hs
      exact ⟨hone, hs⟩
    · right
      rw [if_neg hone] at hs
      have hpos : 0 < (l.timer x).repeatUs := by
        simp only [oneShot, decide_eq_true_eq] at hone
        omega
      have hlater : due l' now x = false := by
        rw [due, htimer, update_self, afterFire, if_pos hpos, Nat.mod_eq_of_lt hwrap]
        apply decide_eq_false
        dsimp only
        omega
      exact ⟨by simpa using hone, hlater, hs⟩

/- The loop serves exactly the timers of `fires`, in that order. The induction
   is on the number of due timers: a served timer is inactive or armed for
   later. -/
theorem drive_fires (alloc : Bool) (n : ℕ) :
    ∀ (l : Loop) (fired : List (ℕ × ℕ)) (fuel : ℕ), LoopInv l ∅ →
      (∀ i ∈ l.timers.elements, now + (l.timer i).repeatUs < 2 ^ 64) →
      (flatOrder l.timers.elements).countP (due l now) = n → 2 * n + 1 ≤ fuel →
      ∃ l', drive alloc fuel ⟨l, .looping now, fired⟩ = some ⟨l', .idle, fired ++
          (fires (due l now) (oneShot l) (flatOrder l.timers.elements)).map
            (fun i => (i, (l.timer i).timeout))⟩ ∧ LoopInv l' ∅ ∧
        ∀ i, l'.timer i = if i ∈ fires (due l now) (oneShot l) (flatOrder l.timers.elements)
          then afterFire now (l.timer i) else l.timer i := by
  induction n with
  | zero =>
    intro l fired fuel hinv hwrap hcount hfuel
    have hstop : ∀ x rest, flatOrder l.timers.elements = x :: rest → due l now x = false := by
      intro x rest hs
      have hnone := countP_eq_zero.mp hcount x (by rw [hs]; exact mem_cons_self)
      simpa using hnone
    rw [fires_stop hstop, drive_stops hinv (by omega) hstop]
    exact ⟨l, by simp, hinv, by simp⟩
  | succ n ih =>
    intro l fired fuel hinv hwrap hcount hfuel
    by_cases hroot : ∃ x rest, flatOrder l.timers.elements = x :: rest ∧ due l now x = true
    · obtain ⟨x, rest, hs, hx⟩ := hroot
      obtain ⟨l₁, hround, hinv₁, htimer, horder⟩ := tick_round alloc fired hinv hs hx
      have hnd : (x :: rest).Nodup := by
        rw [← hs]
        exact flatOrder_nodup.mpr hinv.nodup
      have hmem : x ∈ l.timers.elements := by
        rw [← mem_flatOrder, hs]
        exact mem_cons_self
      obtain ⟨hfires, hnot, hcount₁⟩ := fires_after_round hnd hx (hwrap x hmem) htimer horder
      have hwrap₁ : ∀ i ∈ l₁.timers.elements, now + (l₁.timer i).repeatUs < 2 ^ 64 := by
        intro i hi
        have hrep : (l₁.timer i).repeatUs = (l.timer i).repeatUs := by
          rw [htimer, update_apply]
          split
          · rename_i hix
            rw [afterFire_repeatUs, hix]
          · rfl
        have hold : i ∈ l.timers.elements := by
          rw [← mem_flatOrder, horder] at hi
          rw [← mem_flatOrder, hs]
          split at hi
          · exact mem_cons_of_mem x hi
          · have hperm : (rest.take 1 ++ x :: rest.drop 1).Perm (x :: rest) := by
              have hmid : (rest.take 1 ++ x :: rest.drop 1).Perm
                (x :: (rest.take 1 ++ rest.drop 1)) := perm_middle
              rw [take_append_drop] at hmid
              exact hmid
            exact hperm.mem_iff.mp hi
        rw [hrep]
        exact hwrap i hold
      have hn : (flatOrder l₁.timers.elements).countP (due l₁ now) = n := by
        rw [hs] at hcount
        omega
      obtain ⟨fuel', rfl⟩ : ∃ m, fuel = m + 2 := ⟨fuel - 2, by omega⟩
      obtain ⟨l', hdrive, hinv', hfinal⟩ := ih l₁ (fired ++ [(x, (l.timer x).timeout)]) fuel'
        hinv₁ hwrap₁ hn (by omega)
      have hsame : ∀ y ∈ fires (due l₁ now) (oneShot l₁) (flatOrder l₁.timers.elements),
          l₁.timer y = l.timer y := by
        intro y hy
        have hyx : y ≠ x := fun he => hnot (he ▸ hy)
        rw [htimer, update_of_ne hyx]
      have hmap : (fires (due l₁ now) (oneShot l₁) (flatOrder l₁.timers.elements)).map
            (fun i => (i, (l₁.timer i).timeout)) =
          (fires (due l₁ now) (oneShot l₁) (flatOrder l₁.timers.elements)).map
            (fun i => (i, (l.timer i).timeout)) := by
        apply map_congr_left
        intro y hy
        rw [hsame y hy]
      refine ⟨l', ?_, hinv', ?_⟩
      · rw [drive_two fuel' (by simp) hround, hdrive, hs, hfires, hmap]
        simp
      · intro i
        rw [hfinal i, hs, hfires]
        by_cases hix : i = x
        · subst hix
          rw [if_neg hnot, if_pos mem_cons_self, htimer, update_self]
        · rw [htimer, update_of_ne hix]
          simp [hix]
    · have hstop : ∀ x rest, flatOrder l.timers.elements = x :: rest → due l now x = false := by
        intro x rest hs
        by_contra hdue
        exact hroot ⟨x, rest, hs, by simpa using hdue⟩
      rw [fires_stop hstop, drive_stops hinv (by omega) hstop]
      exact ⟨l, by simp, hinv, by simp⟩

inductive Call where
  | start (i timeoutMs repeatMs : ℕ) (cb : Option ℕ) (data : ℕ) (alloc : Bool)
  | stop (i : ℕ)
  | again (i : ℕ) (alloc : Bool)
  | setRepeat (i repeatMs : ℕ)
  | updateTime (now : ℕ)
  | process (alloc : Bool)
  deriving DecidableEq, Repr

def callStep (l : Loop) : Call → Option Loop
  | .start i t r cb data alloc => some (timerStart alloc l i t r cb data).2
  | .stop i => some (timerStop l i).2
  | .again i alloc => some (timerAgain alloc l i).2
  | .setRepeat i r => some (timerSetRepeat l i r)
  | .updateTime now => if l.loopTime ≤ now then some { l with loopTime := now } else none
  | .process alloc => (processExpired alloc l).map State.loop

/- What a call of `vox_timer_process_expired` at time `now` should achieve. -/
def Served (now : ℕ) (s : State) : Prop :=
  (∀ i, (s.loop.timer i).active = true → now < (s.loop.timer i).timeout) ∧
  s.fired.Pairwise fun a b => a.2 ≤ b.2

/- The due timers stand at the front of the order of service, sorted by
   deadline, and all but the last two of them are one-shot. -/
def InServiceOrder (l : Loop) : Prop :=
  let front := (flatOrder l.timers.elements).takeWhile (due l l.loopTime)
  (∀ i ∈ l.timers.elements, due l l.loopTime i = true → i ∈ front) ∧
  front.Pairwise (fun i j => (l.timer i).timeout ≤ (l.timer j).timeout) ∧
  ∀ i ∈ front.take (front.length - 2), (l.timer i).repeatUs = 0

/- While a call runs nobody else touches the heap: the popped timer stays out
   and its place stays free. -/
def DriveInv (s : State) : Prop :=
  StateInv s ∧ ∀ now i, s.ctl = .inCallback now i →
    i ∉ s.loop.timers.elements ∧ s.loop.timers.elements.length < s.loop.timers.capacity

theorem expireRoot_popped {s : State} {now' i : ℕ} (hinv : LoopInv s.loop ∅)
    (h : (expireRoot alloc s now).ctl = .inCallback now' i) :
    i ∉ (expireRoot alloc s now).loop.timers.elements ∧
      (expireRoot alloc s now).loop.timers.elements.length <
        (expireRoot alloc s now).loop.timers.capacity := by
  unfold expireRoot at h ⊢
  cases hp : pop (timerCmp s.loop.timer) s.loop.timers with
  | none => simp [hp] at h
  | some p =>
    obtain ⟨x, heap⟩ := p
    have hroot : x ∈ s.loop.timers.elements := mem_of_mem_head? (pop_head hp)
    have hon := hinv.heapActive x hroot
    obtain ⟨f, hf⟩ := isSome_iff_exists.mp (hinv.callback x hon)
    have hd := dropped_of_perm (pop_perm hp) (pop_capacity hp) hinv.nodup
    have hlen := (pop_perm hp).length_eq
    simp only [length_cons] at hlen
    have hroom := hinv.roomy.2
    have hcap := pop_capacity hp
    by_cases hlate : (s.loop.timer x).timeout > now
    · simp [hp, hon, hlate] at h
    · simp only [hp, hon, hf, if_neg hlate, Bool.not_true, Bool.false_eq_true, if_false,
        Ctl.inCallback.injEq] at h ⊢
      obtain ⟨_, rfl⟩ := h
      exact ⟨fun hi => ((hd.mem x).mp hi).2 rfl, by omega⟩

theorem tick_driveInv {s t : State} (hinv : DriveInv s) (h : tick alloc s = some t) :
    DriveInv t := by
  obtain ⟨hstate, hcall⟩ := hinv
  have hclean : ReturnsClean s (.tick alloc) := by
    cases hctl : s.ctl with
    | idle => simp only [ReturnsClean, hctl]
    | looping now => simp only [ReturnsClean, hctl]
    | inCallback now i =>
      simp only [ReturnsClean, hctl]
      exact ⟨(hcall now i hctl).1, fun _ _ => Or.inl (hcall now i hctl).2⟩
  refine ⟨tick_inv hstate hclean h, ?_⟩
  intro now' i hi
  unfold tick at h
  unfold StateInv away at hstate
  cases hctl : s.ctl with
  | idle => simp [hctl] at h
  | looping now =>
    simp only [hctl, Option.some.injEq] at h hstate
    rw [← h] at hi ⊢
    exact expireRoot_popped hstate hi
  | inCallback now j =>
    simp only [hctl, Option.some.injEq] at h
    rw [← h] at hi
    cases hi

theorem drive_driveInv (fuel : ℕ) {s t : State} (hinv : DriveInv s)
    (h : drive alloc fuel s = some t) : DriveInv t ∧ t.ctl = .idle := by
  induction fuel generalizing s with
  | zero =>
    unfold drive at h
    split at h
    · rename_i hidle
      rw [← some.inj h]
      exact ⟨hinv, hidle⟩
    · cases h
  | succ fuel ih =>
    unfold drive at h
    split at h
    · rename_i hidle
      rw [← some.inj h]
      exact ⟨hinv, hidle⟩
    · obtain ⟨u, hu, hrest⟩ := bind_eq_some_iff.mp h
      exact ih (tick_driveInv hinv hu) hrest

theorem processExpired_inv {s : State} (hinv : LoopInv l ∅) (h : processExpired alloc l = some s) :
    LoopInv s.loop ∅ := by
  have h0 : DriveInv { loop := l, ctl := .looping l.loopTime } := by
    refine ⟨hinv, ?_⟩
    intro now i hi
    cases hi
  obtain ⟨⟨hs, _⟩, hidle⟩ := drive_driveInv _ h0 h
  unfold StateInv away at hs
  rw [hidle] at hs
  exact hs

theorem callStep_inv {l' : Loop} {c : Call} (hinv : LoopInv l ∅) (h : callStep l c = some l') :
    LoopInv l' ∅ := by
  cases c with
  | start i t r cb data alloc =>
    rw [← some.inj h]
    exact timerStart_inv alloc i t r cb data hinv
  | stop i =>
    rw [← some.inj h]
    exact timerStop_inv i hinv
  | again i alloc =>
    rw [← some.inj h]
    exact timerAgain_inv alloc i hinv
  | setRepeat i r =>
    rw [← some.inj h]
    exact timerSetRepeat_inv i r hinv
  | updateTime now =>
    simp only [callStep] at h
    split at h
    · rw [← some.inj h]
      exact ⟨hinv.sameLoop, hinv.roomy, hinv.nodup, hinv.heapActive, hinv.activeHeap,
        hinv.callback⟩
    · cases h
  | process alloc =>
    obtain ⟨s, hs, rfl⟩ := map_eq_some_iff.mp h
    exact processExpired_inv hinv hs

theorem calls_inv {l' : Loop} (cs : List Call) (hinv : LoopInv l ∅)
    (h : exec callStep l cs = some l') : LoopInv l' ∅ := by
  induction cs generalizing l with
  | nil =>
    rw [← some.inj h]
    exact hinv
  | cons c cs ih =>
    obtain ⟨m, hm, hrest⟩ := bind_eq_some_iff.mp h
    exact ih (callStep_inv hinv hm) hrest

/- The active timers that are due after the call are those it has not served. -/
theorem no_due_left_iff {l' : Loop} {served : List ℕ} (hinv : LoopInv l ∅)
    (hwrap : ∀ i ∈ l.timers.elements, now + (l.timer i).repeatUs < 2 ^ 64)
    (hsub : ∀ i ∈ served, i ∈ l.timers.elements)
    (hfinal : ∀ i, l'.timer i = if i ∈ served then afterFire now (l.timer i) else l.timer i) :
    (∀ i, (l'.timer i).active = true → now < (l'.timer i).timeout) ↔
      ∀ i ∈ l.timers.elements, due l now i = true → i ∈ served := by
  constructor
  · intro h i hi hdue
    by_contra hnot
    have hlater := h i
    rw [hfinal i, if_neg hnot] at hlater
    have hnow := hlater (hinv.heapActive i hi)
    simp only [due, decide_eq_true_eq] at hdue
    omega
  · intro h i hon
    rw [hfinal i] at hon ⊢
    by_cases hi : i ∈ served
    · rw [if_pos hi] at hon ⊢
      unfold afterFire at hon ⊢
      split at hon
      · rename_i hrep
        rw [if_pos hrep, Nat.mod_eq_of_lt (hwrap i (hsub i hi))]
        dsimp only
        omega
      · cases hon
    · rw [if_neg hi] at hon ⊢
      rcases hinv.activeHeap i hon with hheap | hfalse
      · by_contra hdue
        exact hi (h i hheap (decide_eq_true (by omega)))
      · cases hfalse

theorem served_iff_in_service_order (self loopTime : ℕ) (cs : List Call) (alloc : Bool) (l : Loop)
    (hrun : exec callStep (Loop.init self loopTime) cs = some l)
    (hwrap : ∀ i ∈ l.timers.elements, l.loopTime + (l.timer i).repeatUs < 2 ^ 64) :
    ∃ s, processExpired alloc l = some s ∧ (Served l.loopTime s ↔ InServiceOrder l) := by
  have hinv := calls_inv cs (init_inv self loopTime) hrun
  have hnd : (flatOrder l.timers.elements).Nodup := flatOrder_nodup.mpr hinv.nodup
  have hlen : (flatOrder l.timers.elements).length = l.timers.elements.length := by
    cases l.timers.elements with
    | nil => rfl
    | cons r m => simp [flatOrder]
  have hcount : (flatOrder l.timers.elements).countP (due l l.loopTime) ≤
      (flatOrder l.timers.elements).length := countP_le_length
  obtain ⟨l', hdrive, _, hfinal⟩ := drive_fires alloc _ l [] _ hinv hwrap rfl
    (show _ ≤ 2 * l.timers.elements.length + 1 by omega)
  refine ⟨_, hdrive, ?_⟩
  have hsub : ∀ i ∈ fires (due l l.loopTime) (oneShot l) (flatOrder l.timers.elements),
      i ∈ l.timers.elements := by
    intro i hi
    exact mem_flatOrder.mp ((fires_sublist _).subset hi)
  have hall := fires_all_iff (due l l.loopTime) (oneShot l) hnd
    (fun i j => (l.timer i).timeout ≤ (l.timer j).timeout)
  unfold Served InServiceOrder
  rw [no_due_left_iff hinv hwrap hsub hfinal, nil_append, pairwise_map]
  simp only [mem_flatOrder, oneShot, decide_eq_true_eq] at hall
  exact hall

/- Two one-shot timers that are due in the order in which they were started. -/
theorem served_two_timers :
    ∃ l s, exec callStep (Loop.init 7 0) [.start 0 1 0 (some 1) 0 true, .start 1 2 0 (some 1) 0 true,
        .updateTime 3000] = some l ∧ processExpired true l = some s ∧
      s.fired = [(0, 1000), (1, 2000)] ∧ Served l.loopTime s := by
  have hrun : (exec callStep (Loop.init 7 0) [.start 0 1 0 (some 1) 0 true,
      .start 1 2 0 (some 1) 0 true, .updateTime 3000]).isSome = true := by rfl
  obtain ⟨l, hl⟩ := isSome_iff_exists.mp hrun
  have hwrap : ∀ i ∈ l.timers.elements, l.loopTime + (l.timer i).repeatUs < 2 ^ 64 := by
    rw [← some.inj hl]
    decide
  have horder : InServiceOrder l := by
    rw [← some.inj hl]
    unfold InServiceOrder
    decide
  obtain ⟨s, hs, hiff⟩ := served_iff_in_service_order 7 0 _ true l hl hwrap
  have hfired : s.fired = [(0, 1000), (1, 2000)] := by
    rw [← some.inj hl] at hs
    rw [← some.inj hs]
    rfl
  exact ⟨l, s, hl, hs, hfired, hiff.mpr horder⟩

/- A timer that is not due hides the due timer behind it, and two due timers run
   against the order of their deadlines. -/
theorem due_timer_not_served :
    (∃ l s, exec callStep (Loop.init 7 0) [.start 0 1000 0 (some 1) 0 true,
        .start 1 0 0 (some 1) 0 true] = some l ∧ processExpired true l = some s ∧
      s.fired = [] ∧ (s.loop.timer 1).active = true ∧ (s.loop.timer 1).timeout ≤ l.loopTime) ∧
    (∃ l s, exec callStep (Loop.init 7 0) [.start 0 2 0 (some 1) 0 true,
        .start 1 1 0 (some 1) 0 true, .updateTime 3000] = some l ∧
      processExpired true l = some s ∧ s.fired = [(0, 2000), (1, 1000)]) := by
  constructor
  · exact ⟨_, _, rfl, rfl, rfl, rfl, by decide⟩
  · exact ⟨_, _, rfl, rfl, rfl⟩

end Voxlib.Timer
