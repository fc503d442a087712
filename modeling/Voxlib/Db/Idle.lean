import Mathlib.Data.List.Perm.Basic
import Mathlib.Data.Nat.Find

/-!
# Idle connection selection (db/vox_db_pool.c)
-/

namespace Voxlib.DbIdle
open List

/-- What one round meets: the ping, the pool when the lock is taken again, the allocation. -/
structure Ping where
  ok : Bool
  destroyed : Bool := false
  memory : Bool := true

/-- `idle_list` and `conns`; then the connections pinged, the one at hand when the pool was found
destroyed, and those disconnected. -/
structure State (C : Type*) where
  idle : List C
  conns : List (Option C)
  pinged : List C := []
  left : List C := []
  gone : List C := []

variable {C : Type*} [DecidableEq C]

-- pool_pop_idle_locked (vox_db_pool.c:84-120), at most `fuel` tests of the loop
def popIdle (ping : ℕ → Ping) : ℕ → ℕ → State C → Option (Option C × State C)
  | 0, _, _ => none
  | fuel + 1, k, s =>
    match s.idle with
    | [] => some (none, s)
    | conn :: rest =>
      let s := { s with idle := rest, pinged := s.pinged ++ [conn] }
      if (ping k).destroyed then some (none, { s with left := [conn] })
      else if (ping k).ok then some (some conn, s)
      else if (ping k).memory then popIdle ping fuel (k + 1) { s with idle := rest ++ [conn] }
      else
        popIdle ping fuel (k + 1)
          { s with gone := s.gone ++ [conn], conns := s.conns.replace (some conn) none }

/-- A connection is the last one pinged and its ping succeeded; NULL is for no ping that did. -/
def Answers (ping : ℕ → Ping) (pinged : List C) : Option C → Prop
  | some conn => ∃ k, pinged.length = k + 1 ∧ pinged[k]? = some conn ∧ (ping k).ok = true
  | none => ∀ k < pinged.length, (ping k).ok = true → (ping k).destroyed = true

/-- The call ends, each idle connection was pinged at most once, the answer is right and no
connection is lost or doubled. -/
def PopRight (ping : ℕ → Ping) (idle : List C) (conns : List (Option C)) : Prop :=
  ∃ fuel r s, popIdle ping fuel 0 ⟨idle, conns, [], [], []⟩ = some (r, s) ∧ s.pinged <+: idle ∧
    Answers ping s.pinged r ∧ r.toList ++ s.idle ++ s.left ++ s.gone ~ idle

def Failed (p : Ping) : Prop := p.destroyed = false ∧ p.ok = false

/-- One of the first `n` pings ends the loop, or each fails and its connection is dropped. -/
def Decided (ping : ℕ → Ping) (n : ℕ) : Prop :=
  (∃ k < n, ¬ Failed (ping k)) ∨ ∀ k < n, (ping k).memory = false

variable {ping : ℕ → Ping}

variable {s : State C}

theorem popIdle_nil (fuel k : ℕ) (h : s.idle = []) :
    popIdle ping (fuel + 1) k s = some (none, s) := by
  rw [popIdle, h]

theorem popIdle_last {fuel k : ℕ} {conn : C} {rest : List C} (hidle : s.idle = conn :: rest)
    (hend : ¬ Failed (ping k)) :
    popIdle ping (fuel + 1) k s = some (if (ping k).destroyed then none else some conn, { s with
        idle := rest
        pinged := s.pinged ++ [conn]
        left := if (ping k).destroyed then [conn] else s.left }) := by
  rw [popIdle, hidle]
  dsimp only
  split_ifs with hdead hok
  · rfl
  · rfl
  all_goals exact absurd ⟨by simpa using hdead, by simpa using hok⟩ hend

theorem popIdle_failed (todo kept : List C) (k : ℕ) (s : State C)
    (hidle : s.idle = todo ++ kept) (hfail : ∀ j < todo.length, Failed (ping (k + j))) :
    ∃ more dropped conns, more ++ dropped ~ todo ∧
      (more = [] ↔ ∀ j < todo.length, (ping (k + j)).memory = false) ∧
      ∀ fuel, popIdle ping (todo.length + fuel) k s = popIdle ping fuel (k + todo.length)
        ⟨kept ++ more, conns, s.pinged ++ todo, s.left, s.gone ++ dropped⟩ := by
  induction todo generalizing kept k s with
  | nil =>
    refine ⟨[], [], s.conns, .refl _, by simp, ?_⟩
    rw [nil_append] at hidle
    simp [← hidle]
  | cons conn todo ih =>
    have hround : ∀ P : Ping → Prop, (∀ j < (conn :: todo).length, P (ping (k + j))) ↔
        P (ping k) ∧ ∀ j < todo.length, P (ping (k + 1 + j)) := fun P => by
      rw [length_cons, Nat.forall_lt_succ_left]
      simp only [Nat.add_zero, Nat.add_assoc, Nat.add_comm 1]
    obtain ⟨hhead, htail⟩ := (hround Failed).mp hfail
    have hstep : ∀ fuel, popIdle ping ((conn :: todo).length + fuel) k s = if (ping k).memory then
        popIdle ping (todo.length + fuel) (k + 1)
          { s with idle := todo ++ kept ++ [conn], pinged := s.pinged ++ [conn] }
        else popIdle ping (todo.length + fuel) (k + 1)
          { s with
            idle := todo ++ kept
            pinged := s.pinged ++ [conn]
            gone := s.gone ++ [conn]
            conns := s.conns.replace (some conn) none } := fun fuel => by
      rw [length_cons, Nat.add_right_comm, popIdle, hidle, cons_append]
      simp only [hhead.1, hhead.2, Bool.false_eq_true, if_false]
    by_cases hmem : (ping k).memory = true
    · obtain ⟨more, dropped, conns, hperm, -, hrun⟩ := ih (kept ++ [conn]) (k + 1)
        ⟨todo ++ kept ++ [conn], s.conns, s.pinged ++ [conn], s.left, s.gone⟩ (by simp) htail
      refine ⟨conn :: more, dropped, conns, hperm.cons conn, ?_, fun fuel => ?_⟩
      · rw [hround fun p => p.memory = false]
        simp [hmem]
      · rw [hstep, if_pos hmem, hrun, Nat.add_right_comm]
        simp only [append_assoc, singleton_append, Nat.add_assoc, length_cons]
    · obtain ⟨more, dropped, conns, hperm, hmore, hrun⟩ := ih kept (k + 1)
        ⟨todo ++ kept, s.conns.replace (some conn) none, s.pinged ++ [conn], s.left,
          s.gone ++ [conn]⟩ rfl htail
      refine ⟨more, conn :: dropped, conns, perm_middle.trans (hperm.cons conn), ?_, fun fuel => ?_⟩
      · rw [hmore, hround fun p => p.memory = false]
        simp [hmem]
      · rw [hstep, if_neg hmem, hrun, Nat.add_right_comm]
        simp only [append_assoc, singleton_append, Nat.add_assoc, length_cons]

/-- The list of the pings only grows, by one at least where a connection is idle. -/
theorem popIdle_pinged (fuel k : ℕ) {s' : State C} {r : Option C}
    (h : popIdle ping fuel k s = some (r, s')) : s.pinged.length ≤ s'.pinged.length ∧
      (s.idle ≠ [] → s.pinged.length < s'.pinged.length) := by
  induction fuel generalizing k s with
  | zero => cases h
  | succ fuel ih =>
    rw [popIdle] at h
    cases hidle : s.idle with
    | nil =>
      rw [hidle] at h
      cases h
      exact ⟨Nat.le_refl _, fun h => absurd rfl h⟩
    | cons conn rest =>
      rw [hidle] at h
      have hlong : s.pinged.length < s'.pinged.length := by
        dsimp only at h
        split_ifs at h
        · cases h
          simp
        · cases h
          simp
        all_goals
          have := (ih _ h).1
          rw [length_append, length_singleton] at this
          exact this
      exact ⟨Nat.le_of_lt hlong, fun _ => hlong⟩

theorem popIdle_more {fuel k : ℕ} {x : Option C × State C} (h : popIdle ping fuel k s = some x)
    (more : ℕ) : popIdle ping (fuel + more) k s = some x := by
  induction fuel generalizing k s with
  | zero => cases h
  | succ fuel ih =>
    rw [Nat.add_right_comm, popIdle]
    rw [popIdle] at h
    cases hidle : s.idle with
    | nil => rwa [hidle] at h
    | cons conn rest =>
      rw [hidle] at h
      dsimp only at h ⊢
      split_ifs at h ⊢
      · exact h
      · exact h
      · exact ih h
      · exact ih h

/-- The selection is right exactly when the pings of the first round decide it. -/
theorem popIdle_right_iff (ping : ℕ → Ping) (idle : List C) (conns : List (Option C)) :
    PopRight ping idle conns ↔ Decided ping idle.length := by
  by_cases hstop : ∃ k < idle.length, ¬ Failed (ping k)
  · refine iff_of_true ?_ (.inl hstop)
    classical
    let k := Nat.find hstop
    obtain ⟨hk, hend⟩ : k < idle.length ∧ ¬ Failed (ping k) := Nat.find_spec hstop
    have hfirst : ∀ j < k, Failed (ping j) := fun j hj =>
      not_not.mp fun h => Nat.find_min hstop hj ⟨Nat.lt_trans hj hk, h⟩
    have hlen : (idle.take k).length = k := length_take_of_le (Nat.le_of_lt hk)
    have hsplit : idle = idle.take k ++ idle[k] :: idle.drop (k + 1) := by
      rw [← drop_eq_getElem_cons, take_append_drop]
    obtain ⟨more, dropped, conns', hperm, -, hrun⟩ := popIdle_failed (idle.take k)
      (idle[k] :: idle.drop (k + 1)) 0 ⟨idle, conns, [], [], []⟩ hsplit
      (fun j hj => by simpa using hfirst j (by omega))
    have hpinged : idle.take k ++ [idle[k]] <+: idle := by
      rw [take_append_getElem]
      exact List.take_prefix _ _
    have hall : idle[k] :: (idle.drop (k + 1) ++ more ++ dropped) ~ idle := by
      conv_rhs => rw [hsplit]
      rw [append_assoc]
      refine Perm.trans ?_ perm_middle.symm
      exact (perm_append_comm.trans (hperm.append_right _)).cons _
    have hdone : (idle.take k ++ [idle[k]]).length = k + 1 := by
      rw [length_append, length_singleton, hlen]
    have hanswer : (idle.take k ++ [idle[k]])[k]? = some idle[k] := by
      rw [getElem?_append_right (Nat.le_of_eq hlen), hlen, Nat.sub_self]
      rfl
    replace hrun := hrun 1
    rw [hlen, Nat.zero_add, popIdle_last rfl hend] at hrun
    refine ⟨_, _, _, hrun, hpinged, ?_, ?_⟩
    · cases hdead : (ping k).destroyed with
      | true =>
        intro j hj hok
        rcases Nat.lt_succ_iff_lt_or_eq.mp (hdone ▸ hj) with hj | rfl
        · exact absurd hok (by rw [(hfirst j hj).2]; decide)
        · exact hdead
      | false => exact ⟨k, hdone, hanswer, Bool.not_eq_false _ ▸ fun hok => hend ⟨hdead, hok⟩⟩
    · cases hdead : (ping k).destroyed with
      | true =>
        refine Perm.trans ?_ hall
        show [] ++ (idle.drop (k + 1) ++ more) ++ [idle[k]] ++ dropped ~ _
        rw [nil_append, append_assoc _ [idle[k]]]
        exact perm_middle
      | false => exact Perm.trans (by simp) hall
  · have hfail : ∀ k < idle.length, Failed (ping k) := fun k hk => not_not.mp fun h => hstop ⟨k, hk, h⟩
    rw [Decided, or_iff_right hstop]
    obtain ⟨more, dropped, conns', hperm, hmore, hrun⟩ := popIdle_failed idle [] 0
      ⟨idle, conns, [], [], []⟩ (append_nil _).symm (fun j hj => by simpa using hfail j hj)
    simp only [Nat.zero_add, nil_append] at hmore hrun
    rw [← hmore]
    constructor
    · rintro ⟨fuel, r, s, hend, hpinged, -, -⟩
      by_contra hmore
      have hlong := popIdle_more hend idle.length
      rw [Nat.add_comm, hrun] at hlong
      exact absurd ((popIdle_pinged _ _ hlong).2 hmore) (Nat.not_lt_of_le hpinged.length_le)
    · rintro rfl
      refine ⟨_, _, _, (hrun 1).trans (popIdle_nil _ _ rfl), List.prefix_refl _, fun k hk hok => ?_, ?_⟩
      · exact absurd hok (by rw [(hfail k hk).2]; decide)
      · simpa using hperm

/-- With one idle connection whose pings fail the loop never ends. -/
theorem one_dead_connection : ¬ PopRight (fun _ => { ok := false }) [7] [some 7] ∧
    ∀ fuel, popIdle (fun _ => { ok := false }) fuel 0 ⟨[7], [some 7], [], [], []⟩ = none := by
  have hloop : ∀ fuel k pinged,
      popIdle (fun _ => { ok := false }) fuel k ⟨[7], [some 7], pinged, [], []⟩ = none := fun fuel => by
    induction fuel with
    | zero => exact fun _ _ => rfl
    | succ fuel ih => exact fun k pinged => ih (k + 1) (pinged ++ [7])
  refine ⟨fun ⟨fuel, r, s, hend, _⟩ => ?_, fun fuel => hloop fuel 0 []⟩
  rw [hloop] at hend
  cases hend

end Voxlib.DbIdle
