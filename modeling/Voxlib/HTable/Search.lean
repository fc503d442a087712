import Voxlib.HTable

/-!
# What a search finds
-/

namespace Voxlib.HTable
open CStr Pow2 Probe

variable {V : Type} {cfg : Config}

def hashOf (cfg : Config) (key : Bytes) : ℕ := (cfg.hashFunc key).toNat

/- The comparison function is equality on keys of the same length. -/
def CmpIsEq (cfg : Config) : Prop :=
  ∀ a b : Bytes, a.length = b.length → (cfg.keyCmp a b a.length = 0 ↔ a = b)

theorem keyMatches_iff (hcmp : CmpIsEq cfg) (a b : Bytes) : keyMatches cfg a b = true ↔ a = b := by
  unfold keyMatches
  rw [decide_eq_true_eq]
  constructor
  · intro ⟨hlen, hzero⟩
    rw [← hlen] at hzero
    exact (hcmp a b hlen).mp hzero
  · intro hab
    subst hab
    exact ⟨rfl, (hcmp a a rfl).mpr rfl⟩

structure TableInv (cfg : Config) (t : Table V) : Prop where
  pow : ∃ k ≤ 58, t.capacity = 2 ^ k
  length : t.entries.length = t.capacity
  good : Good (hashOf cfg) t.entries
  size : t.size = t.entries.countP Slot.isOccupied
  deleted : t.deletedCount = t.entries.countP Slot.isDeleted

variable {t : Table V}

theorem TableInv.pos (h : TableInv cfg t) : 0 < t.capacity := by
  obtain ⟨k, _, hk⟩ := h.pow
  rw [hk]
  positivity

theorem TableInv.mask (h : TableInv cfg t) (n : ℕ) : n &&& (t.capacity - 1) = n % t.capacity := by
  obtain ⟨k, _, hk⟩ := h.pow
  exact and_mask_eq_mod hk

inductive Outcome (es : List (Slot Bytes V)) (key : Bytes) (start : ℕ) : Option ℕ → Prop where
  | found (i : ℕ) (v : V) (h : es[i]? = some (.occupied key v)) : Outcome es key start (some i)
  | free (i : ℕ) (hlt : i < es.length) (hfree : ∀ k v, es[i]? ≠ some (.occupied k v))
      (hreached : Reached es start i)
      (habsent : ∀ (j : ℕ) (v : V), es[j]? = some (.occupied key v) → ¬ Reached es start j) :
      Outcome es key start (some i)
  | full (hfull : ∀ i : ℕ, es[i]? ≠ some .empty) (habsent : ∀ v, ¬ Stored es key v) :
      Outcome es key start none

def Passed (es : List (Slot Bytes V)) (key : Bytes) (start o : ℕ) : Prop :=
  ∀ o' < o, slotAt es start o' ≠ some .empty ∧ ∀ v, slotAt es start o' ≠ some (.occupied key v)

variable {es : List (Slot Bytes V)} {key : Bytes}

theorem Passed.succ {start o : ℕ} {s : Slot Bytes V} (h : Passed es key start o)
    (hs : slotAt es start o = some s) (hne : s ≠ .empty) (hnk : ∀ v, s ≠ .occupied key v) :
    Passed es key start (o + 1) := by
  intro o' ho'
  by_cases heq : o' = o
  · rw [heq, hs]
    exact ⟨fun he => hne (Option.some.inj he), fun v he => hnk v (Option.some.inj he)⟩
  · exact h o' (by omega)

theorem Passed.reached {start o d : ℕ} (h : Passed es key start o) (hd : d ≤ o)
    (hlt : d < es.length) : Reached es start ((start + d) % es.length) :=
  ⟨d, hlt, rfl, fun o' ho' => (h o' (by omega)).1⟩

theorem Passed.absent {start o : ℕ} (h : Passed es key start o)
    (hempty : slotAt es start o = some .empty) (j : ℕ) (v : V)
    (hj : es[j]? = some (.occupied key v)) : ¬ Reached es start j := by
  intro ⟨d, hd, hdj, hbefore⟩
  have hslot : slotAt es start d = some (.occupied key v) := by
    rw [slotAt, hdj, hj]
  rcases Nat.lt_trichotomy d o with hlt | heq | hgt
  · exact (h d hlt).2 v hslot
  · rw [heq, hempty] at hslot
    cases hslot
  · exact hbefore o hgt hempty

def Remembered (es : List (Slot Bytes V)) (start o : ℕ) (firstDeleted : Option ℕ) : Prop :=
  ∀ d, firstDeleted = some d →
    ∃ o' < o, (start + o') % es.length = d ∧ es[d]? = some .deleted

theorem probe_outcome (hinv : TableInv cfg t) (hcmp : CmpIsEq cfg) (key : Bytes) (forInsert : Bool)
    {start : ℕ} (hstart : start < t.capacity) (fuel : ℕ) :
    ∀ o firstDeleted, o + fuel = t.capacity → 0 < fuel → Passed t.entries key start o →
      Remembered t.entries start o firstDeleted →
      ∃ r, probe cfg t key forInsert start fuel ((start + o) % t.capacity) firstDeleted = some r ∧
        Outcome t.entries key start r := by
  have hlen := hinv.length
  induction fuel with
  | zero =>
    intro o firstDeleted _ hpos
    omega
  | succ fuel ih =>
    intro o firstDeleted hfuel _ hpassed hrem
    have hpos := hinv.pos
    have hidx : (start + o) % t.capacity < t.entries.length := by
      rw [hlen]
      exact Nat.mod_lt _ hpos
    obtain ⟨s, hs⟩ : ∃ s, t.entries[(start + o) % t.capacity]? = some s :=
      ⟨_, List.getElem?_eq_getElem hidx⟩
    have hat : slotAt t.entries start o = some s := by
      rw [slotAt, hlen, hs]
    -- the step to the next slot, or the end of the round
    have hgoOn : ∀ fd, s ≠ .empty → (∀ v, s ≠ .occupied key v) →
        Remembered t.entries start (o + 1) fd →
        ∃ r, (if ((start + o) % t.capacity + 1) &&& (t.capacity - 1) = start then some none
          else probe cfg t key forInsert start fuel
            (((start + o) % t.capacity + 1) &&& (t.capacity - 1)) fd) = some r ∧
          Outcome t.entries key start r := by
      intro fd hne hnk hrem'
      have hpassed' := hpassed.succ hat hne hnk
      have hnext : ((start + o) % t.capacity + 1) &&& (t.capacity - 1) =
          (start + (o + 1)) % t.capacity := by
        rw [hinv.mask, Nat.mod_add_mod, Nat.add_assoc]
      rw [hnext]
      by_cases hround : o + 1 = t.capacity
      · have hback : (start + (o + 1)) % t.capacity = start := by
          rw [hround, Nat.add_mod_right, Nat.mod_eq_of_lt hstart]
        rw [if_pos hback]
        refine ⟨none, rfl, .full ?_ ?_⟩
        · intro i hi
          obtain ⟨hlt, _⟩ := List.getElem?_eq_some_iff.mp hi
          obtain ⟨d, hd, hdi⟩ := exists_offset start hlt
          refine (hpassed' d (by omega)).1 ?_
          rw [slotAt, hdi, hi]
        · intro v hv
          obtain ⟨i, hi⟩ := hv
          obtain ⟨hlt, _⟩ := List.getElem?_eq_some_iff.mp hi
          obtain ⟨d, hd, hdi⟩ := exists_offset start hlt
          refine (hpassed' d (by omega)).2 v ?_
          rw [slotAt, hdi, hi]
      · have hne' : (start + (o + 1)) % t.capacity ≠ start := by
          intro he
          have hmod : (start + (o + 1)) % t.capacity = (start + 0) % t.capacity := by
            rw [he, Nat.add_zero, Nat.mod_eq_of_lt hstart]
          have hcong : (o + 1) % t.capacity = 0 % t.capacity := Nat.ModEq.add_left_cancel' start hmod
          rw [Nat.mod_eq_of_lt (by omega), Nat.zero_mod] at hcong
          omega
        rw [if_neg hne']
        exact ih (o + 1) fd (by omega) (by omega) hpassed' hrem'
    have hrem' : Remembered t.entries start (o + 1) firstDeleted := by
      intro d hd
      obtain ⟨o', ho', h⟩ := hrem d hd
      exact ⟨o', by omega, h⟩
    unfold probe
    dsimp only
    rw [hs]
    cases s with
    | empty =>
      refine ⟨_, rfl, ?_⟩
      have habsent := hpassed.absent hat
      split
      · rename_i hfd
        obtain ⟨d, hd⟩ := Option.isSome_iff_exists.mp hfd.2
        obtain ⟨o', ho', hdo, hdel⟩ := hrem d hd
        obtain ⟨hlt, _⟩ := List.getElem?_eq_some_iff.mp hdel
        rw [hd]
        refine .free d hlt ?_ ?_ habsent
        · intro k v hk
          rw [hdel] at hk
          cases hk
        · rw [← hdo]
          exact hpassed.reached (by omega) (by omega)
      · refine .free _ hidx ?_ ?_ habsent
        · intro k v hk
          rw [hs] at hk
          cases hk
        · have hr := hpassed.reached (le_refl o) (by omega)
          rw [hlen] at hr
          exact hr
    | deleted =>
      apply hgoOn
      · simp
      · simp
      · intro d hd
        split at hd
        · obtain rfl := Option.some.inj hd
          exact ⟨o, by omega, by rw [hlen], hs⟩
        · exact hrem' d hd
    | occupied k v =>
      dsimp only
      split
      · rename_i hmatch
        have hk := (keyMatches_iff hcmp k key).mp hmatch
        subst hk
        exact ⟨_, rfl, .found _ v hs⟩
      · rename_i hother
        apply hgoOn
        · simp
        · intro w hw
          obtain ⟨hk, _⟩ := Slot.occupied.inj hw
          exact hother ((keyMatches_iff hcmp k key).mpr hk)
        · exact hrem'

theorem findEntry_outcome (hinv : TableInv cfg t) (hcmp : CmpIsEq cfg) (key : Bytes)
    (forInsert : Bool) : ∃ r, findEntry cfg t key forInsert = some r ∧
      Outcome t.entries key (hashOf cfg key % t.capacity) r := by
  unfold findEntry hashIndex
  rw [hinv.mask]
  have hstart : hashOf cfg key % t.capacity < t.capacity := Nat.mod_lt _ hinv.pos
  have hloop := probe_outcome hinv hcmp key forInsert hstart t.capacity 0 none
    (Nat.zero_add _) hinv.pos (by intro o' ho'; omega) (by intro d hd; cases hd)
  rw [Nat.add_zero, Nat.mod_mod] at hloop
  exact hloop

theorem reached_mod (es : List (Slot Bytes V)) (start i : ℕ) :
    Reached es (start % es.length) i ↔ Reached es start i := by
  simp only [Reached, slotAt, Nat.mod_add_mod]

theorem findEntry_stored (hinv : TableInv cfg t) (hcmp : CmpIsEq cfg) (forInsert : Bool) {i : ℕ}
    {v : V} (hi : t.entries[i]? = some (.occupied key v)) :
    findEntry cfg t key forInsert = some (some i) := by
  obtain ⟨r, hr, hout⟩ := findEntry_outcome hinv hcmp key forInsert
  rw [hr]
  cases hout with
  | found j w hj => rw [hinv.good.unique j i key w v hj hi]
  | free j _ _ _ habsent =>
    have hreached := hinv.good.reached i key v hi
    rw [← reached_mod, hinv.length] at hreached
    exact absurd hreached (habsent i v hi)
  | full _ habsent => exact absurd ⟨i, hi⟩ (habsent v)

theorem findEntry_absent (hinv : TableInv cfg t) (hcmp : CmpIsEq cfg) (forInsert : Bool)
    (habsent : ∀ v, ¬ Stored t.entries key v) :
    (findEntry cfg t key forInsert = some none ∧ ∀ i : ℕ, t.entries[i]? ≠ some .empty) ∨
    ∃ i, findEntry cfg t key forInsert = some (some i) ∧ i < t.entries.length ∧
      (∀ k v, t.entries[i]? ≠ some (.occupied k v)) ∧ Reached t.entries (hashOf cfg key) i := by
  obtain ⟨r, hr, hout⟩ := findEntry_outcome hinv hcmp key forInsert
  rw [hr]
  cases hout with
  | found j w hj => exact absurd ⟨j, hj⟩ (habsent w)
  | free j hlt hfree hreached _ =>
    right
    rw [← hinv.length, reached_mod] at hreached
    exact ⟨j, rfl, hlt, hfree, hreached⟩
  | full hfull _ =>
    left
    exact ⟨rfl, hfull⟩

end Voxlib.HTable
