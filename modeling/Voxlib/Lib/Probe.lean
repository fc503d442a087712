import Mathlib.Tactic

/-!
# Open addressing with linear probing and tombstones

`Good` is the probe-chain invariant: a key is stored once, and no slot between its hash and its
place is empty.
-/

namespace Voxlib.Probe
open List

inductive Slot (K V : Type) where
  | empty
  | deleted
  | occupied (k : K) (v : V)
  deriving DecidableEq, Repr

variable {K V : Type}

def Slot.isEmpty : Slot K V → Bool
  | .empty => true
  | _ => false

def Slot.isDeleted : Slot K V → Bool
  | .deleted => true
  | _ => false

def Slot.isOccupied : Slot K V → Bool
  | .occupied _ _ => true
  | _ => false

def Slot.pair : Slot K V → Option (K × V)
  | .occupied k v => some (k, v)
  | _ => none

def slotAt (es : List (Slot K V)) (start o : ℕ) : Option (Slot K V) :=
  es[(start + o) % es.length]?

/-- The slot `i` is reached from `start` before any empty slot. -/
def Reached (es : List (Slot K V)) (start i : ℕ) : Prop :=
  ∃ o < es.length, (start + o) % es.length = i ∧ ∀ o' < o, slotAt es start o' ≠ some .empty

structure Good (hash : K → ℕ) (es : List (Slot K V)) : Prop where
  unique : ∀ (i j : ℕ) (k : K) (v w : V), es[i]? = some (.occupied k v) →
    es[j]? = some (.occupied k w) → i = j
  reached : ∀ (i : ℕ) (k : K) (v : V), es[i]? = some (.occupied k v) → Reached es (hash k) i

def Stored (es : List (Slot K V)) (k : K) (v : V) : Prop :=
  ∃ i : ℕ, es[i]? = some (.occupied k v)

section Write
variable {hash : K → ℕ} {es : List (Slot K V)} {i : ℕ} {s : Slot K V}

theorem getElem?_set_cases {j : ℕ} {x : Slot K V} (h : (es.set i s)[j]? = some x) :
    (j = i ∧ x = s) ∨ (j ≠ i ∧ es[j]? = some x) := by
  rw [List.getElem?_set] at h
  split at h
  · rename_i hij
    split at h
    · left
      exact ⟨hij.symm, (Option.some.inj h).symm⟩
    · cases h
  · rename_i hij
    right
    exact ⟨fun he => hij he.symm, h⟩

theorem Reached.set {start j : ℕ} (h : Reached es start j) (hs : s ≠ .empty) :
    Reached (es.set i s) start j := by
  obtain ⟨o, ho, hj, hbefore⟩ := h
  refine ⟨o, by rw [length_set]; exact ho, by rw [length_set]; exact hj, ?_⟩
  intro o' ho' hempty
  unfold slotAt at hempty
  rw [length_set] at hempty
  rcases getElem?_set_cases hempty with ⟨_, hse⟩ | ⟨_, hold⟩
  · exact hs hse.symm
  · exact hbefore o' ho' hold

theorem Good.put {k : K} {v : V} (hg : Good hash es) (hnew : ∀ w, ¬ Stored es k w)
    (hr : Reached es (hash k) i) : Good hash (es.set i (.occupied k v)) := by
  constructor
  · intro a b k' w w' ha hb
    rcases getElem?_set_cases ha with ⟨ha', hka⟩ | ⟨_, ha'⟩
    · rcases getElem?_set_cases hb with ⟨hb', _⟩ | ⟨_, hb'⟩
      · rw [ha', hb']
      · have hk : k' = k := (Slot.occupied.inj hka).1
        exact absurd ⟨b, hk ▸ hb'⟩ (hnew w')
    · rcases getElem?_set_cases hb with ⟨_, hkb⟩ | ⟨_, hb'⟩
      · have hk : k' = k := (Slot.occupied.inj hkb).1
        exact absurd ⟨a, hk ▸ ha'⟩ (hnew w)
      · exact hg.unique a b k' w w' ha' hb'
  · intro a k' w ha
    rcases getElem?_set_cases ha with ⟨ha', hka⟩ | ⟨_, ha'⟩
    · obtain ⟨rfl, _⟩ := Slot.occupied.inj hka
      rw [ha']
      exact hr.set (by simp)
    · exact (hg.reached a k' w ha').set (by simp)

theorem Good.update {k : K} {v w : V} (hg : Good hash es) (hi : es[i]? = some (.occupied k v)) :
    Good hash (es.set i (.occupied k w)) := by
  have hback : ∀ (a : ℕ) (k' : K) (u : V), (es.set i (.occupied k w))[a]? = some (.occupied k' u) →
      ∃ u', es[a]? = some (.occupied k' u') := by
    intro a k' u ha
    rcases getElem?_set_cases ha with ⟨ha', hka⟩ | ⟨_, ha'⟩
    · obtain ⟨rfl, _⟩ := Slot.occupied.inj hka
      exact ⟨v, by rw [ha']; exact hi⟩
    · exact ⟨u, ha'⟩
  constructor
  · intro a b k' u u' ha hb
    obtain ⟨x, hx⟩ := hback a k' u ha
    obtain ⟨y, hy⟩ := hback b k' u' hb
    exact hg.unique a b k' x y hx hy
  · intro a k' u ha
    obtain ⟨x, hx⟩ := hback a k' u ha
    exact (hg.reached a k' x hx).set (by simp)

theorem Good.tombstone (hg : Good hash es) : Good hash (es.set i .deleted) := by
  have hback : ∀ (a : ℕ) (k' : K) (u : V), (es.set i .deleted)[a]? = some (.occupied k' u) →
      es[a]? = some (.occupied k' u) := by
    intro a k' u ha
    rcases getElem?_set_cases ha with ⟨_, hka⟩ | ⟨_, ha'⟩
    · cases hka
    · exact ha'
  constructor
  · intro a b k' u u' ha hb
    exact hg.unique a b k' u u' (hback a k' u ha) (hback b k' u' hb)
  · intro a k' u ha
    exact (hg.reached a k' u (hback a k' u ha)).set (by simp)

theorem stored_put {k k' : K} {v v' : V} (hi : i < es.length)
    (hfree : ∀ k' v', es[i]? ≠ some (.occupied k' v')) :
    Stored (es.set i (.occupied k v)) k' v' ↔ (k' = k ∧ v' = v) ∨ Stored es k' v' := by
  constructor
  · intro ⟨a, ha⟩
    rcases getElem?_set_cases ha with ⟨_, hka⟩ | ⟨_, ha'⟩
    · left
      exact Slot.occupied.inj hka
    · exact Or.inr ⟨a, ha'⟩
  · intro h
    rcases h with ⟨rfl, rfl⟩ | ⟨a, ha⟩
    · exact ⟨i, List.getElem?_set_self hi⟩
    · have hne : a ≠ i := by
        intro he
        rw [he] at ha
        exact hfree k' v' ha
      refine ⟨a, ?_⟩
      rw [List.getElem?_set_ne (fun he => hne he.symm)]
      exact ha

theorem stored_replace {k k' : K} {v v' : V} (hg : Good hash es)
    (hi : es[i]? = some (.occupied k v)) :
    Stored (es.set i s) k' v' ↔ s = .occupied k' v' ∨ (k' ≠ k ∧ Stored es k' v') := by
  obtain ⟨hlen, _⟩ := List.getElem?_eq_some_iff.mp hi
  constructor
  · intro ⟨a, ha⟩
    rcases getElem?_set_cases ha with ⟨_, hs⟩ | ⟨hne, ha'⟩
    · left
      exact hs.symm
    · right
      refine ⟨?_, a, ha'⟩
      intro he
      rw [he] at ha'
      exact hne (hg.unique a i k v' v ha' hi)
  · intro h
    rcases h with rfl | ⟨hk, a, ha⟩
    · exact ⟨i, List.getElem?_set_self hlen⟩
    · have hne : a ≠ i := by
        intro he
        rw [he, hi] at ha
        exact hk (Slot.occupied.inj (Option.some.inj ha)).1.symm
      refine ⟨a, ?_⟩
      rw [List.getElem?_set_ne (fun he => hne he.symm)]
      exact ha

end Write

theorem good_replicate (hash : K → ℕ) (n : ℕ) : Good hash (List.replicate n (Slot.empty : Slot K V)) := by
  constructor
  · intro i j k v w hi
    rw [List.getElem?_replicate] at hi
    split at hi
    · cases hi
    · cases hi
  · intro i k v hi
    rw [List.getElem?_replicate] at hi
    split at hi
    · cases hi
    · cases hi

theorem not_stored_replicate (n : ℕ) (k : K) (v : V) :
    ¬ Stored (List.replicate n (Slot.empty : Slot K V)) k v := by
  intro ⟨i, hi⟩
  rw [List.getElem?_replicate] at hi
  split at hi
  · cases hi
  · cases hi

def pairs (es : List (Slot K V)) : List (K × V) := es.filterMap Slot.pair

theorem mem_pairs {es : List (Slot K V)} {k : K} {v : V} : (k, v) ∈ pairs es ↔ Stored es k v := by
  unfold pairs Stored
  rw [mem_filterMap]
  constructor
  · intro ⟨s, hs, hp⟩
    cases s with
    | empty => cases hp
    | deleted => cases hp
    | occupied k' v' =>
      obtain ⟨rfl, rfl⟩ := Prod.mk.inj (Option.some.inj hp)
      exact mem_iff_getElem?.mp hs
  · intro ⟨i, hi⟩
    exact ⟨_, mem_of_getElem? hi, rfl⟩

theorem pairs_nodup {hash : K → ℕ} {es : List (Slot K V)} (hg : Good hash es) :
    (pairs es).Nodup := by
  unfold pairs List.Nodup
  rw [pairwise_filterMap, pairwise_iff_getElem]
  intro i j hi hj hij p hp q hq hpq
  subst hpq
  have hslot : ∀ s : Slot K V, s.pair = some p → s = .occupied p.1 p.2 := by
    intro s hs
    cases s with
    | empty => cases hs
    | deleted => cases hs
    | occupied k v => rw [← Option.some.inj hs]
  have hsi : es[i]? = some (.occupied p.1 p.2) := by
    rw [List.getElem?_eq_getElem hi, hslot _ hp]
  have hsj : es[j]? = some (.occupied p.1 p.2) := by
    rw [List.getElem?_eq_getElem hj, hslot _ hq]
  have := hg.unique i j p.1 p.2 p.2 hsi hsj
  omega

theorem length_pairs (es : List (Slot K V)) : (pairs es).length = es.countP Slot.isOccupied := by
  unfold pairs
  induction es with
  | nil => rfl
  | cons s es ih =>
    rw [countP_cons, ← ih]
    cases s with
    | empty => rfl
    | deleted => rfl
    | occupied k v => rfl

theorem countP_not_empty (es : List (Slot K V)) :
    es.countP (fun s => !s.isEmpty) = es.countP Slot.isOccupied + es.countP Slot.isDeleted := by
  induction es with
  | nil => rfl
  | cons s es ih =>
    rw [countP_cons, countP_cons, countP_cons, ih]
    cases s with
    | empty => rfl
    | deleted => simp [Slot.isEmpty, Slot.isOccupied, Slot.isDeleted, Nat.add_assoc]
    | occupied k v =>
      simp only [Slot.isEmpty, Slot.isOccupied, Slot.isDeleted]
      simp
      omega

theorem exists_empty {es : List (Slot K V)}
    (h : es.countP Slot.isOccupied + es.countP Slot.isDeleted < es.length) :
    ∃ i, i < es.length ∧ es[i]? = some .empty := by
  rw [← countP_not_empty] at h
  have hex : ∃ s ∈ es, s.isEmpty = true := by
    by_contra hno
    have hall : ∀ s ∈ es, (!s.isEmpty) = true := by
      intro s hs
      by_contra he
      exact hno ⟨s, hs, by simpa using he⟩
    rw [countP_eq_length.mpr hall] at h
    exact absurd h (lt_irrefl _)
  obtain ⟨s, hs, hempty⟩ := hex
  obtain ⟨i, hi⟩ := mem_iff_getElem?.mp hs
  obtain ⟨hlt, _⟩ := List.getElem?_eq_some_iff.mp hi
  cases s with
  | empty => exact ⟨i, hlt, hi⟩
  | deleted => cases hempty
  | occupied k v => cases hempty

theorem exists_offset {n : ℕ} (start : ℕ) {i : ℕ} (hi : i < n) : ∃ o < n, (start + o) % n = i := by
  refine ⟨(i + (n - start % n)) % n, Nat.mod_lt _ (by omega), ?_⟩
  have hlt : start % n < n := Nat.mod_lt _ (by omega)
  rw [Nat.add_mod, Nat.mod_mod, ← Nat.add_mod, ← Nat.mod_add_mod]
  have hsum : start % n + (i + (n - start % n)) = i + n := by omega
  rw [hsum, Nat.add_mod_right, Nat.mod_eq_of_lt hi]

end Voxlib.Probe
