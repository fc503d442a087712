import Mathlib.Data.Finmap
import Mathlib.Tactic

/-!
# Finite maps as abstract objects

The pairs of a finite map as a multiset, and as a list in the order of the keys.
-/

namespace Voxlib

abbrev FMap (K V : Type*) := Finmap fun _ : K => V

namespace FMap

variable {K V : Type*}

def pairs (m : FMap K V) : Multiset (K × V) := m.entries.map fun e => (e.1, e.2)

theorem pairs_nodup (m : FMap K V) : m.pairs.Nodup := by
  unfold pairs
  apply Multiset.Nodup.map _ m.nodup_entries
  intro a b hab
  obtain ⟨hfst, hsnd⟩ := Prod.mk.inj hab
  exact Sigma.ext hfst (heq_of_eq hsnd)

theorem card_pairs (m : FMap K V) : Multiset.card m.pairs = m.keys.card := by
  unfold pairs
  rw [Multiset.card_map]
  exact (Multiset.card_map Sigma.fst m.entries).symm

theorem option_ext_some {r s : Option V} {P : V → Prop} (hr : ∀ v, r = some v ↔ P v)
    (hs : ∀ v, s = some v ↔ P v) : r = s := by
  apply Option.ext
  intro v
  rw [hr v, hs v]

noncomputable def sortedPairs (le : K → K → Bool) (m : FMap K V) : List (K × V) :=
  m.pairs.toList.mergeSort fun a b => le a.1 b.1

variable [DecidableEq K] {m : FMap K V} {l : List (K × V)}

theorem mem_pairs {k : K} {v : V} : (k, v) ∈ m.pairs ↔ m.lookup k = some v := by
  unfold pairs
  rw [Finmap.lookup_eq_some_iff, Multiset.mem_map]
  constructor
  · intro ⟨e, he, heq⟩
    obtain ⟨rfl, rfl⟩ := Prod.mk.inj heq
    exact he
  · intro he
    exact ⟨_, he, rfl⟩

theorem coe_eq_pairs (hl : l.Nodup) (hmem : ∀ k v, m.lookup k = some v ↔ (k, v) ∈ l) :
    (l : Multiset (K × V)) = m.pairs := by
  apply (Multiset.Nodup.ext (Multiset.coe_nodup.mpr hl) m.pairs_nodup).mpr
  intro p
  obtain ⟨k, v⟩ := p
  rw [Multiset.mem_coe, mem_pairs, hmem k v]

theorem length_eq_card (hl : l.Nodup) (hmem : ∀ k v, m.lookup k = some v ↔ (k, v) ∈ l) :
    l.length = m.keys.card := by
  rw [← m.card_pairs, ← coe_eq_pairs hl hmem, Multiset.coe_card]

theorem eq_sortedPairs {le : K → K → Bool} (htrans : ∀ a b c, le a b → le b c → le a c)
    (htotal : ∀ a b, le a b || le b a) (hl : l.Pairwise fun a b => ¬ le b.1 a.1)
    (hmem : ∀ k v, m.lookup k = some v ↔ (k, v) ∈ l) : l = m.sortedPairs le := by
  have hnodup : l.Nodup := by
    apply hl.imp
    intro a b hba hab
    subst hab
    have := htotal a.1 a.1
    simp only [Bool.or_self] at this
    exact hba this
  have hperm : (m.sortedPairs le).Perm l := by
    refine (List.mergeSort_perm _ _).trans ?_
    rw [← Multiset.coe_eq_coe, Multiset.coe_toList, coe_eq_pairs hnodup hmem]
  have hle : l.Pairwise fun a b => le a.1 b.1 := by
    apply hl.imp
    intro a b hba
    rcases Bool.or_eq_true_iff.mp (htotal a.1 b.1) with h | h
    · exact h
    · exact absurd h hba
  have hsorted : (m.sortedPairs le).Pairwise fun a b => le a.1 b.1 :=
    List.pairwise_mergeSort (fun a b c => htrans a.1 b.1 c.1) (fun a b => htotal a.1 b.1) _
  -- two members that are in order both ways are the same
  refine List.Perm.eq_of_pairwise ?_ hle hsorted hperm.symm
  intro a b ha hb hab hba
  by_contra hne
  have hmem' := hperm.subset hb
  have hsym := List.Pairwise.forall_of_forall_of_flip
    (R := fun a b : K × V => a ≠ b → ¬ (le a.1 b.1 = true ∧ le b.1 a.1 = true))
    (fun x _ hx => absurd rfl hx) (hl.imp (fun hno _ hboth => hno hboth.2))
    (hl.imp (fun hno _ hboth => hno hboth.1)) ha hmem'
  exact hsym hne ⟨hab, hba⟩

end FMap

end Voxlib
