import Voxlib.Lib.FMap
import Voxlib.Lib.Refine
import Voxlib.RbTree.Calls

/-!
# The red-black tree refines a sorted map
-/

namespace Voxlib.RbTree
open CStr LinkTree Refine List

variable {V : Type} {cmp : KeyCmp}

inductive Op (V : Type) where
  | insert (key : Bytes) (value : V) (newNode : Option Addr) (newKey : Bool)
  | delete (key : Bytes)
  | find (key : Bytes)
  | contains (key : Bytes)
  | min
  | max
  | inorder
  | clear
  | size

/- `visited` holds the result of inorder and what the callback was given. -/
inductive Res (V : Type) where
  | code (rc : ℤ)
  | value (v : Option V)
  | flag (b : Bool)
  | key (k : Option Bytes)
  | visited (count : ℕ) (ps : List (Bytes × Option V))
  | size (n : ℕ)
  | done

def call (cmp : KeyCmp) (t : Tree V) : Op V → Option (Res V × Tree V)
  | .insert key value newNode newKey =>
    (insert cmp t key value newNode newKey).map fun p => (.code p.1, p.2)
  | .delete key => (delete cmp t key).map fun p => (.code p.1, p.2)
  | .find key => (find cmp t key).map fun v => (.value v, t)
  | .contains key => (contains cmp t key).map fun b => (.flag b, t)
  | .min => (min t).map fun k => (.key k, t)
  | .max => (max t).map fun k => (.key k, t)
  | .inorder => (inorder t).map fun ps => (.visited ps.length ps, t)
  | .clear => (clear cmp (t.size + 1) t).map fun t' => (.done, t')
  | .size => some (.size t.size, t)

abbrev AbsMap (V : Type) := FMap Bytes V

/- The order of the keys: by length, then by key_cmp. -/
def keyLe (cmp : KeyCmp) (a b : Bytes) : Bool := compareKeys cmp a b ≤ 0

noncomputable def AbsMap.sorted (cmp : KeyCmp) (m : AbsMap V) : List (Bytes × V) :=
  FMap.sortedPairs (keyLe cmp) m

/- The empty string is not a key. -/
noncomputable def AbsMap.call (cmp : KeyCmp) (m : AbsMap V) : Op V → Res V × AbsMap V
  | .insert key value _ _ =>
    if key.length = 0 then (.code (-1), m) else (.code 0, m.insert key value)
  | .delete key => (.code (if key ∈ m then 0 else -1), m.erase key)
  | .find key => (.value (m.lookup key), m)
  | .contains key => (.flag (key ∈ m), m)
  | .min => (.key ((AbsMap.sorted cmp m).head?.map Prod.fst), m)
  | .max => (.key ((AbsMap.sorted cmp m).getLast?.map Prod.fst), m)
  | .inorder => (.visited m.keys.card ((AbsMap.sorted cmp m).map fun p => (p.1, some p.2)), m)
  | .clear => (.done, ∅)
  | .size => (.size m.keys.card, m)

theorem keyLe_iff (hcmp : CmpTotal cmp) (a b : Bytes) : keyLe cmp a b = true ↔ ¬ KeyLt cmp b a := by
  rw [← compareKeys_pos hcmp, keyLe, decide_eq_true_eq, not_lt]

theorem keyLe_total (hcmp : CmpTotal cmp) (a b : Bytes) : keyLe cmp a b || keyLe cmp b a := by
  rw [Bool.or_eq_true, keyLe_iff hcmp, keyLe_iff hcmp]
  by_contra hboth
  rw [not_or, not_not, not_not] at hboth
  exact (hboth.1.trans hcmp hboth.2).ne hcmp rfl

theorem keyLe_trans (hcmp : CmpTotal cmp) (a b c : Bytes) (hab : keyLe cmp a b = true)
    (hbc : keyLe cmp b c = true) : keyLe cmp a c = true := by
  rw [keyLe_iff hcmp] at hab hbc ⊢
  intro hca
  by_cases heq : a = b
  · subst heq
    exact hbc hca
  · have hlt : KeyLt cmp a b := by
      unfold KeyLt
      have hne := mt (compareKeys_eq_zero hcmp a b).mp heq
      have hpos := mt (compareKeys_pos hcmp a b).mp hab
      omega
    exact hbc (hca.trans hcmp hlt)

structure Rel (cmp : KeyCmp) (t : Tree V) (m : AbsMap V) (s : Shape Addr) : Prop where
  inv : TreeInv cmp t s
  stored : ∀ k v, m.lookup k = some v ↔ Stored t s k (some v)

def storedPairs (t : Tree V) (s : Shape Addr) : List (Bytes × V) :=
  s.inorder.filterMap fun a => (t.value a).map fun v => (t.key a, v)

variable {t : Tree V} {s : Shape Addr}

theorem mem_storedPairs {k : Bytes} {v : V} : (k, v) ∈ storedPairs t s ↔ Stored t s k (some v) := by
  unfold storedPairs Stored
  rw [mem_filterMap]
  constructor
  · intro ⟨a, ha, hpair⟩
    obtain ⟨w, hw, heq⟩ := Option.map_eq_some_iff.mp hpair
    obtain ⟨hk, hv⟩ := Prod.mk.inj heq
    exact ⟨a, ha, hk, by rw [hw, hv]⟩
  · intro ⟨a, ha, hk, hv⟩
    exact ⟨a, ha, by rw [hv, ← hk]; rfl⟩

theorem storedPairs_eq_map (h : TreeInv cmp t s) :
    (storedPairs t s).map (fun p => (p.1, some p.2)) =
      s.inorder.map fun a => (t.key a, t.value a) := by
  unfold storedPairs
  have hall := h.values
  revert hall
  generalize s.inorder = as
  intro hall
  induction as with
  | nil => rfl
  | cons a as ih =>
    obtain ⟨v, hv⟩ := Option.isSome_iff_exists.mp (hall a mem_cons_self)
    have hrest := ih (fun b hb => hall b (mem_cons_of_mem a hb))
    rw [filterMap_cons, hv]
    simp only [Option.map_some, map_cons]
    rw [hrest, hv]

theorem storedPairs_sorted (h : TreeInv cmp t s) :
    (storedPairs t s).Pairwise fun p q => KeyLt cmp p.1 q.1 := by
  unfold storedPairs
  rw [pairwise_filterMap]
  refine h.sorted.imp ?_
  intro a b hlt p hp q hq
  obtain ⟨v, _, hv⟩ := Option.map_eq_some_iff.mp hp
  obtain ⟨w, _, hw⟩ := Option.map_eq_some_iff.mp hq
  rw [← hv, ← hw]
  exact hlt

variable {m : AbsMap V}

theorem Rel.sorted_eq (hcmp : CmpTotal cmp) (h : Rel cmp t m s) :
    storedPairs t s = AbsMap.sorted cmp m := by
  refine FMap.eq_sortedPairs (keyLe_trans hcmp) (keyLe_total hcmp) ?_ ?_
  · refine (storedPairs_sorted h.inv).imp ?_
    intro p q hlt hle
    exact (keyLe_iff hcmp q.1 p.1).mp hle hlt
  · intro k v
    rw [mem_storedPairs, h.stored k v]

theorem Rel.length_eq (hcmp : CmpTotal cmp) (h : Rel cmp t m s) :
    s.inorder.length = m.keys.card := by
  have hnodup : (storedPairs t s).Nodup := by
    refine (storedPairs_sorted h.inv).imp ?_
    intro p q hlt heq
    exact hlt.ne hcmp (congrArg Prod.fst heq)
  have hcard : (storedPairs t s).length = m.keys.card := by
    apply FMap.length_eq_card hnodup
    intro k v
    rw [mem_storedPairs, h.stored k v]
  have hlen := congrArg List.length (storedPairs_eq_map h.inv)
  rw [length_map, length_map] at hlen
  rw [← hlen, hcard]

theorem Rel.inorder_eq (hcmp : CmpTotal cmp) (h : Rel cmp t m s) :
    s.inorder.map (fun a => (t.key a, t.value a)) =
      (AbsMap.sorted cmp m).map fun p => (p.1, some p.2) := by
  rw [← h.sorted_eq hcmp, storedPairs_eq_map h.inv]

theorem Rel.keys_eq (hcmp : CmpTotal cmp) (h : Rel cmp t m s) :
    s.inorder.map t.key = (AbsMap.sorted cmp m).map Prod.fst := by
  have hpairs := congrArg (List.map Prod.fst) (h.inorder_eq hcmp)
  rw [map_map, map_map] at hpairs
  exact hpairs

theorem Rel.mem_iff (h : Rel cmp t m s) (key : Bytes) :
    key ∈ m ↔ ∃ a ∈ s.inorder, t.key a = key := by
  rw [Finmap.mem_iff]
  constructor
  · intro ⟨v, hv⟩
    obtain ⟨a, ha, hk, _⟩ := (h.stored key v).mp hv
    exact ⟨a, ha, hk⟩
  · intro ⟨a, ha, hk⟩
    obtain ⟨v, hv⟩ := Option.isSome_iff_exists.mp (h.inv.values a ha)
    exact ⟨v, (h.stored key v).mpr ⟨a, ha, hk, hv⟩⟩

/- The pool has room, and the node it hands out is not in use. -/
def OpOk (t : Tree V) : Op V → Prop
  | .insert _ _ newNode newKey => newKey = true ∧ ∃ a ∈ newNode, a ∉ t.live
  | _ => True

instance OpOk.decidable (t : Tree V) : (op : Op V) → Decidable (OpOk t op)
  | .insert _ _ newNode newKey =>
    inferInstanceAs (Decidable (newKey = true ∧ ∃ a ∈ newNode, a ∉ t.live))
  | .delete _ => isTrue trivial
  | .find _ => isTrue trivial
  | .contains _ => isTrue trivial
  | .min => isTrue trivial
  | .max => isTrue trivial
  | .inorder => isTrue trivial
  | .clear => isTrue trivial
  | .size => isTrue trivial

theorem insert_simulates (hcmp : CmpTotal cmp) (h : Rel cmp t m s) (key : Bytes) (value : V)
    {a : Addr} (ha : a ∉ t.live) : ∃ t', call cmp t (.insert key value (some a) true) =
        some ((AbsMap.call cmp m (.insert key value (some a) true)).1, t') ∧
      ∃ s', Rel cmp t' (AbsMap.call cmp m (.insert key value (some a) true)).2 s' := by
  unfold call AbsMap.call
  dsimp only
  by_cases hkey : key.length = 0
  · rw [if_pos hkey, insert, if_pos hkey]
    exact ⟨t, rfl, s, h⟩
  · rw [if_neg hkey]
    obtain ⟨t', s', hrun, hinv, hupdated, _⟩ := insert_spec value hcmp h.inv hkey ha
    refine ⟨t', by rw [hrun]; rfl, s', hinv, ?_⟩
    intro k v
    rw [hupdated k (some v)]
    by_cases hk : k = key
    · subst hk
      have hlookup : (m.insert k value).lookup k = some value := m.lookup_insert
      simp [hlookup, eq_comm]
    · have hlookup : (m.insert key value).lookup k = m.lookup k := m.lookup_insert_of_ne hk
      simp [hlookup, hk, h.stored k v]

theorem delete_simulates (hcmp : CmpTotal cmp) (h : Rel cmp t m s) (key : Bytes) :
    ∃ t', call cmp t (.delete key) = some ((AbsMap.call cmp m (.delete key)).1, t') ∧
      ∃ s', Rel cmp t' (AbsMap.call cmp m (.delete key)).2 s' := by
  unfold call AbsMap.call
  dsimp only
  by_cases hstored : ∃ a ∈ s.inorder, t.key a = key
  · rw [if_pos ((h.mem_iff key).mpr hstored)]
    obtain ⟨a, ha, hk⟩ := hstored
    subst hk
    obtain ⟨t', s', hrun, hinv, hremoved, _⟩ := delete_stored hcmp h.inv ha
    refine ⟨t', by rw [hrun]; rfl, s', hinv, ?_⟩
    intro k v
    rw [hremoved k (some v)]
    by_cases hk : k = t.key a
    · subst hk
      rw [Finmap.lookup_erase]
      simp
    · simp [Finmap.lookup_erase_ne hk, hk, h.stored k v]
  · have hnot : key ∉ m := fun hin => hstored ((h.mem_iff key).mp hin)
    rw [if_neg hnot]
    have hrun : delete cmp t key = some (-1, t) :=
      delete_absent hcmp h.inv (fun a ha hk => hstored ⟨a, ha, hk⟩)
    refine ⟨t, by rw [hrun]; rfl, s, h.inv, ?_⟩
    intro k v
    rw [← h.stored k v]
    by_cases hk : k = key
    · subst hk
      rw [Finmap.lookup_erase, Finmap.lookup_eq_none.mpr hnot]
    · rw [Finmap.lookup_erase_ne hk]

theorem call_simulates (hcmp : CmpTotal cmp) : Simulates (call (V := V) cmp) (AbsMap.call cmp) OpOk
      (fun t m => ∃ s, Rel cmp t m s) := by
  intro t m op hrel hok
  obtain ⟨s, h⟩ := hrel
  cases op with
  | insert key value newNode newKey =>
    obtain ⟨hnew, a, hnode, ha⟩ := hok
    subst hnew
    subst hnode
    exact insert_simulates hcmp h key value ha
  | delete key => exact delete_simulates hcmp h key
  | find key =>
    obtain ⟨r, hfind, hr⟩ := find_spec hcmp h.inv key
    have heq : r = m.lookup key := FMap.option_ext_some hr (h.stored key)
    refine ⟨t, ?_, s, h⟩
    simp only [call, hfind, Option.map_some, AbsMap.call, heq]
  | contains key =>
    obtain ⟨r, hfind, hr⟩ := find_spec hcmp h.inv key
    have heq : r = m.lookup key := FMap.option_ext_some hr (h.stored key)
    have hflag : r.isSome = decide (key ∈ m) := by
      rw [heq, Bool.eq_iff_iff, decide_eq_true_eq]
      exact Finmap.lookup_isSome
    refine ⟨t, ?_, s, h⟩
    simp only [call, contains, hfind, Option.map_some, AbsMap.call, hflag]
  | min =>
    refine ⟨t, ?_, s, h⟩
    have hhead : s.inorder.head?.map t.key = (AbsMap.sorted cmp m).head?.map Prod.fst := by
      rw [← List.head?_map, ← List.head?_map, h.keys_eq hcmp]
    simp only [call, min_spec h.inv, Option.map_some, AbsMap.call, hhead]
  | max =>
    refine ⟨t, ?_, s, h⟩
    have hlast : s.inorder.getLast?.map t.key = (AbsMap.sorted cmp m).getLast?.map Prod.fst := by
      rw [← List.getLast?_map, ← List.getLast?_map, h.keys_eq hcmp]
    simp only [call, max_spec h.inv, Option.map_some, AbsMap.call, hlast]
  | inorder =>
    refine ⟨t, ?_, s, h⟩
    have hcount : (AbsMap.sorted cmp m).length = m.keys.card := by
      rw [← h.length_eq hcmp, ← length_map Prod.fst, ← h.keys_eq hcmp, length_map]
    simp only [call, inorder_spec h.inv, Option.map_some, AbsMap.call, h.inorder_eq hcmp,
      length_map, hcount]
  | clear =>
    obtain ⟨t', hclear, hinv⟩ := clear_spec hcmp (t.size + 1) h.inv (by omega)
    refine ⟨t', ?_, .nil, hinv, ?_⟩
    · simp only [call, hclear, Option.map_some, AbsMap.call]
    · intro k v
      simp [AbsMap.call, Stored, Shape.inorder]
  | size =>
    refine ⟨t, ?_, s, h⟩
    simp only [call, AbsMap.call, h.inv.size, h.length_eq hcmp]

theorem create_rel : Rel cmp (create : Tree V) ∅ .nil := by
  refine ⟨create_inv, ?_⟩
  intro k v
  simp [Stored, Shape.inorder]

/- The answers of every run are those of the sorted map. The links of the tree
   that is left spell out a tree of exactly the nodes in use. -/
theorem answers_of_sorted_map (hcmp : CmpTotal cmp) (ops : List (Op V))
    (hok : Admitted (call cmp) OpOk (create : Tree V) ops) :
    ∃ t, calls (call cmp) create ops = some ((answers (AbsMap.call cmp) ∅ ops).1, t) ∧
      t.size = (answers (AbsMap.call cmp) ∅ ops).2.keys.card ∧
      ∃ s, Spells t.skel.links s ∧ ∀ a, a ∈ t.live ↔ a ∈ s.inorder := by
  obtain ⟨t, hcalls, s, hrel⟩ := calls_eq_answers (call_simulates hcmp) ⟨.nil, create_rel⟩ hok
  refine ⟨t, hcalls, ?_, s, hrel.inv.spells, hrel.inv.live⟩
  rw [hrel.inv.size, hrel.length_eq hcmp]

def exampleCmp : KeyCmp := fun a b _ =>
  if a = b then 0 else if a.map UInt8.toNat < b.map UInt8.toNat then -1 else 1

theorem exampleCmp_neg (a b : Bytes) (n : ℕ) :
    exampleCmp a b n < 0 ↔ a.map UInt8.toNat < b.map UInt8.toNat := by
  unfold exampleCmp
  split
  · rename_i heq
    rw [heq]
    simp
  · split
    · rename_i hlt
      simp [hlt]
    · rename_i hlt
      simp [hlt]

theorem exampleCmp_pos (a b : Bytes) (n : ℕ) :
    0 < exampleCmp a b n ↔ b.map UInt8.toNat < a.map UInt8.toNat := by
  have hinj : a.map UInt8.toNat = b.map UInt8.toNat → a = b :=
    fun h => map_injective_iff.mpr (fun _ _ => UInt8.toNat.inj) h
  unfold exampleCmp
  split
  · rename_i heq
    rw [heq]
    simp
  · rename_i hne
    split
    · rename_i hlt
      simp [not_lt_of_gt hlt]
    · rename_i hlt
      have hgt := (lt_or_gt_of_ne (fun h => hne (hinj h))).resolve_left hlt
      simp [hgt]

theorem exampleCmp_total : CmpTotal exampleCmp := by
  refine ⟨?_, ?_, ?_⟩
  · intro a b _
    unfold exampleCmp
    split
    · rename_i heq
      simp [heq]
    · rename_i hne
      split
      · simp [hne]
      · simp [hne]
  · intro a b _
    rw [exampleCmp_neg, exampleCmp_pos]
  · intro a b c _ _ hab hbc
    rw [exampleCmp_neg] at hab hbc ⊢
    exact lt_trans hab hbc

theorem answers_after_rotation : ∃ t, calls (call exampleCmp) (create : Tree ℕ)
        [.insert (lit "a") 1 (some 0) true, .insert (lit "b") 2 (some 1) true,
          .insert (lit "c") 3 (some 2) true, .delete (lit "b"), .inorder] =
      some ((answers (AbsMap.call exampleCmp) ∅
        [.insert (lit "a") 1 (some 0) true, .insert (lit "b") 2 (some 1) true,
          .insert (lit "c") 3 (some 2) true, .delete (lit "b"), .inorder]).1, t) := by
  have hok : Admitted (call exampleCmp) OpOk (create : Tree ℕ)
      [.insert (lit "a") 1 (some 0) true, .insert (lit "b") 2 (some 1) true,
        .insert (lit "c") 3 (some 2) true, .delete (lit "b"), .inorder] := by
    decide +kernel
  obtain ⟨t, hcalls, _⟩ := answers_of_sorted_map exampleCmp_total _ hok
  exact ⟨t, hcalls⟩

end Voxlib.RbTree
