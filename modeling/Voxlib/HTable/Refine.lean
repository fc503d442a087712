import Voxlib.HTable.Calls
import Voxlib.Lib.FMap
import Voxlib.Lib.Refine

/-!
# The hash table refines a finite map

Runs whose allocations succeed answer as a `Finmap` does.
-/

namespace Voxlib.HTable
open CStr Pow2 Probe Refine

variable {V : Type} {cfg : Config}

inductive Op (V : Type) where
  | set (key : Bytes) (value : V) (alloc : ℕ → Bool)
  | get (key : Bytes)
  | delete (key : Bytes)
  | contains (key : Bytes)
  | clear
  | foreach
  | size

/- `visited` holds the result of foreach and the pairs handed to the callback. -/
inductive Res (V : Type) where
  | code (rc : ℤ)
  | value (v : Option V)
  | flag (b : Bool)
  | visited (count : ℕ) (ps : Multiset (Bytes × V))
  | size (n : ℕ)
  | done

def call (cfg : Config) (t : Table V) : Op V → Option (Res V × Table V)
  | .set key value alloc => (set cfg alloc t key value).map fun p => (.code p.1, p.2)
  | .get key => (get cfg t key).map fun r => (.value r, t)
  | .delete key => (delete cfg t key).map fun p => (.code p.1, p.2)
  | .contains key => (contains cfg t key).map fun b => (.flag b, t)
  | .clear => some (.done, clear t)
  | .foreach => some (.visited (foreach t).length (foreach t : Multiset (Bytes × V)), t)
  | .size => some (.size t.size, t)

abbrev AbsMap (V : Type) := FMap Bytes V

def AbsMap.call (m : AbsMap V) : Op V → Res V × AbsMap V
  | .set key value _ => (.code 0, m.insert key value)
  | .get key => (.value (m.lookup key), m)
  | .delete key => (.code (if key ∈ m then 0 else -1), m.erase key)
  | .contains key => (.flag (key ∈ m), m)
  | .clear => (.done, ∅)
  | .foreach => (.visited m.keys.card (FMap.pairs m), m)
  | .size => (.size m.keys.card, m)

structure Rel (cfg : Config) (t : Table V) (m : AbsMap V) : Prop where
  inv : TableInv cfg t
  stored : ∀ k v, m.lookup k = some v ↔ Stored t.entries k v

variable {t : Table V} {m : AbsMap V}

section
variable (h : Rel cfg t m)
include h

theorem Rel.mem_iff (key : Bytes) : key ∈ m ↔ key ∈ (Probe.pairs t.entries).map Prod.fst := by
  rw [Finmap.mem_iff, mem_keys]
  constructor
  · intro ⟨v, hv⟩
    exact ⟨v, (h.stored key v).mp hv⟩
  · intro ⟨v, hv⟩
    exact ⟨v, (h.stored key v).mpr hv⟩

theorem Rel.mem_foreach (k : Bytes) (v : V) : m.lookup k = some v ↔ (k, v) ∈ foreach t := by
  rw [h.stored k v]
  exact Probe.mem_pairs.symm

theorem Rel.pairs_eq : (foreach t : Multiset (Bytes × V)) = FMap.pairs m :=
  FMap.coe_eq_pairs (Probe.pairs_nodup h.inv.good) h.mem_foreach

theorem Rel.length_foreach : (foreach t).length = m.keys.card :=
  FMap.length_eq_card (Probe.pairs_nodup h.inv.good) h.mem_foreach

theorem Rel.size_eq : t.size = m.keys.card := by
  rw [← h.length_foreach, h.inv.size]
  exact (length_pairs t.entries).symm

end

/- The keys are not empty; the pool grants every request of positive size that
   the call makes, and none of size 0 (vox_mpool_alloc). -/
def OpOk (cfg : Config) (t : Table V) : Op V → Prop
  | .set key _ alloc =>
    key.length ≠ 0 ∧ alloc 0 = false ∧ ∀ n ∈ requests cfg t key, alloc n = true
  | .get key => key.length ≠ 0
  | .delete key => key.length ≠ 0
  | .contains key => key.length ≠ 0
  | .clear => True
  | .foreach => True
  | .size => True

instance OpOk.decidable (cfg : Config) (t : Table V) : (op : Op V) → Decidable (OpOk cfg t op)
  | .set key _ alloc => inferInstanceAs (Decidable
      (key.length ≠ 0 ∧ alloc 0 = false ∧ ∀ n ∈ requests cfg t key, alloc n = true))
  | .get key => inferInstanceAs (Decidable (key.length ≠ 0))
  | .delete key => inferInstanceAs (Decidable (key.length ≠ 0))
  | .contains key => inferInstanceAs (Decidable (key.length ≠ 0))
  | .clear => isTrue trivial
  | .foreach => isTrue trivial
  | .size => isTrue trivial

theorem call_simulates (hcmp : CmpIsEq cfg) :
    Simulates (call (V := V) cfg) AbsMap.call (OpOk cfg) (Rel cfg) := by
  intro t m op hrel hok
  cases op with
  | set key value alloc =>
    obtain ⟨hkey, hzero, hgranted⟩ := hok
    obtain ⟨t', hset, hinv', hstored⟩ := set_spec value hrel.inv hcmp hkey hzero hgranted
    refine ⟨t', by simp only [call, hset, Option.map_some]; rfl, hinv', ?_⟩
    intro k v
    rw [hstored k v]
    by_cases hk : k = key
    · subst hk
      have hlookup : (m.insert k value).lookup k = some value := m.lookup_insert
      simp [AbsMap.call, hlookup, eq_comm]
    · have hlookup : (m.insert key value).lookup k = m.lookup k := m.lookup_insert_of_ne hk
      simp [AbsMap.call, hlookup, hk, hrel.stored k v]
  | get key =>
    obtain ⟨r, hget, hr⟩ := get_spec hrel.inv hcmp hok
    have heq : r = m.lookup key := FMap.option_ext_some hr (hrel.stored key)
    refine ⟨t, ?_, hrel⟩
    simp only [call, hget, Option.map_some, AbsMap.call, heq]
  | delete key =>
    obtain ⟨rc, t', hdel, hinv', hstored, hrc⟩ := delete_spec hrel.inv hcmp hok
    refine ⟨t', ?_, hinv', ?_⟩
    · simp only [call, hdel, Option.map_some, AbsMap.call, hrc, hrel.mem_iff key]
    · intro k v
      rw [hstored k v]
      by_cases hk : k = key
      · subst hk
        simp [AbsMap.call]
      · simp [AbsMap.call, Finmap.lookup_erase_ne hk, hk, hrel.stored k v]
  | contains key =>
    obtain ⟨r, hget, hr⟩ := get_spec hrel.inv hcmp hok
    have heq : r = m.lookup key := FMap.option_ext_some hr (hrel.stored key)
    refine ⟨t, ?_, hrel⟩
    have hflag : r.isSome = decide (key ∈ m) := by
      rw [heq, Bool.eq_iff_iff, decide_eq_true_eq]
      exact Finmap.lookup_isSome
    simp only [call, contains, hget, Option.map_some, AbsMap.call, hflag]
  | clear =>
    obtain ⟨hinv', hnone⟩ := clear_spec hrel.inv
    refine ⟨clear t, rfl, hinv', ?_⟩
    intro k v
    simp [AbsMap.call, hnone k v]
  | foreach =>
    refine ⟨t, ?_, hrel⟩
    simp only [call, AbsMap.call, hrel.pairs_eq, hrel.length_foreach]
  | size =>
    refine ⟨t, ?_, hrel⟩
    simp only [call, AbsMap.call, hrel.size_eq]

theorem nextPowerOfTwo_pow {n : ℕ} (hn : 0 < n) (hlt : n < 2 ^ 64) :
    nextPowerOfTwo n = 0 ∨ ∃ k < 64, nextPowerOfTwo n = 2 ^ k := by
  unfold nextPowerOfTwo
  rw [if_neg (by omega)]
  by_cases hone : n = 1
  · right
    subst hone
    exact ⟨0, by omega, by decide⟩
  · rw [smear64_eq (by omega) (by omega), Nat.sub_add_cancel Nat.one_le_two_pow]
    have hlog : (n - 1).log2 < 64 := (Nat.log2_lt (by omega)).mpr (by omega)
    by_cases hmax : (n - 1).log2 = 63
    · left
      rw [hmax]
      decide
    · right
      refine ⟨(n - 1).log2 + 1, by omega, ?_⟩
      apply Nat.mod_eq_of_lt
      exact Nat.pow_lt_pow_right (by omega) (by omega)

theorem capacity_pow (hlt : cfg.initialCapacity < 2 ^ 64) :
    cfg.capacity = 0 ∨ ∃ k < 64, cfg.capacity = 2 ^ k := by
  unfold Config.capacity
  split
  · rename_i hpos
    exact nextPowerOfTwo_pow hpos hlt
  · right
    exact ⟨4, by omega, rfl⟩

theorem create_rel {alloc : ℕ → Bool} (hlt : cfg.initialCapacity < 2 ^ 64) (hzero : alloc 0 = false)
    (h : create cfg alloc = some t) : Rel cfg t ∅ := by
  unfold create at h
  split at h
  · cases h
  · rename_i hgranted
    have hsize : cfg.capacity * sizeofEntry % 2 ^ 64 ≠ 0 := by
      intro h0
      rw [h0] at hgranted
      exact hgranted hzero
    have ht := Option.some.inj h
    subst ht
    rcases capacity_pow hlt with hc | ⟨k, hk, hc⟩
    · rw [hc] at hsize
      exact absurd rfl hsize
    · have hk58 : k ≤ 58 := by
        by_contra hgt
        apply hsize
        rw [hc]
        have hsplit : 2 ^ k * sizeofEntry = 2 ^ 64 * 2 ^ (k - 59) := by
          rw [show sizeofEntry = 2 ^ 5 from rfl, ← Nat.pow_add, ← Nat.pow_add]
          congr 1
          omega
        rw [hsplit, Nat.mul_mod_right]
      refine ⟨empty_inv hk58 hc, ?_⟩
      intro key v
      have hnone := not_stored_replicate cfg.capacity key v
      simp [hnone]

theorem answers_of_finite_map (hcmp : CmpIsEq cfg) (hlt : cfg.initialCapacity < 2 ^ 64)
    {alloc : ℕ → Bool} (hzero : alloc 0 = false) {t₀ : Table V}
    (hcreate : create cfg alloc = some t₀) (ops : List (Op V))
    (hok : Admitted (call cfg) (OpOk cfg) t₀ ops) :
    ∃ t, calls (call cfg) t₀ ops = some ((answers AbsMap.call ∅ ops).1, t) ∧
      t.size = (answers AbsMap.call ∅ ops).2.keys.card ∧
      t.size + t.deletedCount = t.entries.countP (fun s => !s.isEmpty) ∧
      ∀ key forInsert, (findEntry cfg t key forInsert).isSome := by
  obtain ⟨t, hcalls, hrel⟩ := calls_eq_answers (call_simulates hcmp)
    (create_rel hlt hzero hcreate) hok
  refine ⟨t, hcalls, hrel.size_eq, ?_, ?_⟩
  · rw [countP_not_empty, hrel.inv.size, hrel.inv.deleted]
  · intro key forInsert
    obtain ⟨r, hr, _⟩ := findEntry_outcome hrel.inv hcmp key forInsert
    rw [hr]
    rfl

def exampleConfig : Config where
  initialCapacity := 1
  loadFactor := 1
  hashFunc := fun _ => 0
  keyCmp := fun a b _ => if a = b then 0 else 1

theorem exampleConfig_cmpIsEq : CmpIsEq exampleConfig := by
  intro a b _
  simp [exampleConfig]

def examplePool (n : ℕ) : Bool := n ≠ 0

/- One slot, then two: the second key makes the table grow and is put behind
   the first one. -/
theorem answers_after_growth : ∃ t, calls (call exampleConfig) (⟨[.empty], 1, 0, 0⟩ : Table ℕ)
        [.set (lit "a") 1 examplePool, .set (lit "b") 2 examplePool, .get (lit "b")] =
        some ((answers AbsMap.call ∅
          [.set (lit "a") 1 examplePool, .set (lit "b") 2 examplePool, .get (lit "b")]).1, t) := by
  have hcreate : create exampleConfig examplePool = some (⟨[.empty], 1, 0, 0⟩ : Table ℕ) := by
    decide
  have hok : Admitted (call exampleConfig) (OpOk exampleConfig) (⟨[.empty], 1, 0, 0⟩ : Table ℕ)
      [.set (lit "a") 1 examplePool, .set (lit "b") 2 examplePool, .get (lit "b")] := by
    decide +kernel
  obtain ⟨t, hcalls, _⟩ := answers_of_finite_map exampleConfig_cmpIsEq (by decide)
    (show examplePool 0 = false from rfl) hcreate _ hok
  exact ⟨t, hcalls⟩

end Voxlib.HTable
