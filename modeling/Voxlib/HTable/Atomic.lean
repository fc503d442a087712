import Voxlib.HTable.Refine
import Voxlib.Lib.Run

/-!
# A set that fails

A failing `vox_htable_set` changes nothing, unless the copy of the key is refused at a DELETED
entry: `deleted_count` is lowered before.
-/

namespace Voxlib.HTable
open CStr Probe Run Option

variable {V : Type} {cfg : Config}

variable {t : Table V} {key : Bytes}

theorem probe_remembered {start i d : ℕ} (hd : t.entries[d]? = some .deleted) (fuel : ℕ) :
    ∀ index, probe cfg t key true start fuel index (some d) = some (some i) →
      t.entries[i]? ≠ some .empty := by
  induction fuel with
  | zero =>
    intro index h
    cases h
  | succ fuel ih =>
    intro index h
    have hgoOn : (if (index + 1) &&& (t.capacity - 1) = start then some none
        else probe cfg t key true start fuel ((index + 1) &&& (t.capacity - 1)) (some d)) =
        some (some i) → t.entries[i]? ≠ some .empty := by
      intro hnext
      split at hnext
      · cases hnext
      · exact ih _ hnext
    unfold probe at h
    cases hs : t.entries[index]? with
    | none =>
      rw [hs] at h
      cases h
    | some s =>
      rw [hs] at h
      cases s with
      | empty =>
        obtain rfl : d = i := some.inj (some.inj h)
        rw [hd]
        intro he
        cases he
      | deleted => exact hgoOn h
      | occupied k v =>
        dsimp only at h
        split at h
        · obtain rfl : index = i := some.inj (some.inj h)
          rw [hs]
          intro he
          cases he
        · exact hgoOn h

theorem probe_empty (hinv : TableInv cfg t) {start i : ℕ} (hi : t.entries[i]? = some .empty)
    (fuel : ℕ) :
    ∀ o, probe cfg t key true start fuel ((start + o) % t.capacity) none = some (some i) →
      (∀ o' < o, slotAt t.entries start o' ≠ some .deleted) →
      ∃ e, slotAt t.entries start e = some .empty ∧
        ∀ o' < e, slotAt t.entries start o' ≠ some .deleted := by
  induction fuel with
  | zero =>
    intro o h
    cases h
  | succ fuel ih =>
    intro o h hbefore
    have hnext : ((start + o) % t.capacity + 1) &&& (t.capacity - 1) =
        (start + (o + 1)) % t.capacity := by
      rw [hinv.mask, Nat.mod_add_mod, Nat.add_assoc]
    unfold probe at h
    cases hs : t.entries[(start + o) % t.capacity]? with
    | none =>
      rw [hs] at h
      cases h
    | some s =>
      have hat : slotAt t.entries start o = some s := by
        rw [slotAt, hinv.length, hs]
      rw [hs] at h
      dsimp only at h
      rw [hnext] at h
      cases s with
      | empty => exact ⟨o, hat, hbefore⟩
      | deleted =>
        dsimp only [Option.isNone] at h
        split at h
        · cases h
        · exact absurd hi (probe_remembered hs fuel _ h)
      | occupied k v =>
        dsimp only at h
        split at h
        · obtain hki : (start + o) % t.capacity = i := some.inj (some.inj h)
          rw [hki, hi] at hs
          cases hs
        · split at h
          · cases h
          · apply ih (o + 1) h
            intro o' ho'
            by_cases heq : o' = o
            · rw [heq, hat]
              intro he
              cases he
            · exact hbefore o' (by omega)

/-- A DELETED entry stands on the way of the key, before the first EMPTY one. -/
def TombstoneOnWay (cfg : Config) (t : Table V) (key : Bytes) : Prop :=
  ∃ d, t.entries[d]? = some .deleted ∧ Reached t.entries (hashOf cfg key) d

/- For a key that is not stored the search ends at a tombstone exactly when it
   passes one. -/
theorem findEntry_free (hinv : TableInv cfg t) (hcmp : CmpIsEq cfg)
    (hroom : t.size + t.deletedCount < t.capacity) (habsent : ∀ v, ¬ Stored t.entries key v) :
    ∃ i s, findEntry cfg t key true = some (some i) ∧ t.entries[i]? = some s ∧
      s.isOccupied = false ∧ Reached t.entries (hashOf cfg key) i ∧
      (s = .deleted ↔ TombstoneOnWay cfg t key) := by
  obtain ⟨e, he⟩ := exists_empty_of_room hinv hroom
  rcases findEntry_absent hinv hcmp true habsent with ⟨_, hfull⟩ | ⟨i, hfind, hlt, hfree, hr⟩
  · exact absurd he (hfull e)
  obtain ⟨s, hs⟩ : ∃ s, t.entries[i]? = some s := ⟨_, List.getElem?_eq_getElem hlt⟩
  refine ⟨i, s, hfind, hs, ?_⟩
  cases s with
  | occupied k v => exact absurd hs (hfree k v)
  | deleted => exact ⟨rfl, hr, fun _ => ⟨i, hs, hr⟩, fun _ => rfl⟩
  | empty =>
    refine ⟨rfl, hr, ?_⟩
    constructor
    · intro he
      cases he
    intro ⟨d, hd, hway⟩
    rw [← reached_mod, hinv.length] at hway
    obtain ⟨o, _, hod, hbefore⟩ := hway
    unfold findEntry hashIndex at hfind
    rw [hinv.mask] at hfind
    have hpassed : ∃ e', slotAt t.entries (hashOf cfg key % t.capacity) e' = some .empty ∧
        ∀ o' < e', slotAt t.entries (hashOf cfg key % t.capacity) o' ≠ some .deleted := by
      apply probe_empty hinv hs t.capacity 0
      · rw [Nat.add_zero, Nat.mod_mod]
        exact hfind
      · intro o' ho'
        omega
    obtain ⟨e', he', hnone⟩ := hpassed
    have hdel : slotAt t.entries (hashOf cfg key % t.capacity) o = some .deleted := by
      rw [slotAt, hod, hd]
    -- the empty slot neither lies before the tombstone nor behind it
    rcases Nat.lt_trichotomy e' o with hlt' | heq | hgt
    · exact absurd he' (hbefore e' hlt')
    · rw [heq, hdel] at he'
      cases he'
    · exact absurd hdel (hnone o hgt)

def Counted (t : Table V) : Prop :=
  t.size + t.deletedCount = t.entries.countP fun s => !s.isEmpty

/- The pairs of foreach count without their order, which is that of the array. -/
structure SameAnswers (cfg : Config) (t t' : Table V) : Prop where
  get : ∀ key, HTable.get cfg t' key = HTable.get cfg t key
  contains : ∀ key, HTable.contains cfg t' key = HTable.contains cfg t key
  size : t'.size = t.size
  foreach : (HTable.foreach t' : Multiset (Bytes × V)) = HTable.foreach t
  counted : Counted t' ↔ Counted t

theorem TableInv.counted (hinv : TableInv cfg t) : Counted t := by
  unfold Counted
  rw [countP_not_empty, hinv.size, hinv.deleted]

variable {t' : Table V}

theorem get_of_stored (hinv : TableInv cfg t) (hinv' : TableInv cfg t') (hcmp : CmpIsEq cfg)
    (h : ∀ k v, Stored t'.entries k v ↔ Stored t.entries k v) (key : Bytes) :
    HTable.get cfg t' key = HTable.get cfg t key := by
  by_cases hkey : key.length = 0
  · unfold HTable.get
    rw [if_pos hkey, if_pos hkey]
  · obtain ⟨r, hget, hr⟩ := get_spec hinv hcmp hkey
    obtain ⟨r', hget', hr'⟩ := get_spec hinv' hcmp hkey
    rw [hget, hget']
    have heq : r' = r := by
      apply Option.ext
      intro v
      exact ((hr' v).trans (h key v)).trans (hr v).symm
    rw [heq]

theorem same_of_stored (hinv : TableInv cfg t) (hinv' : TableInv cfg t') (hcmp : CmpIsEq cfg)
    (h : ∀ k v, Stored t'.entries k v ↔ Stored t.entries k v) : SameAnswers cfg t t' := by
  have hget := get_of_stored hinv hinv' hcmp h
  have hpairs : (pairs t'.entries).Perm (pairs t.entries) := by
    apply (List.perm_ext_iff_of_nodup (pairs_nodup hinv'.good) (pairs_nodup hinv.good)).mpr
    intro p
    exact (mem_pairs.trans (h p.1 p.2)).trans mem_pairs.symm
  constructor
  · exact hget
  · intro key
    unfold HTable.contains
    rw [hget key]
  · rw [hinv'.size, hinv.size, ← length_pairs, ← length_pairs]
    exact hpairs.length_eq
  · exact Multiset.coe_eq_coe.mpr hpairs
  · exact ⟨fun _ => hinv.counted, fun _ => hinv'.counted⟩

/- How a pool answers requests: one for no bytes is refused (vox_mpool_alloc). -/
structure Grants where
  alloc : ℕ → Bool
  zero : alloc 0 = false

theorem growIfNeeded_spec (hinv : TableInv cfg t) (hcmp : CmpIsEq cfg) (entries : Grants) :
    (growIfNeeded cfg entries.alloc t = some (-1, t) ∧ needsResize cfg t = true) ∨
    ∃ t₁, growIfNeeded cfg entries.alloc t = some (0, t₁) ∧ TableInv cfg t₁ ∧
      t₁.size + t₁.deletedCount < t₁.capacity ∧
      (∀ k v, Stored t₁.entries k v ↔ Stored t.entries k v) ∧
      if needsResize cfg t then t₁.deletedCount = 0 else t₁ = t := by
  unfold growIfNeeded
  cases hn : needsResize cfg t with
  | false =>
    right
    exact ⟨t, rfl, hinv, room_of_not_needsResize hinv hn, fun k v => Iff.rfl, rfl⟩
  | true =>
    rw [if_pos rfl]
    cases hgranted : entries.alloc (t.capacity * 2 % 2 ^ 64 * sizeofEntry % 2 ^ 64) with
    | true =>
      right
      obtain ⟨t₁, hrun, hinv₁, hroom, hdel, hstored⟩ :=
        resize_spec hinv hcmp entries.zero hgranted
      exact ⟨t₁, hrun, hinv₁, hroom, hstored, hdel⟩
    | false =>
      left
      refine ⟨?_, rfl⟩
      unfold resize
      rw [if_pos hgranted]
      split
      · rfl
      · split
        · rfl
        · rfl

/-- The set would take a DELETED entry for a new key, and the copy of the key
is refused. -/
def RefusedAtTombstone (cfg : Config) (t : Table V) (key : Bytes) (keys : Grants) : Prop :=
  key.length ≠ 0 ∧ needsResize cfg t = false ∧ (∀ v, ¬ Stored t.entries key v) ∧
    TombstoneOnWay cfg t key ∧ keys.alloc key.length = false

theorem no_tombstone (hinv : TableInv cfg t) (hdel : t.deletedCount = 0) {i : ℕ} :
    t.entries[i]? ≠ some .deleted := by
  intro hi
  have hpos := hinv.deletedCount_pos hi
  omega

theorem lowered_not_counted (hinv : TableInv cfg t) {i : ℕ} (hi : t.entries[i]? = some .deleted) :
    ¬ Counted { t with deletedCount := (t.deletedCount + 2 ^ 64 - 1) % 2 ^ 64 } := by
  have hpos := hinv.deletedCount_pos hi
  have hcounted : t.size + t.deletedCount = t.entries.countP fun s => !s.isEmpty := hinv.counted
  rw [hinv.deletedCount_dec hi]
  unfold Counted
  dsimp only
  omega

/-- What a call of `vox_htable_set` can do. -/
inductive SetOutcome (cfg : Config) (t : Table V) (key : Bytes) (keys : Grants) :
    ℤ → Table V → Prop where
  | done {t' : Table V} (hinv : TableInv cfg t') : SetOutcome cfg t key keys 0 t'
  | refused {t' : Table V} (hinv : TableInv cfg t')
      (hstored : ∀ k v, Stored t'.entries k v ↔ Stored t.entries k v)
      (hspared : ¬ RefusedAtTombstone cfg t key keys) : SetOutcome cfg t key keys (-1) t'
  | lowered {t' : Table V} (hrefused : RefusedAtTombstone cfg t key keys)
      (hcount : ¬ Counted t') : SetOutcome cfg t key keys (-1) t'

theorem setAt_outcome {t₁ : Table V} (hinv₁ : TableInv cfg t₁) {keys : Grants} {value : V} {i : ℕ}
    {s : Slot Bytes V} {rc : ℤ} (hkey : key.length ≠ 0)
    (hstored : ∀ k v, Stored t₁.entries k v ↔ Stored t.entries k v)
    (hkind : if needsResize cfg t then t₁.deletedCount = 0 else t₁ = t)
    (habsent : ∀ v, ¬ Stored t₁.entries key v) (hs : t₁.entries[i]? = some s)
    (hfree : s.isOccupied = false) (hreached : Reached t₁.entries (hashOf cfg key) i)
    (hway : s = .deleted ↔ TombstoneOnWay cfg t₁ key)
    (h : setAt keys.alloc t₁ key value i = some (rc, t')) : SetOutcome cfg t key keys rc t' := by
  cases hgranted : keys.alloc key.length with
  | true =>
    obtain ⟨hlt, _⟩ := List.getElem?_eq_some_iff.mp hs
    have hnot : ∀ k v, t₁.entries[i]? ≠ some (.occupied k v) := by
      intro k v hk
      rw [hs] at hk
      rw [some.inj hk] at hfree
      cases hfree
    obtain ⟨t₂, hset, hinv₂, _⟩ := setAt_absent value hinv₁ hgranted hlt hnot habsent hreached
    rw [hset] at h
    obtain ⟨rfl, rfl⟩ := Prod.mk.inj (some.inj h)
    exact .done hinv₂
  | false =>
    unfold setAt at h
    rw [hs] at h
    cases s with
    | occupied k v => cases hfree
    | empty =>
      dsimp only at h
      rw [hgranted, if_neg (by decide)] at h
      obtain ⟨rfl, rfl⟩ := Prod.mk.inj (some.inj h)
      refine .refused hinv₁ hstored ?_
      intro hr
      rw [hr.2.1, if_neg (by decide)] at hkind
      rw [hkind] at hway
      cases hway.mpr hr.2.2.2.1
    | deleted =>
      dsimp only at h
      rw [hgranted, if_neg (by decide)] at h
      obtain ⟨rfl, rfl⟩ := Prod.mk.inj (some.inj h)
      refine .lowered ?_ (lowered_not_counted hinv₁ hs)
      -- a resized table has no DELETED entry
      cases hn : needsResize cfg t with
      | true =>
        rw [hn, if_pos rfl] at hkind
        exact absurd hs (no_tombstone hinv₁ hkind)
      | false =>
        rw [hn, if_neg (by decide)] at hkind
        subst hkind
        exact ⟨hkey, hn, habsent, hway.mp rfl, hgranted⟩

theorem setWith_outcome (hinv : TableInv cfg t) (hcmp : CmpIsEq cfg) {entries keys : Grants}
    {value : V} {rc : ℤ} (h : setWith cfg entries.alloc keys.alloc t key value = some (rc, t')) :
    SetOutcome cfg t key keys rc t' := by
  unfold setWith at h
  by_cases hkey : key.length = 0
  · rw [if_pos hkey] at h
    obtain ⟨rfl, rfl⟩ := Prod.mk.inj (some.inj h)
    exact .refused hinv (fun _ _ => Iff.rfl) (fun hr => hr.1 hkey)
  rw [if_neg hkey] at h
  rcases growIfNeeded_spec hinv hcmp entries with ⟨hgrow, hn⟩ |
    ⟨t₁, hgrow, hinv₁, hroom, hstored, hkind⟩
  · -- the new array is refused
    rw [hgrow] at h
    obtain ⟨rfl, rfl⟩ := Prod.mk.inj (some.inj h)
    refine .refused hinv (fun _ _ => Iff.rfl) ?_
    intro hr
    rw [hr.2.1] at hn
    cases hn
  rw [hgrow] at h
  dsimp only at h
  rw [if_neg (by decide)] at h
  by_cases hold : ∃ v, Stored t₁.entries key v
  · obtain ⟨v, i, hi⟩ := hold
    obtain ⟨t₂, hset, hinv₂, _⟩ := setAt_stored keys.alloc value hinv₁ hi
    rw [findEntry_stored hinv₁ hcmp true hi] at h
    dsimp only at h
    rw [hset] at h
    obtain ⟨rfl, rfl⟩ := Prod.mk.inj (some.inj h)
    exact .done hinv₂
  · have habsent : ∀ v, ¬ Stored t₁.entries key v := fun v hv => hold ⟨v, hv⟩
    obtain ⟨i, s, hfind, hs, hfree, hreached, hway⟩ := findEntry_free hinv₁ hcmp hroom habsent
    rw [hfind] at h
    exact setAt_outcome hinv₁ hkey hstored hkind habsent hs hfree hreached hway h

theorem setWith_fails (hinv : TableInv cfg t) (hcmp : CmpIsEq cfg) {entries keys : Grants}
    {value : V} (h : setWith cfg entries.alloc keys.alloc t key value = some (-1, t')) :
    SameAnswers cfg t t' ↔ ¬ RefusedAtTombstone cfg t key keys := by
  cases setWith_outcome hinv hcmp h with
  | refused hinv' hstored hspared =>
    have hsame := same_of_stored hinv hinv' hcmp hstored
    exact ⟨fun _ => hspared, fun _ => hsame⟩
  | lowered hrefused hcount =>
    constructor
    · intro hsame
      exact absurd (hsame.counted.mpr hinv.counted) hcount
    · intro hspared
      exact absurd hrefused hspared

inductive Change (V : Type) where
  | set (key : Bytes) (value : V) (entries keys : Grants)
  | delete (key : Bytes)
  | clear

def change (cfg : Config) (t : Table V) : Change V → Option (Table V)
  | .set key value entries keys =>
    (setWith cfg entries.alloc keys.alloc t key value).map Prod.snd
  | .delete key => (HTable.delete cfg t key).map Prod.snd
  | .clear => some (HTable.clear t)

def Spared (cfg : Config) (t : Table V) : Change V → Prop
  | .set key _ _ keys => ¬ RefusedAtTombstone cfg t key keys
  | .delete _ => True
  | .clear => True

theorem change_keeps (hcmp : CmpIsEq cfg) {c : Change V} (hinv : TableInv cfg t)
    (hspared : Spared cfg t c) (h : change cfg t c = some t') : TableInv cfg t' := by
  cases c with
  | set key value entries keys =>
    obtain ⟨⟨rc, t₁⟩, hset, rfl⟩ := map_eq_some_iff.mp h
    cases setWith_outcome hinv hcmp hset with
    | done hinv' => exact hinv'
    | refused hinv' _ _ => exact hinv'
    | lowered hrefused _ => exact absurd hrefused hspared
  | delete key =>
    obtain ⟨⟨rc, t₁⟩, hdel, rfl⟩ := map_eq_some_iff.mp h
    by_cases hkey : key.length = 0
    · unfold HTable.delete at hdel
      rw [if_pos hkey] at hdel
      obtain ⟨rfl, rfl⟩ := Prod.mk.inj (some.inj hdel)
      exact hinv
    · obtain ⟨rc', t₂, hrun, hinv', _⟩ := delete_spec hinv hcmp hkey
      rw [hrun] at hdel
      obtain ⟨rfl, rfl⟩ := Prod.mk.inj (some.inj hdel)
      exact hinv'
  | clear =>
    obtain rfl := some.inj h
    exact (clear_spec hinv).1

theorem changes_keep (hcmp : CmpIsEq cfg) {cs : List (Change V)} :
    ∀ {t t' : Table V}, TableInv cfg t → Meets (change cfg) (Spared cfg) t cs →
      exec (change cfg) t cs = some t' → TableInv cfg t' := by
  induction cs with
  | nil =>
    intro t t' hinv _ h
    obtain rfl := some.inj h
    exact hinv
  | cons c cs ih =>
    intro t t' hinv hmeets h
    obtain ⟨hspared, hrest⟩ := hmeets
    rw [exec] at h
    obtain ⟨t₁, hstep, hrun⟩ := bind_eq_some_iff.mp h
    exact ih (change_keeps hcmp hinv hspared hstep) (hrest t₁ hstep) hrun

/-- A set that returns -1 leaves all answers and the counters' meaning as they
were, unless the pool refuses the copy of the key for the place of a DELETED
entry. -/
theorem failed_set_unseen_iff (hcmp : CmpIsEq cfg) (hlt : cfg.initialCapacity < 2 ^ 64)
    {pool : Grants} {t₀ t t' : Table V} (hcreate : create cfg pool.alloc = some t₀)
    {cs : List (Change V)} (hmeets : Meets (change cfg) (Spared cfg) t₀ cs)
    (hrun : exec (change cfg) t₀ cs = some t) {entries keys : Grants} {key : Bytes} {value : V}
    (hset : setWith cfg entries.alloc keys.alloc t key value = some (-1, t')) :
    SameAnswers cfg t t' ↔ ¬ RefusedAtTombstone cfg t key keys := by
  have hinv : TableInv cfg t :=
    changes_keep hcmp (create_rel hlt pool.zero hcreate).inv hmeets hrun
  exact setWith_fails hinv hcmp hset

def plentiful : Grants := ⟨fun n => n ≠ 0, rfl⟩

def exhausted : Grants := ⟨fun _ => false, rfl⟩

/- One slot, in use: the second key needs a new array, which is refused. -/
theorem full_table_unseen :
    ∃ t t' : Table ℕ, setWith exampleConfig exhausted.alloc exhausted.alloc t (lit "b") 2 =
        some (-1, t') ∧
      (SameAnswers exampleConfig t t' ↔
        ¬ RefusedAtTombstone exampleConfig t (lit "b") exhausted) := by
  have hcreate : create exampleConfig plentiful.alloc = some (⟨[.empty], 1, 0, 0⟩ : Table ℕ) := by
    decide
  have hspared : Meets (change exampleConfig) (Spared exampleConfig) (⟨[.empty], 1, 0, 0⟩ : Table ℕ)
      [.set (lit "a") 1 plentiful plentiful] := by
    refine ⟨?_, fun _ _ => trivial⟩
    intro hr
    exact absurd hr.2.2.2.2 (by decide)
  have hrun : exec (change exampleConfig) (⟨[.empty], 1, 0, 0⟩ : Table ℕ)
      [.set (lit "a") 1 plentiful plentiful] =
        some ⟨[.occupied (lit "a") 1], 1, 1, 0⟩ := by
    decide +kernel
  have hset : setWith exampleConfig exhausted.alloc exhausted.alloc
      (⟨[.occupied (lit "a") 1], 1, 1, 0⟩ : Table ℕ) (lit "b") 2 =
        some (-1, ⟨[.occupied (lit "a") 1], 1, 1, 0⟩) := by
    decide +kernel
  exact ⟨_, _, hset, failed_set_unseen_iff exampleConfig_cmpIsEq (by decide) hcreate hspared hrun
    hset⟩

/- Four slots: the key is put in, deleted and put in again when the pool is
   empty. One entry is DELETED, and neither counter counts it. -/
theorem refused_copy_miscounts : ∃ t₀ t t' : Table ℕ,
      create { exampleConfig with initialCapacity := 4 } plentiful.alloc = some t₀ ∧
      exec (change { exampleConfig with initialCapacity := 4 }) t₀
        [.set (lit "a") 1 plentiful plentiful, .delete (lit "a")] = some t ∧
      setWith { exampleConfig with initialCapacity := 4 } exhausted.alloc exhausted.alloc t
        (lit "a") 2 = some (-1, t') ∧
      Counted t ∧ ¬ Counted t' := by
  refine ⟨⟨[.empty, .empty, .empty, .empty], 4, 0, 0⟩, ⟨[.deleted, .empty, .empty, .empty], 4, 0, 1⟩,
    ⟨[.deleted, .empty, .empty, .empty], 4, 0, 0⟩, ?_, ?_, ?_, ?_, ?_⟩
  · decide +kernel
  · decide +kernel
  · decide +kernel
  · unfold Counted
    decide
  · unfold Counted
    decide

end Voxlib.HTable
