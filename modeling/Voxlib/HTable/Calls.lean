import Voxlib.HTable.Search

/-!
# What each call does to the stored pairs
-/

namespace Voxlib.HTable
open CStr Pow2 Probe List

variable {V : Type} {cfg : Config}

variable {t : Table V} {i : ℕ}

theorem TableInv.put {s : Slot Bytes V} {k : Bytes} (v : V) (hinv : TableInv cfg t)
    (hi : t.entries[i]? = some s) (hs : s.isOccupied = false) (hnew : ∀ w, ¬ Stored t.entries k w)
    (hr : Reached t.entries (hashOf cfg k) i) : TableInv cfg { t with
      entries := t.entries.set i (.occupied k v)
      size := t.size + 1
      deletedCount := t.deletedCount - if s.isDeleted then 1 else 0 } := by
  obtain ⟨hlt, hget⟩ := List.getElem?_eq_some_iff.mp hi
  constructor
  · exact hinv.pow
  · rw [length_set]
    exact hinv.length
  · exact hinv.good.put hnew hr
  · rw [countP_set hlt, hget, hs, ← hinv.size]
    rfl
  · rw [countP_set hlt, hget, ← hinv.deleted]
    rfl

theorem TableInv.update {k : Bytes} {v : V} (w : V) (hinv : TableInv cfg t)
    (hi : t.entries[i]? = some (.occupied k v)) :
    TableInv cfg { t with entries := t.entries.set i (.occupied k w) } := by
  obtain ⟨hlt, hget⟩ := List.getElem?_eq_some_iff.mp hi
  have hpos : 0 < t.entries.countP Slot.isOccupied := by
    apply countP_pos_iff.mpr
    exact ⟨_, mem_of_getElem? hi, rfl⟩
  constructor
  · exact hinv.pow
  · rw [length_set]
    exact hinv.length
  · exact hinv.good.update hi
  · rw [countP_set hlt, hget, hinv.size]
    simp only [Slot.isOccupied, if_true]
    omega
  · rw [countP_set hlt, hget, hinv.deleted]
    simp [Slot.isDeleted]

section
variable (hinv : TableInv cfg t)
include hinv

theorem TableInv.remove {k : Bytes} {v : V} (hi : t.entries[i]? = some (.occupied k v)) :
    TableInv cfg { t with
      entries := t.entries.set i .deleted
      size := t.size - 1
      deletedCount := t.deletedCount + 1 } := by
  obtain ⟨hlt, hget⟩ := List.getElem?_eq_some_iff.mp hi
  constructor
  · exact hinv.pow
  · rw [length_set]
    exact hinv.length
  · exact hinv.good.tombstone
  · rw [countP_set hlt, hget, hinv.size]
    simp [Slot.isOccupied]
  · rw [countP_set hlt, hget, hinv.deleted]
    simp [Slot.isDeleted]

theorem used_le : t.size + t.deletedCount ≤ t.capacity := by
  rw [hinv.size, hinv.deleted, ← hinv.length, ← countP_not_empty]
  exact countP_le_length

theorem TableInv.deletedCount_pos (hi : t.entries[i]? = some .deleted) : 0 < t.deletedCount := by
  rw [hinv.deleted]
  apply countP_pos_iff.mpr
  exact ⟨_, mem_of_getElem? hi, rfl⟩

theorem TableInv.deletedCount_dec (hi : t.entries[i]? = some .deleted) :
    (t.deletedCount + 2 ^ 64 - 1) % 2 ^ 64 = t.deletedCount - 1 := by
  have hpos := hinv.deletedCount_pos hi
  have hused := used_le hinv
  obtain ⟨k, hk, hcap⟩ := hinv.pow
  have hle : 2 ^ k ≤ 2 ^ 58 := Nat.pow_le_pow_right (by omega) hk
  omega

theorem exists_empty_of_room (hroom : t.size + t.deletedCount < t.capacity) :
    ∃ i : ℕ, t.entries[i]? = some .empty := by
  rw [hinv.size, hinv.deleted, ← hinv.length] at hroom
  obtain ⟨i, _, hi⟩ := exists_empty hroom
  exact ⟨i, hi⟩

end

theorem toDouble_pow (k : ℕ) : toDouble (2 ^ k) = 2 ^ k := by
  unfold toDouble
  split
  · rfl
  · rename_i hge
    have hk : 53 ≤ k := by
      by_contra hlt
      exact hge (Nat.pow_lt_pow_right (by omega) (by omega))
    have hq : 2 ^ k / 2 ^ (k - 52) = 2 ^ 52 := by
      rw [Nat.pow_div (by omega) (by omega)]
      congr 1
      omega
    have hr : 2 ^ k % 2 ^ (k - 52) = 0 := Nat.mod_eq_zero_of_dvd (Nat.pow_dvd_pow 2 (by omega))
    have hhalf : 0 < 2 ^ (k - 52 - 1) := by positivity
    simp only [Nat.log2_two_pow, hq, hr]
    rw [if_neg (by omega), ← Nat.pow_add]
    congr 1
    omega

theorem room_of_not_needsResize (hinv : TableInv cfg t) (h : needsResize cfg t = false) :
    t.size + t.deletedCount < t.capacity := by
  by_contra hfull
  have heq : t.size + t.deletedCount = t.capacity := by
    have := used_le hinv
    omega
  obtain ⟨k, hk58, hk⟩ := hinv.pow
  have hpos := hinv.pos
  have hthreshold : cfg.loadFactorThreshold ≤ 1 := by
    unfold Config.loadFactorThreshold
    split
    · rename_i hlf
      exact hlf.2
    · norm_num
  unfold needsResize at h
  have hlt : 2 ^ k < 2 ^ 64 := Nat.pow_lt_pow_right (by omega) (by omega)
  rw [if_neg (by omega), heq, hk, Nat.mod_eq_of_lt hlt, toDouble_pow] at h
  have hone : ((2 ^ k : ℕ) : ℚ) / ((2 ^ k : ℕ) : ℚ) = 1 := by
    apply div_self
    positivity
  rw [hone] at h
  simp only [ge_iff_le, decide_eq_false_iff_not] at h
  exact h hthreshold

theorem empty_inv {n k : ℕ} (hk : k ≤ 58) (hn : n = 2 ^ k) :
    TableInv cfg (⟨List.replicate n .empty, n, 0, 0⟩ : Table V) := by
  constructor
  · exact ⟨k, hk, hn⟩
  · simp
  · exact good_replicate _ n
  · simp [countP_replicate, Slot.isOccupied]
  · simp [countP_replicate, Slot.isDeleted]

def KeysDistinct (slots : List (Slot Bytes V)) : Prop :=
  slots.Pairwise fun a b => ∀ k v w, a = .occupied k v → b ≠ .occupied k w

theorem keysDistinct_of_good {es : List (Slot Bytes V)} (hg : Good (hashOf cfg) es) :
    KeysDistinct es := by
  unfold KeysDistinct
  rw [pairwise_iff_getElem]
  intro i j hi hj hij k v w ha hb
  have hsi : es[i]? = some (.occupied k v) := by
    rw [List.getElem?_eq_getElem hi, ha]
  have hsj : es[j]? = some (.occupied k w) := by
    rw [List.getElem?_eq_getElem hj, hb]
  have := hg.unique i j k v w hsi hsj
  omega

theorem reinsert_spec (hcmp : CmpIsEq cfg) (slots : List (Slot Bytes V)) :
    ∀ t : Table V, TableInv cfg t → t.deletedCount = 0 → KeysDistinct slots →
      (∀ k v, .occupied k v ∈ slots → ∀ w, ¬ Stored t.entries k w) →
      t.size + slots.countP Slot.isOccupied ≤ t.capacity →
      ∃ t', reinsert cfg slots t = some (some t') ∧ TableInv cfg t' ∧
        t'.capacity = t.capacity ∧ t'.deletedCount = 0 ∧
        t'.size = t.size + slots.countP Slot.isOccupied ∧
        ∀ k v, Stored t'.entries k v ↔ Stored t.entries k v ∨ .occupied k v ∈ slots := by
  induction slots with
  | nil =>
    intro t hinv hdel _ _ _
    exact ⟨t, rfl, hinv, rfl, hdel, by simp, by simp⟩
  | cons s rest ih =>
    intro t hinv hdel hdist hnew hroom
    obtain ⟨hhead, hrest⟩ := pairwise_cons.mp hdist
    have hskip : s.isOccupied = false → (∀ k v, s ≠ .occupied k v) →
        reinsert cfg (s :: rest) t = reinsert cfg rest t →
        ∃ t', reinsert cfg (s :: rest) t = some (some t') ∧ TableInv cfg t' ∧
          t'.capacity = t.capacity ∧ t'.deletedCount = 0 ∧
          t'.size = t.size + (s :: rest).countP Slot.isOccupied ∧
          ∀ k v, Stored t'.entries k v ↔ Stored t.entries k v ∨ .occupied k v ∈ s :: rest := by
      intro hs hne heq
      rw [countP_cons_of_neg (by simp [hs])] at hroom ⊢
      obtain ⟨t', hrun, hinv', hcap, hdel', hsize, hstored⟩ := ih t hinv hdel hrest
        (fun k v hmem => hnew k v (mem_cons_of_mem s hmem)) hroom
      refine ⟨t', heq.trans hrun, hinv', hcap, hdel', hsize, ?_⟩
      intro k v
      rw [hstored k v, mem_cons]
      constructor
      · intro h
        exact h.imp_right Or.inr
      · intro h
        exact h.imp_right fun hm => hm.resolve_left fun he => hne k v he.symm
    cases s with
    | empty => exact hskip rfl (by simp) rfl
    | deleted => exact hskip rfl (by simp) rfl
    | occupied key value =>
      rw [countP_cons_of_pos rfl] at hroom ⊢
      have habsent : ∀ w, ¬ Stored t.entries key w := hnew key value mem_cons_self
      obtain ⟨e, he⟩ := exists_empty_of_room hinv (by omega)
      rcases findEntry_absent hinv hcmp true habsent with ⟨_, hfull⟩ | ⟨i, hfind, hlt, hfree, hr⟩
      · exact absurd he (hfull e)
      · obtain ⟨s, hs⟩ : ∃ s, t.entries[i]? = some s := ⟨_, List.getElem?_eq_getElem hlt⟩
        have hnot : s.isOccupied = false := by
          cases s with
          | empty => rfl
          | deleted => rfl
          | occupied k v => exact absurd hs (hfree k v)
        have hput := hinv.put value hs hnot habsent hr
        have hzero : t.deletedCount - (if s.isDeleted then 1 else 0) = t.deletedCount := by
          rw [hdel]
          exact Nat.zero_sub _
        rw [hzero] at hput
        obtain ⟨t', hrun, hinv', hcap, hdel', hsize, hstored⟩ := ih _ hput hdel hrest
          (by
            intro k v hmem w hw
            rcases (stored_put hlt hfree).mp hw with ⟨hk, _⟩ | hold
            · rw [hk] at hmem
              exact hhead _ hmem key value v rfl rfl
            · exact hnew k v (mem_cons_of_mem _ hmem) w hold)
          (by dsimp only; omega)
        refine ⟨t', ?_, hinv', hcap, hdel', by rw [hsize]; dsimp only; omega, ?_⟩
        · rw [reinsert, hfind]
          exact hrun
        · intro k v
          rw [hstored k v, stored_put hlt hfree, mem_cons]
          constructor
          · intro h
            rcases h with (⟨hk, hv⟩ | hold) | hmem
            · right
              left
              rw [hk, hv]
            · exact Or.inl hold
            · exact Or.inr (Or.inr hmem)
          · intro h
            rcases h with hold | heq | hmem
            · exact Or.inl (Or.inr hold)
            · exact Or.inl (Or.inl (Slot.occupied.inj heq))
            · exact Or.inr hmem

variable {alloc : ℕ → Bool}

theorem resize_spec (hinv : TableInv cfg t) (hcmp : CmpIsEq cfg) (hzero : alloc 0 = false)
    (hgranted : alloc (t.capacity * 2 % 2 ^ 64 * sizeofEntry % 2 ^ 64) = true) :
    ∃ t', resize cfg alloc t (t.capacity * 2 % 2 ^ 64) = some (0, t') ∧ TableInv cfg t' ∧
      t'.size + t'.deletedCount < t'.capacity ∧ t'.deletedCount = 0 ∧
      ∀ k v, Stored t'.entries k v ↔ Stored t.entries k v := by
  obtain ⟨k, hk, hcap⟩ := hinv.pow
  have hpow : t.capacity * 2 = 2 ^ (k + 1) := by
    rw [hcap, Nat.pow_succ]
  have hk' : k + 1 ≤ 58 := by
    by_contra hgt
    have hk58 : k = 58 := by omega
    rw [hpow, hk58] at hgranted
    have hwrap : 2 ^ (58 + 1) % 2 ^ 64 * sizeofEntry % 2 ^ 64 = 0 := by decide
    rw [hwrap, hzero] at hgranted
    cases hgranted
  have hnowrap : t.capacity * 2 % 2 ^ 64 = t.capacity * 2 := by
    apply Nat.mod_eq_of_lt
    rw [hpow]
    exact Nat.pow_lt_pow_right (by omega) (by omega)
  have hused := used_le hinv
  have hpos := hinv.pos
  rw [hnowrap] at hgranted ⊢
  have hstart : TableInv cfg (⟨List.replicate (t.capacity * 2) .empty, t.capacity * 2, 0, 0⟩ :
      Table V) := empty_inv hk' hpow
  obtain ⟨t', hrun, hinv', hcap', hdel', hsize, hstored⟩ := reinsert_spec hcmp t.entries _ hstart
    rfl (keysDistinct_of_good hinv.good) (fun k v _ w => not_stored_replicate _ k w)
    (by rw [← hinv.size]; dsimp only; omega)
  dsimp only at hcap' hsize
  refine ⟨t', ?_, hinv', ?_, hdel', ?_⟩
  · unfold resize
    rw [if_neg (by omega), if_neg (by omega), if_neg (by rw [hgranted]; decide), hrun]
  · rw [hsize, hdel', hcap', ← hinv.size]
    omega
  · intro k v
    rw [hstored k v]
    constructor
    · intro h
      rcases h with hnone | hmem
      · exact absurd hnone (not_stored_replicate _ k v)
      · exact mem_iff_getElem?.mp hmem
    · intro ⟨i, hi⟩
      right
      exact mem_of_getElem? hi

/- The sizes that a call of vox_htable_set asks the pool for. -/
def requests (cfg : Config) (t : Table V) (key : Bytes) : List ℕ :=
  (if needsResize cfg t then [t.capacity * 2 % 2 ^ 64 * sizeofEntry % 2 ^ 64] else []) ++
    if key ∈ (pairs t.entries).map Prod.fst then [] else [key.length]

variable {key : Bytes}

theorem mem_keys {es : List (Slot Bytes V)} :
    key ∈ (pairs es).map Prod.fst ↔ ∃ v, Stored es key v := by
  rw [mem_map]
  constructor
  · intro ⟨p, hp, hkey⟩
    exact ⟨p.2, mem_pairs.mp (by rw [← hkey]; exact hp)⟩
  · intro ⟨v, hv⟩
    exact ⟨(key, v), mem_pairs.mpr hv, rfl⟩

theorem setAt_stored {v : V} (alloc : ℕ → Bool) (value : V) (hinv : TableInv cfg t)
    (hi : t.entries[i]? = some (.occupied key v)) :
    ∃ t', setAt alloc t key value i = some (0, t') ∧ TableInv cfg t' ∧
      ∀ k w, Stored t'.entries k w ↔ (k = key ∧ w = value) ∨ (k ≠ key ∧ Stored t.entries k w) := by
  unfold setAt
  rw [hi]
  refine ⟨_, rfl, hinv.update value hi, ?_⟩
  intro k w
  rw [stored_replace hinv.good hi, Slot.occupied.injEq, eq_comm, eq_comm (a := value)]

theorem setAt_absent (value : V) (hinv : TableInv cfg t) (halloc : alloc key.length = true)
    (hlt : i < t.entries.length) (hfree : ∀ k v, t.entries[i]? ≠ some (.occupied k v))
    (habsent : ∀ w, ¬ Stored t.entries key w) (hr : Reached t.entries (hashOf cfg key) i) :
    ∃ t', setAt alloc t key value i = some (0, t') ∧ TableInv cfg t' ∧
      ∀ k w, Stored t'.entries k w ↔ (k = key ∧ w = value) ∨ (k ≠ key ∧ Stored t.entries k w) := by
  have hiff : ∀ k w, Stored (t.entries.set i (.occupied key value)) k w ↔
      (k = key ∧ w = value) ∨ (k ≠ key ∧ Stored t.entries k w) := by
    intro k w
    rw [stored_put hlt hfree]
    constructor
    · intro h
      rcases h with hnew | hold
      · exact Or.inl hnew
      · exact Or.inr ⟨fun he => habsent w (he ▸ hold), hold⟩
    · intro h
      exact h.imp_right And.right
  obtain ⟨s, hs⟩ : ∃ s, t.entries[i]? = some s := ⟨_, List.getElem?_eq_getElem hlt⟩
  unfold setAt
  rw [hs]
  cases s with
  | empty =>
    dsimp only
    rw [if_pos halloc]
    exact ⟨_, rfl, hinv.put value hs rfl habsent hr, hiff⟩
  | deleted =>
    dsimp only
    rw [if_pos halloc, hinv.deletedCount_dec hs]
    exact ⟨_, rfl, hinv.put value hs rfl habsent hr, hiff⟩
  | occupied k v => exact absurd hs (hfree k v)

theorem set_spec (value : V) (hinv : TableInv cfg t) (hcmp : CmpIsEq cfg) (hkey : key.length ≠ 0)
    (hzero : alloc 0 = false) (hgranted : ∀ n ∈ requests cfg t key, alloc n = true) :
    ∃ t', set cfg alloc t key value = some (0, t') ∧ TableInv cfg t' ∧
      ∀ k w, Stored t'.entries k w ↔ (k = key ∧ w = value) ∨ (k ≠ key ∧ Stored t.entries k w) := by
  -- the table that is searched: the old one, or the resized one
  have hroom : ∃ t₁, growIfNeeded cfg alloc t = some (0, t₁) ∧ TableInv cfg t₁ ∧
      t₁.size + t₁.deletedCount < t₁.capacity ∧
      ∀ k v, Stored t₁.entries k v ↔ Stored t.entries k v := by
    unfold growIfNeeded
    cases hn : needsResize cfg t with
    | true =>
      have hsize := hgranted (t.capacity * 2 % 2 ^ 64 * sizeofEntry % 2 ^ 64)
        (by simp [requests, hn])
      obtain ⟨t₁, hrun, hinv₁, hroom, _, hstored⟩ := resize_spec hinv hcmp hzero hsize
      exact ⟨t₁, hrun, hinv₁, hroom, hstored⟩
    | false => exact ⟨t, rfl, hinv, room_of_not_needsResize hinv hn, fun k v => Iff.rfl⟩
  obtain ⟨t₁, hresize, hinv₁, hroom₁, hstored₁⟩ := hroom
  have hset : ∀ i, findEntry cfg t₁ key true = some (some i) →
      set cfg alloc t key value = setAt alloc t₁ key value i := by
    intro i hi
    unfold set setWith
    rw [if_neg hkey, hresize]
    dsimp only
    rw [if_neg (by decide), hi]
  have hback : ∀ k w, ((k = key ∧ w = value) ∨ (k ≠ key ∧ Stored t₁.entries k w)) ↔
      ((k = key ∧ w = value) ∨ (k ≠ key ∧ Stored t.entries k w)) := by
    intro k w
    rw [hstored₁ k w]
  by_cases hold : ∃ v, Stored t₁.entries key v
  · obtain ⟨v, i, hi⟩ := hold
    obtain ⟨t', hrun, hinv', hiff⟩ := setAt_stored alloc value hinv₁ hi
    refine ⟨t', ?_, hinv', fun k w => (hiff k w).trans (hback k w)⟩
    rw [hset i (findEntry_stored hinv₁ hcmp true hi)]
    exact hrun
  · have habsent : ∀ v, ¬ Stored t₁.entries key v := fun v hv => hold ⟨v, hv⟩
    have halloc : alloc key.length = true := by
      apply hgranted
      have hnot : key ∉ (pairs t.entries).map Prod.fst := by
        intro hmem
        obtain ⟨v, hv⟩ := mem_keys.mp hmem
        exact habsent v ((hstored₁ key v).mpr hv)
      rw [requests, if_neg hnot]
      simp
    obtain ⟨e, he⟩ := exists_empty_of_room hinv₁ hroom₁
    rcases findEntry_absent hinv₁ hcmp true habsent with ⟨_, hfull⟩ | ⟨i, hfind, hlt, hfree, hr⟩
    · exact absurd he (hfull e)
    · obtain ⟨t', hrun, hinv', hiff⟩ := setAt_absent value hinv₁ halloc hlt hfree habsent
        hr
      refine ⟨t', ?_, hinv', fun k w => (hiff k w).trans (hback k w)⟩
      rw [hset i hfind]
      exact hrun

theorem get_spec (hinv : TableInv cfg t) (hcmp : CmpIsEq cfg) (hkey : key.length ≠ 0) :
    ∃ r, get cfg t key = some r ∧ ∀ v, r = some v ↔ Stored t.entries key v := by
  unfold get
  rw [if_neg hkey]
  by_cases hold : ∃ v, Stored t.entries key v
  · obtain ⟨v, i, hi⟩ := hold
    rw [findEntry_stored hinv hcmp false hi]
    dsimp only
    rw [hi]
    refine ⟨some v, rfl, ?_⟩
    intro w
    constructor
    · intro he
      obtain rfl := Option.some.inj he
      exact ⟨i, hi⟩
    · intro ⟨j, hj⟩
      have hij := hinv.good.unique i j key v w hi hj
      rw [← hij, hi] at hj
      rw [(Slot.occupied.inj (Option.some.inj hj)).2]
  · have habsent : ∀ v, ¬ Stored t.entries key v := fun v hv => hold ⟨v, hv⟩
    refine ⟨none, ?_, ?_⟩
    · rcases findEntry_absent hinv hcmp false habsent with ⟨hnull, _⟩ | ⟨i, hfind, _, hfree, _⟩
      · rw [hnull]
      · rw [hfind]
        dsimp only
        split
        · rename_i k v hk
          exact absurd hk (hfree k v)
        · rfl
    · intro v
      constructor
      · intro h
        cases h
      · intro h
        exact absurd h (habsent v)

theorem delete_spec (hinv : TableInv cfg t) (hcmp : CmpIsEq cfg) (hkey : key.length ≠ 0) :
    ∃ rc t', delete cfg t key = some (rc, t') ∧ TableInv cfg t' ∧
      (∀ k w, Stored t'.entries k w ↔ k ≠ key ∧ Stored t.entries k w) ∧
      rc = if key ∈ (pairs t.entries).map Prod.fst then 0 else -1 := by
  unfold delete
  rw [if_neg hkey]
  by_cases hold : ∃ v, Stored t.entries key v
  · rw [if_pos (mem_keys.mpr hold)]
    obtain ⟨v, i, hi⟩ := hold
    rw [findEntry_stored hinv hcmp false hi]
    dsimp only
    rw [hi]
    refine ⟨0, _, rfl, hinv.remove hi, ?_, rfl⟩
    intro k w
    rw [stored_replace hinv.good hi]
    simp
  · have habsent : ∀ v, ¬ Stored t.entries key v := fun v hv => hold ⟨v, hv⟩
    rw [if_neg (fun hmem => hold (mem_keys.mp hmem))]
    refine ⟨-1, t, ?_, hinv, ?_, rfl⟩
    · rcases findEntry_absent hinv hcmp false habsent with ⟨hnull, _⟩ | ⟨i, hfind, _, hfree, _⟩
      · rw [hnull]
      · rw [hfind]
        dsimp only
        split
        · rename_i k v hk
          exact absurd hk (hfree k v)
        · rfl
    · intro k w
      constructor
      · intro hs
        exact ⟨fun he => habsent w (he ▸ hs), hs⟩
      · exact And.right

theorem clear_spec (hinv : TableInv cfg t) :
    TableInv cfg (clear t) ∧ ∀ k v, ¬ Stored (clear t).entries k v := by
  obtain ⟨k, hk, hcap⟩ := hinv.pow
  have hclear : clear t = ⟨List.replicate t.capacity .empty, t.capacity, 0, 0⟩ := by
    unfold clear
    rw [map_const', hinv.length]
  rw [hclear]
  exact ⟨empty_inv hk hcap, not_stored_replicate _⟩

end Voxlib.HTable
