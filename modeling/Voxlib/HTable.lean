import Mathlib.Data.Finmap
import Voxlib.Lib.CStr
import Voxlib.Lib.Pow2
import Voxlib.Lib.Probe

/-!
# The hash table (vox_htable.c)

The entry array is a list of slots; a DELETED entry has no key and no value.
A search returns the index of an entry or NULL. An outer `none` stands for a
search that does not end or leaves the array, and never occurs. `alloc` says
for which sizes `vox_mpool_alloc` succeeds.
-/

namespace Voxlib.HTable
open CStr Pow2 Probe

variable {V : Type}

-- vox_htable_config_t; 0 or an unusable value stands for the default
structure Config where
  initialCapacity : ℕ
  loadFactor : ℚ
  hashFunc : Bytes → UInt64
  keyCmp : Bytes → Bytes → ℕ → ℤ

structure Table (V : Type) where
  entries : List (Slot Bytes V)
  capacity : ℕ
  size : ℕ
  deletedCount : ℕ
  deriving DecidableEq, Repr

def sizeofEntry : ℕ := 32

-- next_power_of_two (vox_htable.c:145-155)
def nextPowerOfTwo (n : ℕ) : ℕ :=
  if n = 0 then 1 else (smear64 (n - 1) + 1) % 2 ^ 64

def Config.capacity (cfg : Config) : ℕ :=
  if cfg.initialCapacity > 0 then nextPowerOfTwo cfg.initialCapacity else 16

def Config.loadFactorThreshold (cfg : Config) : ℚ :=
  if 0 < cfg.loadFactor ∧ cfg.loadFactor ≤ 1 then cfg.loadFactor else 3 / 4

/- The conversion of a `size_t` to `double`: 53 significant bits, to nearest,
   ties to even. -/
def toDouble (n : ℕ) : ℕ :=
  if n < 2 ^ 53 then n
  else
    let e := n.log2 - 52
    let q := n / 2 ^ e
    let r := n % 2 ^ e
    (if r > 2 ^ (e - 1) ∨ (r = 2 ^ (e - 1) ∧ q % 2 = 1) then q + 1 else q) * 2 ^ e

/- needs_resize (vox_htable.c:167-172). The capacity is a power of two, so the
   division of doubles is exact. -/
def needsResize (cfg : Config) (t : Table V) : Bool :=
  if t.capacity = 0 then false
  else
    (toDouble ((t.size + t.deletedCount) % 2 ^ 64) : ℚ) / t.capacity ≥ cfg.loadFactorThreshold

-- hash_index (vox_htable.c:158-161)
def hashIndex (cfg : Config) (t : Table V) (key : Bytes) : ℕ :=
  (cfg.hashFunc key).toNat &&& (t.capacity - 1)

def keyMatches (cfg : Config) (entryKey key : Bytes) : Bool :=
  entryKey.length = key.length ∧ cfg.keyCmp entryKey key key.length = 0

/- The loop of find_entry (vox_htable.c:237-269). -/
def probe (cfg : Config) (t : Table V) (key : Bytes) (forInsert : Bool) (start : ℕ) :
    ℕ → ℕ → Option ℕ → Option (Option ℕ)
  | 0, _, _ => none
  | fuel + 1, index, firstDeleted =>
    let goOn (firstDeleted : Option ℕ) :=
      let next := (index + 1) &&& (t.capacity - 1)
      if next = start then some none
      else probe cfg t key forInsert start fuel next firstDeleted
    match t.entries[index]? with
    | none => none
    | some .empty => some (if forInsert ∧ firstDeleted.isSome then firstDeleted else some index)
    | some .deleted => goOn (if firstDeleted.isNone then some index else firstDeleted)
    | some (.occupied k _) =>
      if keyMatches cfg k key then some (some index) else goOn firstDeleted

-- find_entry (vox_htable.c:231-272)
def findEntry (cfg : Config) (t : Table V) (key : Bytes) (forInsert : Bool) : Option (Option ℕ) :=
  let index := hashIndex cfg t key
  probe cfg t key forInsert index t.capacity index none

/- The re-insertion of the old entries (vox_htable.c:203-222); an inner `none`
   when an entry finds no place. -/
def reinsert (cfg : Config) : List (Slot Bytes V) → Table V → Option (Option (Table V))
  | [], t => some (some t)
  | .occupied k v :: rest, t =>
    match findEntry cfg t k true with
    | none => none
    | some none => some none
    | some (some i) =>
      reinsert cfg rest { t with entries := t.entries.set i (.occupied k v), size := t.size + 1 }
  | _ :: rest, t => reinsert cfg rest t

-- vox_htable_resize (vox_htable.c:175-228)
def resize (cfg : Config) (alloc : ℕ → Bool) (t : Table V) (newCapacity : ℕ) :
    Option (ℤ × Table V) :=
  if newCapacity < t.size then some (-1, t)
  else if newCapacity < t.capacity then some (-1, t)
  else if alloc (newCapacity * sizeofEntry % 2 ^ 64) = false then some (-1, t)
  else
    match reinsert cfg t.entries ⟨List.replicate newCapacity .empty, newCapacity, 0, 0⟩ with
    | none => none
    | some none => some (-1, { t with deletedCount := 0 })
    | some (some t') => some (0, t')

-- vox_htable_create_with_config (vox_htable.c:280-342)
def create (cfg : Config) (alloc : ℕ → Bool) : Option (Table V) :=
  if alloc (cfg.capacity * sizeofEntry % 2 ^ 64) = false then none
  else some ⟨List.replicate cfg.capacity .empty, cfg.capacity, 0, 0⟩

/- The second half of vox_htable_set, at the entry that was found. -/
def setAt (alloc : ℕ → Bool) (t : Table V) (key : Bytes) (value : V) (i : ℕ) :
    Option (ℤ × Table V) :=
  match t.entries[i]? with
  | none => none
  | some (.occupied k _) => some (0, { t with entries := t.entries.set i (.occupied k value) })
  | some .deleted =>
    let t₁ := { t with deletedCount := (t.deletedCount + 2 ^ 64 - 1) % 2 ^ 64 }
    if alloc key.length then
      some (0, { t₁ with entries := t.entries.set i (.occupied key value), size := t.size + 1 })
    else some (-1, t₁)
  | some .empty =>
    if alloc key.length then
      some (0, { t with entries := t.entries.set i (.occupied key value), size := t.size + 1 })
    else some (-1, t)

-- the first lines of vox_htable_set
def growIfNeeded (cfg : Config) (alloc : ℕ → Bool) (t : Table V) : Option (ℤ × Table V) :=
  if needsResize cfg t then resize cfg alloc t (t.capacity * 2 % 2 ^ 64) else some (0, t)

/- vox_htable_set (vox_htable.c:345-399), where the pool answers the request for
   a new array and the one for the copy of the key each in its own way. -/
def setWith (cfg : Config) (allocEntries allocKey : ℕ → Bool) (t : Table V) (key : Bytes)
    (value : V) : Option (ℤ × Table V) :=
  if key.length = 0 then some (-1, t)
  else
    match growIfNeeded cfg allocEntries t with
    | none => none
    | some (rc, t₁) =>
      if rc ≠ 0 then some (-1, t₁)
      else
        match findEntry cfg t₁ key true with
        | none => none
        | some none => some (-1, t₁)
        | some (some i) => setAt allocKey t₁ key value i

def set (cfg : Config) (alloc : ℕ → Bool) (t : Table V) (key : Bytes) (value : V) :
    Option (ℤ × Table V) :=
  setWith cfg alloc alloc t key value

-- vox_htable_get (vox_htable.c:402-411)
def get (cfg : Config) (t : Table V) (key : Bytes) : Option (Option V) :=
  if key.length = 0 then some none
  else
    match findEntry cfg t key false with
    | none => none
    | some none => some none
    | some (some i) =>
      match t.entries[i]? with
      | some (.occupied _ v) => some (some v)
      | _ => some none

-- vox_htable_delete (vox_htable.c:414-438)
def delete (cfg : Config) (t : Table V) (key : Bytes) : Option (ℤ × Table V) :=
  if key.length = 0 then some (-1, t)
  else
    match findEntry cfg t key false with
    | none => none
    | some none => some (-1, t)
    | some (some i) =>
      match t.entries[i]? with
      | some (.occupied _ _) =>
        some (0, { t with
          entries := t.entries.set i .deleted
          size := t.size - 1
          deletedCount := t.deletedCount + 1 })
      | _ => some (-1, t)

-- vox_htable_contains (vox_htable.c:441-443); values are not NULL
def contains (cfg : Config) (t : Table V) (key : Bytes) : Option Bool :=
  (get cfg t key).map Option.isSome

-- vox_htable_clear (vox_htable.c:456-482)
def clear (t : Table V) : Table V :=
  { t with entries := t.entries.map (fun _ => .empty), size := 0, deletedCount := 0 }

/- vox_htable_foreach (vox_htable.c:512-527): the pairs handed to the callback,
   in the order of the array; their number is the result. -/
def foreach (t : Table V) : List (Bytes × V) := pairs t.entries

end Voxlib.HTable
