import Voxlib.Lib.Buffer
import Voxlib.Lib.CStr
import Voxlib.Lib.Pow2
import Voxlib.Lib.Run

/-!
# Strings that grow (vox_string.c)

A string is its allocated buffer with the two counters beside it. Positions
and lengths are `size_t` words, so their sums and differences are taken modulo
2^64; a call that touches a byte outside the buffer has no outcome. C strings
are separate objects, given by their bytes in front of the NUL.
-/

namespace Voxlib.VoxString
open CStr Buffer Pow2

/-- What vox_mpool_alloc gives out for a size: a block of just so many bytes, or nothing. -/
structure Mpool where
  alloc : ℕ → Option Bytes
  sized : ∀ n b, alloc n = some b → b.length = n

-- struct vox_string (vox_string.c:75-80)
structure Str where
  data : Bytes
  length : ℕ
  capacity : ℕ
  deriving DecidableEq

/- The returned `int` and the string after the call; `none` is an access outside the buffer. -/
abbrev Outcome := Option (ℤ × Str)

/- The new capacity of ensure_capacity (vox_string.c:122-148); `none` is an overflow. -/
def newCapacity (capacity required : ℕ) : Option ℕ :=
  let doubled := (if capacity = 0 then 32 else capacity) * 2 % 2 ^ 64
  if required ≤ doubled then some doubled
  else
    let rounded := (smear64 (required - 1) + 1) % 2 ^ 64
    if rounded < required then none else some rounded

-- ensure_capacity (vox_string.c:112-195)
def ensureCapacity (pool : Mpool) (s : Str) (needed : ℕ) : Outcome :=
  let required := addWord 64 (addWord 64 s.length needed) 1
  if required ≤ s.capacity then some (0, s)
  else
    match newCapacity s.capacity required with
    | none => some (-1, s)
    | some capacity =>
      match pool.alloc capacity with
      | none => some (-1, s)
      | some fresh => do
        let old ← fetch s.data 0 (addWord 64 s.length 1)
        let data ← blit fresh 0 old
        return (0, { s with data := data, capacity := capacity })

/- What follows `if (ensure_capacity(str, needed) != 0) return -1;`. -/
def afterGrowth (pool : Mpool) (s : Str) (needed : ℕ) (body : Str → Outcome) : Outcome := do
  let (ret, s) ← ensureCapacity pool s needed
  if ret ≠ 0 then return (-1, s) else body s

-- vox_string_clear (vox_string.c:286-293)
def clear (s : Str) : Outcome := do
  let data ← store s.data 0 0
  return (0, { s with data := data, length := 0 })

-- vox_string_set_data (vox_string.c:362-382)
def setData (pool : Mpool) (s : Str) (text : Bytes) : Outcome :=
  if text.length = 0 then some (-1, s)
  else
    afterGrowth pool s text.length fun s => do
      let data ← blit s.data 0 text
      let data ← store data text.length 0
      return (0, { s with data := data, length := text.length })

-- vox_string_set (vox_string.c:337-347); a NULL text is `none`
def set (pool : Mpool) (s : Str) : Option Bytes → Outcome
  | none => clear s
  | some text => setData pool s text

-- vox_string_append_data (vox_string.c:400-442)
def appendData (pool : Mpool) (s : Str) (text : Bytes) : Outcome :=
  if text.length = 0 then some (-1, s)
  else
    afterGrowth pool s text.length fun s => do
      let data ← blit s.data s.length text
      let length := addWord 64 s.length text.length
      let data ← store data length 0
      return (0, { s with data := data, length := length })

-- vox_string_append (vox_string.c:385-390)
def append (pool : Mpool) (s : Str) : Option Bytes → Outcome
  | none => some (-1, s)
  | some text => appendData pool s text

-- vox_string_insert_data (vox_string.c:540-561)
def insertData (pool : Mpool) (s : Str) (pos : ℕ) (text : Bytes) : Outcome :=
  if text.length = 0 then some (-1, s)
  else if s.length < pos then some (-1, s)
  else
    afterGrowth pool s text.length fun s => do
      let moved := if pos < s.length then
          memmove s.data (addWord 64 pos text.length) pos (subWord 64 s.length pos)
        else some s.data
      let data ← moved
      let data ← blit data pos text
      let length := addWord 64 s.length text.length
      let data ← store data length 0
      return (0, { s with data := data, length := length })

-- vox_string_insert (vox_string.c:525-530)
def insert (pool : Mpool) (s : Str) (pos : ℕ) : Option Bytes → Outcome
  | none => some (-1, s)
  | some text => insertData pool s pos text

/- `if (pos + len > str->length) len = str->length - pos;`: the length that is taken out. -/
def cutLength (s : Str) (pos len : ℕ) : ℕ :=
  if s.length < addWord 64 pos len then subWord 64 s.length pos else len

-- vox_string_remove (vox_string.c:564-584)
def remove (s : Str) (pos len : ℕ) : Outcome :=
  if s.length ≤ pos then some (-1, s)
  else
    let len := cutLength s pos len
    if len = 0 then some (0, s)
    else do
      let moved := if addWord 64 pos len < s.length then
          memmove s.data pos (addWord 64 pos len) (subWord 64 (subWord 64 s.length pos) len)
        else some s.data
      let data ← moved
      let length := subWord 64 s.length len
      let data ← store data length 0
      return (0, { s with data := data, length := length })

/- The tail is moved, the new text written (vox_string.c:698-708). -/
def putText (pos len : ℕ) (text : Bytes) (s : Str) : Outcome := do
  let data ← memmove s.data (addWord 64 pos text.length) (addWord 64 pos len)
    (subWord 64 (subWord 64 s.length pos) len)
  let data ← blit data pos text
  let length := addWord 64 s.length (subWord 64 text.length len)
  let data ← store data length 0
  return (0, { s with data := data, length := length })

-- vox_string_replace_at (vox_string.c:672-711)
def replaceAt (pool : Mpool) (s : Str) (pos len : ℕ) : Option Bytes → Outcome
  | none => some (-1, s)
  | some text =>
    if s.length ≤ pos then some (-1, s)
    else
      let len := cutLength s pos len
      if text.length = len then do
        let data ← blit s.data pos text
        return (0, { s with data := data })
      else if len < text.length then
        afterGrowth pool s (subWord 64 text.length len) (putText pos len text)
      else putText pos len text s

-- vox_string_resize (vox_string.c:828-853)
def resize (pool : Mpool) (s : Str) (newSize : ℕ) : Outcome :=
  if newSize = s.length then some (0, s)
  else if newSize < s.length then do
    let data ← store s.data newSize 0
    return (0, { s with data := data, length := newSize })
  else
    afterGrowth pool s (subWord 64 newSize s.length) fun s => do
      let data ← fill s.data s.length (subWord 64 newSize s.length) 32
      let data ← store data newSize 0
      return (0, { s with data := data, length := newSize })

def isspace (c : UInt8) : Bool := c = 32 ∨ 9 ≤ c ∧ c ≤ 13

/- The loop from the front (vox_string.c:782-785); `n` is `length - start`. -/
def skipFront (data : Bytes) : ℕ → ℕ → Option ℕ
  | 0, start => some start
  | n + 1, start => do
    let c ← load data start
    if isspace c then skipFront data n (start + 1) else some start

/- The loop from the back (vox_string.c:788-791); `n` is `end - start`. -/
def skipBack (data : Bytes) (start : ℕ) : ℕ → Option ℕ
  | 0 => some start
  | n + 1 => do
    let c ← load data (start + n)
    if isspace c then skipBack data start n else some (start + n + 1)

-- vox_string_trim (vox_string.c:778-801)
def trim (s : Str) : Outcome :=
  if s.length = 0 then some (0, s)
  else do
    let start ← skipFront s.data s.length 0
    let stop ← skipBack s.data start (s.length - start)
    if 0 < start ∨ stop < s.length then
      let moved := if start < stop then memmove s.data 0 start (stop - start) else some s.data
      let data ← moved
      let data ← store data (stop - start) 0
      return (0, { s with data := data, length := stop - start })
    else return (0, s)

-- vox_string_create_with_config (vox_string.c:203-237)
def create (pool : Mpool) (initialCapacity : ℕ) : Option Str := do
  let capacity := if 0 < initialCapacity then initialCapacity else 32
  let data ← pool.alloc capacity
  let data ← store data 0 0
  return { data := data, length := 0, capacity := capacity }

/-- The calls that change a string, with their `size_t` arguments. -/
inductive Call where
  | set (text : Option Bytes)
  | append (text : Option Bytes)
  | insert (pos : UInt64) (text : Option Bytes)
  | remove (pos len : UInt64)
  | replaceAt (pos len : UInt64) (text : Option Bytes)
  | resize (newSize : UInt64)
  | clear
  | trim
  deriving DecidableEq

def call (s : Str) (pool : Mpool) : Call → Outcome
  | .set text => set pool s text
  | .append text => append pool s text
  | .insert pos text => insert pool s pos.toNat text
  | .remove pos len => remove s pos.toNat len.toNat
  | .replaceAt pos len text => replaceAt pool s pos.toNat len.toNat text
  | .resize newSize => resize pool s newSize.toNat
  | .clear => clear s
  | .trim => trim s

def step (s : Str) (a : Mpool × Call) : Option Str := (call s a.1 a.2).map Prod.snd

end Voxlib.VoxString
