import Voxlib.Lib.CStr
import Voxlib.Lib.Stream

/-!
# The RESP parser (vox_redis_parser.c)

A state machine over the bytes of a call. Lines are searched for in the bytes
at hand, and what is there of an unfinished line is kept in string_buf; the
data of a bulk string is handed on as it comes. The lines of simple strings
and errors are searched for from the byte in front of the read pointer on.
-/

namespace Voxlib.Redis
open CStr Stream

/- A call of a callback of vox_redis_parser_callbacks_t. -/
inductive Event where
  | simpleString (data : Bytes)
  | error (data : Bytes)
  | integer (value : ℤ)
  | bulkStringStart (len : ℤ)
  | bulkStringData (data : Bytes)
  | bulkStringComplete
  | arrayStart (count : ℤ)
  | arrayElementStart (index : ℕ)
  | arrayElementComplete (index : ℕ)
  | arrayComplete
  | complete
  | errorParse (message : String)
  deriving DecidableEq, Repr

/- What a callback returns, true for 0, and makes of its state; one that is not set counts as one
   that returned 0. `resets` says where on_complete calls vox_redis_parser_reset. -/
structure Handler (σ : Type*) where
  on : σ → Event → Bool × σ
  resets : σ → Bool := fun _ => false

/-- vox_redis_parser_config_t; 0 stands for no limit. -/
structure Config where
  maxBulkStringSize : ℕ
  maxArraySize : ℕ
  maxNestingDepth : ℕ
  deriving DecidableEq, Repr

def defaultConfig : Config := ⟨512 * 1024 * 1024, 1000000, 64⟩

/-- vox_redis_type_t. -/
inductive Kind where
  | simpleString | error | integer | bulkString | array
  deriving DecidableEq, Repr

/- VOX_REDIS_STATE_ARRAY_ELEMENT is never entered. -/
inductive State where
  | start | simpleString | error | integer | bulkStringLen | bulkStringData | arrayCount
  | cr | lf | complete | errorState
  deriving DecidableEq, Repr

structure Level where
  count : ℤ
  current : ℕ
  deriving DecidableEq, Repr

/- The last entry of array_stack is the first of the list; the source has 64 of them. -/
structure Parser where
  config : Config
  state : State := .start
  currentType : Kind := .simpleString
  arrayStack : List Level := []
  bulkStringLen : ℤ := -1
  stringBuf : Bytes := []
  hasError : Bool := false
  errorMessage : Option String := none
  deriving DecidableEq, Repr

/-- vox_redis_parser_create (vox_redis_parser.c:134-173). -/
def create (config : Option Config) : Parser := { config := config.getD defaultConfig }

/-- vox_redis_parser_reset (vox_redis_parser.c:187-206). -/
def Parser.reset (p : Parser) : Parser := { config := p.config }

def int64Max : ℤ := 2 ^ 63 - 1

def sizeT (x : ℤ) : ℕ := (x % 2 ^ 64).toNat

/-- The loop of parse_integer (vox_redis_parser.c:103-112). -/
def parseDigits : Bytes → ℤ → Option ℤ
  | [], value => some value
  | c :: rest, value =>
    if ¬ (48 ≤ c ∧ c ≤ 57) then none
    else
      let digit : ℤ := c.toNat - 48
      if value > (int64Max - digit) / 10 then none else parseDigits rest (value * 10 + digit)

/-- parse_integer (vox_redis_parser.c:88-116). -/
def parseInteger (data : Bytes) : Option ℤ :=
  match data with
  | [] => none
  | c :: rest =>
    if c = 45 then (if rest = [] then none else (parseDigits rest 0).map fun value => -value)
    else if c = 43 then (if rest = [] then none else parseDigits rest 0)
    else parseDigits data 0

def isCrlf : Bytes → Bool
  | 13 :: 10 :: _ => true
  | _ => false

/-- find_crlf (vox_redis_parser.c:118-130). -/
def findCrlf : Bytes → Option ℕ
  | [] => none
  | c :: rest => if isCrlf (c :: rest) then some 0 else (findCrlf rest).map (· + 1)

/- The parser and the state of the callbacks, or the two that an error leaves. -/
abbrev Turn (σ : Type*) := Except (Parser × σ) (Parser × σ)

section
variable {σ : Type*} (h : Handler σ) (grow : ℕ → Bool)

def Turn.flow (r : Turn σ) (rest : Bytes) : Flow (Parser × σ) UInt8 :=
  match r with
  | .ok t => .go t rest
  | .error t => .fail t

/-- set_error, and the state that always follows it (vox_redis_parser.c:73-86). -/
def setError (p : Parser) (u : σ) (message : String) : Parser × σ :=
  ({ p with hasError := true, errorMessage := some message, state := .errorState },
    (h.on u (.errorParse message)).2)

def emit (p : Parser) (u : σ) (e : Event) : Turn σ :=
  let r := h.on u e
  if r.1 then .ok (p, r.2) else .error ({ p with state := .errorState }, r.2)

/- vox_string_append_data on string_buf, which is skipped for no data; `grow` says to which lengths
   string_buf can grow. -/
def accumulate (p : Parser) (data : Bytes) : Option Parser :=
  if data = [] then some p
  else if grow (p.stringBuf.length + data.length) then
    some { p with stringBuf := p.stringBuf ++ data }
  else none

/-- What comes after an element (vox_redis_parser.c:300-329, 382-411, 549-578). -/
def elementDone (p : Parser) (u : σ) : Turn σ :=
  match p.arrayStack with
  | [] => .ok ({ p with state := .complete }, u)
  | top :: rest =>
    let current := top.current + 1
    let p := { p with arrayStack := { top with current := current } :: rest }
    (emit h p u (.arrayElementComplete (current - 1))).map fun t =>
      if (current : ℤ) < top.count then ({ t.1 with state := .start }, t.2)
      else ({ t.1 with arrayStack := rest, state := .complete }, t.2)

def Parser.begin (p : Parser) (kind : Kind) (state : State) : Parser :=
  { p with state := state, currentType := kind, stringBuf := [] }

/-- The byte in front of a value (vox_redis_parser.c:228-264). -/
def typeByte (p : Parser) (u : σ) (c : UInt8) : Turn σ :=
  if c = 43 then .ok (p.begin .simpleString .simpleString, u)
  else if c = 45 then .ok (p.begin .error .error, u)
  else if c = 58 then .ok (p.begin .integer .integer, u)
  else if c = 36 then .ok (p.begin .bulkString .bulkStringLen, u)
  else if c = 42 then .ok (p.begin .array .arrayCount, u)
  else .error (setError h p u "Invalid RESP type identifier")

def simpleDone (p : Parser) (u : σ) : Turn σ :=
  (emit h p u (if p.state = .simpleString then .simpleString p.stringBuf
    else .error p.stringBuf)).bind fun t => elementDone h t.1 t.2

def integerDone (p : Parser) (u : σ) : Turn σ :=
  match parseInteger p.stringBuf with
  | none => .error (setError h p u "Invalid integer format")
  | some value => (emit h p u (.integer value)).bind fun t => elementDone h t.1 t.2

/-- A null ends the value, and no array looks at it (vox_redis_parser.c:461-480). -/
def bulkStringLenDone (p : Parser) (u : σ) : Turn σ :=
  match parseInteger p.stringBuf with
  | none => .error (setError h p u "Invalid bulk string length")
  | some len =>
    let p := { p with bulkStringLen := len }
    if len = -1 then
      (emit h p u (.bulkStringStart (-1))).bind fun t =>
        (emit h t.1 t.2 .bulkStringComplete).map fun t => ({ t.1 with state := .complete }, t.2)
    else if p.config.maxBulkStringSize > 0 ∧ sizeT len > p.config.maxBulkStringSize then
      .error (setError h p u "Bulk string too large")
    else
      (emit h p u (.bulkStringStart len)).map fun t =>
        ({ t.1 with state := .bulkStringData, stringBuf := [] }, t.2)

def arrayCountDone (p : Parser) (u : σ) : Turn σ :=
  match parseInteger p.stringBuf with
  | none => .error (setError h p u "Invalid array count")
  | some count =>
    if count = -1 then
      (emit h p u (.arrayStart (-1))).bind fun t =>
        (emit h t.1 t.2 .arrayComplete).map fun t => ({ t.1 with state := .complete }, t.2)
    else if p.config.maxArraySize > 0 ∧ sizeT count > p.config.maxArraySize then
      .error (setError h p u "Array too large")
    else if p.arrayStack.length ≥ p.config.maxNestingDepth then
      .error (setError h p u "Array nesting too deep")
    else
      (emit h p u (.arrayStart count)).bind fun t =>
        if count = 0 then
          (emit h t.1 t.2 .arrayComplete).map fun t =>
            ({ t.1 with state := .complete, stringBuf := [] }, t.2)
        else
          let p := { t.1 with arrayStack := ⟨count, 0⟩ :: t.1.arrayStack }
          (emit h p t.2 (.arrayElementStart 0)).map fun t =>
            ({ t.1 with state := .start, stringBuf := [] }, t.2)

/- A line that is searched for in `text`: `done` runs when its end is there, and `rest` gives what
   is left behind it. -/
def line (s : Parser × σ) (text cur : Bytes) (failure : String)
    (done : Parser → σ → Turn σ) : Flow (Parser × σ) UInt8 :=
  match findCrlf text with
  | some k =>
    match accumulate grow s.1 (text.take k) with
    | none => .fail (setError h s.1 s.2 failure)
    | some p => (done p s.2).flow (cur.drop (k + 2))
  | none =>
    match accumulate grow s.1 text with
    | none => .fail (setError h s.1 s.2 failure)
    | some p => .go (p, s.2) (cur.drop (cur.length - 1))

def int64 (x : ℤ) : ℤ := Int.bmod x (2 ^ 64)

/-- VOX_REDIS_STATE_BULK_STRING_DATA (vox_redis_parser.c:514-536). -/
def bulkStringData (s : Parser × σ) (cur : Bytes) : Flow (Parser × σ) UInt8 :=
  let toRead := min cur.tail.length (sizeT s.1.bulkStringLen)
  let after (t : Parser × σ) : Parser × σ :=
    let len := int64 (t.1.bulkStringLen - toRead)
    ({ t.1 with bulkStringLen := len, state := if len = 0 then .cr else t.1.state }, t.2)
  let r :=
    if toRead > 0 then emit h s.1 s.2 (.bulkStringData (cur.tail.take toRead)) else .ok s
  Turn.flow (r.map after) (cur.drop toRead)

def crByte (p : Parser) (u : σ) (c : UInt8) : Turn σ :=
  if c = 13 then .ok ({ p with state := .lf }, u)
  else .error (setError h p u "Expected \\r after bulk string data")

def lfByte (p : Parser) (u : σ) (c : UInt8) : Turn σ :=
  if c = 10 then (emit h p u .bulkStringComplete).bind fun t => elementDone h t.1 t.2
  else .error (setError h p u "Expected \\n after \\r")

/- The body of the loop (vox_redis_parser.c:223-690). `cur` has the bytes from the one in front of
   the read pointer on; it is empty when the pointer has gone past the end. -/
def pass (s : Parser × σ) (cur : Bytes) : Flow (Parser × σ) UInt8 :=
  match cur.tail with
  | [] => .wait s cur
  | c :: _ =>
    match s.1.state with
    | .start => (typeByte h s.1 s.2 c).flow cur.tail
    | .simpleString => line h grow s cur cur "Failed to accumulate string" (simpleDone h)
    | .error => line h grow s cur cur "Failed to accumulate string" (simpleDone h)
    | .integer => line h grow s cur.tail cur "Failed to accumulate integer" (integerDone h)
    | .bulkStringLen =>
      line h grow s cur.tail cur "Failed to accumulate length" (bulkStringLenDone h)
    | .bulkStringData => bulkStringData h s cur
    | .arrayCount =>
      line h grow s cur.tail cur "Failed to accumulate array count" (arrayCountDone h)
    | .cr => (crByte h s.1 s.2 c).flow cur.tail
    | .lf => (lfByte h s.1 s.2 c).flow cur.tail
    | .complete => .wait s cur
    | .errorState => .wait s cur

/-- Behind the loop (vox_redis_parser.c:693-715). -/
def finish (s : Parser × σ) : Turn σ :=
  if s.1.state ≠ .complete then .ok s
  else
    let r : Turn σ :=
      match s.1.arrayStack with
      | top :: rest =>
        if (top.current : ℤ) ≥ top.count then
          emit h { s.1 with arrayStack := rest } s.2 .arrayComplete
        else .ok s
      | [] => .ok s
    r.bind fun t =>
      (emit h t.1 t.2 .complete).map fun v => (if h.resets t.2 then v.1.reset else v.1, v.2)

/- `ret` is none for -1. -/
structure Executed (σ : Type*) where
  ret : Option ℕ
  p : Parser
  u : σ

/-- vox_redis_parser_execute (vox_redis_parser.c:208-723); `before` is the byte that the memory has
in front of `data`. -/
def execute (before : UInt8) (p : Parser) (u : σ) (data : Bytes) : Executed σ :=
  if data = [] then ⟨if p.hasError then none else some 0, p, u⟩
  else if p.hasError ∨ p.state = .errorState then ⟨none, p, u⟩
  else
    match passes (pass h grow) (data.length + 3) (p, u) (before :: data) with
    | .fail t => ⟨none, t.1, t.2⟩
    | .go t rest | .wait t rest =>
      match finish h t with
      | .error t => ⟨none, t.1, t.2⟩
      | .ok t => ⟨some (data.length + 1 - rest.length), t.1, t.2⟩

variable {h grow}

theorem execute_some {before : UInt8} {p : Parser} {u : σ} {data : Bytes} {n : ℕ}
    (hdata : data ≠ []) (hret : (execute h grow before p u data).ret = some n) :
    ∃ t rest v, (passes (pass h grow) (data.length + 3) (p, u) (before :: data) = .go t rest ∨
        passes (pass h grow) (data.length + 3) (p, u) (before :: data) = .wait t rest) ∧
      finish h t = .ok v ∧
      execute h grow before p u data = ⟨some (data.length + 1 - rest.length), v.1, v.2⟩ := by
  have hend {t : Parser × σ} {rest : Bytes}
      (hret : (match finish h t with
        | .error t => ⟨none, t.1, t.2⟩
        | .ok t => ⟨some (data.length + 1 - rest.length), t.1, t.2⟩ : Executed σ).ret = some n) :
      ∃ v, finish h t = .ok v := by
    cases hfinish : finish h t with
    | ok v => exact ⟨v, rfl⟩
    | error v =>
      rw [hfinish] at hret
      cases hret
  unfold execute at hret ⊢
  rw [if_neg hdata] at hret ⊢
  split at hret
  · cases hret
  · next hlive =>
    rw [if_neg hlive]
    cases hpasses : passes (pass h grow) (data.length + 3) (p, u) (before :: data) with
    | fail t =>
      rw [hpasses] at hret
      cases hret
    | go t rest =>
      rw [hpasses] at hret
      obtain ⟨v, hv⟩ := hend hret
      exact ⟨t, rest, v, .inl rfl, hv, by dsimp only; rw [hv]⟩
    | wait t rest =>
      rw [hpasses] at hret
      obtain ⟨v, hv⟩ := hend hret
      exact ⟨t, rest, v, .inr rfl, hv, by dsimp only; rw [hv]⟩

end

/-- vox_redis_parser_is_complete (vox_redis_parser.c:725-728). -/
def Parser.isComplete (p : Parser) : Bool := p.state = .complete

/-- vox_redis_parser_has_error (vox_redis_parser.c:730-733). -/
def Parser.failed (p : Parser) : Bool := p.hasError ∨ p.state = .errorState

/-- vox_redis_parser_get_error (vox_redis_parser.c:735-738). -/
def Parser.getError (p : Parser) : Option String := if p.hasError then p.errorMessage else none

def recorder : Handler (List Event) where
  on u e := (true, u ++ [e])

example : (execute recorder (fun _ => true) 0 (create none) [] (lit "$2\r\nhi\r\n")).u =
    [.bulkStringStart 2, .bulkStringData (lit "hi"), .bulkStringComplete, .complete] := by decide

end Voxlib.Redis
