import Voxlib.Lib.Decimal

/-!
# JSON (vox_json.c, vox_scanner.c)

A recursive descent over a scanner that skips white space behind every
character it gives out, and the serializer. Strings are views of the text that
was parsed: they stay as they are written between their quotes.
-/

namespace Voxlib.Json
open CStr Decimal

abbrev Number := Option ℚ

mutual

/-- vox_json_elem_t. -/
inductive Elem
  | null
  | boolean (value : Bool)
  | number (value : Number)
  | string (text : Bytes)
  | array (items : Items)
  | object (members : Members)

inductive Items
  | nil
  | cons (item : Elem) (rest : Items)

inductive Members
  | nil
  | cons (name : Bytes) (value : Elem) (rest : Members)

end

/-- What the library is given: if there is memory for an element, for a member, for so many digits
and for a text of so many bytes; strtod, with errno = ERANGE as the flag; and snprintf of "%.15g". -/
structure Env where
  elem : Bool
  member : Bool
  digits : ℕ → Bool
  grow : ℕ → Bool
  strtod : Bytes → Number × Bool
  printG : Number → Bytes

def isWhitespace (ch : UInt8) : Bool :=
  ch = 32 ∨ ch = 9 ∨ ch = 10 ∨ ch = 13 ∨ ch = 11 ∨ ch = 12

/- auto_skip with VOX_SCANNER_AUTOSKIP_WS_NL; the scanner is the bytes from curptr to its end. -/
def autoSkip (cur : Bytes) : Bytes := cur.dropWhile isWhitespace

/- vox_scanner_get_char (vox_scanner.c:307-319). -/
def getChar (cur : Bytes) : Bytes := autoSkip cur.tail

/- vox_scanner_skip (vox_scanner.c:414-428). -/
def skip (cur : Bytes) (count : ℕ) : Bytes := autoSkip (cur.drop count)

structure Err where
  message : String
  cur : Bytes

abbrev Result (α : Type) := Except Err (α × Bytes)

def fail {α : Type} (message : String) (cur : Bytes) : Result α := .error ⟨message, cur⟩

variable (env : Env)

def newElem {α : Type} (value : α) (cur : Bytes) : Result α :=
  if env.elem then .ok (value, cur) else fail "Memory allocation failed" cur

/-- parse_null (vox_json.c:51-80). -/
def parseNull (cur : Bytes) : Result Elem :=
  if cur.length < 4 then fail "Unexpected end of input while parsing null" cur
  else if cur.take 4 ≠ lit "null" then fail "Invalid null value" cur
  else newElem env .null (skip cur 4)

/-- parse_boolean (vox_json.c:83-116). -/
def parseBoolean (cur : Bytes) : Result Elem :=
  if ¬ env.elem then fail "Memory allocation failed" cur
  else if cur.take 4 = lit "true" then .ok (.boolean true, skip cur 4)
  else if cur.take 5 = lit "false" then .ok (.boolean false, skip cur 5)
  else fail "Invalid boolean value" cur

def isDigit (ch : UInt8) : Bool := 48 ≤ ch ∧ ch ≤ 57

def isDigitAt (ptr : Bytes) : Bool := ptr.head?.any isDigit

def scanInteger (ptr : Bytes) : Except String Bytes :=
  if ptr.head? = some 48 then .ok ptr.tail
  else if isDigitAt ptr then .ok (ptr.dropWhile isDigit)
  else .error "Invalid number format"

def scanFraction (ptr : Bytes) : Except String Bytes :=
  if ptr.head? = some 46 then
    if ¬ isDigitAt ptr.tail then
      .error "Invalid number format: missing digits after decimal point"
    else .ok (ptr.tail.dropWhile isDigit)
  else .ok ptr

def scanExponent (ptr : Bytes) : Except String Bytes :=
  if ptr.head? = some 101 ∨ ptr.head? = some 69 then
    let ptr := ptr.tail
    let ptr := if ptr.head? = some 43 ∨ ptr.head? = some 45 then ptr.tail else ptr
    if ¬ isDigitAt ptr then .error "Invalid number format: missing digits in exponent"
    else .ok (ptr.dropWhile isDigit)
  else .ok ptr

/- The end of the number that begins at `start` (vox_json.c:122-179). -/
def scanNumber (start : Bytes) : Except String Bytes := do
  let ptr ← scanInteger (if start.head? = some 45 then start.tail else start)
  let len := start.length - ptr.length
  if 1 ≤ len ∧ len ≤ 2 ∧ start[len - 1]? = some 48 ∧ isDigitAt ptr then
    .error "Leading zeros not allowed"
  else
    let ptr ← scanFraction ptr
    scanExponent ptr

/-- parse_number (vox_json.c:120-220). -/
def parseNumber (cur : Bytes) : Result Elem :=
  match scanNumber cur with
  | .error message => fail message cur
  | .ok ptr =>
    let len := cur.length - ptr.length
    if ¬ env.digits (len + 1) then fail "Memory allocation failed" cur
    else
      let (value, erange) := env.strtod (cur.take len)
      if erange then fail "Number overflow or underflow" cur
      else if value = none then fail "Number must be finite (no Inf/NaN)" cur
      else newElem env (.number value) (skip cur len)

def isxdigit (ch : UInt8) : Bool :=
  (48 ≤ ch ∧ ch ≤ 57) ∨ (65 ≤ ch ∧ ch ≤ 70) ∨ (97 ≤ ch ∧ ch ≤ 102)

/- The loop to the closing quote (vox_json.c:266-294): what is left from it on. -/
def scanChars : Bytes → Except String Bytes
  | [] => .ok []
  | ch :: ptr =>
    if ch = 34 then .ok (ch :: ptr)
    else if ch = 92 then
      match ptr with
      | [] => .error "Unterminated escape sequence"
      | escaped :: ptr =>
        if escaped = 117 then
          match ptr with
          | a :: b :: c :: d :: ptr =>
            if isxdigit a ∧ isxdigit b ∧ isxdigit c ∧ isxdigit d then scanChars ptr
            else .error "Invalid Unicode escape sequence"
          | _ => .error "Invalid Unicode escape sequence"
        else scanChars ptr
    else scanChars ptr

/-- parse_string (vox_json.c:254-327): the view of the contents. -/
def parseString (cur : Bytes) : Result Bytes :=
  if cur.head? ≠ some 34 then fail "Expected string to start with '\"'" cur
  else
    let start := getChar cur
    match scanChars start with
    | .error message => fail message start
    | .ok [] => fail "Unterminated string" start
    | .ok (ch :: ptr) =>
      let len := start.length - (ch :: ptr).length
      let cur := skip start len
      if cur.head? ≠ some 34 then fail "Expected string to end with '\"'" cur
      else newElem env (start.take len) (getChar cur)

mutual

/-- parse_value (vox_json.c:488-534) with parse_array and parse_object, at most `n` calls deep. -/
def parseValue : ℕ → Bytes → Except Err (Elem × Bytes)
  | 0, cur => fail "" cur
  | n + 1, cur =>
    match cur with
    | [] => fail "Unexpected end of input" cur
    | ch :: _ =>
      if ch = 110 then parseNull env cur
      else if ch = 116 ∨ ch = 102 then parseBoolean env cur
      else if ch = 45 ∨ isDigit ch then parseNumber env cur
      else if ch = 34 then do
        let (text, cur) ← parseString env cur
        return (.string text, cur)
      else if ch = 91 then
        let cur := getChar cur
        if ¬ env.elem then fail "Memory allocation failed" cur
        else if cur.head? = some 93 then .ok (.array .nil, getChar cur)
        else do
          let (items, cur) ← parseItems n cur
          return (.array items, cur)
      else if ch = 123 then
        let cur := getChar cur
        if ¬ env.elem then fail "Memory allocation failed" cur
        else if cur.head? = some 125 then .ok (.object .nil, getChar cur)
        else do
          let (members, cur) ← parseMembers n cur
          return (.object members, cur)
      else fail "Unexpected character" cur

/-- The loop over the elements of an array (vox_json.c:362-385). -/
def parseItems : ℕ → Bytes → Except Err (Items × Bytes)
  | 0, cur => fail "" cur
  | n + 1, cur => do
    let (item, cur) ← parseValue n cur
    if cur.head? = some 93 then return (.cons item .nil, getChar cur)
    else if cur.head? = some 44 then
      let (items, cur) ← parseItems n (getChar cur)
      return (.cons item items, cur)
    else fail "Expected ',' or ']' in array" cur

/-- The loop over the members of an object (vox_json.c:419-480). -/
def parseMembers : ℕ → Bytes → Except Err (Members × Bytes)
  | 0, cur => fail "" cur
  | n + 1, cur =>
    if cur.head? ≠ some 34 then fail "Expected object key to be a string" cur
    else do
      let (name, cur) ← parseString env cur
      if cur.head? ≠ some 58 then fail "Expected ':' after object key" cur
      else
        let (value, cur) ← parseValue n (getChar cur)
        if ¬ env.member then fail "Memory allocation failed" cur
        else if cur.head? = some 125 then return (.cons name value .nil, getChar cur)
        else if cur.head? = some 44 then
          let (members, cur) ← parseMembers n (getChar cur)
          return (.cons name value members, cur)
        else fail "Expected ',' or '\x7d' in object" cur

end

/-- vox_json_err_info_t. -/
structure ErrInfo where
  line : ℕ
  column : ℕ
  offset : ℕ
  message : String
  deriving DecidableEq

/- set_error (vox_json.c:23-48). -/
def setError (buffer : Bytes) (message : String) (cur : Bytes) : ErrInfo :=
  let offset := buffer.length - cur.length
  let before := buffer.take offset
  { line := 1 + before.count 10
    column := 1 + (before.reverse.takeWhile fun ch => ch ≠ 10).length
    offset := offset
    message := message }

/-- vox_json_parse (vox_json.c:537-577) on a text with its size: the element and the size it
returns, and the error information. -/
def jsonParse (buffer : Bytes) : Option (Elem × ℕ) × Option ErrInfo :=
  match parseValue env (2 * buffer.length + 2) (autoSkip buffer) with
  | .error e => (none, some (setError buffer e.message e.cur))
  | .ok (elem, cur) =>
    (some (elem, buffer.length - cur.length),
      if cur = [] then none
      else some (setError buffer "Unexpected content after JSON value" cur))

/- serialize_append_indent (vox_json.c:933-939). -/
def appendIndent (pretty : Bool) (indent : ℕ) : List Bytes :=
  if pretty then lit "\n" :: List.replicate indent (lit "  ") else []

def hexDigit (v : ℕ) : UInt8 := UInt8.ofNat (if v < 10 then 48 + v else 87 + v)

def escapeByte (c : UInt8) : Bytes :=
  if c = 34 then lit "\\\""
  else if c = 92 then lit "\\\\"
  else if c = 8 then lit "\\b"
  else if c = 12 then lit "\\f"
  else if c = 10 then lit "\\n"
  else if c = 13 then lit "\\r"
  else if c = 9 then lit "\\t"
  else if c < 32 then lit "\\u00" ++ [hexDigit (c.toNat / 16), hexDigit (c.toNat % 16)]
  else [c]

/- serialize_string_escaped (vox_json.c:942-972). -/
def serializeString (text : Bytes) : List Bytes := lit "\"" :: text.map escapeByte ++ [lit "\""]

def decimalInt (n : ℤ) : Bytes := if n < 0 then 45 :: decimal n.natAbs else decimal n.natAbs

/- A number (vox_json.c:988-1011); the digits of an int64_t always fit the buffer. -/
def serializeNumber (value : Number) : Bytes :=
  match value with
  | some q =>
    if -9007199254740991 ≤ q ∧ q ≤ 9007199254740991 ∧ q.den = 1 then decimalInt q.num
    else
      let num := env.printG value
      if 0 < num.length ∧ num.length < 64 then num else lit "0"
  | none =>
    let num := env.printG value
    if 0 < num.length ∧ num.length < 64 then num else lit "0"

mutual

/-- serialize_value (vox_json.c:976-1052): what the calls of serialize_append get. -/
def serializeValue (pretty : Bool) (indent : ℕ) : Elem → List Bytes
  | .null => [lit "null"]
  | .boolean value => [if value then lit "true" else lit "false"]
  | .number value => [serializeNumber env value]
  | .string text => serializeString text
  | .array items =>
    lit "[" :: serializeItems pretty (indent + if pretty then 1 else 0) true items ++
      ((match items with
        | .nil => []
        | .cons .. => appendIndent pretty indent) ++ [lit "]"])
  | .object members =>
    lit "\x7b" :: serializeMembers pretty (indent + if pretty then 1 else 0) true members ++
      ((match members with
        | .nil => []
        | .cons .. => appendIndent pretty indent) ++ [lit "\x7d"])

def serializeItems (pretty : Bool) (indent : ℕ) (first : Bool) : Items → List Bytes
  | .nil => []
  | .cons item rest =>
    (if first then [] else [lit ","]) ++ appendIndent pretty indent ++
      serializeValue pretty indent item ++ serializeItems pretty indent false rest

def serializeMembers (pretty : Bool) (indent : ℕ) (first : Bool) : Members → List Bytes
  | .nil => []
  | .cons name value rest =>
    (if first then [] else [lit ","]) ++ appendIndent pretty indent ++ serializeString name ++
      [if pretty then lit ": " else lit ":"] ++ serializeValue pretty indent value ++
      serializeMembers pretty indent false rest

end

/-- vox_json_to_string (vox_json.c:1054-1068). -/
def jsonToString (elem : Option Elem) (pretty : Bool) : Bytes :=
  appendAll env.grow <|
    match elem with
    | none => [lit "null"]
    | some elem => serializeValue env pretty 0 elem

end Voxlib.Json
