import Voxlib.Http.InBuffer

/-!
# The multipart parser (vox_http_multipart_parser.c)

The scanner is the view of the bytes that are not read yet, and the buffer is
handled as that of the HTTP parser. All callbacks are set; `cb` gives their
results. `alloc` says for which sizes `vox_mpool_alloc` succeeds. A function
returns what the callbacks were given, in order, besides the new state.
-/

namespace Voxlib.Multipart
open CStr
open HttpParser (splitLine crlf skipBlanks cutBlanks)
open InBuffer.Multipart (Phase Core setError)

/- 0 stands for no limit. -/
structure Config where
  maxHeaderSize : ℕ := 0
  maxHeaders : ℕ := 0
  maxFieldNameSize : ℕ := 0
  maxFilenameSize : ℕ := 0
  strictMode : Bool := false

inductive Event where
  | partBegin
  | headerField (data : Bytes)
  | headerValue (data : Bytes)
  | name (data : Bytes)
  | filename (data : Bytes)
  | headersComplete
  | partData (data : Bytes)
  | partComplete
  | complete
  | error (msg : String)
  deriving DecidableEq, Repr

def firstDelim (boundary : Bytes) : Bytes := lit "--" ++ boundary ++ crlf

def firstEndDelim (boundary : Bytes) : Bytes := lit "--" ++ boundary ++ lit "--" ++ crlf

def endDelim (boundary : Bytes) : Bytes := crlf ++ lit "--" ++ boundary ++ lit "--" ++ crlf

def maxDelimLen (boundary : Bytes) : ℕ := (endDelim boundary).length

/- The bytes up to the quote, where a backslash takes the next one along, and
   those from the quote on (vox_http_multipart_parser.c:145-151). -/
def quoted : Bytes → Bytes × Bytes
  | [] => ([], [])
  | [b] => if b = 34 then ([], [b]) else ([b], [])
  | b :: x :: rest =>
    if b = 34 then ([], b :: x :: rest)
    else if b = 92 then (b :: x :: (quoted rest).1, (quoted rest).2)
    else (b :: (quoted (x :: rest)).1, (quoted (x :: rest)).2)

/- The callback for one parameter (vox_http_multipart_parser.c:157-163). -/
def parameterEvents (cfg : Config) (key value : Bytes) : List Event :=
  if key.length = 4 ∧ strncasecmp key (lit "name") 4 ∧ 0 < value.length then
    if cfg.maxFieldNameSize = 0 ∨ value.length ≤ cfg.maxFieldNameSize then [.name value] else []
  else if key.length = 8 ∧ strncasecmp key (lit "filename") 8 ∧ 0 < value.length then
    if cfg.maxFilenameSize = 0 ∨ value.length ≤ cfg.maxFilenameSize then [.filename value] else []
  else []

-- parse_content_disposition (vox_http_multipart_parser.c:121-163); each round reads a byte
def contentDisposition (cfg : Config) : ℕ → Bytes → List Event
  | 0, _ => []
  | fuel + 1, value =>
    let v := value.dropWhile (fun b => b = 32 ∨ b = 9 ∨ b = 59)
    let key := v.takeWhile (fun b => b ≠ 61 ∧ b ≠ 59)
    match v.drop key.length with
    | [] => []
    | b :: rest =>
      if b ≠ 61 then contentDisposition cfg fuel (b :: rest)
      else
        match skipBlanks rest with
        | [] => []
        | q :: text =>
          if q = 34 then
            parameterEvents cfg key (quoted text).1 ++
              contentDisposition cfg fuel ((quoted text).2.drop 1)
          else
            let word := (q :: text).takeWhile (fun b => b ≠ 59 ∧ b ≠ 32 ∧ b ≠ 9)
            parameterEvents cfg key word ++
              contentDisposition cfg fuel ((q :: text).drop word.length)

inductive HeadersResult where
  | more (c : Core) (events : List Event) (rest : Bytes)
  | fail (c : Core) (events : List Event)
  | done (c : Core) (events : List Event) (rest : Bytes)

def HeadersResult.prepend (events : List Event) : HeadersResult → HeadersResult
  | .more c es rest => .more c (events ++ es) rest
  | .fail c es => .fail c (events ++ es)
  | .done c es rest => .done c (events ++ es) rest

/- The line behind the limits (vox_http_multipart_parser.c:207-248): the
   callbacks, and the message where it ends the loop. -/
def headerEvents (cb : Event → ℤ) (cfg : Config) (field value : Bytes) :
    List Event × Option String :=
  if cb (.headerField field) ≠ 0 then ([.headerField field], some "callback error")
  else if 0 < value.length ∧ cb (.headerValue value) ≠ 0 then
    ([.headerField field, .headerValue value], some "callback error")
  else
    ([.headerField field] ++ (if 0 < value.length then [.headerValue value] else []) ++
      (if 19 ≤ field.length ∧ strncasecmp field (lit "Content-Disposition") 19 then
        contentDisposition cfg (value.length + 1) value else []), none)

-- parse_part_headers (vox_http_multipart_parser.c:178-250)
def partHeaders (cb : Event → ℤ) (cfg : Config) : ℕ → Core → Bytes → HeadersResult
  | 0, c, v => .more c [] v
  | fuel + 1, c, v =>
    match splitLine v with
    | none => .more c [] v
    | some (line, rest) =>
      if line.length = 0 then
        if cb .headersComplete ≠ 0 then .fail (setError c "callback error") [.headersComplete]
        else .done c [.headersComplete] rest
      else if cfg.maxHeaderSize ≠ 0 ∧ c.headerSize + line.length + 2 > cfg.maxHeaderSize then
        .fail (setError c "header too large") []
      else if cfg.maxHeaders ≠ 0 ∧ c.headerCount ≥ cfg.maxHeaders then
        .fail (setError c "too many headers") []
      else
        let field := line.takeWhile (fun b => b ≠ 58)
        let c₁ := { c with headerSize := c.headerSize + (line.length + 2) }
        if field.length = 0 ∨ field.length ≥ line.length then
          if cfg.strictMode then .fail (setError c "invalid header line") []
          else partHeaders cb cfg fuel c₁ rest
        else
          let value := cutBlanks (skipBlanks (line.drop (field.length + 1)))
          match headerEvents cb cfg field value with
          | (es, some msg) => .fail (setError c msg) es
          | (es, none) =>
            (partHeaders cb cfg fuel { c₁ with headerCount := c₁.headerCount + 1 } rest).prepend es

/-- find_boundary_single_pass (vox_http_multipart_parser.c:257-295) from the position `pos`, behind
the byte `prev`: the length of the body, that of the boundary, and if it is the last one. -/
def findBoundary (boundary : Bytes) : Option UInt8 → ℕ → Bytes → Option (ℕ × ℕ × Bool)
  | _, _, [] => none
  | prev, pos, b :: rest =>
    if (b :: rest).length < 1 + 2 + boundary.length + 2 then none
    else if b ≠ 10 ∨ rest.take (2 + boundary.length) ≠ lit "--" ++ boundary then
      findBoundary boundary (some b) (pos + 1) rest
    else
      let prefixLen := if prev = some 13 then 2 else 1
      let tail := rest.drop (2 + boundary.length)
      if tail.take 2 = crlf then
        some (pos + 1 - prefixLen, prefixLen + (2 + boundary.length) + 2, false)
      else if tail.take 4 = lit "--" ++ crlf then
        some (pos + 1 - prefixLen, prefixLen + (2 + boundary.length) + 4, true)
      else findBoundary boundary (some b) (pos + 1) rest

structure Result where
  code : ℤ
  consumed : ℕ
  core : Core
  events : List Event

def Result.failed (c : Core) (events : List Event) (msg : String) : Result :=
  ⟨-1, 0, setError c msg, events⟩

def Result.prepend (events : List Event) (r : Result) : Result :=
  { r with events := events ++ r.events }

/- One pass of the loop of do_parse. `start` is what was left at start_offset. -/
inductive Pass where
  | next (start : ℕ) (c : Core) (events : List Event) (rest : Bytes)
  | stop (r : Result)

def calls (cb : Event → ℤ) : List Event → List Event × Bool
  | [] => ([], true)
  | e :: es => if cb e ≠ 0 then ([e], false) else (e :: (calls cb es).1, (calls cb es).2)

-- vox_http_multipart_parser.c:310-357
def passFirst (cb : Event → ℤ) (boundary : Bytes) (start : ℕ) (c : Core) (v : Bytes) : Pass :=
  let skipped := v.take 2 = crlf
  let start := if skipped then (v.drop 2).length else start
  let v := if skipped then v.drop 2 else v
  if v.take (firstEndDelim boundary).length = firstEndDelim boundary then
    if cb .complete ≠ 0 then .stop (.failed c [.complete] "callback error")
    else
      .stop ⟨0, start - (v.length - (firstEndDelim boundary).length),
        { c with phase := .complete, complete := true }, [.complete]⟩
  else if v.length < (firstDelim boundary).length then
    if v ≠ (firstDelim boundary).take v.length then .stop (.failed c [] "invalid first boundary")
    else .stop ⟨-2, start - v.length, c, []⟩
  else if v.take (firstDelim boundary).length ≠ firstDelim boundary then
    .stop (.failed c [] "invalid first boundary")
  else if cb .partBegin ≠ 0 then .stop (.failed c [.partBegin] "callback error")
  else
    .next start { c with phase := .partHeaders, headerCount := 0, headerSize := 0 } [.partBegin]
      (v.drop (firstDelim boundary).length)

/- With -2 the consumed bytes are counted from the headers on. -/
def passHeaders (cb : Event → ℤ) (cfg : Config) (start : ℕ) (c : Core) (v : Bytes) : Pass :=
  match partHeaders cb cfg (v.length + 1) c v with
  | .more c' es rest => .stop ⟨-2, v.length - rest.length, c', es⟩
  | .fail c' es => .stop ⟨-1, 0, c', es⟩
  | .done c' es rest => .next start { c' with phase := .partBody } es rest

-- vox_http_multipart_parser.c:366-432
def passBody (cb : Event → ℤ) (boundary : Bytes) (start : ℕ) (c : Core) (v : Bytes) : Pass :=
  match findBoundary boundary none 0 v with
  | none =>
    let safe := v.length - (maxDelimLen boundary - 1)
    if 0 < safe then
      if cb (.partData (v.take safe)) ≠ 0 then
        .stop (.failed c [.partData (v.take safe)] "callback error")
      else .stop ⟨-2, start - (v.length - safe), c, [.partData (v.take safe)]⟩
    else .stop ⟨-2, start - v.length, c, []⟩
  | some (bodyOff, skipLen, isEnd) =>
    let data := if 0 < bodyOff then [.partData (v.take bodyOff)] else []
    match calls cb (data ++ [.partComplete, if isEnd then .complete else .partBegin]) with
    | (es, false) => .stop (.failed c es "callback error")
    | (es, true) =>
      if isEnd then
        .stop ⟨0, start - (v.length - (bodyOff + skipLen)),
          { c with phase := .complete, complete := true }, es⟩
      else
        .next start { c with phase := .partHeaders, headerCount := 0, headerSize := 0 } es
          (v.drop (bodyOff + skipLen))

-- the loop body of do_parse (vox_http_multipart_parser.c:306-442)
def pass (cb : Event → ℤ) (cfg : Config) (boundary : Bytes) (start : ℕ) (c : Core) (v : Bytes) :
    Pass :=
  match c.phase with
  | .init => passFirst cb boundary start { c with phase := .firstBoundary } v
  | .firstBoundary => passFirst cb boundary start c v
  | .partHeaders => passHeaders cb cfg start c v
  | .partBody => passBody cb boundary start c v
  | .complete => .stop ⟨0, start - v.length, c, []⟩
  | .error => .stop ⟨0, start - v.length, c, []⟩

/- Passes until the function returns; `none` when they do not end. -/
def passes (cb : Event → ℤ) (cfg : Config) (boundary : Bytes) : ℕ → ℕ → Core → Bytes → Option Result
  | 0, _, _, _ => none
  | fuel + 1, start, c, v =>
    match pass cb cfg boundary start c v with
    | .stop r => some r
    | .next start' c' es rest =>
      (passes cb cfg boundary fuel start' c' rest).map (Result.prepend es)

-- do_parse (vox_http_multipart_parser.c:298-443)
def doParse (cb : Event → ℤ) (cfg : Config) (boundary : Bytes) (c : Core) (v : Bytes) :
    Option Result :=
  if v.length = 0 then some ⟨-2, 0, c, []⟩ else passes cb cfg boundary (v.length + 2) v.length c v

structure Parser where
  boundary : Bytes
  config : Config
  core : Core := {}
  off : ℕ := 0
  cap : ℕ := 0
  buf : Bytes := []
  boundary_ne : boundary ≠ []
  boundary_short : boundary.length ≤ 70

def sizeofParser : ℕ := 552

/- The blocks that vox_multipart_parser_create asks the pool for. -/
def createSizes (n : ℕ) : List ℕ :=
  [sizeofParser, n + 1, 2 + n + 2 + 1, 2 + 2 + n + 2 + 1, 2 + 2 + n + 2 + 2 + 1,
    1 + 2 + n + 2 + 1, 1 + 2 + n + 2 + 2 + 1, 2 + n + 2 + 2 + 1]

/-- vox_multipart_parser_create (vox_http_multipart_parser.c:447-599). -/
def create (alloc : ℕ → Bool) (boundary : Bytes) (config : Config) : Option Parser :=
  if h : boundary.length = 0 ∨ 70 < boundary.length then none
  else if (createSizes boundary.length).all alloc then
    some { boundary := boundary, config := config,
           boundary_ne := fun hnil => h (.inl (List.length_eq_zero_iff.mpr hnil)),
           boundary_short := Nat.not_lt.mp fun hlong => h (.inr hlong) }
  else none

def Parser.buffer (p : Parser) : HttpParser.Parser := { off := p.off, cap := p.cap, buf := p.buf }

def Parser.withBuffer (p : Parser) (b : HttpParser.Parser) : Parser :=
  { p with off := b.off, cap := b.cap, buf := b.buf }

def Parser.fail (p : Parser) (msg : String) : Parser := { p with core := setError p.core msg }

-- vox_multipart_parser_execute (vox_http_multipart_parser.c:618-667)
def execute (alloc : ℕ → Bool) (cb : Event → ℤ) (p : Parser) (data : Bytes) :
    Option (ℤ × Parser × List Event) :=
  if p.core.hasError ∨ p.core.phase = .error then some (-1, p, [])
  else if p.core.complete then some (0, p, [])
  else if data.length = 0 then some (0, p, [])
  else
    match HttpParser.ensureBuf alloc p.buffer data.length with
    | (false, b) =>
      some (-1, (p.withBuffer b).fail "buffer alloc failed", [.error "buffer alloc failed"])
    | (true, b) =>
      if b.off + b.buf.length + data.length + 1 > b.cap then none
      else
        let p := p.withBuffer { b with buf := b.buf ++ data }
        if alloc HttpParser.sizeofScannerChunk = false then
          some (-1, p.fail "stream feed failed", [.error "stream feed failed"])
        else
          match doParse cb p.config p.boundary p.core p.buf with
          | none => none
          | some r =>
            if r.code = -1 then
              some (-1, { p with core := r.core }, r.events ++ [.error r.core.errorMsg])
            else if r.code = -2 ∧ r.consumed = 0 ∧ p.config.maxHeaderSize ≠ 0 ∧
                r.core.headerSize ≥ p.config.maxHeaderSize then
              some (-1, { p with core := setError r.core "header too large" },
                r.events ++ [.error "header too large"])
            else
              let core := if r.code = -2 ∧ r.consumed = 0 ∧ r.core.phase = .firstBoundary then
                { r.core with phase := .init } else r.core
              some (r.consumed, { p with core := core }.withBuffer
                (HttpParser.advance p.buffer (p.buf.drop r.consumed) r.consumed), r.events)

end Voxlib.Multipart
