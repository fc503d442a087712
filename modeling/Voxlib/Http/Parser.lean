import Voxlib.Lib.CStr

/-!
# The HTTP parser (vox_http_parser.c)

The scanner is the view of the bytes that are not read yet. A parse function
returns what the callbacks were given, in order, besides the new state. All
callbacks are set; `cb` gives their results. `alloc` says for which sizes
`vox_mpool_alloc` succeeds. The buffer holds `buf` from the offset `off` on.
-/

namespace Voxlib.HttpParser
open CStr

inductive Phase where
  | init | startLine | headerName | headerValue | headersDone | body
  | chunkSize | chunkData | chunkEnd | messageComplete | error
  deriving DecidableEq, Repr

inductive Method where
  | unknown | get | head | post | put | delete | connect | options | trace | patch
  deriving DecidableEq, Repr

inductive ParserType where
  | both | request | response
  deriving DecidableEq, Repr

/- 0 stands for no limit. -/
structure Config where
  type : ParserType := .both
  maxHeaderSize : ℕ := 0
  maxHeaders : ℕ := 0
  maxUrlSize : ℕ := 0

inductive Event where
  | messageBegin
  | url (data : Bytes)
  | status (data : Bytes)
  | headerField (data : Bytes)
  | headerValue (data : Bytes)
  | headersComplete
  | body (data : Bytes)
  | messageComplete
  | error (msg : String)
  deriving DecidableEq, Repr

/- The fields of struct vox_http_parser apart from the buffer. -/
structure Core where
  phase : Phase := .init
  complete : Bool := false
  hasError : Bool := false
  errorMsg : String := ""
  method : Method := .unknown
  httpMajor : ℤ := 0
  httpMinor : ℤ := 0
  statusCode : ℕ := 0
  contentLength : ℕ := 0
  bodyRead : ℕ := 0
  chunked : Bool := false
  chunkRemaining : ℕ := 0
  connectionClose : Bool := false
  connectionKeepalive : Bool := false
  upgrade : Bool := false
  headerCount : ℕ := 0
  deriving DecidableEq, Repr

-- set_error (vox_http_parser.c:85-96); every message is shorter than the buffer
def setError (c : Core) (msg : String) : Core :=
  { c with hasError := true, phase := .error, errorMsg := msg }

def isBlank (b : UInt8) : Bool := b = 32 ∨ b = 9

def isDigit (b : UInt8) : Bool := 48 ≤ b ∧ b ≤ 57

def skipBlanks (v : Bytes) : Bytes := v.dropWhile isBlank

def cutBlanks (v : Bytes) : Bytes := (v.reverse.dropWhile isBlank).reverse

def digitValue (b : UInt8) : ℤ := (if b < 128 then (b.toNat : ℤ) else b.toNat - 256) - 48

def crlf : Bytes := [13, 10]

/- peek_line (vox_http_parser.c:288-294) and the matching get: the bytes before
   the first CRLF and those behind it. -/
def splitLine : Bytes → Option (Bytes × Bytes)
  | [] => none
  | [_] => none
  | a :: b :: rest =>
    if a = 13 ∧ b = 10 then some ([], rest)
    else (splitLine (b :: rest)).map fun p => (a :: p.1, p.2)

structure Out where
  ok : Bool
  core : Core
  events : List Event

def failWith (c : Core) (events : List Event) (msg : String) : Out := ⟨false, setError c msg, events⟩

def dataEvent (e : Bytes → Event) (data : Bytes) : List Event :=
  if data.length = 0 then [] else [e data]

def methodNames : List (Bytes × Method) :=
  [(lit "GET", .get), (lit "HEAD", .head), (lit "POST", .post), (lit "PUT", .put),
    (lit "DELETE", .delete), (lit "CONNECT", .connect), (lit "OPTIONS", .options),
    (lit "TRACE", .trace), (lit "PATCH", .patch)]

-- parse_method (vox_http_parser.c:76-83)
def parseMethod (name : Bytes) : Method :=
  match methodNames.find? (fun n => name.length = n.1.length ∧ strncmp name n.1 n.1.length) with
  | some n => n.2
  | none => .unknown

def unsupported (c : Core) : Bool := c.httpMajor ≠ 1 ∨ (c.httpMinor ≠ 0 ∧ c.httpMinor ≠ 1)

def looksLikeResponse (line : Bytes) : Bool := line.length ≥ 5 ∧ line.take 5 = lit "HTTP/"

-- the first branch of parse_start_line (vox_http_parser.c:304-338)
def parseStatusLine (c : Core) (line : Bytes) : Out :=
  if line.length < 12 then failWith c [] "invalid response line"
  else if line.getD 6 0 ≠ 46 ∨ line.length < 9 then failWith c [] "invalid HTTP version"
  else
    let c₁ := { c with
      httpMajor := digitValue (line.getD 5 0)
      httpMinor := digitValue (line.getD 7 0) }
    if unsupported c₁ then failWith c₁ [] "unsupported HTTP version"
    else
      let rest := (line.drop 9).dropWhile (fun b => b = 32)
      if rest.length < 3 then failWith c₁ [] "missing status code"
      else
        let digits := (rest.take 3).takeWhile isDigit
        if digits.length = 0 then failWith c₁ [] "invalid status code"
        else
          let code := digits.foldl (fun n b => n * 10 + (b.toNat - 48)) 0
          let reason := (rest.drop digits.length).dropWhile (fun b => b = 32)
          ⟨true, { c₁ with statusCode := code }, dataEvent .status reason⟩

-- the second branch (vox_http_parser.c:339-383)
def parseRequestLine (cfg : Config) (c : Core) (line : Bytes) : Out :=
  let name := line.takeWhile (fun b => b ≠ 32)
  if name.length = 0 ∨ name.length ≥ line.length then failWith c [] "invalid request line"
  else
    let c₁ := { c with method := parseMethod name }
    let left := (line.drop name.length).dropWhile (fun b => b = 32)
    if left.length = 0 then failWith c₁ [] "missing URL"
    else
      let url := left.takeWhile (fun b => b ≠ 32)
      if url.length = 0 then failWith c₁ [] "missing URL"
      else if cfg.maxUrlSize ≠ 0 ∧ url.length > cfg.maxUrlSize then failWith c₁ [] "URL too long"
      else
        let version := (left.drop url.length).dropWhile (fun b => b = 32)
        if version.length < 8 ∨ version.take 5 ≠ lit "HTTP/" then
          failWith c₁ [.url url] "invalid HTTP version"
        else if version.getD 6 0 ≠ 46 then failWith c₁ [.url url] "invalid HTTP version"
        else
          let c₂ := { c₁ with
            httpMajor := digitValue (version.getD 5 0)
            httpMinor := digitValue (version.getD 7 0) }
          if unsupported c₂ then failWith c₂ [.url url] "unsupported HTTP version"
          else ⟨true, c₂, [.url url]⟩

-- parse_start_line (vox_http_parser.c:296-387) on a complete line
def parseStartLine (cfg : Config) (c : Core) (line : Bytes) : Out :=
  if line.length = 0 then failWith c [] "empty start line"
  else if cfg.type = .response ∨ looksLikeResponse line then parseStatusLine c line
  else parseRequestLine cfg c line

-- header_name_is (vox_http_parser.c:194-198)
def headerNameIs (name known : Bytes) : Bool :=
  name.length = known.length ∧ strncasecmp name known known.length

-- header_value_is_chunked (vox_http_parser.c:187-192)
def headerValueIsChunked (value : Bytes) : Bool :=
  let v := cutBlanks (skipBlanks value)
  v.length = 7 ∧ strncasecmp v (lit "chunked") 7

/- The digits of parse_content_length (vox_http_parser.c:201-212); the sum wraps
   and is compared with the sum before. -/
def decimalLoop : Bytes → ℕ → Option ℕ
  | [], out => some out
  | b :: rest, out =>
    if isDigit b then
      let next := (out * 10 + (b.toNat - 48)) % 2 ^ 64
      if next < out then none else decimalLoop rest next
    else none

-- parse_content_length (vox_http_parser.c:201-212)
def parseContentLength (value : Bytes) : Option ℕ :=
  let v := skipBlanks value
  if v.length = 0 then none else decimalLoop v 0

def hexDigit (b : UInt8) : Option ℕ :=
  if 48 ≤ b ∧ b ≤ 57 then some (b.toNat - 48)
  else if 97 ≤ b ∧ b ≤ 102 then some (b.toNat - 97 + 10)
  else if 65 ≤ b ∧ b ≤ 70 then some (b.toNat - 65 + 10)
  else none

def hexLoop : Bytes → ℕ → Option ℕ
  | [], out => some out
  | b :: rest, out =>
    match hexDigit b with
    | none => none
    | some digit =>
      if out > (2 ^ 64 - 1) >>> 4 then none
      else
        let next := ((out <<< 4) % 2 ^ 64 + digit) % 2 ^ 64
        if next < out then none else hexLoop rest next

-- parse_chunk_size (vox_http_parser.c:215-233)
def parseChunkSize (line : Bytes) : Option ℕ :=
  let v := skipBlanks line
  if v.length = 0 then none else hexLoop v 0

/- The tokens of a Connection header (vox_http_parser.c:263-275). -/
def connectionTokens : ℕ → Core → Bytes → Core
  | 0, c, _ => c
  | fuel + 1, c, value =>
    if value.length = 0 then c
    else
      let v := value.dropWhile (fun b => isBlank b ∨ b = 44)
      if v.length ≥ 5 ∧ strncasecmp v (lit "close") 5 then
        connectionTokens fuel { c with connectionClose := true } (v.drop 5)
      else if v.length ≥ 10 ∧ strncasecmp v (lit "keep-alive") 10 then
        connectionTokens fuel { c with connectionKeepalive := true } (v.drop 10)
      else c

/- The Content-Length branch of apply_header (vox_http_parser.c:238-258). -/
def applyContentLength (c : Core) (value : Bytes) : Bool × Core :=
  let v := skipBlanks value
  if v.length = 0 then (true, c)
  else if v.headD 0 = 45 then (false, setError c "invalid Content-Length")
  else if v.all isDigit = false then (false, setError c "invalid Content-Length")
  else
    match parseContentLength value with
    | none => (false, setError c "invalid Content-Length")
    | some n => (true, { c with contentLength := n })

-- apply_header (vox_http_parser.c:236-280)
def applyHeader (c : Core) (name value : Bytes) : Bool × Core :=
  if headerNameIs name (lit "Content-Length") then applyContentLength c value
  else if headerNameIs name (lit "Transfer-Encoding") then
    (true, if headerValueIsChunked value then { c with chunked := true } else c)
  else if headerNameIs name (lit "Connection") then
    (true, connectionTokens value.length c value)
  else if headerNameIs name (lit "Upgrade") then (true, { c with upgrade := true })
  else (true, c)

/- The local variables of parse_headers: the field, and the value as the first
   `len` of the bytes `raw` that were read from its start. -/
structure Header where
  field : Bytes
  raw : Bytes
  len : ℕ
  deriving DecidableEq, Repr

def Header.value (h : Header) : Bytes := h.raw.take h.len

def Header.events (h : Header) : List Event :=
  dataEvent .headerField h.field ++ dataEvent .headerValue h.value

def newHeader (line : Bytes) : Option Header :=
  let name := line.takeWhile (fun b => b ≠ 58)
  if name.length = 0 ∨ name.length ≥ line.length then none
  else
    let value := skipBlanks (line.drop (name.length + 1))
    some ⟨cutBlanks (skipBlanks name), value ++ crlf, (cutBlanks value).length⟩

def Header.fold (h : Header) (line : Bytes) : Header :=
  { h with raw := h.raw ++ line ++ crlf, len := h.len + (1 + line.length) }

def commit (c : Core) (h : Header) : Out :=
  let r := applyHeader c h.field h.value
  ⟨r.1, r.2, h.events⟩

/- The last header is handed over when the next one starts. -/
def commitBefore (cfg : Config) (c : Core) : Option Header → Out
  | none => ⟨true, c, []⟩
  | some h =>
    let out := commit c h
    if out.ok = false then out
    else if cfg.maxHeaders ≠ 0 ∧ out.core.headerCount ≥ cfg.maxHeaders then
      failWith out.core out.events "too many headers"
    else { out with core := { out.core with headerCount := out.core.headerCount + 1 } }

/- With -2 the header in the local variables is dropped. -/
inductive HeadersResult where
  | more (c : Core) (events : List Event) (rest : Bytes) (dropped : Option Header)
  | fail (c : Core) (events : List Event)
  | done (c : Core) (events : List Event) (rest : Bytes)

def HeadersResult.prepend (events : List Event) : HeadersResult → HeadersResult
  | .more c es rest dropped => .more c (events ++ es) rest dropped
  | .fail c es => .fail c (events ++ es)
  | .done c es rest => .done c (events ++ es) rest

/- The loop of parse_headers (vox_http_parser.c:397-454). -/
def headersLoop (cfg : Config) : ℕ → Core → Option Header → Bytes → HeadersResult
  | 0, c, h, v => .more c [] v h
  | fuel + 1, c, h, v =>
    match splitLine v with
    | none => .more c [] v h
    | some (line, rest) =>
      if line.length = 0 then
        match h with
        | none => .done c [] rest
        | some hd =>
          let out := commit c hd
          if out.ok then .done out.core out.events rest else .fail out.core out.events
      else
        match h with
        | some hd =>
          if isBlank (line.headD 0) then
            (headersLoop cfg fuel c (some (hd.fold line)) rest).prepend
              (dataEvent .headerValue (cutBlanks line))
          else
            let out := commitBefore cfg c h
            if out.ok = false then .fail out.core out.events
            else
              match newHeader line with
              | none => .fail (setError out.core "invalid header line") out.events
              | some hd' => (headersLoop cfg fuel out.core (some hd') rest).prepend out.events
        | none =>
          match newHeader line with
          | none => .fail (setError c "invalid header line") []
          | some hd' => headersLoop cfg fuel c (some hd') rest

def parseHeaders (cfg : Config) (c : Core) (v : Bytes) : HeadersResult :=
  headersLoop cfg (v.length + 1) c none v

/- The result of do_parse. `dropped` is the header that was lost with -2; no
   function of the source knows it. -/
structure Result where
  code : ℤ
  core : Core
  events : List Event
  rest : Bytes
  dropped : Option Header := none

def Result.failed (c : Core) (events : List Event) : Result :=
  { code := -1, core := c, events := events, rest := [] }

def Result.more (c : Core) (events : List Event) (rest : Bytes) : Result :=
  { code := -2, core := c, events := events, rest := rest }

/- One pass of the loop of do_parse: it goes on, or the function returns. -/
inductive Pass where
  | next (c : Core) (events : List Event) (rest : Bytes)
  | stop (r : Result)

def finish (cb : Event → ℤ) (c : Core) (events : List Event) (rest : Bytes) : Pass :=
  let c₁ := { c with phase := .messageComplete, complete := true }
  let es := events ++ [.messageComplete]
  if cb .messageComplete ≠ 0 then .stop (.failed (setError c₁ "callback error") es)
  else .stop { code := 0, core := c₁, events := es, rest := rest }

def skipTrailers : ℕ → Bytes → Bytes
  | 0, v => v
  | fuel + 1, v =>
    match splitLine v with
    | none => v
    | some (line, rest) => if line.length > 0 then skipTrailers fuel rest else v

def passHeaders (cb : Event → ℤ) (cfg : Config) (c : Core) (v : Bytes) : Pass :=
  match parseHeaders cfg c v with
  | .more c' es rest dropped => .stop { Result.more c' es rest with dropped := dropped }
  | .fail c' es => .stop (.failed c' es)
  | .done c' es rest =>
    let es' := es ++ [.headersComplete]
    if cb .headersComplete ≠ 0 then .stop (.failed (setError c' "callback error") es')
    else if c'.chunked then .next { c' with phase := .chunkSize } es' rest
    else if c'.contentLength > 0 then .next { c' with phase := .body } es' rest
    else finish cb c' es' rest

def passBody (cb : Event → ℤ) (c : Core) (v : Bytes) : Pass :=
  let need := c.contentLength - c.bodyRead
  if need = 0 then finish cb c [] v
  else if v.length = 0 then .stop (.more c [] v)
  else
    let take := if need < v.length then need else v.length
    let seg := v.take take
    if cb (.body seg) ≠ 0 then .stop (.failed (setError c "callback error") [.body seg])
    else
      let c₁ := { c with bodyRead := c.bodyRead + seg.length }
      if c₁.bodyRead ≥ c₁.contentLength then finish cb c₁ [.body seg] (v.drop take)
      else .next c₁ [.body seg] (v.drop take)

def passChunkSize (cb : Event → ℤ) (c : Core) (v : Bytes) : Pass :=
  match splitLine v with
  | none => .stop (.more c [] v)
  | some (line, rest) =>
    match parseChunkSize line with
    | none => .stop (.failed (setError c "invalid chunk size") [])
    | some 0 =>
      let left := skipTrailers (rest.length + 1) rest
      finish cb { c with chunkRemaining := 0 } [] (if left.length ≥ 2 then left.drop 2 else left)
    | some n => .next { c with chunkRemaining := n, phase := .chunkData } [] rest

def passChunkData (cb : Event → ℤ) (c : Core) (v : Bytes) : Pass :=
  if c.chunkRemaining = 0 then .next { c with phase := .chunkEnd } [] v
  else if v.length = 0 then .stop (.more c [] v)
  else
    let take := if c.chunkRemaining < v.length then c.chunkRemaining else v.length
    let seg := v.take take
    if cb (.body seg) ≠ 0 then .stop (.failed (setError c "callback error") [.body seg])
    else
      let c₁ := { c with chunkRemaining := c.chunkRemaining - take }
      .next (if c₁.chunkRemaining = 0 then { c₁ with phase := .chunkEnd } else c₁) [.body seg]
        (v.drop take)

-- the loop body of do_parse (vox_http_parser.c:466-572)
def pass (cb : Event → ℤ) (cfg : Config) (c : Core) (v : Bytes) : Pass :=
  match c.phase with
  | .init =>
    if cb .messageBegin ≠ 0 then .stop (.failed (setError c "callback error") [.messageBegin])
    else .next { c with phase := .startLine } [.messageBegin] v
  | .startLine =>
    match splitLine v with
    | none => .stop (.more c [] v)
    | some (line, rest) =>
      let out := parseStartLine cfg c line
      if out.ok then .next { out.core with phase := .headerName, headerCount := 0 } out.events rest
      else .stop (.failed out.core out.events)
  | .headerName => passHeaders cb cfg c v
  | .headerValue => passHeaders cb cfg c v
  | .body => passBody cb c v
  | .chunkSize => passChunkSize cb c v
  | .chunkData => passChunkData cb c v
  | .chunkEnd =>
    if v.length < 2 then .stop (.more c [] v)
    else .next { c with phase := .chunkSize } [] (v.drop 2)
  | .headersDone => .stop { code := 0, core := c, events := [], rest := v }
  | .messageComplete => .stop { code := 0, core := c, events := [], rest := v }
  | .error => .stop { code := 0, core := c, events := [], rest := v }

def Result.prepend (events : List Event) (r : Result) : Result :=
  { r with events := events ++ r.events }

/- Passes until the function returns; `none` when they do not end. -/
def passes (cb : Event → ℤ) (cfg : Config) : ℕ → Core → Bytes → Option Result
  | 0, _, _ => none
  | fuel + 1, c, v =>
    match pass cb cfg c v with
    | .stop r => some r
    | .next c' es rest => (passes cb cfg fuel c' rest).map (Result.prepend es)

-- do_parse (vox_http_parser.c:458-577)
def doParse (cb : Event → ℤ) (cfg : Config) (c : Core) (v : Bytes) : Option Result :=
  if v.length = 0 then some (.more c [] v) else passes cb cfg (2 * v.length + 2) c v

structure Parser where
  core : Core := {}
  off : ℕ := 0
  cap : ℕ := 0
  buf : Bytes := []
  deriving DecidableEq, Repr

def bufInit : ℕ := 4096
def bufMax : ℕ := 1024 * 1024

-- compact_buf (vox_http_parser.c:151-155)
def compactBuf (p : Parser) : Parser :=
  if p.off = 0 ∨ p.buf.length = 0 then p else { p with off := 0 }

/- The loop that enlarges the capacity (vox_http_parser.c:168-173). -/
def growCap : ℕ → ℕ → ℕ → Option ℕ
  | 0, _, _ => none
  | fuel + 1, newCap, want =>
    if newCap < want then
      let next := newCap + (newCap >>> 1)
      if next ≤ newCap ∨ next > bufMax then none else growCap fuel next want
    else some newCap

-- ensure_buf (vox_http_parser.c:158-184); the flag is the result 0
def ensureBuf (alloc : ℕ → Bool) (p : Parser) (need : ℕ) : Bool × Parser :=
  if p.off + p.buf.length + need + 1 ≤ p.cap then (true, p)
  else
    let p₁ := if p.off > 0 then compactBuf p else p
    if p.off > 0 ∧ p₁.buf.length + need + 1 ≤ p₁.cap then (true, p₁)
    else
      let want := p₁.buf.length + need + 1
      match growCap (want + 1) (if p₁.cap = 0 then bufInit else p₁.cap) want with
      | none => (false, p₁)
      | some newCap =>
        if alloc newCap then (true, { p₁ with off := 0, cap := newCap }) else (false, p₁)

def sizeofScannerChunk : ℕ := 24

/- What is left of the buffer after `consumed` bytes (vox_http_parser.c:656-661). -/
def advance (p : Parser) (rest : Bytes) (consumed : ℕ) : Parser :=
  if consumed > 0 then
    let p₁ := { p with off := p.off + consumed, buf := rest }
    if p₁.off ≥ 4096 ∨ (p₁.cap > 0 ∧ p₁.off > p₁.cap >>> 1) then compactBuf p₁ else p₁
  else p

/- vox_http_parser_execute (vox_http_parser.c:618-663): the result, the parser and
   what the callbacks were given. `none` when the piece is copied past the end of
   the buffer. -/
def execute (alloc : ℕ → Bool) (cb : Event → ℤ) (cfg : Config) (p : Parser) (data : Bytes) :
    Option (ℤ × Parser × List Event) :=
  if p.core.hasError ∨ p.core.phase = .error then some (-1, p, [])
  else if data.length = 0 then some (0, p, [])
  else
    match ensureBuf alloc p data.length with
    | (false, p₁) =>
      some (-1, { p₁ with core := setError p₁.core "buffer alloc failed" },
        [.error "buffer alloc failed"])
    | (true, p₁) =>
      if p₁.off + p₁.buf.length + data.length + 1 > p₁.cap then none
      else
        let p₂ := { p₁ with buf := p₁.buf ++ data }
        if alloc sizeofScannerChunk = false then
          some (-1, { p₂ with core := setError p₂.core "stream feed failed" }, [])
        else
          match doParse cb cfg p₂.core p₂.buf with
          | none => none
          | some r =>
            let consumed := p₂.buf.length - r.rest.length
            if r.code = -1 then
              some (-1, { p₂ with core := r.core }, r.events ++ [.error r.core.errorMsg])
            else if r.code = -2 ∧ consumed = 0 then
              if cfg.maxHeaderSize ≠ 0 ∧ p₂.buf.length ≥ cfg.maxHeaderSize then
                some (-1, { p₂ with core := setError r.core "header too large" },
                  r.events ++ [.error "header too large"])
              else some (0, { p₂ with core := { r.core with phase := .init } }, r.events)
            else some (consumed, advance { p₂ with core := r.core } r.rest consumed, r.events)

end Voxlib.HttpParser
