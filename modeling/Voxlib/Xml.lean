import Voxlib.Json
import Mathlib.Data.List.DropRight

/-!
# XML (vox_xml.c)

A recursive descent over a scanner without automatic skipping, and the printer.
Names, values and contents are views of the text as it stands; comments,
processing instructions and CDATA sections are skipped. Allocations succeed.

The printer counts what it has written and what remains, and compares the two:
a write is refused when the part already written is longer than what is left.
Each level returns the number of its bytes as an `int`.
-/

namespace Voxlib.Xml
open CStr Json

structure Attr where
  name : Bytes
  value : Bytes
  deriving DecidableEq

mutual

/-- vox_xml_node_t. -/
inductive Node
  | mk (name : Bytes) (attrs : List Attr) (content : Bytes) (children : Nodes)

inductive Nodes
  | nil
  | cons (child : Node) (rest : Nodes)

end

deriving instance DecidableEq for Node, Nodes

def Nodes.isEmpty : Nodes → Bool
  | .nil => true
  | .cons .. => false

/- vox_scanner_skip_ws (vox_scanner.c:446-456); the scanner is the bytes from curptr to its end. -/
def skipWhitespace (cur : Bytes) : Bytes := cur.dropWhile isWhitespace

def isAlpha (ch : UInt8) : Bool := 65 ≤ ch ∧ ch ≤ 90 ∨ 97 ≤ ch ∧ ch ≤ 122

def isNameStart (ch : UInt8) : Bool := isAlpha ch ∨ ch = 95 ∨ ch = 58

def isNameChar (ch : UInt8) : Bool :=
  isAlpha ch ∨ 48 ≤ ch ∧ ch ≤ 57 ∨ ch = 95 ∨ ch = 58 ∨ ch = 45 ∨ ch = 46

-- parse_name (vox_xml.c:50-85)
def parseName (cur : Bytes) : Except Err (Bytes × Bytes) :=
  match cur with
  | [] => fail "Unexpected end of input while parsing name" cur
  | ch :: rest =>
    if ¬ isNameStart ch then fail "Invalid name start character" cur
    else .ok (ch :: rest.takeWhile isNameChar, rest.dropWhile isNameChar)

/- The loop of parse_attr_value (vox_xml.c:101-131): the value and what is behind the closing
   quote. Inside an entity, up to its semicolon, quotes do not count. -/
def scanValue (quote : UInt8) : Bool → Bytes → Option (Bytes × Bytes)
  | _, [] => none
  | false, ch :: rest =>
    if ch = quote then some ([], rest)
    else (scanValue quote (ch = 38) rest).map fun r => (ch :: r.1, r.2)
  | true, ch :: rest => (scanValue quote (ch ≠ 59) rest).map fun r => (ch :: r.1, r.2)

-- parse_attr_value (vox_xml.c:88-144)
def parseAttrValue (cur : Bytes) : Except Err (Bytes × Bytes) :=
  let cur := skipWhitespace cur
  match cur with
  | [] => fail "Expected quote character for attribute value" cur
  | quote :: rest =>
    if quote ≠ 34 ∧ quote ≠ 39 then fail "Expected quote character for attribute value" cur
    else
      match scanValue quote false rest with
      | some r => .ok r
      | none => fail "Unterminated attribute value" []

-- parse_attr (vox_xml.c:147-183)
def parseAttr (cur : Bytes) : Except Err (Attr × Bytes) := do
  let (name, cur) ← parseName cur
  let cur := skipWhitespace cur
  if cur.head? ≠ some 61 then fail "Expected '=' after attribute name" cur
  else
    let (value, cur) ← parseAttrValue cur.tail
    return (⟨name, value⟩, cur)

-- skip_processing_instruction (vox_xml.c:186-210), behind `<?`
def skipProcessingInstruction : Bytes → Option Bytes
  | [] => none
  | ch :: rest =>
    if ch = 63 then
      match rest with
      | [] => none
      | next :: behind =>
        if next = 62 then some behind else skipProcessingInstruction (next :: behind)
    else skipProcessingInstruction rest

/- The loop of skip_comment and skip_cdata (vox_xml.c:213-270) up to two closing characters and
   '>'; `seen` says how many closing characters stand in front. Two of them without a '>' behind
   them are consumed, and the count starts again. -/
def skipClosing (closing : UInt8) : ℕ → Bytes → Option Bytes
  | _, [] => none
  | 2, ch :: rest =>
    if ch = 62 then some rest else skipClosing closing (if ch = closing then 1 else 0) rest
  | seen, ch :: rest => skipClosing closing (if ch = closing then seen + 1 else 0) rest

/-- skip_comment, behind `<!--`. -/
def skipComment (cur : Bytes) : Option Bytes := skipClosing 45 0 cur

/-- skip_cdata, behind `<![CDATA[`. -/
def skipCdata (cur : Bytes) : Option Bytes := skipClosing 93 0 cur

-- parse_text_content (vox_xml.c:273-298)
def parseTextContent (cur : Bytes) : Bytes × Bytes :=
  ((cur.takeWhile fun ch => ch ≠ 60).rdropWhile isWhitespace, cur.dropWhile fun ch => ch ≠ 60)

/- The attributes of a tag (vox_xml.c:332-355); every attribute takes at least one byte. -/
def parseAttrs : ℕ → Bytes → Except Err (List Attr × Bytes)
  | 0, cur => fail "" cur
  | n + 1, cur =>
    let cur := skipWhitespace cur
    match cur with
    | [] => .ok ([], cur)
    | ch :: _ =>
      if ch = 47 ∨ ch = 62 then .ok ([], cur)
      else do
        let (attr, cur) ← parseAttr cur
        let (attrs, cur) ← parseAttrs n cur
        return (attr :: attrs, cur)

/- The end tag behind `</` (vox_xml.c:397-428). -/
def parseEndTag (name : Bytes) (cur : Bytes) : Except Err (Unit × Bytes) := do
  let (endName, cur) ← parseName (skipWhitespace cur)
  if endName ≠ name then fail "Mismatched closing tag" cur
  else
    let cur := skipWhitespace cur
    if cur.head? ≠ some 62 then fail "Expected '>' after closing tag name" cur
    else return ((), cur.tail)

mutual

/-- parse_node (vox_xml.c:457-521). -/
def parseNode : ℕ → Bytes → Except Err (Node × Bytes)
  | 0, cur => fail "" cur
  | n + 1, cur =>
    let cur := skipWhitespace cur
    if cur = [] then fail "Unexpected end of input" cur
    else if cur.head? ≠ some 60 then fail "Expected '<' to start element" cur
    else if (cur.drop 1).head? = some 63 then
      match skipProcessingInstruction (cur.drop 2) with
      | some rest => parseNode n rest
      | none => fail "Unterminated processing instruction" []
    else if (cur.drop 1).take 3 = lit "!--" then
      match skipComment (cur.drop 4) with
      | some rest => parseNode n rest
      | none => fail "Unterminated comment" []
    else if (cur.drop 1).take 8 = lit "![CDATA[" then
      match skipCdata (cur.drop 9) with
      | some rest => parseNode n rest
      | none => fail "Unterminated CDATA section" []
    else parseElement n cur

/-- parse_element (vox_xml.c:305-454), with `<` at the scanner. -/
def parseElement : ℕ → Bytes → Except Err (Node × Bytes)
  | 0, cur => fail "" cur
  | n + 1, cur => do
    let (name, cur) ← parseName (skipWhitespace cur.tail)
    let (attrs, cur) ← parseAttrs (cur.length + 1) cur
    if cur.head? = some 47 then
      if cur.tail.head? ≠ some 62 then fail "Expected '>' after '/'" cur.tail
      else return (.mk name attrs [] .nil, cur.tail.tail)
    else if cur.head? ≠ some 62 then fail "Expected '>' or '/>' after tag name" cur
    else
      let ((content, children), cur) ← parseContent n name [] cur.tail
      return (.mk name attrs content children, cur)

/-- The loop over children and text (vox_xml.c:380-451): the first text that is not empty, and
the children from here on. -/
def parseContent : ℕ → Bytes → Bytes → Bytes → Except Err ((Bytes × Nodes) × Bytes)
  | 0, _, _, cur => fail "" cur
  | n + 1, name, content, cur =>
    if cur = [] then .ok ((content, .nil), cur)
    else
      let cur := skipWhitespace cur
      if cur = [] then fail "Unexpected end of input" cur
      else if cur.head? = some 60 then
        if (cur.drop 1).head? = some 47 then do
          let (_, cur) ← parseEndTag name (cur.drop 2)
          return ((content, .nil), cur)
        else do
          let (child, cur) ← parseNode n cur
          let ((content, children), cur) ← parseContent n name content cur
          return ((content, .cons child children), cur)
      else
        let (text, cur) := parseTextContent cur
        parseContent n name (if content = [] then text else content) cur

end

/-- vox_xml_parse (vox_xml.c:526-560): the node and the size it returns, or the error information.
`buffer` holds `size` bytes and the NUL that the scanner asks for. -/
def xmlParse (buffer : Bytes) (size : ℕ) : Except ErrInfo (Node × ℕ) :=
  if 0 < size ∧ buffer[size]? ≠ some 0 then
    .error ⟨0, 0, 0, "Failed to initialize scanner"⟩
  else
    let text := buffer.take size
    match parseNode (3 * text.length + 3) text with
    | .error e => .error (setError text e.message e.cur)
    | .ok (root, cur) => .ok (root, text.length - cur.length)

def escapeByte (c : UInt8) : Bytes :=
  if c = 60 then lit "&lt;"
  else if c = 62 then lit "&gt;"
  else if c = 38 then lit "&amp;"
  else if c = 34 then lit "&quot;"
  else if c = 39 then lit "&apos;"
  else [c]

/- escape_xml (vox_xml.c:890-941) from `written` bytes on. -/
def escapeXml (dstSize : ℕ) : ℕ → Bytes → Option Bytes
  | _, [] => some []
  | written, c :: src =>
    if written + (escapeByte c).length ≤ dstSize then
      (escapeXml dstSize (written + (escapeByte c).length) src).map (escapeByte c ++ ·)
    else none

structure Out where
  bytes : Bytes
  remaining : ℕ

/- A write with its check `written + len <= remaining`. -/
def Out.put (o : Out) (text : Bytes) : Option Out :=
  if o.bytes.length + text.length ≤ o.remaining then
    some ⟨o.bytes ++ text, o.remaining - text.length⟩
  else none

def Out.putEscaped (o : Out) (text : Bytes) : Option Out :=
  (escapeXml o.remaining 0 text).map fun escaped =>
    ⟨o.bytes ++ escaped, o.remaining - escaped.length⟩

/- An attribute (vox_xml.c:968-1010). -/
def printAttr (o : Out) (attr : Attr) : Option Out := do
  let o ← o.put (lit " ")
  let o ← o.put attr.name
  let o ← o.put (lit "=")
  let o ← o.put (lit "\"")
  let o ← o.putEscaped attr.value
  o.put (lit "\"")

mutual

/-- print_node_recursive (vox_xml.c:944-1093) with `size` bytes of buffer. -/
def printNode (size : ℕ) : Node → Option Out
  | .mk name attrs content children => do
    let o ← Out.put ⟨[], size⟩ (lit "<")
    let o ← o.put name
    let o ← attrs.foldlM printAttr o
    if children.isEmpty ∧ content = [] then
      let o ← o.put (lit "/")
      o.put (lit ">")
    else
      let o ← o.put (lit ">")
      let o ← o.putEscaped content
      let o ← printNodes o children
      let o ← o.put (lit "<")
      let o ← o.put (lit "/")
      let o ← o.put name
      o.put (lit ">")

/-- The loop over the children (vox_xml.c:1050-1062): the `int` that a child returns says how far
its parent goes on. -/
def printNodes (o : Out) : Nodes → Option Out
  | .nil => some o
  | .cons child rest => do
    let c ← printNode o.remaining child
    let childWritten := toInt c.bytes.length
    if childWritten < 0 then none
    else printNodes ⟨o.bytes ++ c.bytes.take childWritten.toNat, c.remaining⟩ rest

end

def prologStr : Bytes := lit "<?xml version=\"1.0\"?>"

/-- vox_xml_print (vox_xml.c:1095-1126): the returned `int` and the printed bytes. -/
def xmlPrint (node : Node) (size : ℕ) (prolog : Bool) : Written :=
  let prologText := if prolog then prologStr else []
  if size < prologText.length then ⟨-1, []⟩
  else
    match printNode (size - prologText.length) node with
    | none => ⟨-1, []⟩
    | some o =>
      let nodeWritten := toInt o.bytes.length
      if nodeWritten < 0 then ⟨-1, []⟩
      else
        let printed := prologText ++ o.bytes.take nodeWritten.toNat
        ⟨toInt printed.length, printed⟩

end Voxlib.Xml
