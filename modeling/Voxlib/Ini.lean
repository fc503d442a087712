import Voxlib.Json
import Mathlib.Data.List.DropRight

/-!
# INI files (vox_ini.c)

The parser goes over the text with a scanner that skips nothing by itself, and
the writer prints into a buffer that it enlarges before each section by an
estimate. Allocations succeed, so sizes stay far below the bound of a `size_t`.
-/

namespace Voxlib.Ini
open CStr Json

structure KeyValue where
  key : Bytes
  value : Bytes
  deriving DecidableEq

/-- vox_ini_section_t; the name is NULL for pairs in front of all headers. -/
structure Section where
  name : Option Bytes
  comment : Option Bytes
  keyvalues : List KeyValue
  deriving DecidableEq

/- vox_scanner_skip_ws (vox_scanner.c:446-456); the scanner is the bytes from curptr to its end. -/
def skipWs (cur : Bytes) : Bytes := cur.dropWhile isWhitespace

/- skip_to_eol (vox_ini.c:34-44): the bytes that it skips and the ones behind them. -/
def splitEol : Bytes → Bytes × Bytes
  | [] => ([], [])
  | ch :: rest =>
    if ch = 10 then ([ch], rest)
    else if ch = 13 then
      if rest.head? = some 10 then ([ch, 10], rest.tail) else ([ch], rest)
    else (ch :: (splitEol rest).1, (splitEol rest).2)

def trimEnd (text : Bytes) : Bytes := text.rdropWhile isWhitespace

/- A header behind `[` (vox_ini.c:104-131): the name and what is behind the line. -/
def parseHeader (cur : Bytes) : Bytes × Bytes :=
  let cur := skipWs cur
  let name := cur.takeWhile fun ch => ch ≠ 93 ∧ ch ≠ 10
  let cur := cur.dropWhile fun ch => ch ≠ 93 ∧ ch ≠ 10
  let cur := if cur.head? = some 93 then cur.tail else cur
  (trimEnd name, (splitEol cur).2)

/- A key and its value (vox_ini.c:133-153), or nothing; and what is behind the line. -/
def parsePair (cur : Bytes) : Option KeyValue × Bytes :=
  let key := cur.takeWhile fun ch => ch ≠ 61 ∧ ch ≠ 10
  let cur := cur.dropWhile fun ch => ch ≠ 61 ∧ ch ≠ 10
  if cur.head? = some 61 then
    let cur := cur.tail.dropWhile fun ch => ch = 32 ∨ ch = 9
    (some ⟨trimEnd key, trimEnd (splitEol cur).1⟩, (splitEol cur).2)
  else (none, (splitEol cur).2)

/-- The loop of vox_ini_parse (vox_ini.c:88-177) with the section that it is in and the comment
that waits for the next header: this section and those behind it. Every pass takes a byte. -/
def parseFrom : ℕ → Option Section → Option Bytes → Bytes → List Section
  | 0, current, _, _ => current.toList
  | n + 1, current, pending, cur =>
    let cur := skipWs cur
    match cur with
    | [] => current.toList
    | ch :: rest =>
      if ch = 59 ∨ ch = 35 then
        parseFrom n current (some (splitEol cur).1) (splitEol cur).2
      else if ch = 91 then
        let (name, cur) := parseHeader rest
        current.toList ++ parseFrom n (some ⟨some name, pending, []⟩) none cur
      else
        match parsePair cur with
        | (some kv, cur) =>
          let sec := current.getD ⟨none, none, []⟩
          parseFrom n (some { sec with keyvalues := sec.keyvalues ++ [kv] }) pending cur
        | (none, cur) => parseFrom n current pending cur

/-- vox_ini_parse (vox_ini.c:76-180). -/
def iniParse (text : Bytes) : List Section := parseFrom (text.length + 1) none none text

/-- The buffer of the writer: its capacity, the bytes up to `len`, and whether all writes so far
were inside of it. -/
structure Buf where
  capacity : ℕ
  bytes : Bytes
  within : Bool

/- `len += sprintf(buf + len, ...)` of this text, with the NUL that sprintf puts behind it. For a
   text of more than INT_MAX bytes sprintf has no count to return: it fails with a negative value,
   and what stands in the buffer then is not specified. -/
def Buf.sprintf (b : Buf) (text : Bytes) : Option Buf :=
  if text.length ≤ 2 ^ 31 - 1 then
    some ⟨b.capacity, b.bytes ++ text, b.within && b.bytes.length + text.length + 1 ≤ b.capacity⟩
  else none

def Buf.endLine (b : Buf) : Buf :=
  if b.bytes.getLast? = some 10 then b
  else ⟨b.capacity, b.bytes ++ [10], b.within && b.bytes.length + 1 ≤ b.capacity⟩

/- The doubling loop (vox_ini.c:291-292). -/
def doubleUntil (need : ℕ) : ℕ → ℕ → ℕ
  | 0, newCap => newCap
  | n + 1, newCap => if newCap ≤ need then doubleUntil need n (newCap * 2) else newCap

/- The capacity for so many bytes (vox_ini.c:290-301). -/
def Buf.grow (b : Buf) (needed : ℕ) : Buf :=
  if b.capacity ≤ b.bytes.length + needed then
    let need := b.bytes.length + needed
    { b with capacity := doubleUntil need need (b.capacity * 2) }
  else b

/- The estimate for a section (vox_ini.c:279-288). -/
def Section.needed (sec : Section) : ℕ :=
  (match sec.comment with | some comment => comment.length + 2 | none => 0) +
  (match sec.name with | some name => name.length + 4 | none => 0) +
  (sec.keyvalues.map fun kv => kv.key.length + kv.value.length + 4).sum + 2

/- "[%s]\n" and "%s=%s\n". -/
def header (name : Bytes) : Bytes := 91 :: (name ++ [93, 10])

def KeyValue.line (kv : KeyValue) : Bytes := kv.key ++ 61 :: (kv.value ++ [10])

def Buf.printComment (b : Buf) : Option Bytes → Option Buf
  | some comment => (b.sprintf comment).map Buf.endLine
  | none => some b

def Buf.printName (b : Buf) : Option Bytes → Option Buf
  | some name => b.sprintf (header name)
  | none => some b

/- One section (vox_ini.c:275-316). -/
def Buf.printSection (b : Buf) (sec : Section) : Option Buf := do
  let b ← (b.grow sec.needed).printComment sec.comment
  let b ← b.printName sec.name
  let b ← sec.keyvalues.foldlM (fun b kv => b.sprintf kv.line) b
  b.sprintf [10]

/-- vox_ini_to_string (vox_ini.c:263-319). -/
def iniToString (sections : List Section) : Option Buf :=
  (sections.foldlM Buf.printSection ⟨1024, [], true⟩).map fun b =>
    { b with within := b.within && b.bytes.length + 1 ≤ b.capacity }

end Voxlib.Ini
