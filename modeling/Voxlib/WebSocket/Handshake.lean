import Mathlib.Data.List.TakeWhile
import Voxlib.Crypto.Base64
import Voxlib.Crypto.Hash
import Voxlib.WebSocket.Messages

/-!
# The handshake of the WebSocket server (vox_websocket_server.c)
-/

namespace Voxlib.WebSocket.Server
open CStr Crypto List

def strstr (needle : Bytes) : Bytes → Option ℕ
  | [] => if needle = [] then some 0 else none
  | c :: cs => if needle.isPrefixOf (c :: cs) then some 0 else (strstr needle cs).map (· + 1)

def crlf : Bytes := [13, 10]

def endMark : Bytes := [13, 10, 13, 10]

def wsGuid : Bytes := lit "258EAFA5-E914-47DA-95CA-C5AB0DC85B11"

def isOws (c : UInt8) : Bool := c = 32 ∨ c = 9

def isEol (c : UInt8) : Bool := c = 13 ∨ c = 10

def skipEol (p : Bytes) : Bytes :=
  let p := if p.head? = some 13 then p.tail else p
  if p.head? = some 10 then p.tail else p

def getHeaderLoop (alloc : ℕ → Bool) (name : Bytes) : ℕ → Bytes → Option Bytes
  | 0, _ => none
  | n + 1, p =>
    if p = [] then none
    else
      let line := p.takeWhile fun c => !isEol c
      let next := skipEol (p.dropWhile fun c => !isEol c)
      if line.length > name.length + 1 ∧ strncasecmp p name name.length ∧
          p.getD name.length 0 = 58 then
        let value := (line.drop (name.length + 1)).dropWhile isOws
        if alloc (value.length + 1) then some (cstr value) else getHeaderLoop alloc name n next
      else getHeaderLoop alloc name n next

/-- ws_get_header (vox_websocket_server.c:285-326): a C string. -/
def getHeader (alloc : ℕ → Bool) (headers name : Bytes) : Option Bytes :=
  getHeaderLoop alloc name headers.length headers

/-- The check of the path, which is made if config.path is not empty
(vox_websocket_server.c:350-362). -/
def checkPath (path buf : Bytes) (endMarker : ℕ) : Bool :=
  if path = [] then true
  else if buf.length < 5 ∨ ¬ strncmp buf (lit "GET ") 4 then false
  else
    let found := ((buf.take endMarker).drop 4).takeWhile fun c => c ≠ 32 ∧ c ≠ 63 ∧ c ≠ 13
    if found.length ≠ path.length ∨
        (0 < found.length ∧ ¬ strncmp (buf.drop 4) path found.length) then false
    else true

def response (grow : ℕ → Bool) (accept : Bytes) : Bytes :=
  appendAll grow [lit "HTTP/1.1 101 Switching Protocols\r\n", lit "Upgrade: websocket\r\n",
    lit "Connection: Upgrade\r\n", lit "Sec-WebSocket-Accept: ", accept, lit "\r\n\r\n"]

/-- What the request in `buf` is answered with, if it is accepted
(vox_websocket_server.c:349-411); a string that can not hold even nothing can not be made. -/
def answer (mem : Memory) (path buf : Bytes) (endMarker : ℕ) : Option Bytes :=
  if ¬ checkPath path buf endMarker then none
  else do
    let key ← getHeader mem.alloc buf (lit "Sec-WebSocket-Key")
    let version ← getHeader mem.alloc buf (lit "Sec-WebSocket-Version")
    if version ≠ lit "13" then none
    else if ¬ mem.alloc (key.length + wsGuid.length) then none
    else
      let digest ← sha1 (key ++ wsGuid)
      let accept ← base64Encode digest 64
      if accept.length = 0 then none
      else if ¬ mem.grow 0 then none
      else some (response mem.grow accept)

def isPlain (c : UInt8) : Bool := c ≠ 0 ∧ c ≠ 13 ∧ c ≠ 10

/-- A header line: the name, a colon, blanks and the value. -/
structure HeaderLine where
  name : Bytes
  blanks : Bytes
  value : Bytes
  name_ok : ∀ c ∈ name, isPlain c = true ∧ c ≠ 58
  blanks_ok : ∀ c ∈ blanks, isOws c = true
  value_ok : ∀ c ∈ value, isPlain c = true
  value_front : value.head?.all (fun c => !isOws c) = true

def HeaderLine.line (h : HeaderLine) : Bytes := h.name ++ 58 :: (h.blanks ++ h.value)

def sameName (name : Bytes) (h : HeaderLine) : Bool := h.name.map lower = name.map lower

structure Request where
  target : Bytes
  headers : List HeaderLine
  target_ok : ∀ c ∈ target, isPlain c = true ∧ c ≠ 32

def Request.firstLine (r : Request) : Bytes := lit "GET " ++ r.target ++ lit " HTTP/1.1"

def text : List Bytes → Bytes
  | [] => crlf
  | line :: rest => line ++ (crlf ++ text rest)

def Request.bytes (r : Request) : Bytes := text (r.firstLine :: r.headers.map HeaderLine.line)

def headerValue (headers : List HeaderLine) (name : Bytes) : Option Bytes :=
  (headers.find? (sameName name)).map HeaderLine.value

/-- What the server looks at in an upgrade request: the path in front of the query, a key of the
24 characters that 16 bytes have in Base64, and the version. -/
structure Request.Upgrades (r : Request) (path : Bytes) : Prop where
  path : path = [] ∨ r.target.takeWhile (fun c => c ≠ 63) = path
  key : ∃ key, headerValue r.headers (lit "Sec-WebSocket-Key") = some key ∧ key.length = 24
  version : headerValue r.headers (lit "Sec-WebSocket-Version") = some (lit "13")

theorem strstr_plain (line s : Bytes) (h : ∀ c ∈ line, c ≠ 13) :
    strstr endMark (line ++ s) = (strstr endMark s).map (· + line.length) := by
  induction line with
  | nil => simp
  | cons c line ih =>
    have hc : ¬ endMark.isPrefixOf (c :: (line ++ s)) = true := by
      have hne := h c (mem_cons_self ..)
      simp [endMark, Ne.symm hne]
    rw [cons_append, strstr, if_neg hc, ih fun b hb => h b (mem_cons_of_mem _ hb),
      Option.map_map]
    rfl

theorem strstr_crlf (s : Bytes) (h : s.head? ≠ some 13) :
    strstr endMark (crlf ++ s) = (strstr endMark s).map (· + 2) := by
  have hfirst : ¬ endMark.isPrefixOf (13 :: 10 :: s) = true := by
    cases s with
    | nil => decide
    | cons c s =>
      have hc : 13 ≠ c := fun heq => h (by rw [heq]; rfl)
      simp [endMark, hc]
  have hsecond : ¬ endMark.isPrefixOf (10 :: s) = true := by simp [endMark]
  show strstr endMark (13 :: 10 :: s) = _
  rw [strstr, if_neg hfirst, strstr, if_neg hsecond, Option.map_map]
  rfl

theorem strstr_text (line : Bytes) (rest : List Bytes)
    (h : ∀ l ∈ line :: rest, l ≠ [] ∧ ∀ c ∈ l, c ≠ 13) :
    strstr endMark (text (line :: rest)) = some ((text (line :: rest)).length - 4) := by
  induction rest generalizing line with
  | nil =>
    rw [text, text, strstr_plain line _ (h line (mem_singleton_self _)).2]
    simp [strstr, endMark, crlf]
  | cons next rest ih =>
    obtain ⟨hnext, hplain⟩ := h next (by simp)
    have hhead : (text (next :: rest)).head? ≠ some 13 := by
      cases next with
      | nil => exact absurd rfl hnext
      | cons c next =>
        intro hc
        exact hplain c (mem_cons_self ..) (Option.some.inj hc)
    have hlong : 4 ≤ (text (next :: rest)).length := by
      have hpos := length_pos_of_ne_nil hnext
      have htail : 2 ≤ (text rest).length := by
        cases rest with
        | nil => decide
        | cons l rest =>
          simp only [text, length_append, crlf, length_cons, length_nil]
          omega
      simp only [text, length_append, crlf, length_cons, length_nil]
      omega
    rw [text, strstr_plain line _ (h line (mem_cons_self ..)).2, strstr_crlf _ hhead,
      ih next fun l hl => h l (mem_cons_of_mem _ hl)]
    simp only [Option.map_some, length_append, crlf, length_cons, length_nil,
      Option.some.injEq]
    omega

theorem strstr_append {s : Bytes} {i : ℕ} (h : strstr endMark s = some i) (x : Bytes) :
    strstr endMark (s ++ x) = some i ∧ i + 4 ≤ s.length := by
  induction s generalizing i with
  | nil => simp [strstr, endMark] at h
  | cons c s ih =>
    rw [strstr] at h
    split at h
    · next hhere =>
      obtain rfl : 0 = i := by simpa using h
      have hfront := List.isPrefixOf_iff_prefix.mp hhere
      have hmore : endMark.isPrefixOf (c :: (s ++ x)) = true :=
        List.isPrefixOf_iff_prefix.mpr (hfront.trans (prefix_append (c :: s) x))
      refine ⟨?_, by simpa [endMark] using hfront.length_le⟩
      rw [cons_append, strstr, if_pos hmore]
    · next hnot =>
      obtain ⟨j, hj, rfl⟩ := Option.map_eq_some_iff.mp h
      obtain ⟨hlater, hle⟩ := ih hj
      have hmore : ¬ endMark.isPrefixOf (c :: (s ++ x)) = true := by
        intro hhere
        have hfront := List.isPrefixOf_iff_prefix.mp hhere
        refine hnot (List.isPrefixOf_iff_prefix.mpr ?_)
        refine prefix_of_prefix_length_le hfront (prefix_append (c :: s) x) ?_
        simp only [endMark, length_cons, length_nil]
        omega
      refine ⟨?_, by simp only [length_cons]; omega⟩
      rw [cons_append, strstr, if_neg hmore, hlater]
      rfl

theorem not_eol_of_plain {c : UInt8} (h : isPlain c = true) : (!isEol c) = true := by
  simp only [isPlain, isEol, decide_eq_true_eq, Bool.not_eq_true', decide_eq_false_iff_not] at h ⊢
  tauto

theorem takeWhile_line (line s : Bytes) (h : ∀ c ∈ line, isPlain c = true) :
    (line ++ (crlf ++ s)).takeWhile (fun c => !isEol c) = line := by
  rw [takeWhile_append_of_pos fun c hc => not_eol_of_plain (h c hc)]
  show line ++ (13 :: 10 :: s).takeWhile _ = line
  rw [takeWhile_cons_of_neg (by decide), append_nil]

theorem skip_line (line s : Bytes) (h : ∀ c ∈ line, isPlain c = true) :
    skipEol ((line ++ (crlf ++ s)).dropWhile fun c => !isEol c) = s := by
  rw [dropWhile_append_of_pos fun c hc => not_eol_of_plain (h c hc)]
  show skipEol ((13 :: 10 :: s).dropWhile _) = s
  rw [dropWhile_cons_of_neg (by decide)]
  rfl

/-- The name in front of the colon decides if a line is the one that is looked for. -/
theorem line_matches (h : HeaderLine) (name s : Bytes) (hname : ∀ c ∈ name, c ≠ 0 ∧ lower c ≠ 58) :
    (strncasecmp (h.line ++ s) name name.length = true ∧ (h.line ++ s).getD name.length 0 = 58) ↔
      sameName name h = true := by
  have hcolon : h.line ++ s = h.name ++ 58 :: (h.blanks ++ h.value ++ s) := by
    simp [HeaderLine.line]
  have hcmp := strncmpBy_iff lower_eq_zero (h.line ++ s) name fun c hc => (hname c hc).1
  rw [show strncasecmp (h.line ++ s) name name.length = strncmpBy lower (h.line ++ s) name
    name.length from rfl, hcmp, hcolon, sameName, decide_eq_true_iff]
  constructor
  · rintro ⟨hsame, hat⟩
    rcases Nat.lt_trichotomy name.length h.name.length with hlt | heq | hgt
    · -- the colon would be in the name
      rw [getD_eq_getElem?_getD, List.getElem?_append_left hlt,
        List.getElem?_eq_getElem hlt] at hat
      exact absurd hat (h.name_ok _ (getElem_mem hlt)).2
    · rw [heq, take_left' rfl] at hsame
      exact hsame
    · -- the name that is looked for would have a colon
      have hget := congrArg (fun l => l[h.name.length]?) hsame
      simp only [List.getElem?_map, List.getElem?_take_of_lt hgt, List.getElem?_append_right
        (Nat.le_refl h.name.length), Nat.sub_self, List.getElem?_cons_zero,
        List.getElem?_eq_getElem hgt, Option.map_some, Option.some.injEq] at hget
      exact absurd hget.symm (hname _ (getElem_mem hgt)).2
  · intro hsame
    have hlen : h.name.length = name.length := by
      have := congrArg List.length hsame
      simpa using this
    refine ⟨?_, ?_⟩
    · rw [← hlen, take_left' rfl]
      exact hsame
    · rw [← hlen, getD_eq_getElem?_getD, List.getElem?_append_right (Nat.le_refl _)]
      simp

theorem getHeaderLoop_line (alloc : ℕ → Bool) (name line s : Bytes) (n : ℕ)
    (h : ∀ c ∈ line, isPlain c = true) : getHeaderLoop alloc name (n + 1) (line ++ (crlf ++ s)) =
      if line.length > name.length + 1 ∧ strncasecmp (line ++ (crlf ++ s)) name name.length ∧
          (line ++ (crlf ++ s)).getD name.length 0 = 58 then
        if alloc (((line.drop (name.length + 1)).dropWhile isOws).length + 1) then
          some (cstr ((line.drop (name.length + 1)).dropWhile isOws))
        else getHeaderLoop alloc name n s else getHeaderLoop alloc name n s := by
  have hne : line ++ (crlf ++ s) ≠ [] := by simp [crlf]
  rw [getHeaderLoop, if_neg hne]
  dsimp only
  rw [takeWhile_line line s h, skip_line line s h]

theorem HeaderLine.plain (h : HeaderLine) : ∀ c ∈ h.line, isPlain c = true := by
  have hows : ∀ c, isOws c = true → isPlain c = true := by
    intro c hc
    simp only [isOws, isPlain, decide_eq_true_eq] at hc ⊢
    rcases hc with rfl | rfl <;> decide
  intro c hc
  rcases mem_append.mp hc with hname | hrest
  · exact (h.name_ok c hname).1
  rcases mem_cons.mp hrest with rfl | hrest
  · decide
  rcases mem_append.mp hrest with hblank | hvalue
  · exact hows c (h.blanks_ok c hblank)
  · exact h.value_ok c hvalue

theorem cstr_eq {b : Bytes} (h : ∀ c ∈ b, c ≠ 0) : cstr b = b :=
  takeWhile_eq_self_iff.mpr fun c hc => decide_eq_true (h c hc)

theorem ne_zero_of_plain {c : UInt8} (h : isPlain c = true) : c ≠ 0 := by
  simp only [isPlain, decide_eq_true_eq] at h
  exact h.1

theorem value_of_line (h : HeaderLine) :
    (h.line.drop (h.name.length + 1)).dropWhile isOws = h.value := by
  have hcolon : h.line = (h.name ++ [58]) ++ (h.blanks ++ h.value) := by
    simp [HeaderLine.line]
  rw [hcolon, drop_left' (by simp), dropWhile_append_of_pos h.blanks_ok]
  cases hvalue : h.value with
  | nil => rfl
  | cons c value =>
    have hfront := h.value_front
    rw [hvalue] at hfront
    rw [dropWhile_cons_of_neg (by simpa using hfront)]

theorem getHeaderLoop_headers {alloc : ℕ → Bool} (halloc : ∀ n, alloc n = true) {name : Bytes}
    (hname : ∀ c ∈ name, c ≠ 0 ∧ lower c ≠ 58) {headers : List HeaderLine} {value : Bytes}
    (hvalue : headerValue headers name = some value) (hne : value ≠ []) (n : ℕ)
    (hn : headers.length ≤ n) :
    getHeaderLoop alloc name n (text (headers.map HeaderLine.line)) = some value := by
  induction headers generalizing n with
  | nil => simp [headerValue] at hvalue
  | cons h headers ih =>
    obtain ⟨m, rfl⟩ : ∃ m, n = m + 1 := ⟨n - 1, by simp only [length_cons] at hn; omega⟩
    have hmatch := line_matches h name (crlf ++ text (headers.map HeaderLine.line)) hname
    rw [map_cons, text, getHeaderLoop_line alloc name _ _ m h.plain]
    by_cases hsame : sameName name h = true
    · obtain rfl : h.value = value := by simpa [headerValue, hsame] using hvalue
      have hlen : name.length = h.name.length := by
        have := congrArg List.length (of_decide_eq_true hsame)
        simpa using this.symm
      have hlong : h.line.length > name.length + 1 := by
        have hpos := length_pos_of_ne_nil hne
        simp only [HeaderLine.line, length_append, length_cons]
        omega
      rw [if_pos ⟨hlong, hmatch.mpr hsame⟩, if_pos (halloc _), hlen, value_of_line,
        cstr_eq fun c hc => ne_zero_of_plain (h.value_ok c hc)]
    · have hrest : headerValue headers name = some value := by
        simpa [headerValue, hsame] using hvalue
      rw [if_neg fun hall => hsame (hmatch.mp hall.2)]
      exact ih hrest m (by simp only [length_cons] at hn; omega)

variable (lines : List Bytes)

theorem text_length : lines.length + 2 ≤ (text lines).length := by
  induction lines with
  | nil => decide
  | cons l lines ih =>
    simp only [text, length_append, crlf, length_cons, length_nil]
    omega

variable (r : Request)

theorem Request.firstLine_plain : ∀ c ∈ r.firstLine, isPlain c = true := by
  intro c hc
  rcases mem_append.mp hc with hc | hend
  · rcases mem_append.mp hc with hget | htarget
    · exact forall_mem_of_all (P := fun c => isPlain c = true) (by decide) c hget
    · exact (r.target_ok c htarget).1
  · exact forall_mem_of_all (P := fun c => isPlain c = true) (by decide) c hend

theorem getHeader_request {alloc : ℕ → Bool} (halloc : ∀ n, alloc n = true) (r : Request)
    {name value : Bytes} (hname : ∀ c ∈ name, c ≠ 0 ∧ lower c ≠ 58)
    (hfront : lower (name.headD 71) ≠ lower 71)
    (hvalue : headerValue r.headers name = some value) (hne : value ≠ []) :
    getHeader alloc r.bytes name = some value := by
  have hlen := text_length (r.firstLine :: r.headers.map HeaderLine.line)
  obtain ⟨n, hn⟩ : ∃ n, r.bytes.length = n + 1 := ⟨r.bytes.length - 1, by
    rw [Request.bytes]
    omega⟩
  have hfirst : ¬ strncasecmp (r.firstLine ++ (crlf ++ text (r.headers.map HeaderLine.line)))
      name name.length = true := by
    intro hcmp
    have hsame := (strncmpBy_iff lower_eq_zero _ name fun c hc => (hname c hc).1).mp hcmp
    cases name with
    | nil => exact hfront rfl
    | cons c name => exact hfront (List.cons.inj hsame).1.symm
  rw [getHeader, hn, Request.bytes, text,
    getHeaderLoop_line alloc name _ _ n r.firstLine_plain, if_neg fun hall => hfirst hall.2.1]
  refine getHeaderLoop_headers halloc hname hvalue hne n ?_
  rw [Request.bytes] at hn
  simp only [length_cons, length_map] at hlen
  omega

theorem Request.line_ok :
    ∀ l ∈ r.firstLine :: r.headers.map HeaderLine.line, l ≠ [] ∧ ∀ c ∈ l, c ≠ 13 := by
  have hplain (c : UInt8) (hc : isPlain c = true) : c ≠ 13 := by
    simp only [isPlain, decide_eq_true_eq] at hc
    exact hc.2.1
  intro l hl
  rcases mem_cons.mp hl with rfl | hl
  · exact ⟨by simp [Request.firstLine, lit], fun c hc => hplain c (r.firstLine_plain c hc)⟩
  · obtain ⟨h, -, rfl⟩ := mem_map.mp hl
    exact ⟨by simp [HeaderLine.line], fun c hc => hplain c (h.plain c hc)⟩

theorem Request.endMarker :
    strstr endMark r.bytes = some (r.bytes.length - 4) := strstr_text _ _ r.line_ok

theorem path_of_target (target s : Bytes) (h : ∀ c ∈ target, isPlain c = true ∧ c ≠ 32) :
    (target ++ 32 :: s).takeWhile (fun c => c ≠ 32 ∧ c ≠ 63 ∧ c ≠ 13) =
      target.takeWhile fun c => c ≠ 63 := by
  induction target with
  | nil => rfl
  | cons c target ih =>
    obtain ⟨hplain, hblank⟩ := h c (mem_cons_self ..)
    simp only [isPlain, decide_eq_true_eq] at hplain
    rw [cons_append, takeWhile_cons, takeWhile_cons,
      ih fun b hb => h b (mem_cons_of_mem _ hb)]
    by_cases hquery : c = 63
    · simp [hquery]
    · simp [hquery, hblank, hplain.2.1]

theorem text_end : ∃ front, text lines = front ++ crlf := by
  induction lines with
  | nil => exact ⟨[], rfl⟩
  | cons l lines ih =>
    obtain ⟨front, hfront⟩ := ih
    exact ⟨l ++ (crlf ++ front), by rw [text, hfront]; simp⟩

theorem checkPath_request {path : Bytes}
    (h : path = [] ∨ r.target.takeWhile (fun c => c ≠ 63) = path) :
    checkPath path r.bytes (r.bytes.length - 4) = true := by
  unfold checkPath
  by_cases hpath : path = []
  · rw [if_pos hpath]
  have htarget := h.resolve_left hpath
  obtain ⟨front, hfront⟩ := text_end (r.headers.map HeaderLine.line)
  have hbytes : r.bytes = lit "GET " ++ (r.target ++ 32 :: (lit "HTTP/1.1" ++ (crlf ++
      (front ++ crlf)))) := by
    rw [Request.bytes, text, hfront, Request.firstLine]
    simp [lit]
  have hget : (lit "GET ").length = 4 := by decide
  have hsize : r.bytes.length = r.target.length + front.length + 17 := by
    have hversion : (lit "HTTP/1.1").length = 8 := by decide
    rw [hbytes]
    simp only [length_append, length_cons, crlf, length_nil]
    omega
  have hrest : r.bytes.drop 4 = r.target ++ 32 :: (lit "HTTP/1.1" ++ (crlf ++
      (front ++ crlf))) := by
    rw [hbytes, drop_left' hget]
  have hfound : ((r.bytes.take (r.bytes.length - 4)).drop 4).takeWhile
      (fun c => c ≠ 32 ∧ c ≠ 63 ∧ c ≠ 13) = path := by
    obtain ⟨k, hk⟩ : ∃ k, r.bytes.length - 4 - 4 - r.target.length = k + 1 :=
      ⟨r.bytes.length - 9 - r.target.length, by omega⟩
    rw [drop_take, hrest, take_append, take_of_length_le (by omega), hk,
      take_succ_cons, path_of_target _ _ r.target_ok, htarget]
  have hpre : path <+: r.target := htarget ▸ List.takeWhile_prefix _
  have hcmp : strncmp (r.bytes.drop 4) path path.length = true := by
    refine (strncmpBy_iff (f := id) (fun c hc => hc.symm) _ path fun c hc => ?_).mpr ?_
    · exact ne_zero_of_plain (r.target_ok c (hpre.subset hc)).1
    · rw [map_id, map_id, hrest,
        take_append_of_le_length hpre.length_le]
      exact (prefix_iff_eq_take.mp hpre).symm
  have hstart : strncmp r.bytes (lit "GET ") 4 = true := by
    rw [hbytes]
    simp [strncmp, strncmpBy, lit]
  dsimp only
  rw [if_neg hpath, hfound, if_neg (by simp [hstart, hsize]),
    if_neg (by simp [hcmp])]

theorem text_ne_zero (h : ∀ l ∈ lines, ∀ c ∈ l, c ≠ 0) : ∀ c ∈ text lines, c ≠ 0 := by
  induction lines with
  | nil => exact forall_mem_of_all (P := fun c => c ≠ 0) (by decide)
  | cons l lines ih =>
    intro c hc
    rcases mem_append.mp hc with hl | hc
    · exact h l (mem_cons_self ..) c hl
    rcases mem_append.mp hc with hcrlf | hc
    · exact forall_mem_of_all (P := fun c => c ≠ 0) (by decide) c hcrlf
    · exact ih (fun l hl => h l (mem_cons_of_mem _ hl)) c hc

theorem Request.bytes_ne_zero : ∀ c ∈ r.bytes, c ≠ 0 := by
  refine text_ne_zero _ fun l hl c hc => ?_
  rcases mem_cons.mp hl with rfl | hl
  · exact ne_zero_of_plain (r.firstLine_plain c hc)
  · obtain ⟨h, -, rfl⟩ := mem_map.mp hl
    exact ne_zero_of_plain (h.plain c hc)

/-- A request that the server is to accept is accepted. -/
theorem answer_request {mem : Memory} (halloc : ∀ n, mem.alloc n = true)
    (hgrow : ∀ n, mem.grow n = true) {r : Request} {path : Bytes} (h : r.Upgrades path) :
    ∃ out, answer mem path r.bytes (r.bytes.length - 4) = some out := by
  obtain ⟨key, hkey, hsize⟩ := h.key
  have hkeyne : key ≠ [] := fun hnil => by
    rw [hnil] at hsize
    simp at hsize
  have hfoundkey := getHeader_request halloc r
    (forall_mem_of_all (by decide)) (by decide) hkey hkeyne
  have hfoundversion := getHeader_request halloc r
    (forall_mem_of_all (by decide)) (by decide) h.version (by decide)
  have hlen : (key ++ wsGuid).length = 60 := by
    rw [length_append, hsize]
    decide
  obtain ⟨digest, hdigest, hdigestlen⟩ : ∃ digest, sha1 (key ++ wsGuid) = some digest ∧
      digest.length = 20 := by
    refine ⟨_, hashPieces_eq sha1Algo_ok [key ++ wsGuid] ?_, ?_⟩
    · intro p hp
      rw [mem_singleton.mp hp, hlen]
      decide
    · simp [HashAlgo.hash, sha1Algo, beBytes]
  have haccept : base64Encode digest 64 = some (encodeGroups digest) := by
    rw [base64Encode, if_neg (by rw [hdigestlen]; decide)]
  have hacceptne : (encodeGroups digest).length ≠ 0 := by
    obtain ⟨a, rest, rfl⟩ := exists_of_length_succ digest hdigestlen
    obtain ⟨b, rest, rfl⟩ := exists_of_length_succ rest (Nat.succ.inj hdigestlen)
    obtain ⟨c, rest, rfl⟩ := exists_of_length_succ rest
      (Nat.succ.inj (Nat.succ.inj hdigestlen))
    simp [encodeGroups]
  rw [answer, checkPath_request r h.path, if_neg (by simp), hfoundkey, hfoundversion]
  simp only [Option.bind_eq_bind, Option.bind_some, hdigest, haccept]
  rw [if_neg (by simp), if_neg (by simp [halloc]), if_neg hacceptne, if_neg (by simp [hgrow])]
  exact ⟨_, rfl⟩

end Voxlib.WebSocket.Server
