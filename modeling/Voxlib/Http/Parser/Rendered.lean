import Voxlib.Http.Parser.Lengths
import Voxlib.Http.Parser.Pieces
import Voxlib.Lib.Decimal

/-!
# Requests that are written out (vox_http_parser.c)

One call of a new parser reports what the text of a request was made of.
-/

namespace Voxlib.HttpParser
open CStr Decimal List

/-- A header whose name and value stand in one line without blanks around them. -/
structure Field where
  name : Bytes
  value : Bytes
  name_ne : name ≠ []
  name_clean : ∀ b ∈ name, b ≠ 58 ∧ b ≠ 32 ∧ b ≠ 9 ∧ b ≠ 13 ∧ b ≠ 10
  value_clean : ∀ b ∈ value, b ≠ 13 ∧ b ≠ 10
  front : ∀ b ∈ value.head?, isBlank b = false
  back : ∀ b ∈ value.getLast?, isBlank b = false

def Field.line (f : Field) : Bytes := f.name ++ lit ": " ++ f.value

def Field.Plain (f : Field) : Prop :=
  f.name.map lower ≠ lit "content-length" ∧ f.name.map lower ≠ lit "transfer-encoding"

def lines (fs : List Field) : Bytes := fs.flatMap fun f => f.line ++ crlf

structure RequestText where
  method : Bytes × Method
  url : Bytes
  minor : Fin 2
  headers : List Field
  body : Bytes
  known : method ∈ methodNames
  url_ne : url ≠ []
  url_clean : ∀ b ∈ url, b ≠ 32 ∧ b ≠ 9 ∧ b ≠ 13 ∧ b ≠ 10
  plain : ∀ f ∈ headers, f.Plain

def versionText (minor : Fin 2) : Bytes := if minor = 0 then lit "HTTP/1.0" else lit "HTTP/1.1"

theorem decimal_clean (n : ℕ) : ∀ b ∈ decimal n, b ≠ 13 ∧ b ≠ 10 ∧ isBlank b = false := by
  intro b hb
  have hdigit := decimal_digits n b hb
  have hne (x : UInt8) (hx : x.toNat < 48) : b ≠ x := by
    rintro rfl
    omega
  refine ⟨hne 13 (by decide), hne 10 (by decide), ?_⟩
  have h32 := hne 32 (by decide)
  have h9 := hne 9 (by decide)
  simp [isBlank, h32, h9]

def lengthField (n : ℕ) : Field where
  name := lit "Content-Length"
  value := decimal n
  name_ne := cons_ne_nil _ _
  name_clean := forall_mem_of_all rfl
  value_clean b hb := ⟨(decimal_clean n b hb).1, (decimal_clean n b hb).2.1⟩
  front b hb := (decimal_clean n b (mem_of_mem_head? hb)).2.2
  back b hb := (decimal_clean n b (mem_of_mem_getLast? hb)).2.2

namespace RequestText

def startLine (t : RequestText) : Bytes :=
  t.method.1 ++ [32] ++ t.url ++ [32] ++ versionText t.minor

def render (t : RequestText) : Bytes :=
  t.startLine ++ crlf ++ (lines t.headers ++
    ((lengthField t.body.length).line ++ crlf ++ (crlf ++ t.body)))

end RequestText

def Field.events (f : Field) : List Event := .headerField f.name :: dataEvent .headerValue f.value

def RequestText.events (t : RequestText) : List Event :=
  [.messageBegin, .url t.url] ++ (t.headers.flatMap Field.events ++
    ((lengthField t.body.length).events ++ [.headersComplete])) ++
    (dataEvent .body t.body ++ [.messageComplete])

def valueOf : List Event → Bytes
  | .headerValue v :: es => v ++ valueOf es
  | _ => []

def headersOf : List Event → List (Bytes × Bytes)
  | [] => []
  | .headerField n :: es => (n, valueOf es) :: headersOf es
  | _ :: es => headersOf es

theorem headersOf_field (f : Field) {es : List Event} (h : valueOf es = []) :
    headersOf (f.events ++ es) = (f.name, f.value) :: headersOf es := by
  unfold Field.events dataEvent
  split
  · next hlen =>
    rw [length_eq_zero_iff.mp hlen, ← h]
    rfl
  · show (f.name, f.value ++ valueOf es) :: headersOf es = _
    rw [h, append_nil]

theorem headersOf_fields (fs : List Field) {es : List Event} (h : valueOf es = []) :
    headersOf (fs.flatMap Field.events ++ es) =
      fs.map (fun f => (f.name, f.value)) ++ headersOf es := by
  induction fs with
  | nil => rfl
  | cons f fs ih =>
    have hnext : valueOf (fs.flatMap Field.events ++ es) = [] := by
      cases fs with
      | nil => exact h
      | cons g fs => rfl
    rw [flatMap_cons, append_assoc, headersOf_field f hnext, ih]
    rfl

theorem notBlank {b : UInt8} (h32 : b ≠ 32) (h9 : b ≠ 9) : isBlank b = false := by
  simp [isBlank, h32, h9]

variable (f : Field)

theorem Field.name_notBlank : ∀ b ∈ f.name, isBlank b = false := fun b hb =>
  notBlank (f.name_clean b hb).2.1 (f.name_clean b hb).2.2.1

theorem Field.line_isLine : IsLine f.line :=
  nameLine_isLine (fun h => (f.name_clean 13 h).2.2.2.1 rfl) fun h => (f.value_clean 13 h).1 rfl

theorem Field.line_pos : f.line.length ≠ 0 := by
  have := length_pos_of_ne_nil f.name_ne
  rw [Field.line, length_append, length_append]
  omega

theorem Field.line_front : isBlank (f.line.headD 0) = false := by
  obtain ⟨b, name, hname⟩ := exists_cons_of_ne_nil f.name_ne
  rw [Field.line, hname]
  exact f.name_notBlank b (hname ▸ mem_cons_self ..)

def Field.header : Header := ⟨f.name, f.value ++ crlf, f.value.length⟩

theorem Field.newHeader_line : newHeader f.line = some f.header := by
  obtain ⟨hname, hlong, hvalue⟩ := nameLine_reads (fun b hb => (f.name_clean b hb).1) f.front
  have hpos := length_pos_of_ne_nil f.name_ne
  have hskip : skipBlanks f.name = f.name := skipBlanks_clean fun b hb =>
    f.name_notBlank b (mem_of_mem_head? hb)
  have hcut : cutBlanks f.name = f.name := cutBlanks_clean fun b hb =>
    f.name_notBlank b (mem_of_mem_getLast? hb)
  rw [newHeader, Field.line]
  dsimp only
  rw [hname, if_neg (by omega), hvalue, hskip, hcut, cutBlanks_clean f.back]
  rfl

theorem Field.header_value : f.header.value = f.value := by
  rw [Header.value, Field.header]
  exact take_left

theorem Field.header_events : f.header.events = f.events := by
  have hpos := length_pos_of_ne_nil f.name_ne
  have hfield : dataEvent .headerField f.name = [.headerField f.name] := if_neg (by omega)
  rw [Header.events, Field.header_value]
  show dataEvent .headerField f.name ++ _ = _
  rw [hfield]
  rfl

/- What headers without a meaning for the body change. -/
def Noted (c c' : Core) : Prop :=
  ∃ close keepalive upgrade count, c' = { c with
    connectionClose := close
    connectionKeepalive := keepalive
    upgrade := upgrade
    headerCount := count }

theorem Noted.refl (c : Core) : Noted c c := ⟨_, _, _, _, rfl⟩

theorem Noted.trans {c c' c'' : Core} (h : Noted c c') (h' : Noted c' c'') : Noted c c'' := by
  obtain ⟨_, _, _, _, rfl⟩ := h
  obtain ⟨_, _, _, _, rfl⟩ := h'
  exact ⟨_, _, _, _, rfl⟩

theorem connectionTokens_noted (fuel : ℕ) (c : Core) (value : Bytes) :
    Noted c (connectionTokens fuel c value) := by
  induction fuel generalizing c value with
  | zero => exact .refl c
  | succ fuel ih =>
    rw [connectionTokens]
    dsimp only
    split
    · exact .refl c
    split
    · exact Noted.trans ⟨_, _, _, _, rfl⟩ (ih _ _)
    split
    · exact Noted.trans ⟨_, _, _, _, rfl⟩ (ih _ _)
    · exact .refl c

theorem headerNameIs_iff {name known : Bytes} (hknown : ∀ b ∈ known, b ≠ 0) :
    headerNameIs name known = true ↔ name.map lower = known.map lower := by
  rw [headerNameIs, decide_eq_true_iff]
  constructor
  · rintro ⟨hlen, hcmp⟩
    have htake := (strncmpBy_iff lower_eq_zero name known hknown).mp hcmp
    rwa [← hlen, take_length] at htake
  · intro hmap
    have hlen : name.length = known.length := by simpa using congrArg List.length hmap
    refine ⟨hlen, (strncmpBy_iff lower_eq_zero name known hknown).mpr ?_⟩
    rwa [← hlen, take_length]

variable {f : Field} {cfg : Config} {c : Core} {rest : Bytes}

theorem commit_plain (h : f.Plain) :
    ∃ c', commit c f.header = ⟨true, c', f.events⟩ ∧ Noted c c' := by
  have hlength : ¬ headerNameIs f.name (lit "Content-Length") = true :=
    fun his => h.1 ((headerNameIs_iff (forall_mem_of_all rfl)).mp his)
  have hcoding : ¬ headerNameIs f.name (lit "Transfer-Encoding") = true :=
    fun his => h.2 ((headerNameIs_iff (forall_mem_of_all rfl)).mp his)
  have happly : ∃ c', applyHeader c f.name f.value = (true, c') ∧ Noted c c' := by
    rw [applyHeader, if_neg hlength, if_neg hcoding]
    split
    · exact ⟨_, rfl, connectionTokens_noted _ c _⟩
    split
    · exact ⟨_, rfl, _, _, _, _, rfl⟩
    · exact ⟨_, rfl, .refl c⟩
  obtain ⟨c', happly, hnoted⟩ := happly
  refine ⟨c', ?_, hnoted⟩
  have hpair : applyHeader c f.header.field f.header.value = (true, c') := by
    rw [f.header_value]
    exact happly
  rw [commit, hpair, f.header_events]

def pendingEvents (h : Option Field) : List Event := (h.map Field.events).getD []

variable {h : Option Field}

theorem commitBefore_plain (hmax : cfg.maxHeaders = 0) (hplain : ∀ g ∈ h, g.Plain) :
    ∃ c', commitBefore cfg c (h.map Field.header) = ⟨true, c', pendingEvents h⟩ ∧ Noted c c' := by
  cases h with
  | none => exact ⟨c, rfl, .refl c⟩
  | some g =>
    obtain ⟨c', hcommit, hnoted⟩ := commit_plain (c := c) (hplain g rfl)
    refine ⟨{ c' with headerCount := c'.headerCount + 1 }, ?_, hnoted.trans ⟨_, _, _, _, rfl⟩⟩
    rw [Option.map_some, commitBefore, hcommit]
    dsimp only
    rw [if_neg (by simp), if_neg (by simp [hmax])]
    rfl

theorem prepend_prepend (es es' : List Event) (r : HeadersResult) :
    (r.prepend es').prepend es = r.prepend (es ++ es') := by
  cases r <;> simp [HeadersResult.prepend]

theorem headers_field (hmax : cfg.maxHeaders = 0) (hplain : ∀ g ∈ h, g.Plain) (f : Field) (c : Core)
    (rest : Bytes) :
    ∃ c', Noted c c' ∧ headers cfg c (h.map Field.header) (f.line ++ crlf ++ rest) =
      (headers cfg c' (some f.header) rest).prepend (pendingEvents h) := by
  obtain ⟨c', hcommit, hnoted⟩ := commitBefore_plain (c := c) hmax hplain
  refine ⟨c', hnoted, ?_⟩
  have hstart : startHeader cfg c (h.map Field.header) f.line rest =
      (headers cfg c' (some f.header) rest).prepend (pendingEvents h) := by
    rw [startHeader, hcommit]
    dsimp only
    rw [if_neg (by simp), f.newHeader_line]
  rw [headers_line (splitLine_isLine f.line_isLine rest), if_neg f.line_pos, ← hstart]
  cases h with
  | none => rfl
  | some g =>
    rw [Option.map_some]
    dsimp only
    rw [if_neg (by
      rw [f.line_front]
      exact Bool.false_ne_true)]

theorem headers_fields (hmax : cfg.maxHeaders = 0) (fs : List Field) (hfs : ∀ g ∈ fs, g.Plain)
    (hplain : ∀ g ∈ h, g.Plain) (last : Field) (c : Core) (rest : Bytes) : ∃ c', Noted c c' ∧
      headers cfg c (h.map Field.header) (lines fs ++ (last.line ++ crlf ++ rest)) =
      (headers cfg c' (some last.header) rest).prepend
        (pendingEvents h ++ fs.flatMap Field.events) := by
  induction fs generalizing h c with
  | nil =>
    rw [flatMap_nil, append_nil]
    exact headers_field hmax hplain last c rest
  | cons f fs ih =>
    obtain ⟨c₁, hnoted₁, hfirst⟩ := headers_field hmax hplain f c
      (lines fs ++ (last.line ++ crlf ++ rest))
    obtain ⟨c₂, hnoted₂, hmore⟩ := ih (fun g hg => hfs g (mem_cons_of_mem _ hg))
      (h := some f) (fun g hg => Option.some.inj hg ▸ hfs f (mem_cons_self ..)) c₁
    refine ⟨c₂, hnoted₁.trans hnoted₂, ?_⟩
    have hlines : lines (f :: fs) = f.line ++ crlf ++ lines fs := flatMap_cons ..
    rw [Option.map_some] at hmore
    rw [hlines, append_assoc, hfirst, hmore, prepend_prepend, flatMap_cons]
    rfl

theorem valueFrom_append {base : ℕ} {digit : UInt8 → Option ℕ} (n : ℕ) (v w : Bytes) :
    valueFrom base digit n (v ++ w) =
      (valueFrom base digit n v).bind fun m => valueFrom base digit m w := by
  induction v generalizing n with
  | nil => rfl
  | cons b v ih =>
    rw [cons_append, valueFrom, valueFrom, Option.bind_assoc]
    exact Option.bind_congr fun d _ => ih _

theorem decimalDigit_last (n : ℕ) : decimalDigit (UInt8.ofNat (48 + n % 10)) = some (n % 10) := by
  have hbyte := digit_toNat n
  have hdigit : isDigit (UInt8.ofNat (48 + n % 10)) = true := by
    rw [isDigit, decide_eq_true_iff, UInt8.le_iff_toNat_le, UInt8.le_iff_toNat_le, hbyte]
    have h48 : (48 : UInt8).toNat = 48 := rfl
    have h57 : (57 : UInt8).toNat = 57 := rfl
    omega
  rw [decimalDigit, if_pos hdigit, hbyte, Nat.add_sub_cancel_left]

theorem valueFrom_decimal (n : ℕ) : valueFrom 10 decimalDigit 0 (decimal n) = some n := by
  induction n using decimal_induction with
  | digit n h =>
    rw [decimal_last, if_pos h, nil_append, valueFrom, decimalDigit_last, Nat.mod_eq_of_lt h,
      Option.bind_some, valueFrom, Nat.zero_mul, Nat.zero_add]
  | more n h ih =>
    rw [decimal_last, if_neg (by omega), valueFrom_append, ih, Option.bind_some, valueFrom,
      decimalDigit_last, Option.bind_some, valueFrom]
    congr 1
    omega

theorem not_drops {v : Bytes} {m : ℕ} (h : valueFrom 10 decimalDigit 0 v = some m)
    (hm : m < 2 ^ 64) : ¬ Drops 0 v := by
  rintro ⟨front, x, a, b, ⟨tail, rfl⟩, ha, hb, hlt⟩
  rw [valueFrom_append, hb] at h
  rw [valueFrom_append, ha] at hb
  have hba : b ≤ m := valueFrom_le (by decide) h
  have hab : a ≤ b := valueFrom_le (by decide) hb
  rw [Nat.mod_eq_of_lt (by omega), Nat.mod_eq_of_lt (by omega)] at hlt
  omega

theorem parseContentLength_decimal {n : ℕ} (hn : n < 2 ^ 64) :
    parseContentLength (decimal n) = some n := by
  have hfront : skipBlanks (decimal n) = decimal n := skipBlanks_clean (lengthField n).front
  have hlen : (decimal n).length ≠ 0 := fun h => decimal_ne_nil n (length_eq_zero_iff.mp h)
  rw [parseContentLength_iff, hfront]
  refine ⟨not_drops (valueFrom_decimal n) hn, n, ?_, (Nat.mod_eq_of_lt hn).symm⟩
  rw [numeral, if_neg hlen, valueFrom_decimal]

theorem applyContentLength_decimal {n : ℕ} (hn : n < 2 ^ 64) (c : Core) :
    applyContentLength c (decimal n) = (true, { c with contentLength := n }) := by
  have hfront : skipBlanks (decimal n) = decimal n := skipBlanks_clean (lengthField n).front
  have hlen : (decimal n).length ≠ 0 := fun h => decimal_ne_nil n (length_eq_zero_iff.mp h)
  obtain ⟨b, v, hcons⟩ := exists_cons_of_ne_nil (decimal_ne_nil n)
  have hminus : (decimal n).headD 0 ≠ 45 := by
    have hb := decimal_digits n b (hcons ▸ mem_cons_self ..)
    rw [hcons]
    rintro rfl
    exact absurd hb.1 (by decide)
  have hdigits : (decimal n).all isDigit = true := by
    rw [all_eq_true]
    intro b hb
    have hrange := decimal_digits n b hb
    rw [isDigit, decide_eq_true_iff, UInt8.le_iff_toNat_le, UInt8.le_iff_toNat_le]
    exact hrange
  rw [applyContentLength, hfront, if_neg hlen, if_neg hminus, hdigits,
    if_neg (by simp), parseContentLength_decimal hn]

theorem commit_length {n : ℕ} (hn : n < 2 ^ 64) (c : Core) : commit c (lengthField n).header =
      ⟨true, { c with contentLength := n }, (lengthField n).events⟩ := by
  have hname : headerNameIs (lit "Content-Length") (lit "Content-Length") = true := by decide
  have happly : applyHeader c (lengthField n).header.field (lengthField n).header.value =
      (true, { c with contentLength := n }) := by
    rw [Field.header_value]
    show applyHeader c (lit "Content-Length") (decimal n) = _
    rw [applyHeader, if_pos hname, applyContentLength_decimal hn]
  rw [commit, happly, Field.header_events]

theorem headers_text (hmax : cfg.maxHeaders = 0) (t : RequestText)
    (hlen : t.body.length < 2 ^ 64) (c : Core) : ∃ c', Noted c c' ∧
      headers cfg c none (lines t.headers ++
          ((lengthField t.body.length).line ++ crlf ++ (crlf ++ t.body))) =
        .done { c' with contentLength := t.body.length }
          (t.headers.flatMap Field.events ++ (lengthField t.body.length).events) t.body := by
  obtain ⟨c', hnoted, hlines⟩ := headers_fields hmax t.headers t.plain
    (h := none) (fun g hg => absurd hg (Option.not_mem_none g)) (lengthField t.body.length) c
    (crlf ++ t.body)
  have hblank : splitLine (crlf ++ t.body) = some ([], t.body) := rfl
  have hlast : headers cfg c' (some (lengthField t.body.length).header) (crlf ++ t.body) =
      .done { c' with contentLength := t.body.length } (lengthField t.body.length).events
        t.body := by
    rw [headers_line hblank, if_pos length_nil]
    dsimp only
    rw [commit_length hlen, if_pos rfl]
  refine ⟨c', hnoted, hlines.trans ?_⟩
  rw [hlast]
  rfl

theorem method_reads : ∀ m ∈ methodNames, m.1 ≠ [] ∧ (∀ b ∈ m.1, b ≠ 32 ∧ b ≠ 13) ∧
    parseMethod m.1 = m.2 ∧ 2 ≤ m.1.length ∧ m.1.take 2 ≠ lit "HT" := by
  intro m hm
  simp only [methodNames, mem_cons, not_mem_nil, or_false] at hm
  rcases hm with rfl | rfl | rfl | rfl | rfl | rfl | rfl | rfl | rfl <;>
    exact ⟨cons_ne_nil _ _, forall_mem_of_all rfl, rfl, by decide, by decide⟩

theorem version_reads (minor : Fin 2) : (∀ b ∈ versionText minor, b ≠ 32 ∧ b ≠ 13) ∧
    (versionText minor).length = 8 ∧ (versionText minor).take 5 = lit "HTTP/" ∧
    (versionText minor).getD 6 0 = 46 ∧ digitValue ((versionText minor).getD 5 0) = 1 ∧
    digitValue ((versionText minor).getD 7 0) = (minor : ℤ) := by
  obtain rfl | rfl : minor = 0 ∨ minor = 1 := by omega
  · exact ⟨forall_mem_of_all rfl, rfl, rfl, rfl, rfl, rfl⟩
  · exact ⟨forall_mem_of_all rfl, rfl, rfl, rfl, rfl, rfl⟩

namespace RequestText
variable (t : RequestText)

theorem startLine_isLine : IsLine t.startLine := by
  refine isLine_of_notMem fun hmem => ?_
  obtain ⟨-, hmethod, -⟩ := method_reads _ t.known
  simp only [startLine, mem_append, mem_singleton] at hmem
  rcases hmem with (((h | h) | h) | h) | h
  · exact (hmethod 13 h).2 rfl
  · exact absurd h (by decide)
  · exact (t.url_clean 13 h).2.2.1 rfl
  · exact absurd h (by decide)
  · exact ((version_reads t.minor).1 13 h).2 rfl

theorem parseStartLine_text (htype : cfg.type ≠ .response) (hurl : cfg.maxUrlSize = 0) (c : Core) :
    parseStartLine cfg c t.startLine =
      ⟨true, { c with method := t.method.2, httpMajor := 1, httpMinor := (t.minor : ℤ) },
        [.url t.url]⟩ := by
  obtain ⟨hne, hclean, hparse, htwo, hhttp⟩ := method_reads _ t.known
  obtain ⟨-, hlen, hfive, hdot, hmajor, hminor⟩ := version_reads t.minor
  have hupos := length_pos_of_ne_nil t.url_ne
  have hblank (x : Bytes) : ∀ b ∈ (32 :: x).head?, decide (b ≠ 32) = false := by simp
  have hname := takeWhile_stop (p := fun b => b ≠ 32) (s := t.method.1)
    (x := 32 :: (t.url ++ [32] ++ versionText t.minor))
    (fun b hb => decide_eq_true (hclean b hb).1) (hblank _)
  have hurlscan := takeWhile_stop (p := fun b => b ≠ 32) (s := t.url)
    (x := 32 :: versionText t.minor) (fun b hb => decide_eq_true (t.url_clean b hb).1) (hblank _)
  have hskip (v : Bytes) (hv : ∀ b ∈ v.head?, b ≠ 32) :
      (32 :: v).dropWhile (fun b => b = 32) = v := by
    rw [dropWhile_cons_of_pos (by decide)]
    exact (takeWhile_stop (s := []) (fun _ hc => absurd hc not_mem_nil) fun b hb =>
      decide_eq_false (hv b hb)).2
  have hline : t.startLine = t.method.1 ++ 32 :: (t.url ++ [32] ++ versionText t.minor) := by
    simp [startLine]
  have hlong : t.method.1.length < t.startLine.length := by
    rw [hline, length_append, length_cons]
    omega
  have hrequest : looksLikeResponse t.startLine = false := by
    refine decide_eq_false fun h => hhttp ?_
    have htake := congrArg (List.take 2) h.2
    rw [take_take, hline, take_append_of_le_length (by omega)] at htake
    exact htake
  have hleft : (t.startLine.drop t.method.1.length).dropWhile (fun b => b = 32) =
      t.url ++ 32 :: versionText t.minor := by
    rw [hline, drop_left, hskip]
    · simp
    · intro b hb
      rw [append_assoc, List.head?_append_of_ne_nil _ t.url_ne] at hb
      exact (t.url_clean b (mem_of_mem_head? hb)).1
  have hversion : ((t.url ++ 32 :: versionText t.minor).drop t.url.length).dropWhile
      (fun b => b = 32) = versionText t.minor := by
    rw [drop_left, hskip]
    exact fun b hb => ((version_reads t.minor).1 b (mem_of_mem_head? hb)).1
  rw [parseStartLine, if_neg (by omega), if_neg (by simp [htype, hrequest]), parseRequestLine]
  dsimp only
  rw [show t.startLine.takeWhile (fun b => b ≠ 32) = t.method.1 from hline ▸ hname.1,
    if_neg (by omega), hleft, hurlscan.1, if_neg (by simp), if_neg (by omega), hurl,
    if_neg (by simp), hversion, if_neg (by simp [hlen, hfive]), if_neg (not_not.mpr hdot), hmajor,
    hminor, hparse, if_neg]
  have hsupported : ∀ minor : Fin 2, (minor : ℤ) = 0 ∨ (minor : ℤ) = 1 := by decide
  simpa [unsupported] using fun h => (hsupported t.minor).resolve_left h

/-- What the parser knows of the request, and what it has handed over. -/
structure Reported (c : Core) (es : List Event) : Prop where
  method : c.method = t.method.2
  version : c.httpMajor = 1 ∧ c.httpMinor = (t.minor : ℤ)
  events : es = t.events
  headers : headersOf es = t.headers.map (fun f => (f.name, f.value)) ++
    [(lit "Content-Length", decimal t.body.length)]

theorem headersOf_events : headersOf t.events = t.headers.map (fun f => (f.name, f.value)) ++
    [(lit "Content-Length", decimal t.body.length)] := by
  have hbody : headersOf
      (.headersComplete :: (dataEvent .body t.body ++ [Event.messageComplete])) = [] := by
    unfold dataEvent
    split <;> rfl
  have hvalue : valueOf ((lengthField t.body.length).events ++
      (.headersComplete :: (dataEvent .body t.body ++ [Event.messageComplete]))) = [] := rfl
  have hall : t.events = .messageBegin :: .url t.url :: (t.headers.flatMap Field.events ++
      ((lengthField t.body.length).events ++
        (.headersComplete :: (dataEvent .body t.body ++ [Event.messageComplete])))) := by
    simp [RequestText.events]
  have hskip (es : List Event) : headersOf (.messageBegin :: .url t.url :: es) = headersOf es := rfl
  rw [hall, hskip, headersOf_fields _ hvalue, headersOf_field _ rfl, hbody]
  rfl

theorem parses_text (htype : cfg.type ≠ .response) (hmax : cfg.maxHeaders = 0)
    (hurl : cfg.maxUrlSize = 0) (hlen : t.body.length < 2 ^ 64) :
    ∃ r, Parses cfg {} t.render r ∧ r.code = 0 ∧ r.rest = [] ∧ r.events = t.events ∧
      r.core.method = t.method.2 ∧ r.core.httpMajor = 1 ∧ r.core.httpMinor = (t.minor : ℤ) := by
  have hbegin : Goes cfg {} t.render { phase := .startLine } [.messageBegin] t.render := .begin rfl
  have hparse := t.parseStartLine_text htype hurl { phase := .startLine }
  have hstart : Goes cfg { phase := .startLine } t.render
      { phase := .headerName, method := t.method.2, httpMajor := 1, httpMinor := (t.minor : ℤ) }
      [.url t.url] (lines t.headers ++
        ((lengthField t.body.length).line ++ crlf ++ (crlf ++ t.body))) := by
    have hline := splitLine_isLine t.startLine_isLine (lines t.headers ++
      ((lengthField t.body.length).line ++ crlf ++ (crlf ++ t.body)))
    have hgo : Goes cfg { phase := .startLine } t.render _ _ _ := .start rfl hline (by rw [hparse])
    rwa [hparse] at hgo
  obtain ⟨_, ⟨close, keepalive, upgrade, count, rfl⟩, hheaders⟩ := headers_text hmax t hlen
    { phase := .headerName, method := t.method.2, httpMajor := 1, httpMinor := (t.minor : ℤ) }
  by_cases hbody : t.body = []
  · have hend := Completes.headers (.inl rfl) hheaders rfl (length_eq_zero_iff.mpr hbody)
    refine ⟨_, .goes hbegin (.goes hstart (.ends (.completed hend))), rfl, hbody, ?_, rfl, rfl, rfl⟩
    have hnone : dataEvent .body t.body = [] := if_pos (length_eq_zero_iff.mpr hbody)
    simp [Result.prepend, Result.finished, RequestText.events, hnone]
  · have hpos := length_pos_of_ne_nil hbody
    have hdone := Goes.headersBody (.inl rfl) hheaders rfl hpos
    have hend : Completes cfg {
        phase := .body
        method := t.method.2
        httpMajor := 1
        httpMinor := (t.minor : ℤ)
        connectionClose := close
        connectionKeepalive := keepalive
        upgrade := upgrade
        headerCount := count
        contentLength := t.body.length } t.body _
        [.body (t.body.take t.body.length)] (t.body.drop t.body.length) :=
      .body rfl rfl (by omega) le_rfl
    refine ⟨_, .goes hbegin (.goes hstart (.goes hdone (.ends (.completed hend)))), rfl,
      drop_length, ?_, rfl, rfl, rfl⟩
    have hsome : dataEvent .body t.body = [.body t.body] := if_neg (by omega)
    simp [Result.prepend, Result.finished, RequestText.events, hsome]

end RequestText

variable {alloc : ℕ → Bool} {cb : Event → ℤ}

/-- One call with the text of a request reports the method, the URL, the version, the headers in
order and the body, begins and completes one message, and reads the text to its end. -/
theorem request_reported (t : RequestText) (hcb : ∀ e, cb e = 0) (htype : cfg.type ≠ .response)
    (hmax : cfg.maxHeaders = 0) (hurl : cfg.maxUrlSize = 0)
    (hroom : (ensureBuf alloc {} t.render.length).1 = true)
    (hscan : alloc sizeofScannerChunk = true) :
    ∃ q es, execute alloc cb cfg {} t.render = some ((t.render.length : ℤ), q, es) ∧
      t.Reported q.core es := by
  have hfull := (ensureBuf_fresh (Prod.ext hroom rfl : ensureBuf alloc {} t.render.length =
    (true, (ensureBuf alloc {} t.render.length).2))).1
  have hbuf : bufMax = 1048576 := rfl
  have hbody : t.body.length ≤ t.render.length := by
    simp only [RequestText.render, length_append]
    omega
  obtain ⟨r, hparses, hcode, hrest, hevents, hmethod, hmajor, hminor⟩ :=
    t.parses_text htype hmax hurl (by omega)
  have hne : t.render ≠ [] := by
    have hend : crlf ≠ [] := cons_ne_nil _ _
    simp [RequestText.render, hend]
  obtain ⟨r', hdo, hr'⟩ := doParse_parses cfg hcb {} hne
  obtain rfl := parses_unique hparses hr'
  obtain ⟨q, hexec, hcore⟩ := execute_fresh hne hroom hscan hdo fun h => by
    rw [hcode] at h
    exact absurd h (by decide)
  have hok : r.code ≠ -1 := by
    rw [hcode]
    decide
  rw [if_neg hok, if_neg hok, hrest, append_nil, hevents] at hexec
  refine ⟨q, t.events, hexec, ?_, ⟨?_, ?_⟩, rfl, t.headersOf_events⟩
  · rw [hcore, hmethod]
  · rw [hcore, hmajor]
  · rw [hcore, hminor]

def sampleField : Field :=
  ⟨lit "A", lit "b", cons_ne_nil _ _, forall_mem_of_all rfl, forall_mem_of_all rfl,
    fun _ hb => Option.some.inj hb ▸ rfl, fun _ hb => Option.some.inj hb ▸ rfl⟩

theorem sampleField_plain : ∀ f ∈ [sampleField], f.Plain := fun _ hf =>
  mem_singleton.mp hf ▸ And.intro (by decide) (by decide)

def sampleText : RequestText where
  method := (lit "POST", .post)
  url := lit "/"
  minor := 1
  headers := [sampleField]
  body := lit "xyz"
  known := mem_cons_of_mem _ (mem_cons_of_mem _ (mem_cons_self ..))
  url_ne := cons_ne_nil _ _
  url_clean := forall_mem_of_all rfl
  plain := sampleField_plain

example : sampleText.render =
    lit "POST / HTTP/1.1\r\nA: b\r\nContent-Length: 3\r\n\r\nxyz" := by decide

theorem sampleText_reported : ∃ q es, execute (fun _ => true) quiet {} {} sampleText.render =
    some ((sampleText.render.length : ℤ), q, es) ∧ sampleText.Reported q.core es :=
  request_reported sampleText quiet_eq (by decide) rfl rfl rfl rfl

end Voxlib.HttpParser
