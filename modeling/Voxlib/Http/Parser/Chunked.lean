import Voxlib.Http.Parser.Lengths
import Voxlib.Http.Parser.Pieces

/-!
# Chunked bodies (vox_http_parser.c)
-/

namespace Voxlib.HttpParser
open CStr List Option

def SizeLine (l : Bytes) (n : ℕ) : Prop := numeral 16 hexDigit (skipBlanks l) = some n

def IsTrailer (t : Bytes) : Prop :=
  ∃ ls : List Bytes, (∀ l ∈ ls, l ≠ [] ∧ IsLine l) ∧ t = ls.flatMap (· ++ crlf) ++ crlf

/-- The text is a chunked body, and the data of its chunks are the body. -/
inductive Chunked : Bytes → Bytes → Prop
  | zero {l t : Bytes} (hl : SizeLine l 0) (ht : IsTrailer t) : Chunked (l ++ crlf ++ t) []
  | chunk {l data text body : Bytes} (hl : SizeLine l data.length) (hne : data ≠ [])
      (h : Chunked text body) : Chunked (l ++ crlf ++ (data ++ (crlf ++ text))) (data ++ body)

/-- Behind whole chunks is one with something else than CRLF behind its data. -/
inductive Broken : Bytes → Prop
  | here {l data y : Bytes} (hl : SizeLine l data.length) (hne : data ≠ [])
      (hy : ¬ y <+: crlf) (hy' : ¬ crlf <+: y) : Broken (l ++ crlf ++ (data ++ y))
  | later {l data text : Bytes} (hl : SizeLine l data.length) (hne : data ≠ [])
      (h : Broken text) : Broken (l ++ crlf ++ (data ++ (crlf ++ text)))

/-- There is a line where a size is read that is none; any two bytes are behind a chunk. -/
inductive Malformed : Bytes → Prop
  | here {v l rest : Bytes} (hline : splitLine v = some (l, rest))
      (hn : parseChunkSize l = none) : Malformed v
  | behind {v l rest : Bytes} {n : ℕ} (hline : splitLine v = some (l, rest))
      (hn : parseChunkSize l = some n) (hpos : n ≠ 0) (hlen : n + 2 ≤ rest.length)
      (h : Malformed (rest.drop (n + 2))) : Malformed v

/-- CRLF is behind every chunk, as far as it is there, and the zero chunk comes with the whole
trailer. -/
inductive Tidy : Bytes → Prop
  | cut {v : Bytes} (hline : splitLine v = none) : Tidy v
  | zero {v l t rest : Bytes} (hline : splitLine v = some (l, t ++ rest))
      (hn : parseChunkSize l = some 0) (ht : IsTrailer t) : Tidy v
  | short {v l rest : Bytes} {n : ℕ} (hline : splitLine v = some (l, rest))
      (hn : parseChunkSize l = some n) (hpos : n ≠ 0) (hend : rest.drop n <+: crlf) : Tidy v
  | chunk {v l rest next : Bytes} {n : ℕ} (hline : splitLine v = some (l, rest))
      (hn : parseChunkSize l = some n) (hpos : n ≠ 0) (hend : rest.drop n = crlf ++ next)
      (h : Tidy next) : Tidy v

theorem hexDigit_ne_cr : hexDigit 13 = none := by decide

theorem valueFrom_digits {base n m : ℕ} {digit : UInt8 → Option ℕ} {v : Bytes}
    (h : valueFrom base digit n v = some m) : ∀ b ∈ v, digit b ≠ none := by
  induction v generalizing n with
  | nil => exact fun b hb => absurd hb not_mem_nil
  | cons a v ih =>
    obtain ⟨d, hd, hrest⟩ := bind_eq_some_iff.mp h
    rintro b (_ | ⟨_, hb⟩)
    · rw [hd]
      exact some_ne_none d
    · exact ih hrest b hb

theorem SizeLine.isLine {l : Bytes} {n : ℕ} (h : SizeLine l n) : IsLine l := by
  refine isLine_of_notMem fun hmem => ?_
  unfold SizeLine numeral at h
  split_ifs at h
  rw [← takeWhile_append_dropWhile (p := isBlank) (l := l), mem_append] at hmem
  rcases hmem with hmem | hmem
  · exact absurd (all_eq_true.mp all_takeWhile 13 hmem) (by decide)
  · exact valueFrom_digits h 13 hmem hexDigit_ne_cr

theorem SizeLine.parsed {l : Bytes} {n : ℕ} (h : SizeLine l n) (hn : n < 2 ^ 64) :
    parseChunkSize l = some n := parseChunkSize_iff.mpr ⟨h, hn⟩

theorem SizeLine.split {l : Bytes} {n : ℕ} (h : SizeLine l n) (rest : Bytes) :
    splitLine (l ++ crlf ++ rest) = some (l, rest) := splitLine_isLine h.isLine rest

variable {cfg : Config} {c : Core} {v w l rest : Bytes} {n : ℕ} {r : Result}

theorem run_cut (hp : c.phase = .chunkSize) (hline : splitLine v = none) (h : Parses cfg c v r) :
    r = .more c [] v :=
  parses_unique h (.ends (.starved (.chunkSize hp hline)))

theorem run_malformed (hp : c.phase = .chunkSize) (hline : splitLine v = some (l, rest))
    (hn : parseChunkSize l = none) (h : Parses cfg c v r) :
    r = .failed (setError c "invalid chunk size") [] :=
  parses_unique h (.ends (.failed (.chunkSize hp hline hn)))

/- The bytes behind the zero chunk of which the message takes some. -/
def behindZero (rest : Bytes) : Bytes :=
  if (skipTrailers (rest.length + 1) rest).length ≥ 2
  then (skipTrailers (rest.length + 1) rest).drop 2 else skipTrailers (rest.length + 1) rest

section
variable (hp : c.phase = .chunkSize)
include hp

theorem run_zero (hline : splitLine v = some (l, rest)) (hn : parseChunkSize l = some 0)
    (h : Parses cfg c v r) : r = .finished { c with chunkRemaining := 0 } [] (behindZero rest) :=
  parses_unique h (.ends (.completed (.lastChunk hp hline hn)))

/-- Where the chunk or the two bytes behind it are cut off, the run waits. -/
theorem run_short (hline : splitLine v = some (l, rest)) (hn : parseChunkSize l = some n)
    (hpos : n ≠ 0) (hlen : rest.length < n + 2) (h : Parses cfg c v r) : r.code = -2 := by
  have hgo : Goes cfg c v { c with chunkRemaining := n, phase := .chunkData } [] rest :=
    .chunk hp hline hn hpos
  by_cases hall : n ≤ rest.length
  · have hdata : Goes cfg { c with chunkRemaining := n, phase := .chunkData } rest
        { c with chunkRemaining := 0, phase := .chunkEnd } [.body (rest.take n)] (rest.drop n) :=
      .chunkAll rfl hpos hall
    have hend : Starved { c with chunkRemaining := 0, phase := .chunkEnd } (rest.drop n) :=
      .chunkEnd rfl (by rw [length_drop]; omega)
    rw [parses_unique h (.goes hgo (.goes hdata (.ends (.starved hend))))]
    rfl
  · by_cases hne : rest = []
    · subst hne
      rw [parses_unique h (.goes hgo (.ends (.starved (.chunkData rfl hpos))))]
      rfl
    · have hpart : Goes cfg { c with chunkRemaining := n, phase := .chunkData } rest
          { c with chunkRemaining := n - rest.length, phase := .chunkData } [.body rest] [] :=
        .chunkPart rfl hne (by dsimp only; omega)
      have hend : Starved { c with chunkRemaining := n - rest.length, phase := .chunkData } [] :=
        .chunkData rfl (by dsimp only; omega)
      rw [parses_unique h (.goes hgo (.goes hpart (.ends (.starved hend))))]
      rfl

theorem run_chunk (hline : splitLine v = some (l, rest)) (hn : parseChunkSize l = some n)
    (hpos : n ≠ 0) (hlen : n + 2 ≤ rest.length) (h : Parses cfg c v r) :
    ∃ c' r', c'.phase = .chunkSize ∧ Parses cfg c' (rest.drop (n + 2)) r' ∧
      r = r'.prepend [.body (rest.take n)] := by
  have hgo : Goes cfg c v { c with chunkRemaining := n, phase := .chunkData } [] rest :=
    .chunk hp hline hn hpos
  have hdata : Goes cfg { c with chunkRemaining := n, phase := .chunkData } rest
      { c with chunkRemaining := 0, phase := .chunkEnd } [.body (rest.take n)] (rest.drop n) :=
    .chunkAll rfl hpos (show n ≤ rest.length by omega)
  have hnext : Goes cfg { c with chunkRemaining := 0, phase := .chunkEnd } (rest.drop n)
      { c with chunkRemaining := 0, phase := .chunkSize } [] ((rest.drop n).drop 2) :=
    .chunkNext rfl (by rw [length_drop]; omega)
  obtain ⟨r', hr'⟩ := parses_total cfg { c with chunkRemaining := 0, phase := .chunkSize }
    ((rest.drop n).drop 2)
  refine ⟨_, r', rfl, by rwa [← drop_drop], ?_⟩
  rw [parses_unique h (.goes hgo (.goes hdata (.goes hnext hr')))]
  rfl

/-- A run fails if and only if it comes to a malformed size. -/
theorem run_fails_iff (h : Parses cfg c v r) : r.code = -1 ↔ Malformed v := by
  induction hm : v.length using Nat.strong_induction_on generalizing c v r with
  | _ m ih =>
    cases hline : splitLine v with
    | none =>
      rw [run_cut hp hline h]
      refine iff_of_false (show (-2 : ℤ) ≠ -1 by decide) fun hmal => ?_
      cases hmal with
      | here hl _ => exact absurd (hline.symm.trans hl).symm (some_ne_none _)
      | behind hl _ _ _ _ => exact absurd (hline.symm.trans hl).symm (some_ne_none _)
    | some p =>
      obtain ⟨l, rest⟩ := p
      have hshorter := splitLine_length hline
      cases hn : parseChunkSize l with
      | none =>
        rw [run_malformed hp hline hn h]
        exact iff_of_true rfl (.here hline hn)
      | some n =>
        -- the line is the one that the rules speak of
        have hbehind : Malformed v ↔ n ≠ 0 ∧ n + 2 ≤ rest.length ∧
            Malformed (rest.drop (n + 2)) := by
          constructor
          · intro hmal
            cases hmal with
            | here hl hnone =>
              obtain ⟨rfl, rfl⟩ := Prod.mk.inj (some.inj (hline.symm.trans hl))
              exact absurd (hn.symm.trans hnone) (some_ne_none _)
            | behind hl hsome hpos hlen hlater =>
              obtain ⟨rfl, rfl⟩ := Prod.mk.inj (some.inj (hline.symm.trans hl))
              obtain rfl := some.inj (hn.symm.trans hsome)
              exact ⟨hpos, hlen, hlater⟩
          · exact fun ⟨hpos, hlen, hlater⟩ => .behind hline hn hpos hlen hlater
        rw [hbehind]
        by_cases hpos : n = 0
        · subst hpos
          rw [run_zero hp hline hn h]
          exact iff_of_false (show (0 : ℤ) ≠ -1 by decide) fun hmal => hmal.1 rfl
        by_cases hlen : n + 2 ≤ rest.length
        · obtain ⟨c', r', hp', hr', rfl⟩ := run_chunk hp hline hn hpos hlen h
          have hlater := ih _ (by rw [length_drop]; omega) hp' hr' rfl
          exact ⟨fun hcode => ⟨hpos, hlen, hlater.mp hcode⟩, fun hmal => hlater.mpr hmal.2.2⟩
        · rw [run_short hp hline hn hpos (by omega) h]
          exact iff_of_false (by decide) fun hmal => hlen hmal.2.1

end

theorem skipTrailers_lines {ls : List Bytes} (hls : ∀ l ∈ ls, l ≠ [] ∧ IsLine l) (more : Bytes)
    {fuel : ℕ} (hfuel : ls.length < fuel) :
    skipTrailers fuel (ls.flatMap (· ++ crlf) ++ (crlf ++ more)) = crlf ++ more := by
  induction ls generalizing fuel with
  | nil =>
    obtain ⟨fuel, rfl⟩ : ∃ k, fuel = k + 1 := ⟨fuel - 1, by simp at hfuel; omega⟩
    rfl
  | cons l ls ih =>
    obtain ⟨fuel, rfl⟩ : ∃ k, fuel = k + 1 := ⟨fuel - 1, by simp at hfuel; omega⟩
    have hl := hls l (mem_cons_self ..)
    rw [flatMap_cons, append_assoc, skipTrailers, splitLine_isLine hl.2]
    dsimp only
    rw [if_pos (length_pos_of_ne_nil hl.1)]
    exact ih (fun x hx => hls x (mem_cons_of_mem _ hx)) (by simpa using hfuel)

theorem behindZero_trailer {t : Bytes} (ht : IsTrailer t) (rest : Bytes) :
    behindZero (t ++ rest) = rest := by
  obtain ⟨ls, hls, rfl⟩ := ht
  have hfuel : ls.length < (ls.flatMap (· ++ crlf) ++ (crlf ++ rest)).length + 1 := by
    have := length_le_flatMap (· ++ crlf)
      (fun _ => append_ne_nil_of_right_ne_nil _ (cons_ne_nil _ _)) ls
    rw [length_append]
    omega
  rw [behindZero, append_assoc, skipTrailers_lines hls rest hfuel]
  rfl

theorem run_chunked {text body : Bytes} (ht : Chunked text body) (hp : c.phase = .chunkSize)
    (hlen : text.length < 2 ^ 64) (h : Parses cfg c (text ++ rest) r) :
    r.code = 0 ∧ r.rest = rest ∧ bodyOf r.events = body := by
  induction ht generalizing c r with
  | zero hl ht =>
    rw [append_assoc] at h
    rw [run_zero hp (hl.split _) (hl.parsed (by decide)) h, behindZero_trailer ht]
    exact ⟨rfl, rfl, rfl⟩
  | @chunk l data text body hl hne _ ih =>
    simp only [append_assoc] at h
    simp only [length_append] at hlen
    obtain ⟨c', r', hp', hr', rfl⟩ := run_chunk hp
      (by rw [← append_assoc]; exact hl.split _) (hl.parsed (by omega))
      (fun h0 => hne (length_eq_zero_iff.mp h0))
      (by simp only [length_append]; have : crlf.length = 2 := rfl; omega) h
    have hdrop : (data ++ (crlf ++ (text ++ rest))).drop (data.length + 2) = text ++ rest := by
      rw [← drop_drop, drop_left]
      rfl
    rw [hdrop] at hr'
    obtain ⟨hcode, hrest, hbody⟩ := ih hp' (by omega) hr'
    refine ⟨hcode, hrest, ?_⟩
    rw [Result.prepend, bodyOf, flatMap_append, ← hbody, take_left']
    · simp [bodyOf, Event.bodyBytes]
    · rfl

def StartsChunked (v : Bytes) : Prop := ∃ text body more, Chunked text body ∧ v = text ++ more

theorem startsChunked_line (hline : splitLine v = some (l, rest)) (h : StartsChunked v) :
    SizeLine l 0 ∧ (∃ t more, IsTrailer t ∧ rest = t ++ more) ∨
    ∃ data next, SizeLine l data.length ∧ data ≠ [] ∧ rest = data ++ (crlf ++ next) ∧
      StartsChunked next := by
  obtain ⟨text, body, more, ht, rfl⟩ := h
  cases ht with
  | @zero l' t hl ht =>
    rw [append_assoc, hl.split] at hline
    obtain ⟨rfl, rfl⟩ := Prod.mk.inj (some.inj hline)
    exact .inl ⟨hl, t, more, ht, rfl⟩
  | @chunk l' data text body hl hne hnext =>
    rw [append_assoc, hl.split] at hline
    obtain ⟨rfl, rfl⟩ := Prod.mk.inj (some.inj hline)
    exact .inr ⟨data, text ++ more, hl, hne, by simp only [append_assoc], text, body, more,
      hnext, rfl⟩

theorem broken_line (hline : splitLine v = some (l, rest)) (h : Broken v) :
    ∃ data y, SizeLine l data.length ∧ data ≠ [] ∧ rest = data ++ y ∧
      (¬ y <+: crlf ∧ ¬ crlf <+: y ∨ ∃ next, y = crlf ++ next ∧ Broken next) := by
  cases h with
  | @here l' data y hl hne hy hy' =>
    rw [hl.split] at hline
    obtain ⟨rfl, rfl⟩ := Prod.mk.inj (some.inj hline)
    exact ⟨data, y, hl, hne, rfl, .inl ⟨hy, hy'⟩⟩
  | @later l' data text hl hne hnext =>
    rw [hl.split] at hline
    obtain ⟨rfl, rfl⟩ := Prod.mk.inj (some.inj hline)
    exact ⟨data, crlf ++ text, hl, hne, rfl, .inr ⟨text, rfl, hnext⟩⟩

theorem broken_splits (h : Broken v) : splitLine v ≠ none := by
  cases h with
  | here hl _ _ _ =>
    rw [hl.split]
    exact some_ne_none _
  | later hl _ _ =>
    rw [hl.split]
    exact some_ne_none _

theorem startsChunked_append {data next : Bytes} (hline : splitLine v = some (l, rest))
    (hl : SizeLine l data.length) (hne : data ≠ []) (hrest : rest = data ++ (crlf ++ next))
    (h : StartsChunked next) : StartsChunked v := by
  obtain ⟨text, body, more, ht, rfl⟩ := h
  refine ⟨_, _, more, .chunk hl hne ht, ?_⟩
  rw [splitLine_eq hline, hrest]
  simp only [append_assoc]

theorem broken_append {data next : Bytes} (hline : splitLine v = some (l, rest))
    (hl : SizeLine l data.length) (hne : data ≠ []) (hrest : rest = data ++ (crlf ++ next))
    (h : Broken next) : Broken v := by
  rw [splitLine_eq hline, hrest]
  exact .later hl hne h

theorem sized_data (hlen : v.length < 2 ^ 64) (hline : splitLine v = some (l, rest))
    (hn : parseChunkSize l = some n) {data y : Bytes} (hl : SizeLine l data.length)
    (hrest : rest = data ++ y) : data = rest.take n ∧ y = rest.drop n := by
  have hlong := splitLine_length hline
  rw [hrest, length_append] at hlong
  have hsize := hl.parsed (by omega)
  obtain rfl := some.inj (hn.symm.trans hsize)
  rw [hrest, take_left, drop_left]
  exact ⟨rfl, rfl⟩

theorem SizeLine.unique {m : ℕ} (h : SizeLine l n) (h' : SizeLine l m) : n = m :=
  some.inj (h.symm.trans h')

/-- No chunked body is the beginning of a longer one. -/
theorem Chunked.front {text body text' body' x : Bytes} (h : Chunked text body)
    (h' : Chunked text' body') (hx : text' = text ++ x) : x = [] := by
  induction h generalizing text' body' with
  | @zero l t hl ht =>
    rw [append_assoc] at hx
    have hline := hl.split (t ++ x)
    rw [← hx] at hline
    cases h' with
    | @zero l' t' hl' ht' =>
      rw [hl'.split] at hline
      obtain ⟨-, rfl⟩ := Prod.mk.inj (some.inj hline)
      have hend := behindZero_trailer ht' []
      rw [append_nil, behindZero_trailer ht] at hend
      exact hend
    | @chunk l' data text body hl' hne _ =>
      rw [hl'.split] at hline
      obtain ⟨rfl, -⟩ := Prod.mk.inj (some.inj hline)
      exact absurd (length_eq_zero_iff.mp (hl'.unique hl)) hne
  | @chunk l data text body hl hne _ ih =>
    simp only [append_assoc] at hx
    rw [← append_assoc] at hx
    have hline := hl.split (data ++ (crlf ++ (text ++ x)))
    rw [← hx] at hline
    cases h' with
    | @zero l' t' hl' ht' =>
      rw [hl'.split] at hline
      obtain ⟨rfl, -⟩ := Prod.mk.inj (some.inj hline)
      exact absurd (length_eq_zero_iff.mp (hl.unique hl')) hne
    | @chunk l' data' text' body' hl' _ hnext' =>
      rw [hl'.split] at hline
      obtain ⟨rfl, hrest⟩ := Prod.mk.inj (some.inj hline)
      obtain ⟨-, hsame⟩ := append_inj hrest (hl'.unique hl)
      exact ih hnext' (append_cancel_left hsame)

/-- What the result says of the bytes behind the headers. -/
structure RunRight (v : Bytes) (r : Result) : Prop where
  whole : ∀ text body rest, Chunked text body → v = text ++ rest →
    r.code = 0 ∧ r.rest = rest ∧ bodyOf r.events = body
  only : r.code = 0 → StartsChunked v
  broken : Broken v → r.code = -1

section
variable (hlen : v.length < 2 ^ 64)
include hlen

theorem tidy_only (ht : Tidy v) (hp : c.phase = .chunkSize) (h : Parses cfg c v r)
    (hcode : r.code = 0) : StartsChunked v := by
  induction ht generalizing c r with
  | cut hline =>
    rw [run_cut hp hline h] at hcode
    exact absurd hcode (by simp [Result.more])
  | @zero v l t rest hline hn ht =>
    refine ⟨_, _, rest, .zero (parseChunkSize_iff.mp hn).1 ht, ?_⟩
    rw [splitLine_eq hline]
    simp only [append_assoc]
  | @short v l rest n hline hn hpos hend =>
    by_cases hfull : rest.length < n + 2
    · rw [run_short hp hline hn hpos hfull h] at hcode
      exact absurd hcode (by decide)
    · -- CRLF is behind the data, and nothing behind it
      have hcr : (rest.drop n).length = 2 := by
        have hle := hend.length_le
        have : crlf.length = 2 := rfl
        rw [length_drop] at hle ⊢
        omega
      have hnil : rest.drop (n + 2) = [] := drop_eq_nil_of_le (by
        rw [length_drop] at hcr
        omega)
      obtain ⟨c', r', hp', hr', rfl⟩ := run_chunk hp hline hn hpos (by omega) h
      rw [hnil] at hr'
      rw [run_cut hp' rfl hr'] at hcode
      exact absurd hcode (by simp [Result.more, Result.prepend])
  | @chunk v l rest next n hline hn hpos hend hnext ih =>
    have hshorter := splitLine_length hline
    have hdrop : rest.drop (n + 2) = next := by
      rw [← drop_drop, hend]
      rfl
    have hlong : n + 2 ≤ rest.length := by
      have hl := congrArg List.length hend
      rw [length_drop, length_append] at hl
      have : crlf.length = 2 := rfl
      omega
    obtain ⟨c', r', hp', hr', rfl⟩ := run_chunk hp hline hn hpos hlong h
    rw [hdrop] at hr'
    have hlater := ih (by rw [← hdrop, length_drop]; omega) hp' hr' hcode
    have htake : (rest.take n).length = n := by rw [length_take]; omega
    have hsize : SizeLine l (rest.take n).length := by
      rw [htake]
      exact (parseChunkSize_iff.mp hn).1
    have hne : rest.take n ≠ [] := ne_nil_of_length_pos (by omega)
    refine startsChunked_append hline hsize hne ?_ hlater
    rw [← hend, take_append_drop]

theorem tidy_not_broken (ht : Tidy v) : ¬ Broken v := by
  induction ht with
  | cut hline => exact fun hb => broken_splits hb hline
  | zero hline hn _ =>
    intro hb
    obtain ⟨data, y, hl, hne, hrest, -⟩ := broken_line hline hb
    exact hne (sized_data hlen hline hn hl hrest).1
  | short hline hn _ hend =>
    intro hb
    obtain ⟨data, y, hl, -, hrest, hy⟩ := broken_line hline hb
    rw [← (sized_data hlen hline hn hl hrest).2] at hend
    rcases hy with ⟨hy, -⟩ | ⟨next, hnext, hb⟩
    · exact hy hend
    · have hle := hend.length_le
      rw [hnext, length_append] at hle
      have hnil : next = [] := length_eq_zero_iff.mp (by omega)
      rw [hnil] at hb
      exact broken_splits hb rfl
  | @chunk v l rest next n hline hn _ hend _ ih =>
    intro hb
    have hshorter := splitLine_length hline
    obtain ⟨data, y, hl, -, hrest, hy⟩ := broken_line hline hb
    obtain rfl := (sized_data hlen hline hn hl hrest).2
    have hle : (rest.drop n).length ≤ rest.length := by
      rw [length_drop]
      omega
    rcases hy with ⟨-, hy⟩ | ⟨next', hnext, hb⟩
    · exact hy ⟨next, hend.symm⟩
    · obtain rfl := append_cancel_left (hend.symm.trans hnext)
      refine ih ?_ hb
      rw [hend, length_append] at hle
      omega

theorem untidy_wrong (hmal : ¬ Malformed v) (ht : ¬ Tidy v) (hp : c.phase = .chunkSize)
    (h : Parses cfg c v r) : r.code = 0 ∧ ¬ StartsChunked v ∨ Broken v ∧ r.code ≠ -1 := by
  induction hm : v.length using Nat.strong_induction_on generalizing c v r with
  | _ m ih =>
    have hcode := mt (run_fails_iff hp h).mp hmal
    cases hline : splitLine v with
    | none => exact absurd (.cut hline) ht
    | some p =>
      obtain ⟨l, rest⟩ := p
      have hshorter := splitLine_length hline
      cases hn : parseChunkSize l with
      | none => exact absurd (.here hline hn) hmal
      | some n =>
        by_cases hpos : n = 0
        · -- the zero chunk without its trailer
          subst hpos
          rw [run_zero hp hline hn h]
          refine .inl ⟨rfl, fun hstart => ?_⟩
          rcases startsChunked_line hline hstart with ⟨-, t, more, htr, rfl⟩ |
            ⟨data, next, hl, hne, hrest, -⟩
          · exact ht (.zero hline hn htr)
          · exact hne (sized_data hlen hline hn hl hrest).1
        · have htaken : ¬ rest.drop n <+: crlf := fun hend => ht (.short hline hn hpos hend)
          have hlong : n < rest.length := by
            by_contra hle
            rw [drop_eq_nil_of_le (by omega)] at htaken
            exact htaken List.nil_prefix
          have htake : (rest.take n).length = n := by rw [length_take]; omega
          have hsize : SizeLine l (rest.take n).length := by
            rw [htake]
            exact (parseChunkSize_iff.mp hn).1
          have hne : rest.take n ≠ [] := ne_nil_of_length_pos (by omega)
          by_cases hend : crlf <+: rest.drop n
          · obtain ⟨next, hnext⟩ := hend
            have hrest : rest = rest.take n ++ (crlf ++ next) := by
              rw [hnext, take_append_drop]
            have hdrop : rest.drop (n + 2) = next := by
              rw [← drop_drop, ← hnext]
              rfl
            have hlong' : n + 2 ≤ rest.length := by
              have hl := congrArg List.length hnext
              rw [length_drop, length_append] at hl
              have : crlf.length = 2 := rfl
              omega
            obtain ⟨c', r', hp', hr', rfl⟩ := run_chunk hp hline hn hpos hlong' h
            rw [hdrop] at hr'
            have hshort : next.length < m := by
              rw [← hdrop, length_drop]
              omega
            have hmal' : ¬ Malformed next := fun hnm =>
              hmal (.behind hline hn hpos hlong' (hdrop.symm ▸ hnm))
            have ht' : ¬ Tidy next := fun hnt => ht (.chunk hline hn hpos hnext.symm hnt)
            rcases ih _ hshort (by omega) hmal' ht' hp' hr' rfl with ⟨h0, hno⟩ | ⟨hb, hr⟩
            · refine .inl ⟨h0, fun hstart => ?_⟩
              rcases startsChunked_line hline hstart with ⟨hl0, -⟩ |
                ⟨data, next', hl, -, hrest', hstart'⟩
              · have hzero := hl0.parsed (by decide)
                exact hpos (some.inj (hn.symm.trans hzero))
              · have hy := (sized_data hlen hline hn hl hrest').2
                rw [← hnext] at hy
                exact hno (append_cancel_left hy ▸ hstart')
            · exact .inr ⟨broken_append hline hsize hne hrest hb, hr⟩
          · refine .inr ⟨?_, hcode⟩
            have hv := splitLine_eq hline
            rw [← take_append_drop n rest] at hv
            rw [hv]
            exact .here hsize hne htaken hend

theorem run_right_iff (hp : c.phase = .chunkSize) (h : Parses cfg c v r) :
    RunRight v r ↔ Malformed v ∨ Tidy v := by
  have hwhole : ∀ text body rest, Chunked text body → v = text ++ rest →
      r.code = 0 ∧ r.rest = rest ∧ bodyOf r.events = body := by
    rintro text body rest ht rfl
    rw [length_append] at hlen
    exact run_chunked ht hp (by omega) h
  constructor
  · intro hright
    by_contra hnot
    rcases untidy_wrong hlen (fun hm => hnot (.inl hm)) (fun ht => hnot (.inr ht)) hp h with
      ⟨h0, hno⟩ | ⟨hb, hr⟩
    · exact hno (hright.only h0)
    · exact hr (hright.broken hb)
  · rintro (hm | ht)
    · have hcode := (run_fails_iff hp h).mpr hm
      exact ⟨hwhole, fun h0 => absurd (hcode.symm.trans h0) (by decide), fun _ => hcode⟩
    · exact ⟨hwhole, tidy_only hlen ht hp h, fun hb => absurd hb (tidy_not_broken hlen ht)⟩

end

/-- The start line and the headers of a message with a chunked body. -/
def ChunkedHead (cfg : Config) (head : Bytes) : Prop :=
  ∃ line block c es, splitLine head = some (line, block) ∧
    (parseStartLine cfg { phase := .startLine } line).ok = true ∧
    parseHeaders cfg { (parseStartLine cfg { phase := .startLine } line).core with
      phase := .headerName, headerCount := 0 } block = .done c es [] ∧ c.chunked = true

theorem bodyOf_nil {es : List Event} (h : ∀ e ∈ es, e.isBody = false) : bodyOf es = [] := by
  refine flatMap_eq_nil_iff.mpr fun e he => ?_
  have hno := h e he
  cases e with
  | body data => cases hno
  | _ => rfl

theorem parseStartLine_body (cfg : Config) (c : Core) (line : Bytes) :
    ∀ e ∈ (parseStartLine cfg c line).events, e.isBody = false := by
  intro e he
  have hstart := (parseStartLine_reads cfg c line).1 e he
  cases e with
  | body data => cases hstart
  | _ => rfl

theorem head_run {head : Bytes} (h : ChunkedHead cfg head) :
    head ≠ [] ∧ ∃ c es, c.phase = .chunkSize ∧ c.hasError = false ∧ bodyOf es = [] ∧
      ∀ w r, Parses cfg c w r → Parses cfg {} (head ++ w) (r.prepend es) := by
  obtain ⟨line, block, c, es, hline, hok, hheaders, hchunked⟩ := h
  have hbegin (w : Bytes) : Goes cfg {} w { phase := .startLine } [.messageBegin] w := .begin rfl
  have hstart (w : Bytes) := Goes.start rfl (splitLine_append hline w) hok
  have hdone (w : Bytes) :=
    Goes.headersChunked (.inl rfl) (headers_done_append hheaders w) hchunked
  refine ⟨?_, { c with phase := .chunkSize },
    [Event.messageBegin] ++ ((parseStartLine cfg { phase := .startLine } line).events ++
      (es ++ [Event.headersComplete])), rfl, ?_, ?_, fun w r hr => ?_⟩
  · rintro rfl
    cases hline
  · have herr := (goes_outcome (hdone [])).1.trans (goes_outcome (hstart [])).1
    exact herr.trans (goes_outcome (hbegin [])).1
  · have hs := headers_sound cfg block.length
      { (parseStartLine cfg { phase := .startLine } line).core with
        phase := .headerName, headerCount := 0 } none block le_rfl
    rw [← parseHeaders_eq, hheaders] at hs
    refine bodyOf_nil fun e he => ?_
    simp only [mem_append, mem_singleton] at he
    rcases he with rfl | he | he | rfl
    · rfl
    · exact parseStartLine_body cfg _ line e he
    · have hheader := hs.2.1 e he
      cases e with
      | body data => cases hheader
      | _ => rfl
    · rfl
  · have hrun := Parses.goes (hbegin (head ++ w)) (.goes (hstart w) (.goes (hdone w) hr))
    simpa only [Result.prepend, append_assoc] using hrun

/-- What one call says of the bytes `w` behind the headers `head`. -/
structure ChunksRight (head w : Bytes) (code : ℤ) (es : List Event) : Prop where
  whole : ∀ text body rest, Chunked text body → w = text ++ rest →
    .messageComplete ∈ es ∧ code = (head ++ text).length ∧ bodyOf es = body
  only : .messageComplete ∈ es → ∃ text body rest, Chunked text body ∧ w = text ++ rest
  early : ∀ text body more, Chunked text body → w ++ more = text → more ≠ [] →
    .messageComplete ∉ es
  broken : Broken w → code = -1

variable {alloc : ℕ → Bool} {cb : Event → ℤ}

/-- A call with the headers and bytes behind them is right about a chunked body if and only if
it comes to a malformed size, or the bytes are tidy. -/
theorem chunkedBody_right_iff {head : Bytes} (hcb : ∀ e, cb e = 0) (hhead : ChunkedHead cfg head)
    (hroom : (ensureBuf alloc {} (head ++ w).length).1 = true)
    (hscan : alloc sizeofScannerChunk = true) :
    (∃ code q es, execute alloc cb cfg {} (head ++ w) = some (code, q, es) ∧
      ChunksRight head w code es) ↔ Malformed w ∨ Tidy w := by
  obtain ⟨hne, c, es, hp, herr, hbody, hrun⟩ := head_run hhead
  obtain ⟨r, hr⟩ := parses_total cfg c w
  have hparses := hrun w r hr
  have hneall : head ++ w ≠ [] := append_ne_nil_of_left_ne_nil hne w
  obtain ⟨r', hdo, hr'⟩ := doParse_parses cfg hcb {} hneall
  obtain rfl := parses_unique hparses hr'
  have hout := parses_outcome hparses rfl (by simp [Core.halted])
  have hfull := ensureBuf_fresh (Prod.ext hroom rfl :
    ensureBuf alloc {} (head ++ w).length = (true, (ensureBuf alloc {} (head ++ w).length).2))
  have hbuf : bufMax = 1048576 := rfl
  have hlen : (head ++ w).length = head.length + w.length := length_append
  have hw : w.length < 2 ^ 64 := by omega
  have hheadlen := length_pos_of_ne_nil hne
  have hshorter := (parses_outcome hr herr (by simp [Core.halted, hp])).shorter
  obtain ⟨q, hexec, -⟩ := execute_fresh hneall hroom hscan hdo fun _ => by
    show r.rest.length < (head ++ w).length
    omega
  rw [← run_right_iff hw hp hr]
  have hmem : Event.messageComplete ∈ (r.prepend es).events ++
      (if (r.prepend es).code = -1 then [.error (r.prepend es).core.errorMsg] else []) ↔
      r.code = 0 := by
    have hnot : Event.messageComplete ∉
        (if (r.prepend es).code = -1 then [Event.error (r.prepend es).core.errorMsg] else []) := by
      split_ifs <;> simp
    rw [mem_append, or_iff_left hnot, ← count_pos_iff, hout.completes]
    show (0 < if r.code = 0 then 1 else 0) ↔ r.code = 0
    split_ifs with h0 <;> simp [h0]
  have hbodyof : bodyOf ((r.prepend es).events ++
      (if (r.prepend es).code = -1 then [.error (r.prepend es).core.errorMsg] else [])) =
      bodyOf r.events := by
    have hnone : bodyOf
        (if (r.prepend es).code = -1 then [.error (r.prepend es).core.errorMsg] else []) = [] := by
      split_ifs <;> rfl
    unfold bodyOf at hnone hbody ⊢
    rw [flatMap_append, hnone, Result.prepend, flatMap_append, hbody, append_nil,
      nil_append]
  constructor
  · rintro ⟨code, q', es', hcall, hright⟩
    obtain ⟨rfl, hrest⟩ := Prod.mk.inj (some.inj (hexec.symm.trans hcall))
    obtain ⟨-, rfl⟩ := Prod.mk.inj hrest
    refine ⟨fun text body rest ht hw' => ?_, fun h0 => hright.only (hmem.mpr h0), fun hb => ?_⟩
    · subst hw'
      exact run_chunked ht hp (by rw [length_append] at hw; omega) hr
    · by_contra hcode
      have hneg := hright.broken hb
      rw [if_neg (show (r.prepend es).code ≠ -1 from hcode)] at hneg
      omega
  · intro hright
    refine ⟨_, q, _, hexec, ?_, fun hin => hright.only (hmem.mp hin), ?_, fun hb => ?_⟩
    · intro text body rest ht hw'
      obtain ⟨h0, hrest, hb⟩ := hright.whole text body rest ht hw'
      refine ⟨hmem.mpr h0, ?_, hbodyof.trans hb⟩
      rw [if_neg (show (r.prepend es).code ≠ -1 from fun h => absurd (h0.symm.trans h) (by decide))]
      show (((head ++ w).length - r.rest.length : ℕ) : ℤ) = _
      rw [hrest, hw', ← append_assoc, length_append, Nat.add_sub_cancel]
    · rintro text body more ht htext hmore hin
      obtain ⟨text', body', more', ht', rfl⟩ := hright.only (hmem.mp hin)
      rw [append_assoc] at htext
      exact hmore (append_eq_nil_iff.mp (ht'.front ht htext.symm)).2
    · exact if_pos (hright.broken hb)

def chunkedHead : Bytes := lit "POST / HTTP/1.1\r\nTransfer-Encoding: chunked\r\n\r\n"

theorem chunkedHead_chunked : ChunkedHead {} chunkedHead := ⟨_, _, _, _, rfl, rfl, rfl, rfl⟩

theorem lastChunk_right_iff :
    (∃ code q es, execute (fun _ => true) quiet {} {} (chunkedHead ++ lit "0\r\n\r\n") =
        some (code, q, es) ∧ ChunksRight chunkedHead (lit "0\r\n\r\n") code es) ↔
      Malformed (lit "0\r\n\r\n") ∨ Tidy (lit "0\r\n\r\n") :=
  chunkedBody_right_iff quiet_eq chunkedHead_chunked rfl rfl

/-- The line of the zero chunk completes the message before the blank line is there, and any two
bytes are taken for the end of a chunk. -/
theorem chunkedBody_ends_early :
    (Chunked (lit "0\r\n" ++ crlf) [] ∧
      ∃ q es, execute (fun _ => true) quiet {} {} (chunkedHead ++ lit "0\r\n") =
        some (50, q, es) ∧ .messageComplete ∈ es) ∧
    (Broken (lit "1\r\naXX0\r\n\r\n") ∧
      ∃ q es, execute (fun _ => true) quiet {} {}
          (chunkedHead ++ lit "1\r\naXX0\r\n\r\n") = some (58, q, es) ∧
        .messageComplete ∈ es) := by
  refine ⟨⟨?_, _, _, rfl, by decide⟩, ?_, _, _, rfl, by decide⟩
  · have hsize : SizeLine (lit "0") 0 := rfl
    exact .zero hsize ⟨[], fun l hl => absurd hl not_mem_nil, rfl⟩
  · have hsize : SizeLine (lit "1") (lit "a").length := rfl
    have hend : ¬ lit "XX0\r\n\r\n" <+: crlf := by decide
    have hend' : ¬ crlf <+: lit "XX0\r\n\r\n" := by decide
    exact .here hsize (by decide) hend hend'

end Voxlib.HttpParser
