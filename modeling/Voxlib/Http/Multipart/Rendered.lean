import Voxlib.Http.Multipart

/-!
# Multipart texts that are written out (vox_http_multipart_parser.c)
-/

namespace Voxlib.Multipart
open CStr List
open HttpParser (splitLine crlf skipBlanks cutBlanks isBlank IsLine)
open InBuffer.Multipart (Core)

structure PartField where
  name : Bytes
  value : Bytes
  name_ne : name ≠ []
  name_clean : ∀ b ∈ name, b ≠ 58 ∧ b ≠ 13 ∧ b ≠ 10
  value_ne : value ≠ []
  value_clean : ∀ b ∈ value, b ≠ 13 ∧ b ≠ 10
  front : ∀ b ∈ value.head?, isBlank b = false
  back : ∀ b ∈ value.getLast?, isBlank b = false

structure Part where
  headers : List PartField
  body : Bytes

def PartField.line (f : PartField) : Bytes := f.name ++ lit ": " ++ f.value

def Part.text (p : Part) : Bytes := (p.headers.flatMap fun f => f.line ++ crlf) ++ (crlf ++ p.body)

def dashed (boundary : Bytes) : Bytes := 10 :: (lit "--" ++ boundary)

def behindFirst (boundary : Bytes) : Part → List Part → Bytes
  | p, [] => p.text ++ (13 :: (dashed boundary ++ (lit "--" ++ crlf)))
  | p, q :: ps => p.text ++ (13 :: (dashed boundary ++ (crlf ++ behindFirst boundary q ps)))

def render (boundary : Bytes) (p : Part) (ps : List Part) : Bytes :=
  lit "--" ++ boundary ++ crlf ++ behindFirst boundary p ps

def dataEvents (body : Bytes) : List Event := if 0 < body.length then [.partData body] else []

def Part.inside (p : Part) : List Event :=
  (p.headers.flatMap fun f => [.headerField f.name, .headerValue f.value]) ++
    (.headersComplete :: (dataEvents p.body ++ [.partComplete]))

def Part.events (p : Part) : List Event := .partBegin :: p.inside

/- The parameters of a Content-Disposition are handed over besides the headers. -/
def Event.isParameter : Event → Bool
  | .name _ => true
  | .filename _ => true
  | _ => false

def withoutParameters (es : List Event) : List Event := es.filter fun e => !e.isParameter

theorem withoutParameters_append (es fs : List Event) :
    withoutParameters (es ++ fs) = withoutParameters es ++ withoutParameters fs :=
  filter_append ..

/-- The search comes to the end of a body, and what is behind the boundary there decides. -/
theorem findBoundary_body {boundary body tail : Bytes} (hb : (13 : UInt8) ∉ boundary)
    (hbody : ¬ dashed boundary <:+: body) (htail : 2 ≤ tail.length) (prev : Option UInt8)
    (pos : ℕ) : findBoundary boundary prev pos (body ++ (13 :: (dashed boundary ++ tail))) =
      findBoundary boundary (some 13) (pos + body.length + 1) (dashed boundary ++ tail) := by
  have hdash : (lit "--" ++ boundary).length = 2 + boundary.length := by
    rw [length_append]
    rfl
  have hlong : (dashed boundary ++ tail).length = 1 + (2 + boundary.length) + tail.length := by
    rw [length_append, dashed, length_cons, hdash]
    omega
  induction body generalizing prev pos with
  | nil =>
    rw [nil_append, findBoundary, if_neg (by rw [length_cons]; omega),
      if_pos (.inl (by decide))]
    rfl
  | cons b body ih =>
    have hrest : ¬ dashed boundary <:+: body := fun h => hbody (infix_cons h)
    have hskip : b ≠ 10 ∨ (body ++ (13 :: (dashed boundary ++ tail))).take (2 + boundary.length) ≠
        lit "--" ++ boundary := by
      by_contra hno
      push Not at hno
      obtain ⟨rfl, htake⟩ := hno
      by_cases hin : 2 + boundary.length ≤ body.length
      · -- the boundary would stand in the body
        rw [take_append_of_le_length hin] at htake
        refine hbody ⟨[], body.drop (2 + boundary.length), ?_⟩
        rw [nil_append, dashed, ← htake, cons_append, take_append_drop]
      · -- the boundary would have the CR in it
        have hcr : (13 : UInt8) ∈ lit "--" ++ boundary := by
          rw [← htake, take_append, mem_append]
          refine .inr ?_
          obtain ⟨k, hk⟩ : ∃ k, 2 + boundary.length - body.length = k + 1 :=
            ⟨2 + boundary.length - body.length - 1, by omega⟩
          rw [hk, take_succ_cons]
          exact mem_cons_self ..
        rcases mem_append.mp hcr with h | h
        · exact absurd h (by decide)
        · exact hb h
    rw [cons_append, findBoundary, if_neg, if_pos hskip, ih hrest]
    · rw [length_cons, show pos + 1 + body.length + 1 = pos + (body.length + 1) + 1 by omega]
    · rw [length_cons, length_append, length_cons, hlong]
      omega

theorem findBoundary_dashed {boundary tail : Bytes} (htail : 2 ≤ tail.length) (n : ℕ) :
    findBoundary boundary (some 13) (n + 1) (dashed boundary ++ tail) =
      if tail.take 2 = crlf then some (n, 2 + (2 + boundary.length) + 2, false)
      else if tail.take 4 = lit "--" ++ crlf then some (n, 2 + (2 + boundary.length) + 4, true)
      else findBoundary boundary (some 10) (n + 1 + 1) (lit "--" ++ boundary ++ tail) := by
  have hdash : (lit "--" ++ boundary).length = 2 + boundary.length := by
    rw [length_append]
    rfl
  have htake : (lit "--" ++ boundary ++ tail).take (2 + boundary.length) = lit "--" ++ boundary :=
    take_left' hdash
  have hdrop : (lit "--" ++ boundary ++ tail).drop (2 + boundary.length) = tail :=
    drop_left' hdash
  have hlong : ¬ (10 :: (lit "--" ++ boundary ++ tail)).length < 1 + 2 + boundary.length + 2 := by
    rw [length_cons, length_append, hdash]
    omega
  rw [dashed, cons_append, findBoundary, if_neg hlong, htake, hdrop, if_neg (by simp),
    if_pos rfl]
  rfl

variable {cb : Event → ℤ} {cfg : Config} {boundary : Bytes}

def Unlimited (cfg : Config) : Prop := cfg.maxHeaderSize = 0 ∧ cfg.maxHeaders = 0

theorem PartField.line_isLine (f : PartField) : IsLine f.line :=
  HttpParser.nameLine_isLine (fun h => (f.name_clean 13 h).2.1 rfl)
    fun h => (f.value_clean 13 h).1 rfl

theorem PartField.line_reads (f : PartField) :
    f.line.takeWhile (fun b => b ≠ 58) = f.name ∧ f.name.length + 2 ≤ f.line.length ∧
      cutBlanks (skipBlanks (f.line.drop (f.name.length + 1))) = f.value := by
  obtain ⟨hname, hlong, hvalue⟩ :=
    HttpParser.nameLine_reads (fun b hb => (f.name_clean b hb).1) f.front
  refine ⟨hname, hlong, ?_⟩
  rw [PartField.line, hvalue, HttpParser.cutBlanks_clean f.back]

theorem parameterEvents_names (cfg : Config) (key value : Bytes) :
    withoutParameters (parameterEvents cfg key value) = [] := by
  unfold parameterEvents
  split_ifs <;> rfl

theorem contentDisposition_names (cfg : Config) (fuel : ℕ) (value : Bytes) :
    withoutParameters (contentDisposition cfg fuel value) = [] := by
  induction fuel generalizing value with
  | zero => rfl
  | succ fuel ih =>
    rw [contentDisposition]
    dsimp only
    split
    · rfl
    split
    · exact ih _
    split
    · rfl
    split
    · rw [withoutParameters_append, parameterEvents_names, ih]
      rfl
    · rw [withoutParameters_append, parameterEvents_names, ih]
      rfl

theorem headerEvents_field (cfg : Config) (hcb : ∀ e, cb e = 0) (f : PartField) :
    ∃ es, headerEvents cb cfg f.name f.value = (es, none) ∧
      withoutParameters es = [Event.headerField f.name, Event.headerValue f.value] := by
  have hvalue := length_pos_of_ne_nil f.value_ne
  rw [headerEvents, if_neg (by simp [hcb]), if_neg (by simp [hcb]), if_pos hvalue]
  refine ⟨_, rfl, ?_⟩
  rw [withoutParameters_append]
  split
  · rw [contentDisposition_names]
    rfl
  · rfl

theorem partHeaders_fields (hcb : ∀ e, cb e = 0) (hcfg : Unlimited cfg) (fs : List PartField)
    (rest : Bytes) (c : Core) {fuel : ℕ} (hfuel : fs.length < fuel) :
    ∃ size count es, partHeaders cb cfg fuel c
        ((fs.flatMap fun f => f.line ++ crlf) ++ (crlf ++ rest)) =
          .done { c with headerSize := size, headerCount := count } es rest ∧
      withoutParameters es =
        (fs.flatMap fun f => [Event.headerField f.name, Event.headerValue f.value]) ++
          [.headersComplete] := by
  induction fs generalizing c fuel with
  | nil =>
    obtain ⟨fuel, rfl⟩ : ∃ k, fuel = k + 1 := ⟨fuel - 1, by simp at hfuel; omega⟩
    refine ⟨c.headerSize, c.headerCount, [.headersComplete], ?_, rfl⟩
    have hline : splitLine (crlf ++ rest) = some ([], rest) := rfl
    rw [flatMap_nil, nil_append, partHeaders, hline]
    dsimp only
    rw [if_pos length_nil, if_neg (not_not.mpr (hcb _))]
  | cons f fs ih =>
    obtain ⟨fuel, rfl⟩ : ∃ k, fuel = k + 1 := ⟨fuel - 1, by simp at hfuel; omega⟩
    obtain ⟨hname, hlong, hvalue⟩ := f.line_reads
    have hpos := length_pos_of_ne_nil f.name_ne
    obtain ⟨es, hes, hquiet⟩ := headerEvents_field cfg hcb f
    rw [flatMap_cons, append_assoc, partHeaders,
      HttpParser.splitLine_isLine f.line_isLine]
    dsimp only
    rw [if_neg (by omega), if_neg (by simp [hcfg.1]), if_neg (by simp [hcfg.2]), hname,
      if_neg (by omega), hvalue, hes]
    dsimp only
    obtain ⟨size, count, es', hmore, hquiet'⟩ := ih
      { c with
        headerSize := c.headerSize + (f.line.length + 2)
        headerCount := c.headerCount + 1 } (by simpa using hfuel)
    refine ⟨size, count, es ++ es', ?_, ?_⟩
    · rw [hmore]
      rfl
    · rw [withoutParameters_append, hquiet, hquiet', flatMap_cons, append_assoc]

theorem calls_all (hcb : ∀ e, cb e = 0) (es : List Event) : calls cb es = (es, true) := by
  induction es with
  | nil => rfl
  | cons e es ih => rw [calls, if_neg (not_not.mpr (hcb e)), ih]

def partCore : Core := { phase := .partHeaders }

theorem pass_headers (boundary : Bytes) (hcb : ∀ e, cb e = 0) (hcfg : Unlimited cfg) (p : Part)
    (rest : Bytes) (start : ℕ) : ∃ size count es, pass cb cfg boundary start partCore
        ((p.headers.flatMap fun f => f.line ++ crlf) ++ (crlf ++ rest)) =
          .next start { phase := .partBody, headerSize := size, headerCount := count } es rest ∧
      withoutParameters es =
        (p.headers.flatMap fun f => [Event.headerField f.name, Event.headerValue f.value]) ++
          [.headersComplete] := by
  have hfuel := HttpParser.length_le_flatMap (fun f : PartField => f.line ++ crlf)
    (fun _ => append_ne_nil_of_right_ne_nil _ (cons_ne_nil _ _)) p.headers
  obtain ⟨size, count, es, hdone, hquiet⟩ := partHeaders_fields hcb hcfg p.headers rest partCore
    (show p.headers.length < ((p.headers.flatMap fun f => f.line ++ crlf) ++
      (crlf ++ rest)).length + 1 by
        rw [length_append]
        omega)
  refine ⟨size, count, es, ?_, hquiet⟩
  show passHeaders cb cfg start partCore _ = _
  rw [passHeaders, hdone]
  rfl

theorem pass_body_next (cfg : Config) (hcb : ∀ e, cb e = 0) (hb : (13 : UInt8) ∉ boundary)
    {body : Bytes} (hbody : ¬ dashed boundary <:+: body) (next : Bytes) (start size count : ℕ) :
    pass cb cfg boundary start { phase := .partBody, headerSize := size, headerCount := count }
        (body ++ (13 :: (dashed boundary ++ (crlf ++ next)))) =
      .next start partCore (dataEvents body ++ [Event.partComplete, Event.partBegin]) next := by
  have hfound := findBoundary_body hb hbody (show 2 ≤ (crlf ++ next).length from
    Nat.le_add_left _ _) none 0
  rw [findBoundary_dashed (Nat.le_add_left _ _),
    if_pos (show (crlf ++ next).take 2 = crlf from rfl), Nat.zero_add] at hfound
  have htake : (body ++ (13 :: (dashed boundary ++ (crlf ++ next)))).take body.length = body :=
    take_left
  have hdrop : (body ++ (13 :: (dashed boundary ++ (crlf ++ next)))).drop
      (body.length + (2 + (2 + boundary.length) + 2)) = next := by
    have hsplit : body ++ (13 :: (dashed boundary ++ (crlf ++ next))) =
        (body ++ (13 :: (dashed boundary ++ crlf))) ++ next := by simp
    have hdash : (lit "--").length = 2 := rfl
    have hcrlf : crlf.length = 2 := rfl
    rw [hsplit]
    refine drop_left' ?_
    simp only [dashed, length_append, length_cons, hdash, hcrlf]
    omega
  show passBody cb boundary start _ _ = _
  rw [passBody, hfound]
  dsimp only
  rw [htake, calls_all hcb, hdrop]
  rfl

theorem pass_body_last (cfg : Config) (hcb : ∀ e, cb e = 0) (hb : (13 : UInt8) ∉ boundary)
    {body : Bytes} (hbody : ¬ dashed boundary <:+: body) (start size count : ℕ) :
    pass cb cfg boundary start { phase := .partBody, headerSize := size, headerCount := count }
        (body ++ (13 :: (dashed boundary ++ (lit "--" ++ crlf)))) =
      .stop ⟨0, start,
        { phase := .complete, complete := true, headerSize := size, headerCount := count },
        dataEvents body ++ [Event.partComplete, Event.complete]⟩ := by
  have hfound := findBoundary_body hb hbody (show 2 ≤ (lit "--" ++ crlf).length by decide) none 0
  rw [findBoundary_dashed (by decide), if_neg (by decide), if_pos (by decide), Nat.zero_add]
    at hfound
  have htake : (body ++ (13 :: (dashed boundary ++ (lit "--" ++ crlf)))).take body.length =
      body := take_left
  have hall : (body ++ (13 :: (dashed boundary ++ (lit "--" ++ crlf)))).length -
      (body.length + (2 + (2 + boundary.length) + 4)) = 0 := by
    have hdash : (lit "--").length = 2 := rfl
    have hcrlf : crlf.length = 2 := rfl
    simp only [dashed, length_append, length_cons, hdash, hcrlf]
    omega
  show passBody cb boundary start _ _ = _
  rw [passBody, hfound]
  dsimp only
  rw [htake, calls_all hcb, hall]
  rfl

theorem withoutParameters_data (body : Bytes) (e : Event) (he : e.isParameter = false) :
    withoutParameters (dataEvents body ++ [Event.partComplete, e]) =
      dataEvents body ++ [Event.partComplete, e] := by
  have hdone : Event.partComplete.isParameter = false := rfl
  have hdata (d : Bytes) : (Event.partData d).isParameter = false := rfl
  unfold dataEvents withoutParameters
  split <;> simp [hdone, hdata, he]

theorem passes_parts (hcb : ∀ e, cb e = 0) (hcfg : Unlimited cfg) (hb : (13 : UInt8) ∉ boundary)
    (ps : List Part) (p : Part) (hclean : ∀ q ∈ p :: ps, ¬ dashed boundary <:+: q.body)
    (start : ℕ) {fuel : ℕ} (hfuel : 2 * ps.length + 2 ≤ fuel) :
    ∃ r, passes cb cfg boundary fuel start partCore (behindFirst boundary p ps) = some r ∧
      r.code = 0 ∧ r.consumed = start ∧ r.core.complete = true ∧
      withoutParameters r.events = p.inside ++ (ps.flatMap Part.events ++ [Event.complete]) := by
  induction ps generalizing p fuel with
  | nil =>
    obtain ⟨fuel, rfl⟩ : ∃ k, fuel = k + 1 + 1 := ⟨fuel - 2, by omega⟩
    obtain ⟨size, count, es, hheaders, hquiet⟩ := pass_headers boundary hcb hcfg p
      (p.body ++ (13 :: (dashed boundary ++ (lit "--" ++ crlf)))) start
    have hbody := pass_body_last cfg hcb hb (hclean p (mem_cons_self ..)) start size
      count
    have htext : behindFirst boundary p [] = (p.headers.flatMap fun f => f.line ++ crlf) ++
        (crlf ++ (p.body ++ (13 :: (dashed boundary ++ (lit "--" ++ crlf))))) := by
      simp [behindFirst, Part.text]
    refine ⟨_, by rw [htext, passes, hheaders]; dsimp only; rw [passes, hbody]; rfl, rfl, rfl, rfl,
      ?_⟩
    rw [Result.prepend, withoutParameters_append, hquiet, withoutParameters_data _ _ rfl]
    simp [Part.inside]
  | cons q ps ih =>
    obtain ⟨fuel, rfl⟩ : ∃ k, fuel = k + 1 + 1 := ⟨fuel - 2, by omega⟩
    obtain ⟨size, count, es, hheaders, hquiet⟩ := pass_headers boundary hcb hcfg p
      (p.body ++ (13 :: (dashed boundary ++ (crlf ++ behindFirst boundary q ps)))) start
    have hbody := pass_body_next cfg hcb hb (hclean p (mem_cons_self ..))
      (behindFirst boundary q ps) start size count
    obtain ⟨r, hmore, hcode, hconsumed, hcomplete, hevents⟩ := ih q
      (fun x hx => hclean x (mem_cons_of_mem _ hx)) (show 2 * ps.length + 2 ≤ fuel by
        rw [length_cons] at hfuel
        omega)
    have htext : behindFirst boundary p (q :: ps) = (p.headers.flatMap fun f => f.line ++ crlf) ++
        (crlf ++ (p.body ++ (13 :: (dashed boundary ++ (crlf ++ behindFirst boundary q ps))))) := by
      simp [behindFirst, Part.text]
    refine ⟨(r.prepend (dataEvents p.body ++ [Event.partComplete, Event.partBegin])).prepend es,
      ?_, hcode, hconsumed, hcomplete, ?_⟩
    · rw [htext, passes, hheaders]
      dsimp only
      rw [passes, hbody]
      dsimp only
      rw [hmore]
      rfl
    · rw [Result.prepend, Result.prepend, withoutParameters_append, withoutParameters_append,
        hquiet, withoutParameters_data _ _ rfl, hevents]
      simp [Part.inside, Part.events]

theorem behindFirst_length (boundary : Bytes) (p : Part) (ps : List Part) :
    2 * ps.length + 2 ≤ (behindFirst boundary p ps).length := by
  have htext (p : Part) : 2 ≤ p.text.length := by
    have hcrlf : crlf.length = 2 := rfl
    rw [Part.text, length_append, length_append]
    omega
  induction ps generalizing p with
  | nil =>
    have := htext p
    rw [behindFirst, length_append]
    exact Nat.le_add_right_of_le this
  | cons q ps ih =>
    have := htext p
    have := ih q
    simp only [behindFirst, length_append, length_cons]
    omega

/-- A new parser for the boundary reports the parts of the text in one call, and reads it to its
end. -/
def RoundTrips (alloc : ℕ → Bool) (cb : Event → ℤ) (cfg : Config) (boundary : Bytes) (p : Part)
    (ps : List Part) : Prop :=
  ∃ parser q es, create alloc boundary cfg = some parser ∧
    execute alloc cb parser (render boundary p ps) =
      some (((render boundary p ps).length : ℤ), q, es) ∧
    q.core.complete = true ∧
    withoutParameters es = (p :: ps).flatMap Part.events ++ [.complete]

theorem pass_first (cfg : Config) (hcb : ∀ e, cb e = 0) (boundary : Bytes) (p : Part)
    (ps : List Part) (start : ℕ) : pass cb cfg boundary start {} (render boundary p ps) =
      .next start partCore [.partBegin] (behindFirst boundary p ps) := by
  have hskip : ¬ (render boundary p ps).take 2 = crlf := by
    have htwo : (render boundary p ps).take 2 = lit "--" := rfl
    rw [htwo]
    decide
  have hend : ¬ (render boundary p ps).take (firstEndDelim boundary).length =
      firstEndDelim boundary := by
    intro htake
    have hfront : firstEndDelim boundary <+: render boundary p ps :=
      prefix_iff_eq_take.mpr htake.symm
    rw [firstEndDelim, render, append_assoc _ (lit "--"), append_assoc _ crlf,
      prefix_append_right_inj] at hfront
    obtain ⟨x, hx⟩ := hfront
    exact absurd (List.cons.inj hx).1 (by decide)
  have hfirst : (render boundary p ps).take (firstDelim boundary).length = firstDelim boundary :=
    take_left
  have hdrop : (render boundary p ps).drop (firstDelim boundary).length =
      behindFirst boundary p ps := drop_left
  have hlong : ¬ (render boundary p ps).length < (firstDelim boundary).length := by
    have hlen : (render boundary p ps).length =
        (firstDelim boundary).length + (behindFirst boundary p ps).length := length_append
    omega
  show passFirst cb boundary start { phase := .firstBoundary } (render boundary p ps) = _
  rw [passFirst, if_neg hskip]
  dsimp only
  rw [if_neg hskip, if_neg hend, if_neg hlong, if_neg (not_not.mpr hfirst),
    if_neg (not_not.mpr (hcb _)), hdrop]
  rfl

theorem doParse_render (hcb : ∀ e, cb e = 0) (hcfg : Unlimited cfg) (hb : (13 : UInt8) ∉ boundary)
    (p : Part) (ps : List Part) (hclean : ∀ q ∈ p :: ps, ¬ dashed boundary <:+: q.body) :
    ∃ r, doParse cb cfg boundary {} (render boundary p ps) = some r ∧ r.code = 0 ∧
      r.consumed = (render boundary p ps).length ∧ r.core.complete = true ∧
      withoutParameters r.events = (p :: ps).flatMap Part.events ++ [Event.complete] := by
  have hlen : (render boundary p ps).length =
      (firstDelim boundary).length + (behindFirst boundary p ps).length := length_append
  have hfirst : 4 ≤ (firstDelim boundary).length := by
    have hdash : (lit "--").length = 2 := rfl
    have hcrlf : crlf.length = 2 := rfl
    rw [firstDelim, length_append, length_append]
    omega
  obtain ⟨r, hr, hcode, hconsumed, hcomplete, hevents⟩ := passes_parts hcb hcfg hb ps p hclean
    (render boundary p ps).length (show 2 * ps.length + 2 ≤ (render boundary p ps).length + 1 by
      have := behindFirst_length boundary p ps
      omega)
  refine ⟨r.prepend [.partBegin], ?_, hcode, hconsumed, hcomplete, ?_⟩
  · rw [doParse, if_neg (by omega), passes, pass_first cfg hcb]
    dsimp only
    rw [hr]
    rfl
  · rw [Result.prepend, withoutParameters_append, hevents, flatMap_cons, append_assoc]
    rfl

/-- One call with the text of a multipart body reports its parts, for every boundary of at most 70
bytes. -/
theorem multipart_reported {alloc : ℕ → Bool} (halloc : ∀ n, alloc n = true)
    (hcb : ∀ e, cb e = 0) (hcfg : Unlimited cfg) (hne : boundary ≠ [])
    (hshort : boundary.length ≤ 70) (hb : ∀ b ∈ boundary, b ≠ 13 ∧ b ≠ 10) (p : Part)
    (ps : List Part) (hclean : ∀ q ∈ p :: ps, ¬ dashed boundary <:+: q.body)
    (hroom : (HttpParser.ensureBuf alloc {} (render boundary p ps).length).1 = true) :
    RoundTrips alloc cb cfg boundary p ps := by
  have hcreate : ∃ parser, create alloc boundary cfg = some parser ∧ parser.config = cfg ∧
      parser.boundary = boundary ∧ parser.core = {} ∧ parser.buffer = {} := by
    have hpos := length_pos_of_ne_nil hne
    rw [create, dif_neg (by omega), if_pos (all_eq_true.mpr fun n _ => halloc n)]
    exact ⟨_, rfl, rfl, rfl, rfl, rfl⟩
  obtain ⟨parser, hparser, hconfig, hboundary, hcore, hbuffer⟩ := hcreate
  obtain ⟨r, hr, hcode, hconsumed, hcomplete, hevents⟩ :=
    doParse_render hcb hcfg (fun h => (hb 13 h).1 rfl) p ps hclean
  obtain ⟨b, hbuf⟩ : ∃ b, HttpParser.ensureBuf alloc {} (render boundary p ps).length = (true, b) :=
    ⟨_, Prod.ext hroom rfl⟩
  obtain ⟨-, -, hnil, hle⟩ := HttpParser.ensureBuf_fresh hbuf
  have hlen : (render boundary p ps).length ≠ 0 := by
    have := behindFirst_length boundary p ps
    rw [render, length_append]
    omega
  have hscan : ¬ alloc HttpParser.sizeofScannerChunk = false := by simp [halloc]
  have hexec : ∃ q, execute alloc cb parser (render boundary p ps) =
      some ((r.consumed : ℤ), q, r.events) ∧ q.core = r.core := by
    rw [execute, hcore, if_neg (by simp), if_neg (by simp), if_neg hlen, hbuffer, hbuf]
    dsimp only
    rw [if_neg (by omega), if_neg hscan]
    simp only [Parser.withBuffer, hconfig, hboundary, hcore, hnil, nil_append, hr, hcode]
    exact ⟨_, rfl, rfl⟩
  obtain ⟨q, hexec, hq⟩ := hexec
  rw [hconsumed] at hexec
  exact ⟨parser, q, r.events, hparser, hexec, hq ▸ hcomplete, hevents⟩

def sampleField : PartField :=
  ⟨lit "B", lit "x", cons_ne_nil _ _, forall_mem_of_all rfl, cons_ne_nil _ _,
    forall_mem_of_all rfl, fun _ hb => Option.some.inj hb ▸ rfl,
    fun _ hb => Option.some.inj hb ▸ rfl⟩

def samplePart : Part := ⟨[sampleField], lit "1\r\n--a\n"⟩

example : render (lit "b") samplePart [] =
    lit "--b\r\nB: x\r\n\r\n1\r\n--a\n\r\n--b--\r\n" := by decide

theorem samplePart_reported : RoundTrips (fun _ => true) (fun _ => 0) {} (lit "b") samplePart [] :=
  multipart_reported (fun _ => rfl) (fun _ => rfl) ⟨rfl, rfl⟩ (cons_ne_nil _ _) (by decide)
    (forall_mem_of_all rfl) samplePart [] (fun _ hq => mem_singleton.mp hq ▸ (by decide)) rfl

/-- There is no parser for a boundary of 71 bytes. -/
theorem long_boundary_refused : (∀ b ∈ List.replicate 71 (65 : UInt8), b ≠ 13 ∧ b ≠ 10) ∧
    ¬ dashed (List.replicate 71 65) <:+: samplePart.body ∧
    ¬ RoundTrips (fun _ => true) (fun _ => 0) {} (List.replicate 71 65) samplePart [] := by
  refine ⟨fun b hb => ?_, fun hin => ?_, ?_⟩
  · rw [(mem_replicate.mp hb).2]
    decide
  · have hlen := hin.length_le
    rw [dashed, length_cons, length_append, length_replicate] at hlen
    exact absurd hlen (by decide)
  · rintro ⟨parser, _, _, hcreate, _⟩
    have hlong : (List.replicate 71 (65 : UInt8)).length = 0 ∨
        70 < (List.replicate 71 (65 : UInt8)).length := .inr (by rw [length_replicate]; omega)
    rw [create, dif_pos hlong] at hcreate
    exact absurd hcreate.symm (Option.some_ne_none parser)

end Voxlib.Multipart
