import Voxlib.Http.Parser.Resume

/-!
# The outcome of do_parse
-/

namespace Voxlib.HttpParser
open CStr List

def Event.isFrame : Event → Bool
  | .messageBegin => true
  | .messageComplete => true
  | _ => false

def NoFrame (es : List Event) : Prop := ∀ e ∈ es, e.isFrame = false

theorem noFrame_nil : NoFrame [] := by
  intro e he
  cases he

variable {es : List Event}

theorem noFrame_append {es' : List Event} (h : NoFrame es) (h' : NoFrame es') :
    NoFrame (es ++ es') := by
  intro e he
  cases mem_append.mp he with
  | inl hl => exact h e hl
  | inr hr => exact h' e hr

theorem noFrame_singleton {e : Event} (h : e.isFrame = false) : NoFrame [e] := by
  intro e' he
  rw [mem_singleton.mp he]
  exact h

theorem noFrame_of_headers (h : HeaderEvents es) : NoFrame es := by
  intro e he
  have hh := h e he
  cases e with
  | headerField d => rfl
  | headerValue d => rfl
  | _ => cases hh

theorem count_noFrame (h : NoFrame es) {e : Event} (he : e.isFrame = true) : es.count e = 0 := by
  apply count_eq_zero.mpr
  intro hmem
  rw [h e hmem] at he
  cases he

def Out.Sound (c : Core) (out : Out) : Prop :=
  NoFrame out.events ∧ out.core.hasError = if out.ok then c.hasError else true

def Event.isStart : Event → Bool
  | .url _ => true
  | .status _ => true
  | _ => false

def StartEvents (es : List Event) : Prop := ∀ e ∈ es, e.isStart = true

theorem startEvents_nil : StartEvents [] := by
  intro e he
  cases he

theorem startEvents_singleton {e : Event} (h : e.isStart = true) : StartEvents [e] := by
  intro e' he
  rw [mem_singleton.mp he]
  exact h

theorem noFrame_of_start (h : StartEvents es) : NoFrame es := by
  intro e he
  have hs := h e he
  cases e with
  | url d => rfl
  | status d => rfl
  | _ => cases hs

def Out.Reads (c : Core) (out : Out) : Prop :=
  StartEvents out.events ∧ out.core.hasError = if out.ok then c.hasError else true

theorem failWith_reads (c c' : Core) (h : StartEvents es) (msg : String) :
    (failWith c es msg).Reads c' :=
  ⟨h, rfl⟩

theorem parseStatusLine_reads (c : Core) (line : Bytes) : (parseStatusLine c line).Reads c := by
  unfold parseStatusLine
  dsimp only
  split
  · exact failWith_reads _ _ startEvents_nil _
  · split
    · exact failWith_reads _ _ startEvents_nil _
    · split
      · exact failWith_reads _ _ startEvents_nil _
      · split
        · exact failWith_reads _ _ startEvents_nil _
        · split
          · exact failWith_reads _ _ startEvents_nil _
          · refine ⟨?_, rfl⟩
            unfold dataEvent
            split
            · exact startEvents_nil
            · exact startEvents_singleton rfl

theorem parseRequestLine_reads (cfg : Config) (c : Core) (line : Bytes) :
    (parseRequestLine cfg c line).Reads c := by
  unfold parseRequestLine
  dsimp only
  split
  · exact failWith_reads _ _ startEvents_nil _
  · split
    · exact failWith_reads _ _ startEvents_nil _
    · split
      · exact failWith_reads _ _ startEvents_nil _
      · split
        · exact failWith_reads _ _ startEvents_nil _
        · split
          · exact failWith_reads _ _ (startEvents_singleton rfl) _
          · split
            · exact failWith_reads _ _ (startEvents_singleton rfl) _
            · split
              · exact failWith_reads _ _ (startEvents_singleton rfl) _
              · exact ⟨startEvents_singleton rfl, rfl⟩

theorem parseStartLine_reads (cfg : Config) (c : Core) (line : Bytes) :
    (parseStartLine cfg c line).Reads c := by
  unfold parseStartLine
  split
  · exact failWith_reads _ _ startEvents_nil _
  · split
    · exact parseStatusLine_reads c line
    · exact parseRequestLine_reads cfg c line

theorem parseStartLine_sound (cfg : Config) (c : Core) (line : Bytes) :
    (parseStartLine cfg c line).Sound c :=
  have hreads := parseStartLine_reads cfg c line
  ⟨noFrame_of_start hreads.1, hreads.2⟩

structure Core.Ready (c : Core) : Prop where
  noError : c.hasError = false
  running : ¬ c.halted
  chunk : c.phase = .chunkData → c.chunkRemaining ≠ 0

structure Outcome (c : Core) (v : Bytes) (r : Result) : Prop where
  begins : r.events.count .messageBegin = if c.phase = .init then 1 else 0
  completes : r.events.count .messageComplete = if r.code = 0 then 1 else 0
  shorter : r.rest.length ≤ v.length
  codes : (r.code = -1 ∧ r.core.hasError = true) ∨ (r.code = -2 ∧ r.core.Ready) ∨
    (r.code = 0 ∧ r.core.hasError = false ∧ r.core.phase = .messageComplete)

theorem splitLine_suffix {v line rest : Bytes} (h : splitLine v = some (line, rest)) : rest <:+ v :=
  ⟨line ++ crlf, (splitLine_eq h).symm⟩

theorem skipTrailers_suffix (fuel : ℕ) (v : Bytes) : skipTrailers fuel v <:+ v := by
  induction fuel generalizing v with
  | zero => exact suffix_refl v
  | succ fuel ih =>
    unfold skipTrailers
    cases hline : splitLine v with
    | none => exact suffix_refl v
    | some p =>
      dsimp only
      split
      · exact (ih p.2).trans (splitLine_suffix hline)
      · exact suffix_refl v

theorem skipTrailers_length (fuel : ℕ) (v : Bytes) : (skipTrailers fuel v).length ≤ v.length :=
  (skipTrailers_suffix fuel v).length_le

variable {c : Core}

theorem ready_of_phase (herr : c.hasError = false) (hrun : ¬ c.halted) (hp : c.phase ≠ .chunkData) :
    c.Ready :=
  ⟨herr, hrun, fun h => absurd h hp⟩

theorem inHeaders_ready (hp : c.inHeaders) (herr : c.hasError = false) : c.Ready := by
  rcases hp with hp | hp
  · exact ready_of_phase herr (by simp [Core.halted, hp]) (by simp [hp])
  · exact ready_of_phase herr (by simp [Core.halted, hp]) (by simp [hp])

theorem inHeaders_ne_init (hp : c.inHeaders) : c.phase ≠ .init := by
  rcases hp with hp | hp
  · simp [hp]
  · simp [hp]

variable {v : Bytes}

theorem starved_ready (h : Starved c v) (herr : c.hasError = false) :
    c.Ready ∧ c.phase ≠ .init := by
  cases h with
  | start hp => exact ⟨ready_of_phase herr (by simp [Core.halted, hp]) (by simp [hp]), by simp [hp]⟩
  | headers hp => exact ⟨inHeaders_ready hp herr, inHeaders_ne_init hp⟩
  | body hp => exact ⟨ready_of_phase herr (by simp [Core.halted, hp]) (by simp [hp]), by simp [hp]⟩
  | chunkSize hp =>
    exact ⟨ready_of_phase herr (by simp [Core.halted, hp]) (by simp [hp]), by simp [hp]⟩
  | chunkData hp hrem => exact ⟨⟨herr, by simp [Core.halted, hp], fun _ => hrem⟩, by simp [hp]⟩
  | chunkEnd hp =>
    exact ⟨ready_of_phase herr (by simp [Core.halted, hp]) (by simp [hp]), by simp [hp]⟩

variable {cfg : Config}

theorem fails_outcome {c' : Core} (h : Fails cfg c v c' es) :
    NoFrame es ∧ c'.hasError = true ∧ c.phase ≠ .init := by
  cases h with
  | start hp hline hok =>
    rename_i line rest
    have hs := parseStartLine_sound cfg c line
    rw [Out.Sound, hok] at hs
    exact ⟨hs.1, hs.2, by simp [hp]⟩
  | headers hp hh =>
    have hs := headers_sound cfg v.length c none v (le_refl _)
    rw [hh] at hs
    exact ⟨noFrame_of_headers hs.2, hs.1, inHeaders_ne_init hp⟩
  | chunkSize hp hline hn => exact ⟨noFrame_nil, rfl, by simp [hp]⟩

variable {rest : Bytes}

theorem headers_done_sound {c₁ : Core} (h : headers cfg c none v = .done c₁ es rest) :
    c₁.hasError = c.hasError ∧ NoFrame (es ++ [Event.headersComplete]) ∧
      rest.length + 2 ≤ v.length := by
  have hs := headers_sound cfg v.length c none v (le_refl _)
  rw [h] at hs
  exact ⟨hs.1.2, noFrame_append (noFrame_of_headers hs.2.1) (noFrame_singleton rfl), hs.2.2⟩

theorem completes_outcome {c' : Core} (h : Completes cfg c v c' es rest) :
    NoFrame es ∧ c'.hasError = c.hasError ∧ c.phase ≠ .init ∧ rest.length ≤ v.length := by
  cases h with
  | headers hp hh hc hlen =>
    obtain ⟨herr, hev, hlt⟩ := headers_done_sound hh
    exact ⟨hev, herr, inHeaders_ne_init hp, by omega⟩
  | bodyNone hp hneed => exact ⟨noFrame_nil, rfl, by simp [hp], le_refl _⟩
  | body hp hneed hpos hlen =>
    exact ⟨noFrame_singleton rfl, rfl, by simp [hp], by rw [length_drop]; omega⟩
  | lastChunk hp hline hn =>
    rename_i line rest
    have hlen := splitLine_length hline
    have htrail := skipTrailers_length (rest.length + 1) rest
    refine ⟨noFrame_nil, rfl, by simp [hp], ?_⟩
    split
    · rw [length_drop]
      omega
    · omega

theorem goes_outcome {c' : Core} (h : Goes cfg c v c' es rest) :
    c'.hasError = c.hasError ∧ c'.phase ≠ .init ∧ ¬ c'.halted ∧ rest.length ≤ v.length ∧
      es.count .messageComplete = 0 ∧
      es.count .messageBegin = if c.phase = .init then 1 else 0 := by
  have hquiet : ∀ {es : List Event}, NoFrame es → c.phase ≠ .init →
      es.count .messageComplete = 0 ∧
        es.count .messageBegin = if c.phase = .init then 1 else 0 := by
    intro es hes hp
    rw [if_neg hp]
    exact ⟨count_noFrame hes rfl, count_noFrame hes rfl⟩
  cases h with
  | begin hp => simp [hp, Core.halted]
  | start hp hline hok =>
    rename_i line
    have hs := parseStartLine_sound cfg c line
    have hlen := splitLine_length hline
    rw [Out.Sound, hok] at hs
    refine ⟨hs.2, by simp, by simp [Core.halted], by omega, hquiet hs.1 (by simp [hp])⟩
  | headersChunked hp hh hc =>
    obtain ⟨herr, hev, hlt⟩ := headers_done_sound hh
    exact ⟨herr, by simp, by simp [Core.halted], by omega, hquiet hev (inHeaders_ne_init hp)⟩
  | headersBody hp hh hc hlen =>
    obtain ⟨herr, hev, hlt⟩ := headers_done_sound hh
    exact ⟨herr, by simp, by simp [Core.halted], by omega, hquiet hev (inHeaders_ne_init hp)⟩
  | bodyPart hp hne hlen => simp [hp, Core.halted]
  | chunk hp hline hn hpos =>
    have hlen := splitLine_length hline
    exact ⟨rfl, by simp, by simp [Core.halted], by omega, hquiet noFrame_nil (by simp [hp])⟩
  | chunkNone hp hrem => simp [hp, Core.halted]
  | chunkAll hp hrem hlen => simp [hp, Core.halted]
  | chunkPart hp hne hlen => simp [hp, Core.halted]
  | chunkNext hp hlen => simp [hp, Core.halted]

variable {r : Result}

theorem ends_outcome (h : Ends cfg c v r) (herr : c.hasError = false) (hrun : ¬ c.halted) :
    Outcome c v r := by
  cases h with
  | starved h =>
    obtain ⟨hready, hp⟩ := starved_ready h herr
    exact ⟨by simp [Result.more, hp], rfl, le_refl _, .inr (.inl ⟨rfl, hready⟩)⟩
  | lost hp hh =>
    rename_i c₁ rest es hd
    have hs := headers_sound cfg v.length c none v (le_refl _)
    rw [hh] at hs
    obtain ⟨⟨hphase, herr'⟩, hev, hlen⟩ := hs
    have hp' : c₁.inHeaders := by
      unfold Core.inHeaders
      rw [hphase]
      exact hp
    refine ⟨?_, ?_, hlen, .inr (.inl ⟨rfl, inHeaders_ready hp' (herr'.trans herr)⟩)⟩
    · rw [if_neg (inHeaders_ne_init hp)]
      exact count_noFrame (noFrame_of_headers hev) rfl
    · exact count_noFrame (noFrame_of_headers hev) rfl
  | failed h =>
    obtain ⟨hev, herr', hp⟩ := fails_outcome h
    refine ⟨?_, count_noFrame hev rfl, Nat.zero_le _, .inl ⟨rfl, herr'⟩⟩
    rw [if_neg hp]
    exact count_noFrame hev rfl
  | completed h =>
    obtain ⟨hev, herr', hp, hlen⟩ := completes_outcome h
    refine ⟨?_, ?_, hlen, .inr (.inr ⟨rfl, herr'.trans herr, rfl⟩)⟩
    · rw [if_neg hp, Result.finished, count_append, count_noFrame hev rfl]
      rfl
    · rw [Result.finished, count_append, count_noFrame hev rfl]
      rfl
  | halted hp => exact absurd hp hrun

theorem parses_outcome (h : Parses cfg c v r) (herr : c.hasError = false) (hrun : ¬ c.halted) :
    Outcome c v r := by
  induction h with
  | ends h => exact ends_outcome h herr hrun
  | goes hg hr ih =>
    obtain ⟨herr', hinit, hrun', hlen, hdone, hbegin⟩ := goes_outcome hg
    obtain ⟨hb, hc, hs, hcodes⟩ := ih (herr'.trans herr) hrun'
    rw [if_neg hinit] at hb
    refine ⟨?_, ?_, hs.trans hlen, hcodes⟩
    · rw [Result.prepend, count_append, hbegin, hb, Nat.add_zero]
    · rw [Result.prepend, count_append, hdone, hc, Nat.zero_add]

/- The first line is in the view; so are the headers up to the empty line,
   unless no line of them is. -/
def StartsWell (v : Bytes) : Prop :=
  match splitLine v with
  | none => False
  | some (_, rest) => splitLine rest = none ∨ headerEnd (rest.length + 1) rest = true

def CutOk (c : Core) (v : Bytes) : Prop :=
  match c.phase with
  | .init => StartsWell v
  | .startLine => StartsWell v
  | .headerName => headerEnd (v.length + 1) v = true
  | .headerValue => headerEnd (v.length + 1) v = true
  | .chunkSize => splitLine v ≠ none
  | .chunkEnd => 2 ≤ v.length
  | _ => True

instance (v : Bytes) : Decidable (StartsWell v) :=
  match h : splitLine v with
  | none => .isFalse (by simp [StartsWell, h])
  | some (_, rest) =>
    decidable_of_iff (splitLine rest = none ∨ headerEnd (rest.length + 1) rest = true)
      (by simp [StartsWell, h])

instance (c : Core) (v : Bytes) : Decidable (CutOk c v) :=
  match h : c.phase with
  | .init => decidable_of_iff (StartsWell v) (by simp [CutOk, h])
  | .startLine => decidable_of_iff (StartsWell v) (by simp [CutOk, h])
  | .headerName => decidable_of_iff (headerEnd (v.length + 1) v = true) (by simp [CutOk, h])
  | .headerValue => decidable_of_iff (headerEnd (v.length + 1) v = true) (by simp [CutOk, h])
  | .chunkSize => decidable_of_iff (splitLine v ≠ none) (by simp [CutOk, h])
  | .chunkEnd => decidable_of_iff (2 ≤ v.length) (by simp [CutOk, h])
  | .headersDone => .isTrue (by simp [CutOk, h])
  | .body => .isTrue (by simp [CutOk, h])
  | .chunkData => .isTrue (by simp [CutOk, h])
  | .messageComplete => .isTrue (by simp [CutOk, h])
  | .error => .isTrue (by simp [CutOk, h])

def Core.pastHeaders (c : Core) : Prop :=
  c.phase = .body ∨ c.phase = .chunkSize ∨ c.phase = .chunkData ∨ c.phase = .chunkEnd

theorem parses_pastHeaders (h : Parses cfg c v r) (hp : c.pastHeaders) : r.dropped = none := by
  induction h with
  | ends h =>
    cases h with
    | lost hp' hh => rcases hp with hp | hp | hp | hp <;> simp [Core.inHeaders, hp] at hp'
    | _ => rfl
  | goes hg hr ih =>
    apply ih
    cases hg with
    | begin hp' => rcases hp with hp | hp | hp | hp <;> simp [hp] at hp'
    | start hp' => rcases hp with hp | hp | hp | hp <;> simp [hp] at hp'
    | headersChunked => exact .inr (.inl rfl)
    | headersBody => exact .inl rfl
    | bodyPart hp' => exact .inl hp'
    | chunk => exact .inr (.inr (.inl rfl))
    | chunkNone => exact .inr (.inr (.inr rfl))
    | chunkAll => exact .inr (.inr (.inr rfl))
    | chunkPart hp' => exact .inr (.inr (.inl hp'))
    | chunkNext => exact .inr (.inl rfl)

/- No header is dropped, and a byte is read unless the message is complete or fails. -/
def Progress (v : Bytes) (r : Result) : Prop :=
  r.dropped = none ∧ (r.code = -2 → r.rest.length < v.length)

theorem Progress.prepend (h : Progress rest r) (hlen : rest.length ≤ v.length) (es : List Event) :
    Progress v (r.prepend es) :=
  ⟨h.1, fun hcode => (h.2 hcode).trans_le hlen⟩

section
variable (h : Parses cfg c v r)
include h

theorem goes_progress {c' : Core} (hg : Goes cfg c v c' es rest) (herr : c.hasError = false)
    (hpast : c'.pastHeaders) (hlt : rest.length < v.length) : Progress v r := by
  obtain ⟨hkeep, _, hrun, _⟩ := goes_outcome hg
  obtain ⟨r', hr'⟩ := parses_total cfg c' rest
  have hshort := (parses_outcome hr' (hkeep.trans herr) hrun).shorter
  have hkept := parses_pastHeaders hr' hpast
  rw [parses_unique h (.goes hg hr')]
  exact ⟨hkept, fun _ => hshort.trans_lt hlt⟩

theorem ends_progress {r' : Result} (he : Ends cfg c v r') (hd : r'.dropped = none)
    (hcode : r'.code ≠ -2) : Progress v r := by
  rw [parses_unique h (.ends he)]
  exact ⟨hd, fun h => absurd h hcode⟩

theorem headerEnd_progress (hp : c.inHeaders) (herr : c.hasError = false)
    (hend : headerEnd (v.length + 1) v = true) : Progress v r := by
  have hwaits := headers_waits cfg v.length c none v (le_refl _)
  cases hh : headers cfg c none v with
  | more c₁ es rest dropped =>
    rw [hh] at hwaits
    rw [hwaits.1] at hend
    cases hend
  | fail c₁ es =>
    exact ends_progress h (.failed (.headers hp hh)) rfl (by simp [Result.failed])
  | done c₁ es rest =>
    obtain ⟨herr', hev, hlt⟩ := headers_done_sound hh
    cases hc : c₁.chunked with
    | true =>
      exact goes_progress h (.headersChunked hp hh hc) herr (.inr (.inl rfl)) (by omega)
    | false =>
      by_cases hlen : c₁.contentLength > 0
      · exact goes_progress h (.headersBody hp hh hc hlen) herr (.inl rfl) (by omega)
      · exact ends_progress h (.completed (.headers hp hh hc (by omega))) rfl
          (by simp [Result.finished])

theorem startsWell_progress (hp : c.phase = .startLine) (herr : c.hasError = false)
    (hcut : StartsWell v) : Progress v r := by
  unfold StartsWell at hcut
  cases hline : splitLine v with
  | none =>
    rw [hline] at hcut
    exact hcut.elim
  | some p =>
    obtain ⟨line, rest⟩ := p
    rw [hline] at hcut
    dsimp only at hcut
    have hlen := splitLine_length hline
    cases hok : (parseStartLine cfg c line).ok with
    | false =>
      exact ends_progress h (.failed (.start hp hline hok)) rfl (by simp [Result.failed])
    | true =>
      have hg : Goes cfg c v _ _ _ := .start hp hline hok
      obtain ⟨hkeep, _⟩ := goes_outcome hg
      obtain ⟨r', hr'⟩ := parses_total cfg _ rest
      rw [parses_unique h (.goes hg hr')]
      cases hcut with
      | inl hnone =>
        rw [parses_unique hr' (.ends (.starved (.headers (.inl rfl) hnone)))]
        exact ⟨rfl, fun _ => show rest.length < v.length by omega⟩
      | inr hend =>
        have hprog := headerEnd_progress hr' (.inl rfl) (hkeep.trans herr) hend
        exact hprog.prepend (by omega) _

theorem cutOk_progress (hready : c.Ready) (hne : v ≠ []) (hcut : CutOk c v) : Progress v r := by
  have hpos := length_pos_iff.mpr hne
  have herr := hready.noError
  unfold CutOk at hcut
  cases hp : c.phase with
  | init =>
    rw [hp] at hcut
    have hg : Goes cfg c v _ _ _ := .begin hp
    obtain ⟨r', hr'⟩ := parses_total cfg { c with phase := .startLine } v
    rw [parses_unique h (.goes hg hr')]
    have hprog := startsWell_progress hr' rfl herr hcut
    exact hprog.prepend (le_refl _) _
  | startLine =>
    rw [hp] at hcut
    exact startsWell_progress h hp herr hcut
  | headerName =>
    rw [hp] at hcut
    exact headerEnd_progress h (.inl hp) herr hcut
  | headerValue =>
    rw [hp] at hcut
    exact headerEnd_progress h (.inr hp) herr hcut
  | body =>
    by_cases hneed : c.contentLength - c.bodyRead = 0
    · exact ends_progress h (.completed (.bodyNone hp hneed)) rfl (by simp [Result.finished])
    · by_cases hlen : v.length < c.contentLength - c.bodyRead
      · exact goes_progress h (.bodyPart hp hne hlen) herr (.inl hp) hpos
      · exact ends_progress h (.completed (.body hp rfl hneed (by omega))) rfl
          (by simp [Result.finished])
  | chunkSize =>
    rw [hp] at hcut
    obtain ⟨p, hline⟩ := Option.ne_none_iff_exists'.mp hcut
    obtain ⟨line, rest⟩ := p
    have hlen := splitLine_length hline
    cases hn : parseChunkSize line with
    | none => exact ends_progress h (.failed (.chunkSize hp hline hn)) rfl (by simp [Result.failed])
    | some n =>
      by_cases hz : n = 0
      · subst hz
        exact ends_progress h (.completed (.lastChunk hp hline hn)) rfl (by simp [Result.finished])
      · exact goes_progress h (.chunk hp hline hn hz) herr (.inr (.inr (.inl rfl))) (by omega)
  | chunkData =>
    have hrem := hready.chunk hp
    by_cases hlen : v.length < c.chunkRemaining
    · exact goes_progress h (.chunkPart hp hne hlen) herr (.inr (.inr (.inl hp))) hpos
    · exact goes_progress h (.chunkAll hp hrem (by omega)) herr (.inr (.inr (.inr rfl)))
        (by rw [length_drop]; omega)
  | chunkEnd =>
    rw [hp] at hcut
    exact goes_progress h (.chunkNext hp hcut) herr (.inr (.inl rfl))
      (by rw [length_drop]; omega)
  | headersDone => exact absurd (.inl hp) hready.running
  | messageComplete => exact absurd (.inr (.inl hp)) hready.running
  | error => exact absurd (.inr (.inr hp)) hready.running

end

section
variable {cfg : Config} {v line rest : Bytes} {c : Core}

def HeadersResult.Within (v : Bytes) : HeadersResult → Prop
  | .more _ _ rest _ => rest <:+ v
  | .fail _ _ => True
  | .done _ _ rest => rest <:+ v

theorem HeadersResult.Within.prepend {r : HeadersResult} (h : r.Within rest) (hsuf : rest <:+ v)
    (es : List Event) : (r.prepend es).Within v := by
  cases r with
  | fail c es' => trivial
  | _ => exact h.trans hsuf

theorem headersLoop_within (fuel : ℕ) (c : Core) (h : Option Header) (v : Bytes) :
    (headersLoop cfg fuel c h v).Within v := by
  induction fuel generalizing c h v with
  | zero => exact suffix_refl v
  | succ fuel ih =>
    unfold headersLoop
    cases hline : splitLine v with
    | none => exact suffix_refl v
    | some p =>
      have hsuf := splitLine_suffix hline
      dsimp only
      split
      · cases h with
        | none => exact hsuf
        | some hd =>
          dsimp only
          split
          · exact hsuf
          · trivial
      · cases h with
        | none =>
          dsimp only
          cases newHeader p.1 with
          | none => trivial
          | some hd =>
            have hnext := (ih c (some hd) p.2).prepend hsuf []
            rwa [prepend_nil] at hnext
        | some hd =>
          dsimp only
          split
          · exact (ih _ _ p.2).prepend hsuf _
          · split
            · trivial
            · cases newHeader p.1 with
              | none => trivial
              | some hd' => exact (ih _ _ p.2).prepend hsuf _

theorem headers_within {h : Option Header} {r : HeadersResult} (hh : headers cfg c h v = r) :
    r.Within v := by
  rw [← hh]
  exact headersLoop_within _ c h v

theorem goes_suffix {c' : Core} {es : List Event} (h : Goes cfg c v c' es rest) : rest <:+ v := by
  cases h with
  | start _ hline => exact splitLine_suffix hline
  | chunk _ hline => exact splitLine_suffix hline
  | headersChunked _ hh => exact headers_within hh
  | headersBody _ hh => exact headers_within hh
  | bodyPart => exact nil_suffix
  | chunkPart => exact nil_suffix
  | chunkAll => exact drop_suffix _ v
  | chunkNext => exact drop_suffix _ v
  | begin => exact suffix_refl v
  | chunkNone => exact suffix_refl v

theorem ends_suffix {r : Result} (h : Ends cfg c v r) : r.rest <:+ v := by
  cases h with
  | starved => exact suffix_refl v
  | lost _ hh => exact headers_within hh
  | failed => exact nil_suffix
  | halted => exact suffix_refl v
  | completed hc =>
    cases hc with
    | headers _ hh => exact headers_within hh
    | bodyNone => exact suffix_refl v
    | body => exact drop_suffix _ v
    | lastChunk _ hline =>
      have hsuf := splitLine_suffix hline
      dsimp only [Result.finished]
      split
      · exact (drop_suffix _ _).trans ((skipTrailers_suffix _ _).trans hsuf)
      · exact (skipTrailers_suffix _ _).trans hsuf

theorem parses_suffix {r : Result} (h : Parses cfg c v r) : r.rest <:+ v := by
  induction h with
  | ends hr => exact ends_suffix hr
  | goes hg _ ih => exact ih.trans (goes_suffix hg)

end

end Voxlib.HttpParser
