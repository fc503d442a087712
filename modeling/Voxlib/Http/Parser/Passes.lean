import Voxlib.Http.Parser.Headers

/-!
# The passes of do_parse

A pass goes on (`Goes`) or returns (`Ends`); `Parses` chains them up to the return.
-/

namespace Voxlib.HttpParser
open CStr List

def Result.finished (c : Core) (events : List Event) (rest : Bytes) : Result :=
  { code := 0, core := { c with phase := .messageComplete, complete := true },
    events := events ++ [.messageComplete], rest := rest }

def Core.inHeaders (c : Core) : Prop := c.phase = .headerName ∨ c.phase = .headerValue

inductive Goes (cfg : Config) : Core → Bytes → Core → List Event → Bytes → Prop
  | begin {c : Core} {v : Bytes} (hp : c.phase = .init) :
    Goes cfg c v { c with phase := .startLine } [.messageBegin] v
  | start {c : Core} {v line rest : Bytes} (hp : c.phase = .startLine)
    (hline : splitLine v = some (line, rest)) (hok : (parseStartLine cfg c line).ok = true) :
    Goes cfg c v { (parseStartLine cfg c line).core with phase := .headerName, headerCount := 0 }
      (parseStartLine cfg c line).events rest
  | headersChunked {c c₁ : Core} {v rest : Bytes} {es : List Event} (hp : c.inHeaders)
    (hh : headers cfg c none v = .done c₁ es rest) (hc : c₁.chunked = true) :
    Goes cfg c v { c₁ with phase := .chunkSize } (es ++ [.headersComplete]) rest
  | headersBody {c c₁ : Core} {v rest : Bytes} {es : List Event} (hp : c.inHeaders)
    (hh : headers cfg c none v = .done c₁ es rest) (hc : c₁.chunked = false)
    (hlen : c₁.contentLength > 0) :
    Goes cfg c v { c₁ with phase := .body } (es ++ [.headersComplete]) rest
  | bodyPart {c : Core} {v : Bytes} (hp : c.phase = .body) (hne : v ≠ [])
    (hlen : v.length < c.contentLength - c.bodyRead) :
    Goes cfg c v { c with bodyRead := c.bodyRead + v.length } [.body v] []
  | chunk {c : Core} {v line rest : Bytes} {n : ℕ} (hp : c.phase = .chunkSize)
    (hline : splitLine v = some (line, rest)) (hn : parseChunkSize line = some n) (hpos : n ≠ 0) :
    Goes cfg c v { c with chunkRemaining := n, phase := .chunkData } [] rest
  | chunkNone {c : Core} {v : Bytes} (hp : c.phase = .chunkData) (hrem : c.chunkRemaining = 0) :
    Goes cfg c v { c with phase := .chunkEnd } [] v
  | chunkAll {c : Core} {v : Bytes} (hp : c.phase = .chunkData) (hrem : c.chunkRemaining ≠ 0)
    (hlen : c.chunkRemaining ≤ v.length) :
    Goes cfg c v { c with chunkRemaining := 0, phase := .chunkEnd }
      [.body (v.take c.chunkRemaining)] (v.drop c.chunkRemaining)
  | chunkPart {c : Core} {v : Bytes} (hp : c.phase = .chunkData) (hne : v ≠ [])
    (hlen : v.length < c.chunkRemaining) :
    Goes cfg c v { c with chunkRemaining := c.chunkRemaining - v.length } [.body v] []
  | chunkNext {c : Core} {v : Bytes} (hp : c.phase = .chunkEnd) (hlen : 2 ≤ v.length) :
    Goes cfg c v { c with phase := .chunkSize } [] (v.drop 2)

inductive Starved : Core → Bytes → Prop
  | start {c : Core} {v : Bytes} (hp : c.phase = .startLine) (hline : splitLine v = none) :
    Starved c v
  | headers {c : Core} {v : Bytes} (hp : c.inHeaders) (hline : splitLine v = none) : Starved c v
  | body {c : Core} (hp : c.phase = .body) (hlen : c.contentLength - c.bodyRead ≠ 0) :
    Starved c []
  | chunkSize {c : Core} {v : Bytes} (hp : c.phase = .chunkSize) (hline : splitLine v = none) :
    Starved c v
  | chunkData {c : Core} (hp : c.phase = .chunkData) (hrem : c.chunkRemaining ≠ 0) : Starved c []
  | chunkEnd {c : Core} {v : Bytes} (hp : c.phase = .chunkEnd) (hlen : v.length < 2) : Starved c v

inductive Completes (cfg : Config) : Core → Bytes → Core → List Event → Bytes → Prop
  | headers {c c₁ : Core} {v rest : Bytes} {es : List Event} (hp : c.inHeaders)
    (hh : headers cfg c none v = .done c₁ es rest) (hc : c₁.chunked = false)
    (hlen : c₁.contentLength = 0) : Completes cfg c v c₁ (es ++ [.headersComplete]) rest
  | bodyNone {c : Core} {v : Bytes} (hp : c.phase = .body)
    (hneed : c.contentLength - c.bodyRead = 0) : Completes cfg c v c [] v
  | body {c : Core} {v : Bytes} {n : ℕ} (hp : c.phase = .body)
    (hneed : c.contentLength - c.bodyRead = n) (hpos : n ≠ 0) (hlen : n ≤ v.length) :
    Completes cfg c v { c with bodyRead := c.bodyRead + n } [.body (v.take n)] (v.drop n)
  | lastChunk {c : Core} {v line rest : Bytes} (hp : c.phase = .chunkSize)
    (hline : splitLine v = some (line, rest)) (hn : parseChunkSize line = some 0) :
    Completes cfg c v { c with chunkRemaining := 0 } []
      (if (skipTrailers (rest.length + 1) rest).length ≥ 2
        then (skipTrailers (rest.length + 1) rest).drop 2 else skipTrailers (rest.length + 1) rest)

inductive Fails (cfg : Config) : Core → Bytes → Core → List Event → Prop
  | start {c : Core} {v line rest : Bytes} (hp : c.phase = .startLine)
    (hline : splitLine v = some (line, rest)) (hok : (parseStartLine cfg c line).ok = false) :
    Fails cfg c v (parseStartLine cfg c line).core (parseStartLine cfg c line).events
  | headers {c c₁ : Core} {v : Bytes} {es : List Event} (hp : c.inHeaders)
    (hh : headers cfg c none v = .fail c₁ es) : Fails cfg c v c₁ es
  | chunkSize {c : Core} {v line rest : Bytes} (hp : c.phase = .chunkSize)
    (hline : splitLine v = some (line, rest)) (hn : parseChunkSize line = none) :
    Fails cfg c v (setError c "invalid chunk size") []

def Core.halted (c : Core) : Prop :=
  c.phase = .headersDone ∨ c.phase = .messageComplete ∨ c.phase = .error

inductive Ends (cfg : Config) : Core → Bytes → Result → Prop
  | starved {c : Core} {v : Bytes} (h : Starved c v) : Ends cfg c v (.more c [] v)
  | lost {c c₁ : Core} {v rest : Bytes} {es : List Event} {hd : Header} (hp : c.inHeaders)
    (hh : headers cfg c none v = .more c₁ es rest (some hd)) :
    Ends cfg c v { Result.more c₁ es rest with dropped := some hd }
  | failed {c c₁ : Core} {v : Bytes} {es : List Event} (h : Fails cfg c v c₁ es) :
    Ends cfg c v (.failed c₁ es)
  | completed {c c₁ : Core} {v rest : Bytes} {es : List Event} (h : Completes cfg c v c₁ es rest) :
    Ends cfg c v (.finished c₁ es rest)
  | halted {c : Core} {v : Bytes} (hp : c.halted) :
    Ends cfg c v { code := 0, core := c, events := [], rest := v }

section
variable {cb : Event → ℤ} {cfg : Config}

theorem finish_quiet (hcb : ∀ e, cb e = 0) (c : Core) (es : List Event) (rest : Bytes) :
    finish cb c es rest = .stop (.finished c es rest) := by
  unfold finish
  dsimp only
  rw [if_neg (not_not.mpr (hcb _))]
  rfl

def Pass.Rule (cfg : Config) (c : Core) (v : Bytes) : Pass → Prop
  | .next c' es rest => Goes cfg c v c' es rest
  | .stop r => Ends cfg c v r

theorem parseHeaders_eq (c : Core) (v : Bytes) : parseHeaders cfg c v = headers cfg c none v := rfl

section
variable (hcb : ∀ e, cb e = 0)
include hcb

theorem passHeaders_rule {c : Core} (hp : c.inHeaders) (v : Bytes) :
    (passHeaders cb cfg c v).Rule cfg c v := by
  have hwaits := headers_waits cfg v.length c none v (le_refl _)
  unfold passHeaders
  rw [parseHeaders_eq]
  cases hh : headers cfg c none v with
  | more c₁ es rest dropped =>
    rw [hh] at hwaits
    cases dropped with
    | none =>
      have hline := (hwaits.2 rfl).2
      rw [headers_none hline] at hh
      obtain ⟨rfl, rfl, rfl, -⟩ := HeadersResult.more.inj hh
      exact .starved (.headers hp hline)
    | some hd => exact .lost hp hh
  | fail c₁ es => exact .failed (.headers hp hh)
  | done c₁ es rest =>
    dsimp only
    rw [if_neg (not_not.mpr (hcb _))]
    split
    · rename_i hc
      exact .headersChunked hp hh hc
    · rename_i hc
      rw [Bool.not_eq_true] at hc
      split
      · rename_i hlen
        exact .headersBody hp hh hc hlen
      · rename_i hlen
        rw [finish_quiet hcb]
        exact .completed (.headers hp hh hc (by omega))

theorem passBody_rule {c : Core} (hp : c.phase = .body) (v : Bytes) :
    (passBody cb c v).Rule cfg c v := by
  unfold passBody
  dsimp only
  split
  · rename_i hneed
    rw [finish_quiet hcb]
    exact .completed (.bodyNone hp hneed)
  · rename_i hneed
    split
    · rename_i hv
      rw [length_eq_zero_iff.mp hv]
      exact .starved (.body hp hneed)
    · rename_i hv
      have hne : v ≠ [] := fun h => hv (by rw [h]; rfl)
      rw [if_neg (not_not.mpr (hcb _))]
      by_cases hlen : v.length < c.contentLength - c.bodyRead
      · have htake : (if c.contentLength - c.bodyRead < v.length
            then c.contentLength - c.bodyRead else v.length) = v.length := by
          rw [if_neg (by omega)]
        rw [htake, take_length, drop_length, if_neg (by omega)]
        exact .bodyPart hp hne hlen
      · have htake : (if c.contentLength - c.bodyRead < v.length
            then c.contentLength - c.bodyRead else v.length) = c.contentLength - c.bodyRead := by
          split
          · rfl
          · omega
        have hseg : (v.take (c.contentLength - c.bodyRead)).length =
            c.contentLength - c.bodyRead := by
          rw [length_take]
          omega
        rw [htake, hseg, if_pos (by omega), finish_quiet hcb]
        exact .completed (.body hp rfl hneed (by omega))

theorem passChunkSize_rule {c : Core} (hp : c.phase = .chunkSize) (v : Bytes) :
    (passChunkSize cb c v).Rule cfg c v := by
  unfold passChunkSize
  cases hline : splitLine v with
  | none => exact .starved (.chunkSize hp hline)
  | some p =>
    obtain ⟨line, rest⟩ := p
    dsimp only
    cases hn : parseChunkSize line with
    | none => exact .failed (.chunkSize hp hline hn)
    | some n =>
      cases n with
      | zero =>
        rw [finish_quiet hcb]
        exact .completed (.lastChunk hp hline hn)
      | succ n => exact .chunk hp hline hn (by omega)

theorem passChunkData_rule {c : Core} (hp : c.phase = .chunkData) (v : Bytes) :
    (passChunkData cb c v).Rule cfg c v := by
  unfold passChunkData
  split
  · rename_i hrem
    exact .chunkNone hp hrem
  · rename_i hrem
    split
    · rename_i hv
      rw [length_eq_zero_iff.mp hv]
      exact .starved (.chunkData hp hrem)
    · rename_i hv
      have hne : v ≠ [] := fun h => hv (by rw [h]; rfl)
      dsimp only
      rw [if_neg (not_not.mpr (hcb _))]
      by_cases hlen : v.length < c.chunkRemaining
      · have htake : (if c.chunkRemaining < v.length then c.chunkRemaining else v.length) =
            v.length := by
          rw [if_neg (by omega)]
        rw [htake, take_length, drop_length, if_neg (by omega)]
        exact .chunkPart hp hne hlen
      · have htake : (if c.chunkRemaining < v.length then c.chunkRemaining else v.length) =
            c.chunkRemaining := by
          split
          · rfl
          · omega
        rw [htake, Nat.sub_self, if_pos rfl]
        exact .chunkAll hp hrem (by omega)

end

theorem pass_rule (cfg : Config) (hcb : ∀ e, cb e = 0) (c : Core) (v : Bytes) :
    (pass cb cfg c v).Rule cfg c v := by
  unfold pass
  cases hp : c.phase with
  | init =>
    dsimp only
    rw [if_neg (not_not.mpr (hcb _))]
    exact .begin hp
  | startLine =>
    dsimp only
    cases hline : splitLine v with
    | none => exact .starved (.start hp hline)
    | some p =>
      obtain ⟨line, rest⟩ := p
      dsimp only
      split
      · rename_i hok
        exact .start hp hline hok
      · rename_i hok
        rw [Bool.not_eq_true] at hok
        exact .failed (.start hp hline hok)
  | headerName => exact passHeaders_rule hcb (.inl hp) v
  | headerValue => exact passHeaders_rule hcb (.inr hp) v
  | headersDone => exact .halted (.inl hp)
  | body => exact passBody_rule hcb hp v
  | chunkSize => exact passChunkSize_rule hcb hp v
  | chunkData => exact passChunkData_rule hcb hp v
  | chunkEnd =>
    dsimp only
    split
    · rename_i hlen
      exact .starved (.chunkEnd hp hlen)
    · exact .chunkNext hp (by omega)
  | messageComplete => exact .halted (.inr (.inl hp))
  | error => exact .halted (.inr (.inr hp))

end

def quiet : Event → ℤ := fun _ => 0

theorem quiet_eq (e : Event) : quiet e = 0 := rfl

variable {c : Core}

theorem passHeaders_quiet {cfg : Config} (hp : c.inHeaders) (v : Bytes) :
    pass quiet cfg c v = passHeaders quiet cfg c v := by
  unfold pass
  cases hp with
  | inl h => rw [h]
  | inr h => rw [h]

variable {v : Bytes} {es : List Event}

theorem goes_pass {cfg : Config} {c' : Core} {rest : Bytes} (h : Goes cfg c v c' es rest) :
    pass quiet cfg c v = .next c' es rest := by
  cases h with
  | begin hp => simp [pass, hp, quiet]
  | start hp hline hok => simp [pass, hp, hline, hok]
  | headersChunked hp hh hc =>
    rw [passHeaders_quiet hp, passHeaders, parseHeaders_eq, hh]
    simp [quiet, hc]
  | headersBody hp hh hc hlen =>
    rw [passHeaders_quiet hp, passHeaders, parseHeaders_eq, hh]
    simp [quiet, hc, hlen]
  | bodyPart hp hne hlen =>
    have hneed : c.contentLength - c.bodyRead ≠ 0 := by omega
    have hv : v.length ≠ 0 := fun h => hne (length_eq_zero_iff.mp h)
    have hmin : ¬ c.contentLength - c.bodyRead < v.length := by omega
    have hleft : ¬ c.bodyRead + v.length ≥ c.contentLength := by omega
    simp only [pass, hp, passBody, quiet, hneed, hv, hmin, hleft, if_false, take_length,
      drop_length, ne_eq, not_true_eq_false]
  | chunk hp hline hn hpos =>
    rename_i line n
    obtain ⟨n, rfl⟩ : ∃ m, n = m + 1 := ⟨n - 1, by omega⟩
    simp [pass, hp, passChunkSize, hline, hn]
  | chunkNone hp hrem => simp [pass, hp, passChunkData, hrem]
  | chunkAll hp hrem hlen =>
    have hv : v.length ≠ 0 := by omega
    have hmin : (if c.chunkRemaining < v.length then c.chunkRemaining else v.length) =
        c.chunkRemaining := by
      split
      · rfl
      · omega
    simp only [pass, hp, passChunkData, quiet, hrem, hv, hmin, if_false, Nat.sub_self, if_true,
      ne_eq, not_true_eq_false]
  | chunkPart hp hne hlen =>
    have hv : v.length ≠ 0 := fun h => hne (length_eq_zero_iff.mp h)
    have hrem : c.chunkRemaining ≠ 0 := by omega
    have hmin : ¬ c.chunkRemaining < v.length := by omega
    have hleft : ¬ c.chunkRemaining - v.length = 0 := by omega
    simp only [pass, hp, passChunkData, quiet, hrem, hv, hmin, hleft, if_false, take_length,
      drop_length, ne_eq, not_true_eq_false]
  | chunkNext hp hlen => simp [pass, hp, Nat.not_lt.mpr hlen]

theorem starved_pass {cfg : Config} (h : Starved c v) :
    pass quiet cfg c v = .stop (.more c [] v) := by
  cases h with
  | start hp hline => simp [pass, hp, hline]
  | headers hp hline =>
    rw [passHeaders_quiet hp, passHeaders, parseHeaders_eq, headers_none hline]
    rfl
  | body hp hlen => simp only [pass, hp, passBody, hlen, if_false, length_nil, if_true]
  | chunkSize hp hline => simp [pass, hp, passChunkSize, hline]
  | chunkData hp hrem => simp [pass, hp, passChunkData, hrem]
  | chunkEnd hp hlen => simp [pass, hp, hlen]

theorem completes_pass {cfg : Config} {c' : Core} {rest : Bytes}
    (h : Completes cfg c v c' es rest) : pass quiet cfg c v = .stop (.finished c' es rest) := by
  have hfin := finish_quiet quiet_eq
  cases h with
  | headers hp hh hc hlen =>
    rw [passHeaders_quiet hp, passHeaders, parseHeaders_eq, hh]
    simp [quiet, hc, hlen, ← hfin]
  | bodyNone hp hneed => simp only [pass, hp, passBody, hneed, if_true, hfin]
  | body hp hneed hpos hlen =>
    subst hneed
    have hv : v.length ≠ 0 := by omega
    have hmin : (if c.contentLength - c.bodyRead < v.length
        then c.contentLength - c.bodyRead else v.length) = c.contentLength - c.bodyRead := by
      split
      · rfl
      · omega
    have hseg : (v.take (c.contentLength - c.bodyRead)).length = c.contentLength - c.bodyRead := by
      rw [length_take]
      omega
    have hall : c.bodyRead + (c.contentLength - c.bodyRead) ≥ c.contentLength := by omega
    simp only [pass, hp, passBody, quiet_eq, hpos, hv, hmin, hseg, hall, if_false, if_true, hfin,
      ne_eq, not_true_eq_false]
  | lastChunk hp hline hn => simp [pass, hp, passChunkSize, hline, hn, hfin]

theorem fails_pass {cfg : Config} {c' : Core} (h : Fails cfg c v c' es) :
    pass quiet cfg c v = .stop (.failed c' es) := by
  cases h with
  | start hp hline hok => simp [pass, hp, hline, hok]
  | headers hp hh =>
    rw [passHeaders_quiet hp, passHeaders, parseHeaders_eq, hh]
  | chunkSize hp hline hn => simp [pass, hp, passChunkSize, hline, hn]

theorem ends_pass {cfg : Config} {r : Result} (h : Ends cfg c v r) :
    pass quiet cfg c v = .stop r := by
  cases h with
  | starved h => exact starved_pass h
  | lost hp hh =>
    rw [passHeaders_quiet hp, passHeaders, parseHeaders_eq, hh]
  | failed h => exact fails_pass h
  | completed h => exact completes_pass h
  | halted hp =>
    unfold pass
    rcases hp with hp | hp | hp
    · rw [hp]
    · rw [hp]
    · rw [hp]

inductive Parses (cfg : Config) : Core → Bytes → Result → Prop
  | ends {c : Core} {v : Bytes} {r : Result} (h : Ends cfg c v r) : Parses cfg c v r
  | goes {c c' : Core} {v rest : Bytes} {es : List Event} {r : Result}
    (h : Goes cfg c v c' es rest) (hr : Parses cfg c' rest r) : Parses cfg c v (r.prepend es)

theorem parses_unique {cfg : Config} {r r' : Result} (h : Parses cfg c v r)
    (h' : Parses cfg c v r') : r = r' := by
  induction h generalizing r' with
  | ends hr =>
    have hpass := ends_pass hr
    cases h' with
    | ends hr' =>
      rw [ends_pass hr'] at hpass
      exact (Pass.stop.inj hpass).symm
    | goes hg' _ =>
      rw [goes_pass hg'] at hpass
      cases hpass
  | goes hg _ ih =>
    have hpass := goes_pass hg
    cases h' with
    | ends hr' =>
      rw [ends_pass hr'] at hpass
      cases hpass
    | goes hg' hr' =>
      rw [goes_pass hg'] at hpass
      obtain ⟨rfl, rfl, rfl⟩ := Pass.next.inj hpass
      rw [ih hr']

def Core.measure (c : Core) (v : Bytes) : ℕ :=
  2 * v.length + (if c.phase = .init ∨ c.phase = .chunkData then 1 else 0)

theorem goes_measure {cfg : Config} {c' : Core} {rest : Bytes} (h : Goes cfg c v c' es rest) :
    c'.measure rest < c.measure v := by
  have hdone : ∀ {c₁ : Core} {es : List Event}, headers cfg c none v = .done c₁ es rest →
      rest.length + 2 ≤ v.length := by
    intro c₁ es hh
    have hs := headers_sound cfg v.length c none v (le_refl _)
    rw [hh] at hs
    exact hs.2.2
  unfold Core.measure
  cases h with
  | begin hp => simp [hp]
  | start hp hline hok =>
    have := splitLine_length hline
    simp [hp]
    omega
  | headersChunked hp hh hc =>
    have := hdone hh
    simp
    omega
  | headersBody hp hh hc hlen =>
    have := hdone hh
    simp
    omega
  | bodyPart hp hne hlen =>
    have := length_pos_iff.mpr hne
    simp [hp]
    omega
  | chunk hp hline hn hpos =>
    have := splitLine_length hline
    simp [hp]
    omega
  | chunkNone hp hrem => simp [hp]
  | chunkAll hp hrem hlen => simp [hp]
  | chunkPart hp hne hlen =>
    have := length_pos_iff.mpr hne
    simp [hp]
    omega
  | chunkNext hp hlen =>
    simp [hp]
    omega

theorem passes_parses {cb : Event → ℤ} (cfg : Config) (hcb : ∀ e, cb e = 0) (fuel : ℕ) :
    ∀ (c : Core) (v : Bytes), c.measure v < fuel →
      ∃ r, passes cb cfg fuel c v = some r ∧ Parses cfg c v r := by
  induction fuel with
  | zero =>
    intro c v hlt
    omega
  | succ fuel ih =>
    intro c v hlt
    have hrule := pass_rule cfg hcb c v
    unfold passes
    cases hpass : pass cb cfg c v with
    | stop r =>
      rw [hpass] at hrule
      exact ⟨r, rfl, .ends hrule⟩
    | next c' es rest =>
      rw [hpass] at hrule
      have hless := goes_measure hrule
      obtain ⟨r, hr, hparses⟩ := ih c' rest (by omega)
      refine ⟨r.prepend es, ?_, .goes hrule hparses⟩
      dsimp only
      rw [hr]
      rfl

theorem doParse_parses {cb : Event → ℤ} (cfg : Config) (hcb : ∀ e, cb e = 0) (c : Core)
    (hne : v ≠ []) : ∃ r, doParse cb cfg c v = some r ∧ Parses cfg c v r := by
  have hlen : v.length ≠ 0 := fun h => hne (length_eq_zero_iff.mp h)
  rw [doParse, if_neg hlen]
  apply passes_parses cfg hcb
  unfold Core.measure
  split
  · omega
  · omega

theorem parses_total (cfg : Config) (c : Core) (v : Bytes) : ∃ r, Parses cfg c v r := by
  obtain ⟨r, -, hr⟩ := passes_parses cfg quiet_eq _ c v (Nat.lt_succ_self _)
  exact ⟨r, hr⟩

end Voxlib.HttpParser
