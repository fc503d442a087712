import Voxlib.Http.Parser

/-!
# parse_headers

The loop of parse_headers without fuel, what it does over a longer view, and
what it leaves alone.
-/

namespace Voxlib.HttpParser
open CStr List

variable {v line rest : Bytes}

section
variable (h : splitLine v = some (line, rest))
include h

theorem splitLine_eq : v = line ++ crlf ++ rest := by
  induction v using splitLine.induct generalizing line with
  | case1 => cases h
  | case2 a => cases h
  | case3 a b tail hend =>
    rw [splitLine, if_pos hend] at h
    obtain ⟨rfl, rfl⟩ := Prod.mk.inj (Option.some.inj h)
    rw [hend.1, hend.2]
    rfl
  | case4 a b tail hend ih =>
    rw [splitLine, if_neg hend] at h
    obtain ⟨p, hp, heq⟩ := Option.map_eq_some_iff.mp h
    obtain ⟨rfl, rfl⟩ := Prod.mk.inj heq
    rw [ih hp]
    rfl

theorem splitLine_length : v.length = line.length + 2 + rest.length := by
  rw [splitLine_eq h]
  simp only [length_append, crlf, length_cons, length_nil]

theorem splitLine_append (x : Bytes) : splitLine (v ++ x) = some (line, rest ++ x) := by
  induction v using splitLine.induct generalizing line with
  | case1 => cases h
  | case2 a => cases h
  | case3 a b tail hend =>
    rw [splitLine, if_pos hend] at h
    obtain ⟨rfl, rfl⟩ := Prod.mk.inj (Option.some.inj h)
    rw [cons_append, cons_append, splitLine, if_pos hend]
  | case4 a b tail hend ih =>
    rw [splitLine, if_neg hend] at h
    obtain ⟨p, hp, heq⟩ := Option.map_eq_some_iff.mp h
    obtain ⟨rfl, rfl⟩ := Prod.mk.inj heq
    have hrest := ih hp
    rw [cons_append, cons_append, splitLine, if_neg hend, ← cons_append, hrest]
    rfl

end

def IsLine (l : Bytes) : Prop := ¬ crlf <:+: l

theorem IsLine.tail {a : UInt8} {l : Bytes} (h : IsLine (a :: l)) : IsLine l :=
  fun hin => h (infix_cons hin)

theorem isLine_of_notMem {l : Bytes} (h : (13 : UInt8) ∉ l) : IsLine l :=
  fun hin => h (hin.subset (mem_cons_self ..))

theorem splitLine_isLine {l : Bytes} (h : IsLine l) (rest : Bytes) :
    splitLine (l ++ crlf ++ rest) = some (l, rest) := by
  induction l with
  | nil => rfl
  | cons a l ih =>
    have htail := ih h.tail
    cases l with
    | nil =>
      rw [nil_append] at htail
      show splitLine (a :: 13 :: 10 :: rest) = _
      rw [splitLine, if_neg (by simp)]
      show (splitLine (crlf ++ rest)).map _ = _
      rw [htail]
      rfl
    | cons b l =>
      have hno : ¬ (a = 13 ∧ b = 10) := fun hab => h ⟨[], l, by rw [hab.1, hab.2]; rfl⟩
      show splitLine (a :: b :: (l ++ crlf ++ rest)) = _
      rw [splitLine, if_neg hno]
      show (splitLine (b :: l ++ crlf ++ rest)).map _ = _
      rw [htail]
      rfl

theorem length_le_flatMap {β : Type*} (f : β → Bytes) (hf : ∀ x, f x ≠ []) (l : List β) :
    l.length ≤ (l.flatMap f).length := by
  induction l with
  | nil => exact le_rfl
  | cons x l ih =>
    have := length_pos_of_ne_nil (hf x)
    rw [flatMap_cons, length_append, length_cons]
    omega

theorem cutBlanks_clean (h : ∀ b ∈ v.getLast?, isBlank b = false) : cutBlanks v = v := by
  have hstop := takeWhile_stop (p := isBlank) (s := []) (x := v.reverse)
    (fun _ hc => absurd hc not_mem_nil) (by rwa [List.head?_reverse])
  rw [cutBlanks, show v.reverse.dropWhile isBlank = v.reverse from hstop.2, reverse_reverse]

theorem skipBlanks_clean (h : ∀ b ∈ v.head?, isBlank b = false) : skipBlanks v = v :=
  (takeWhile_stop (p := isBlank) (s := []) (x := v) (fun _ hc => absurd hc not_mem_nil) h).2

theorem nameLine_isLine {name value : Bytes} (hname : (13 : UInt8) ∉ name)
    (hvalue : (13 : UInt8) ∉ value) : IsLine (name ++ lit ": " ++ value) := by
  refine isLine_of_notMem fun hmem => ?_
  rw [mem_append, mem_append] at hmem
  rcases hmem with (h | h) | h
  · exact hname h
  · exact absurd h (by decide)
  · exact hvalue h

theorem nameLine_reads {name value : Bytes} (hname : ∀ b ∈ name, b ≠ 58)
    (hvalue : ∀ b ∈ value.head?, isBlank b = false) :
    (name ++ lit ": " ++ value).takeWhile (fun b => b ≠ 58) = name ∧
      name.length + 2 ≤ (name ++ lit ": " ++ value).length ∧
      skipBlanks ((name ++ lit ": " ++ value).drop (name.length + 1)) = value := by
  have hscan := takeWhile_stop (p := fun b => b ≠ 58) (s := name) (x := lit ": " ++ value)
    (fun b hb => decide_eq_true (hname b hb)) (by
      intro b hb
      obtain rfl : 58 = b := by simpa [lit] using hb
      rfl)
  have hdrop : (name ++ (lit ": " ++ value)).drop (name.length + 1) = 32 :: value := by
    rw [← drop_drop, drop_left]
    rfl
  rw [append_assoc]
  refine ⟨hscan.1, ?_, ?_⟩
  · rw [length_append, length_append]
    have : (lit ": ").length = 2 := rfl
    omega
  · rw [hdrop, skipBlanks, dropWhile_cons_of_pos (by decide)]
    exact skipBlanks_clean hvalue

def headers (cfg : Config) (c : Core) (h : Option Header) (v : Bytes) : HeadersResult :=
  headersLoop cfg (v.length + 1) c h v

variable (cfg : Config)

theorem headersLoop_fuel (fuel : ℕ) :
    ∀ (fuel' : ℕ) (c : Core) (h : Option Header) (v : Bytes), v.length < fuel → v.length < fuel' →
      headersLoop cfg fuel c h v = headersLoop cfg fuel' c h v := by
  induction fuel with
  | zero =>
    intro fuel' c h v hv
    omega
  | succ fuel ih =>
    intro fuel' c h v hv hv'
    obtain ⟨fuel', rfl⟩ : ∃ n, fuel' = n + 1 := ⟨fuel' - 1, by omega⟩
    unfold headersLoop
    cases hline : splitLine v with
    | none => rfl
    | some p =>
      obtain ⟨line, rest⟩ := p
      have hlen := splitLine_length hline
      have hnext : ∀ c h, headersLoop cfg fuel c h rest = headersLoop cfg fuel' c h rest :=
        fun c h => ih fuel' c h rest (by omega) (by omega)
      dsimp only
      simp only [hnext]

variable {h : Option Header}

theorem headers_none {cfg : Config} {c : Core} (hline : splitLine v = none) :
    headers cfg c h v = .more c [] v h := by
  rw [headers, headersLoop, hline]

def startHeader (cfg : Config) (c : Core) (h : Option Header) (line rest : Bytes) : HeadersResult :=
  let out := commitBefore cfg c h
  if out.ok = false then .fail out.core out.events
  else
    match newHeader line with
    | none => .fail (setError out.core "invalid header line") out.events
    | some hd => (headers cfg out.core (some hd) rest).prepend out.events

theorem prepend_nil (r : HeadersResult) : r.prepend [] = r := by
  cases r <;> rfl

theorem headers_line {cfg : Config} {c : Core} (hline : splitLine v = some (line, rest)) :
    headers cfg c h v = if line.length = 0 then match h with
        | none => .done c [] rest
        | some hd =>
          if (commit c hd).ok then .done (commit c hd).core (commit c hd).events rest
          else .fail (commit c hd).core (commit c hd).events
      else
        match h with
        | some hd =>
          if isBlank (line.headD 0) then
            (headers cfg c (some (hd.fold line)) rest).prepend
              (dataEvent .headerValue (cutBlanks line))
          else startHeader cfg c h line rest
        | none => startHeader cfg c none line rest := by
  have hlen := splitLine_length hline
  have hnext : ∀ c h, headersLoop cfg v.length c h rest = headers cfg c h rest :=
    fun c h => headersLoop_fuel cfg v.length (rest.length + 1) c h rest (by omega) (by omega)
  rw [headers, headersLoop, hline]
  dsimp only
  simp only [hnext, startHeader]
  cases h with
  | none =>
    dsimp only
    split
    · rfl
    · cases newHeader line with
      | none => rfl
      | some hd => exact (prepend_nil _).symm
  | some hd => rfl

def HeadersResult.resume (cfg : Config) (x : Bytes) : HeadersResult → HeadersResult
  | .more c es rest dropped => (headers cfg c dropped (rest ++ x)).prepend es
  | .fail c es => .fail c es
  | .done c es rest => .done c es (rest ++ x)

theorem resume_prepend (x : Bytes) (es : List Event) (r : HeadersResult) :
    (r.prepend es).resume cfg x = (r.resume cfg x).prepend es := by
  cases r with
  | more c es' rest dropped =>
    simp only [HeadersResult.prepend, HeadersResult.resume]
    cases headers cfg c dropped (rest ++ x) with
    | more c' es'' rest' d => simp
    | fail c' es'' => simp
    | done c' es'' rest' => simp
  | fail c es' => rfl
  | done c es' rest => rfl

theorem headers_append (x : Bytes) (n : ℕ) :
    ∀ (c : Core) (h : Option Header) (v : Bytes), v.length ≤ n →
      headers cfg c h (v ++ x) = (headers cfg c h v).resume cfg x := by
  induction n with
  | zero =>
    intro c h v hv
    have hnil : v = [] := length_eq_zero_iff.mp (by omega)
    subst hnil
    rw [headers_none (v := []) rfl, HeadersResult.resume, prepend_nil]
  | succ n ih =>
    intro c h v hv
    cases hline : splitLine v with
    | none => rw [headers_none hline, HeadersResult.resume, prepend_nil]
    | some p =>
      obtain ⟨line, rest⟩ := p
      have hlen := splitLine_length hline
      have hnext : ∀ c h, headers cfg c h (rest ++ x) = (headers cfg c h rest).resume cfg x :=
        fun c h => ih c h rest (by omega)
      have hstart : ∀ h, startHeader cfg c h line (rest ++ x) =
          (startHeader cfg c h line rest).resume cfg x := by
        intro h
        unfold startHeader
        dsimp only
        split
        · rfl
        · cases newHeader line with
          | none => rfl
          | some hd =>
            dsimp only
            rw [hnext, resume_prepend]
      rw [headers_line (splitLine_append hline x), headers_line hline]
      split
      · cases h with
        | none => rfl
        | some hd =>
          dsimp only
          split
          · rfl
          · rfl
      · cases h with
        | none => exact hstart none
        | some hd =>
          dsimp only
          split
          · rw [hnext, resume_prepend]
          · exact hstart (some hd)

def Event.isHeader : Event → Bool
  | .headerField _ => true
  | .headerValue _ => true
  | _ => false

def HeaderEvents (es : List Event) : Prop := ∀ e ∈ es, e.isHeader = true

theorem headerEvents_nil : HeaderEvents [] := by
  intro e he
  cases he

theorem headerEvents_append {es es' : List Event} (h : HeaderEvents es) (h' : HeaderEvents es') :
    HeaderEvents (es ++ es') := by
  intro e he
  cases mem_append.mp he with
  | inl hl => exact h e hl
  | inr hr => exact h' e hr

theorem headerEvents_data {k : Bytes → Event} (hk : ∀ b, (k b).isHeader = true) (data : Bytes) :
    HeaderEvents (dataEvent k data) := by
  unfold dataEvent
  split
  · exact headerEvents_nil
  · intro e he
    rw [mem_singleton.mp he]
    exact hk data

theorem Header.events_isHeader (h : Header) : HeaderEvents h.events :=
  headerEvents_append (headerEvents_data (fun _ => rfl) _) (headerEvents_data (fun _ => rfl) _)

def Keeps (c c' : Core) : Prop := c'.phase = c.phase ∧ c'.hasError = c.hasError

theorem Keeps.refl (c : Core) : Keeps c c := ⟨rfl, rfl⟩

theorem Keeps.trans {c c' c'' : Core} (h : Keeps c c') (h' : Keeps c' c'') : Keeps c c'' :=
  ⟨h'.1.trans h.1, h'.2.trans h.2⟩

theorem connectionTokens_keeps (fuel : ℕ) (c : Core) (value : Bytes) :
    Keeps c (connectionTokens fuel c value) := by
  induction fuel generalizing c value with
  | zero => exact Keeps.refl c
  | succ fuel ih =>
    unfold connectionTokens
    dsimp only
    split
    · exact Keeps.refl c
    · split
      · exact ih _ _
      · split
        · exact ih _ _
        · exact Keeps.refl c

/- What a function that reports by its flag does to the state. -/
def Reports (c : Core) (ok : Bool) (c' : Core) : Prop :=
  if ok then Keeps c c' else c'.hasError = true

theorem applyContentLength_reports (c : Core) (value : Bytes) :
    Reports c (applyContentLength c value).1 (applyContentLength c value).2 := by
  unfold applyContentLength
  dsimp only
  split
  · exact Keeps.refl c
  · split
    · rfl
    · split
      · rfl
      · cases parseContentLength value with
        | none => rfl
        | some n => exact Keeps.refl c

theorem applyHeader_reports (c : Core) (name value : Bytes) :
    Reports c (applyHeader c name value).1 (applyHeader c name value).2 := by
  unfold applyHeader
  split
  · exact applyContentLength_reports c value
  · split
    · dsimp only
      split
      · exact Keeps.refl c
      · exact Keeps.refl c
    · split
      · exact connectionTokens_keeps _ _ _
      · split
        · exact Keeps.refl c
        · exact Keeps.refl c

theorem commit_reports (c : Core) (h : Header) : Reports c (commit c h).ok (commit c h).core :=
  applyHeader_reports c h.field h.value

theorem commitBefore_reports (c : Core) (h : Option Header) :
    Reports c (commitBefore cfg c h).ok (commitBefore cfg c h).core := by
  cases h with
  | none => exact Keeps.refl c
  | some hd =>
    have hr := commit_reports c hd
    unfold commitBefore
    dsimp only
    split
    · exact hr
    · rename_i hok
      rw [Bool.not_eq_false] at hok
      rw [hok] at hr
      split
      · rfl
      · rw [hok]
        exact hr

theorem commitBefore_events (c : Core) (h : Option Header) :
    HeaderEvents (commitBefore cfg c h).events := by
  cases h with
  | none => exact headerEvents_nil
  | some hd =>
    have hev : HeaderEvents (commit c hd).events := hd.events_isHeader
    unfold commitBefore
    dsimp only
    split
    · exact hev
    · split
      · exact hev
      · exact hev

def HeadersResult.Sound (c : Core) (v : Bytes) : HeadersResult → Prop
  | .more c' es rest _ => Keeps c c' ∧ HeaderEvents es ∧ rest.length ≤ v.length
  | .fail c' es => c'.hasError = true ∧ HeaderEvents es
  | .done c' es rest => Keeps c c' ∧ HeaderEvents es ∧ rest.length + 2 ≤ v.length

theorem sound_prepend {c c' : Core} {es : List Event} {r : HeadersResult} (h : r.Sound c' rest)
    (hk : Keeps c c') (hes : HeaderEvents es) (hlen : rest.length ≤ v.length) :
    (r.prepend es).Sound c v := by
  cases r with
  | more c'' es' rest' d =>
    exact ⟨hk.trans h.1, headerEvents_append hes h.2.1, by have := h.2.2; omega⟩
  | fail c'' es' => exact ⟨h.1, headerEvents_append hes h.2⟩
  | done c'' es' rest' =>
    exact ⟨hk.trans h.1, headerEvents_append hes h.2.1, by have := h.2.2; omega⟩

theorem headers_sound (n : ℕ) : ∀ (c : Core) (h : Option Header) (v : Bytes), v.length ≤ n →
      (headers cfg c h v).Sound c v := by
  induction n with
  | zero =>
    intro c h v hv
    have hnil : v = [] := length_eq_zero_iff.mp (by omega)
    subst hnil
    rw [headers_none rfl]
    exact ⟨Keeps.refl c, headerEvents_nil, le_refl _⟩
  | succ n ih =>
    intro c h v hv
    cases hline : splitLine v with
    | none =>
      rw [headers_none hline]
      exact ⟨Keeps.refl c, headerEvents_nil, le_refl _⟩
    | some p =>
      obtain ⟨line, rest⟩ := p
      have hlen := splitLine_length hline
      have hstart : ∀ h, (startHeader cfg c h line rest).Sound c v := by
        intro h
        have hrep := commitBefore_reports cfg c h
        have hev := commitBefore_events cfg c h
        unfold startHeader
        dsimp only
        split
        · rename_i hfail
          rw [hfail] at hrep
          exact ⟨hrep, hev⟩
        · rename_i hok
          rw [Bool.not_eq_false] at hok
          rw [hok] at hrep
          cases newHeader line with
          | none => exact ⟨rfl, hev⟩
          | some hd => exact sound_prepend (ih _ _ rest (by omega)) hrep hev (by omega)
      rw [headers_line hline]
      split
      · cases h with
        | none => exact ⟨Keeps.refl c, headerEvents_nil, by omega⟩
        | some hd =>
          have hrep := commit_reports c hd
          dsimp only
          split
          · rename_i hok
            rw [hok] at hrep
            exact ⟨hrep, hd.events_isHeader, by omega⟩
          · rename_i hok
            rw [Bool.not_eq_true] at hok
            rw [hok] at hrep
            exact ⟨hrep, hd.events_isHeader⟩
      · cases h with
        | none => exact hstart none
        | some hd =>
          dsimp only
          split
          · exact sound_prepend (ih c _ rest (by omega)) (Keeps.refl c)
              (headerEvents_data (fun _ => rfl) _) (by omega)
          · exact hstart (some hd)

def headerEnd : ℕ → Bytes → Bool
  | 0, _ => false
  | fuel + 1, v =>
    match splitLine v with
    | none => false
    | some (line, rest) => line.length = 0 || headerEnd fuel rest

theorem headerEnd_rest {fuel : ℕ} (hline : splitLine v = some (line, rest))
    (hne : line.length ≠ 0) : headerEnd (fuel + 1) v = headerEnd fuel rest := by
  rw [headerEnd, hline]
  simp [hne]

/- parse_headers asks for more bytes only when the empty line is missing, and
   then it has a header in its local variables unless there was no line at all. -/
def HeadersResult.Waits (h : Option Header) (v : Bytes) : HeadersResult → Prop
  | .more _ _ _ dropped =>
    (∀ fuel, headerEnd fuel v = false) ∧ (dropped = none → h = none ∧ splitLine v = none)
  | _ => True

theorem waits_prepend {hd : Header} {es : List Event} {r : HeadersResult}
    (hr : r.Waits (some hd) rest) (hline : splitLine v = some (line, rest))
    (hne : line.length ≠ 0) : (r.prepend es).Waits h v := by
  cases r with
  | more c es' rest' dropped =>
    refine ⟨?_, ?_⟩
    · intro fuel
      cases fuel with
      | zero => rfl
      | succ fuel =>
        rw [headerEnd_rest hline hne]
        exact hr.1 fuel
    · intro hd'
      cases (hr.2 hd').1
  | fail c es' => trivial
  | done c es' rest' => trivial

theorem headers_waits (n : ℕ) : ∀ (c : Core) (h : Option Header) (v : Bytes), v.length ≤ n →
      (headers cfg c h v).Waits h v := by
  have hstop : ∀ (c : Core) (h : Option Header) (v : Bytes), splitLine v = none →
      (headers cfg c h v).Waits h v := by
    intro c h v hline
    rw [headers_none hline]
    refine ⟨?_, fun hd => ⟨hd, hline⟩⟩
    intro fuel
    cases fuel with
    | zero => rfl
    | succ fuel => rw [headerEnd, hline]
  induction n with
  | zero =>
    intro c h v hv
    have hnil : v = [] := length_eq_zero_iff.mp (by omega)
    exact hstop c h v (by rw [hnil]; rfl)
  | succ n ih =>
    intro c h v hv
    cases hline : splitLine v with
    | none => exact hstop c h v hline
    | some p =>
      obtain ⟨line, rest⟩ := p
      have hlen := splitLine_length hline
      rw [headers_line hline]
      by_cases hne : line.length = 0
      · rw [if_pos hne]
        cases h with
        | none => trivial
        | some hd =>
          dsimp only
          split
          · trivial
          · trivial
      · rw [if_neg hne]
        have hstart : ∀ h, (startHeader cfg c h line rest).Waits h v := by
          intro h
          unfold startHeader
          dsimp only
          split
          · trivial
          · cases newHeader line with
            | none => trivial
            | some hd => exact waits_prepend (ih _ _ rest (by omega)) hline hne
        cases h with
        | none => exact hstart none
        | some hd =>
          dsimp only
          split
          · exact waits_prepend (ih c _ rest (by omega)) hline hne
          · exact hstart (some hd)

end Voxlib.HttpParser
