import Voxlib.Redis.Lines

/-!
# What the RESP parser makes of a value (vox_redis_parser.c)
-/

namespace Voxlib.Redis
open CStr Stream Decimal List

inductive Value where
  | simpleString (s : Bytes)
  | error (s : Bytes)
  | integer (n : ℤ)
  | bulkString (s : Bytes)
  | null
  | nullArray
  | array (vs : List Value)

mutual

def Value.encode : Value → Bytes
  | .simpleString s => 43 :: (s ++ crlf)
  | .error s => 45 :: (s ++ crlf)
  | .integer n => 58 :: (signed n ++ crlf)
  | .bulkString s => 36 :: (signed s.length ++ crlf ++ (s ++ crlf))
  | .null => 36 :: (signed (-1) ++ crlf)
  | .nullArray => 42 :: (signed (-1) ++ crlf)
  | .array vs => 42 :: (signed vs.length ++ crlf ++ encodeAll vs)

def encodeAll : List Value → Bytes
  | [] => []
  | v :: vs => v.encode ++ encodeAll vs

end

mutual

/-- The events of a value: its type, its content, the start and the end of an array. -/
def Value.meaning : Value → List Event
  | .simpleString s => [.simpleString s]
  | .error s => [.error s]
  | .integer n => [.integer n]
  | .bulkString s =>
    .bulkStringStart s.length :: (if s = [] then [] else [.bulkStringData s]) ++
      [.bulkStringComplete]
  | .null => [.bulkStringStart (-1), .bulkStringComplete]
  | .nullArray => [.arrayStart (-1), .arrayComplete]
  | .array vs => .arrayStart vs.length :: (meaningAll vs ++ [.arrayComplete])

def meaningAll : List Value → List Event
  | [] => []
  | v :: vs => v.meaning ++ meaningAll vs

end

def PlainText (s : Bytes) : Prop := ∀ c ∈ s, c ≠ 13 ∧ c ≠ 10

/- `n` is within the limit, of which 0 is none. -/
def within (limit n : ℕ) : Prop := limit = 0 ∨ n ≤ limit

mutual

/-- A value that the configuration lets through below `depth` arrays; array_stack has 64 entries. -/
def Value.Fits (config : Config) (depth : ℕ) : Value → Prop
  | .simpleString s => PlainText s
  | .error s => PlainText s
  | .integer n => -2 ^ 63 ≤ n ∧ n < 2 ^ 63
  | .bulkString s => s.length < 2 ^ 63 ∧ within config.maxBulkStringSize s.length
  | .null => True
  | .nullArray => True
  | .array vs => vs.length < 2 ^ 63 ∧ within config.maxArraySize vs.length ∧
      within config.maxNestingDepth (depth + 1) ∧ depth < 64 ∧ fitAll config (depth + 1) vs

def fitAll (config : Config) (depth : ℕ) : List Value → Prop
  | [] => True
  | v :: vs => v.Fits config depth ∧ fitAll config depth vs

end

/- Events that stand for a part of a value, and the end of all of it. -/
def Event.ofValue : Event → Bool
  | .arrayElementStart _ | .arrayElementComplete _ | .errorParse _ => false
  | _ => true

/-- The encoding, given to a new parser in one call, is read to its end and gives the events of the
value, and on_complete behind them. -/
def Value.Parsed (config : Config) (grow : ℕ → Bool) (before : UInt8) (v : Value) : Prop :=
  let r := execute recorder grow before (create (some config)) [] v.encode
  r.u.filter Event.ofValue = v.meaning ++ [.complete] ∧ r.ret = some v.encode.length

/-- No simple string, no error, no array with elements, and not the least integer; an empty array
where the configuration has a maximal depth. string_buf can take the number. -/
def Value.Understood (config : Config) (grow : ℕ → Bool) : Value → Prop
  | .simpleString _ => False
  | .error _ => False
  | .integer n => n ≠ -2 ^ 63 ∧ grow (signed n).length
  | .bulkString s => grow (signed s.length).length
  | .null => grow (signed (-1)).length
  | .nullArray => grow (signed (-1)).length
  | .array vs => vs = [] ∧ config.maxNestingDepth ≠ 0 ∧ grow (signed 0).length

@[simp]
theorem emit_recorder (p : Parser) (u : List Event) (e : Event) :
    emit recorder p u e = .ok (p, u ++ [e]) := rfl

section
variable {config : Config} {grow : ℕ → Bool} {before : UInt8}

variable {p : Parser}

theorem execute_complete {data rest : Bytes} {u : List Event} (hdata : data ≠ [])
    (hpasses : passes (pass recorder grow) (data.length + 3) (create (some config), [])
      (before :: data) = .wait (p, u) rest) (hstate : p.state = .complete)
    (hstack : p.arrayStack = []) : execute recorder grow before (create (some config)) [] data =
      ⟨some (data.length + 1 - rest.length), p, u ++ [Event.complete]⟩ := by
  have hfinish : finish recorder (p, u) = .ok (p, u ++ [Event.complete]) := by
    unfold finish
    rw [if_neg (not_not.mpr hstate)]
    dsimp only
    rw [hstack]
    rfl
  unfold execute
  rw [if_neg hdata, if_neg (by simp [create]), hpasses]
  dsimp only
  rw [hfinish]

theorem encode_ne_nil (v : Value) : v.encode ≠ [] := by
  cases v <;> simp [Value.encode]

variable {v : Value}

theorem parsed_of_passes {u : List Event} {last : UInt8}
    (hpasses : passes (pass recorder grow) (v.encode.length + 3) (create (some config), [])
      (before :: v.encode) = .wait (p, u) [last]) (hstate : p.state = .complete)
    (hstack : p.arrayStack = []) (hu : u.filter Event.ofValue = v.meaning) :
    v.Parsed config grow before := by
  unfold Value.Parsed
  rw [execute_complete (encode_ne_nil v) hpasses hstate hstack]
  dsimp only
  rw [filter_append, hu]
  exact ⟨rfl, rfl⟩

variable {kind : Kind} {state : State} {failure : String}
  {done : Parser → List Event → Turn (List Event)}

theorem number_parsed {c : UInt8} {n : ℤ} (hg : grow (signed n).length)
    (hencode : v.encode = c :: (signed n ++ crlf))
    (hl : NumberLine recorder grow (create (some config)) [] c kind state failure done)
    (hdone : done { (create (some config)).begin kind state with stringBuf := signed n }
      [] = .ok (p, v.meaning)) (hstate : p.state = .complete) (hstack : p.arrayStack = [])
    (hmeaning : v.meaning.filter Event.ofValue = v.meaning) : v.Parsed config grow before := by
  have hcall := passes_number (u := []) rfl hl hg before [] ((signed n).length + 4)
  rw [hdone] at hcall
  dsimp only [Turn.flow, Flow.andThen] at hcall
  rw [passes_complete hstate, append_nil, ← hencode] at hcall
  have hfuel : v.encode.length + 3 = (signed n).length + 4 + 2 := by
    rw [hencode, length_cons, length_append]
    rfl
  exact parsed_of_passes (by rw [hfuel]; exact hcall) hstate hstack hmeaning

theorem integer_parsed {n : ℤ} (hg : grow (signed n).length) (hmin : -int64Max ≤ n)
    (hmax : n ≤ int64Max) : (Value.integer n).Parsed config grow before := by
  refine number_parsed hg
    (p := { (create (some config)).begin .integer .complete with stringBuf := signed n })
    rfl ⟨rfl, fun s cur => pass_integer⟩ ?_ rfl rfl rfl
  unfold integerDone
  dsimp only
  rw [parseInteger_signed hmin hmax]
  rfl

theorem null_parsed (hg : grow (signed (-1)).length) : Value.null.Parsed config grow before := by
  refine number_parsed hg
    (p := { (create (some config)).begin .bulkString .complete with stringBuf := signed (-1) })
    rfl ⟨rfl, fun s cur => pass_bulkStringLen⟩ ?_ rfl rfl rfl
  unfold bulkStringLenDone
  dsimp only
  rw [parseInteger_signed (by decide) (by decide)]
  rfl

theorem nullArray_parsed (hg : grow (signed (-1)).length) :
    Value.nullArray.Parsed config grow before := by
  refine number_parsed hg
    (p := { (create (some config)).begin .array .complete with stringBuf := signed (-1) })
    rfl ⟨rfl, fun s cur => pass_arrayCount⟩ ?_ rfl rfl rfl
  unfold arrayCountDone
  dsimp only
  rw [parseInteger_signed (by decide) (by decide)]
  rfl

theorem emptyArray_parsed (hg : grow (signed 0).length) (hdepth : config.maxNestingDepth ≠ 0) :
    (Value.array []).Parsed config grow before := by
  refine number_parsed hg
    (p := (create (some config)).begin .array .complete)
    rfl ⟨rfl, fun s cur => pass_arrayCount⟩ ?_ rfl rfl rfl
  unfold arrayCountDone
  dsimp only
  rw [parseInteger_signed (by decide) (by decide)]
  dsimp only
  rw [if_neg (by decide), if_neg, if_neg]
  · rfl
  · exact fun hle => hdepth (Nat.le_zero.mp hle)
  · exact fun hlarge => Nat.not_lt_zero _ hlarge.2

variable (grow) in
theorem passes_bulkString {s : Bytes} (hs : s.length < 2 ^ 63) {u : List Event}
    (hstate : p.state = .bulkStringData) (hlen : p.bulkStringLen = s.length)
    (hstack : p.arrayStack = []) (k : ℕ) :
    passes (pass recorder grow) (k + 3) (p, u) (10 :: (s ++ crlf)) =
      .wait ({ p with state := .complete, bulkStringLen := 0 },
        u ++ (if s = [] then [] else [Event.bulkStringData s]) ++ [Event.bulkStringComplete])
        [10] := by
  have htoRead : min (s ++ crlf).length (sizeT p.bulkStringLen) = s.length := by
    unfold sizeT
    rw [hlen, length_append]
    omega
  obtain ⟨b, hdrop⟩ : ∃ b, (10 :: (s ++ crlf)).drop s.length = b :: crlf := by
    have hone : ((10 :: s).drop s.length).length = 1 := by
      rw [length_drop, length_cons]
      omega
    obtain ⟨b, hb⟩ := length_eq_one_iff.mp hone
    refine ⟨b, ?_⟩
    rw [← cons_append, drop_append_of_le_length (by rw [length_cons]; omega), hb]
    rfl
  have hdata : bulkStringData recorder (p, u) (10 :: (s ++ crlf)) =
      .go ({ p with state := .cr, bulkStringLen := 0 },
        u ++ (if s = [] then [] else [Event.bulkStringData s])) (b :: crlf) := by
    unfold bulkStringData
    dsimp only [tail_cons]
    rw [htoRead, hdrop, take_left]
    have hzero : int64 0 = 0 := by decide
    by_cases hempty : s = []
    · rw [if_neg (by rw [hempty]; decide), if_pos hempty, append_nil]
      simp only [Except.map, Turn.flow, hlen, sub_self, hzero, if_true]
    · rw [if_pos (length_pos_of_ne_nil hempty), if_neg hempty]
      simp only [emit_recorder, Except.map, Turn.flow, hlen, sub_self, hzero, if_true]
  have hend : elementDone recorder { p with state := .lf, bulkStringLen := 0 }
      (u ++ (if s = [] then [] else [Event.bulkStringData s]) ++ [Event.bulkStringComplete]) =
      .ok ({ p with state := .complete, bulkStringLen := 0 },
        u ++ (if s = [] then [] else [Event.bulkStringData s]) ++ [Event.bulkStringComplete]) := by
    unfold elementDone
    dsimp only
    rw [hstack]
  simp only [passes]
  rw [pass_bulkStringData hstate (by simp [crlf]), hdata, Flow.go_andThen]
  unfold crlf
  rw [pass_cr rfl]
  unfold crByte
  rw [if_pos rfl, Turn.flow, Flow.go_andThen, pass_lf rfl]
  unfold lfByte
  rw [if_pos rfl, emit_recorder, Except.bind, hend, Turn.flow, Flow.go_andThen,
    passes_complete rfl]

theorem bulkString_parsed {s : Bytes} (hg : grow (signed s.length).length)
    (hs : s.length < 2 ^ 63) (hlimit : within config.maxBulkStringSize s.length) :
    (Value.bulkString s).Parsed config grow before := by
  have hcall := passes_number (h := recorder) (p := create (some config)) (u := []) (c := 36)
    rfl ⟨rfl, fun s cur => pass_bulkStringLen⟩ hg before (s ++ crlf)
    ((signed s.length).length + s.length + 3 + 3)
  have hsize : sizeT s.length = s.length := by
    unfold sizeT
    omega
  have hdone : bulkStringLenDone recorder { (create (some config)).begin .bulkString .bulkStringLen with
      stringBuf := signed s.length } [] =
      .ok ({ (create (some config)).begin .bulkString .bulkStringData with
        bulkStringLen := s.length }, [.bulkStringStart s.length]) := by
    unfold bulkStringLenDone
    dsimp only
    rw [parseInteger_signed (by unfold int64Max; omega) (by unfold int64Max; omega)]
    dsimp only
    rw [if_neg (by omega), if_neg]
    · rfl
    · rintro ⟨hpos, hlarge⟩
      rw [hsize] at hlarge
      rcases hlimit with h0 | hle
      · exact absurd h0 (Nat.ne_of_gt hpos)
      · exact absurd hle (Nat.not_le.mpr hlarge)
  have hdata := passes_bulkString grow hs (p := { (create (some config)).begin .bulkString
    .bulkStringData with bulkStringLen := s.length }) (u := [.bulkStringStart s.length])
    rfl rfl rfl ((signed s.length).length + s.length + 3)
  rw [hdone] at hcall
  dsimp only [Turn.flow, Flow.andThen] at hcall
  rw [hdata] at hcall
  have hencode : (Value.bulkString s).encode =
      36 :: (signed s.length ++ (crlf ++ (s ++ crlf))) := by
    rw [Value.encode, append_assoc]
  have hfuel : (Value.bulkString s).encode.length + 3 =
      (signed s.length).length + s.length + 3 + 3 + 2 := by
    rw [hencode]
    simp only [length_cons, length_append, crlf, length_nil]
    omega
  rw [← hencode, ← hfuel] at hcall
  refine parsed_of_passes hcall rfl rfl ?_
  rw [Value.meaning]
  by_cases hempty : s = []
  · rw [if_pos hempty]
    rfl
  · rw [if_neg hempty]
    rfl

theorem not_parsed_of_fail {t : Parser × List Event}
    (hpasses : passes (pass recorder grow) (v.encode.length + 3) (create (some config), [])
      (before :: v.encode) = .fail t) : ¬ v.Parsed config grow before := by
  rintro ⟨-, hret⟩
  unfold execute at hret
  rw [if_neg (encode_ne_nil v), if_neg (by simp [create]), hpasses] at hret
  cases hret

/- The line of a simple string or an error has its type byte in front, and the byte behind its end
   is passed over. -/
theorem text_not_parsed {c : UInt8} {s : Bytes} (hencode : v.encode = c :: (s ++ crlf))
    (hc : c ≠ 13) (hs : PlainText s) (htype : typeByte recorder (create (some config)) [] c =
      .ok ((create (some config)).begin kind state, []))
    (hstate : state = .simpleString ∨ state = .error) : ¬ v.Parsed config grow before := by
  have hplain : ∀ b ∈ c :: s, b ≠ 13 := by
    intro b hb
    rcases mem_cons.mp hb with rfl | hb
    · exact hc
    · exact (hs b hb).1
  have hfirst : pass recorder grow (create (some config), []) (before :: v.encode) =
      .go ((create (some config)).begin kind state, []) v.encode := by
    rw [hencode]
    exact pass_type rfl htype before _
  have hdrop : v.encode.drop ((c :: s).length + 2) = [] := by
    rw [hencode, drop_eq_nil_iff]
    simp [crlf]
  have htext : v.encode = c :: s ++ (crlf ++ []) := by
    rw [hencode, append_nil]
    rfl
  have hrest : v.encode.tail ≠ [] := by
    rw [hencode]
    simp [crlf]
  have hline : pass recorder grow ((create (some config)).begin kind state, []) v.encode =
      line recorder grow ((create (some config)).begin kind state, []) v.encode v.encode
        "Failed to accumulate string" (simpleDone recorder) := pass_text hstate hrest
  by_cases hg : grow (([] : Bytes).length + (c :: s).length)
  · obtain ⟨e, hsecond⟩ : ∃ e, pass recorder grow
        ((create (some config)).begin kind state, []) v.encode =
        .go ({ (create (some config)).begin kind .complete with stringBuf := c :: s }, [e]) [] := by
      rw [hline]
      conv => enter [1, e, 1]; rw [htext, line_found hg hplain, ← htext, hdrop]
      unfold simpleDone
      exact ⟨_, rfl⟩
    have hpasses : passes (pass recorder grow) (v.encode.length + 3) (create (some config), [])
        (before :: v.encode) =
        .wait ({ (create (some config)).begin kind .complete with stringBuf := c :: s }, [e]) [] := by
      simp only [passes]
      rw [hfirst, Flow.go_andThen, hsecond, Flow.go_andThen]
      exact passes_complete rfl _ _ (v.encode.length + 1)
    rintro ⟨-, hret⟩
    rw [execute_complete (encode_ne_nil v) hpasses rfl rfl] at hret
    have := Option.some.inj hret
    rw [length_nil] at this
    omega
  · have hpasses : ∃ t, passes (pass recorder grow) (v.encode.length + 3)
        (create (some config), []) (before :: v.encode) = .fail t := by
      simp only [passes]
      rw [hfirst, Flow.go_andThen, hline]
      conv => enter [1, e, 1, 1]; rw [htext, line_short (cons_ne_nil c s) hg hplain]
      exact ⟨_, rfl⟩
    obtain ⟨t, ht⟩ := hpasses
    exact not_parsed_of_fail ht

theorem number_not_parsed {c : UInt8} {n : ℤ} {rest : Bytes} (hg : ¬ grow (signed n).length)
    (hencode : v.encode = c :: (signed n ++ (crlf ++ rest)))
    (hl : NumberLine recorder grow (create (some config)) [] c kind state failure done) :
    ¬ v.Parsed config grow before := by
  obtain ⟨t, ht⟩ := passes_number_short (u := []) rfl hl hg before rest
    (v.encode.length + 1)
  rw [← hencode] at ht
  exact not_parsed_of_fail ht

theorem refused_not_parsed {c : UInt8} {n : ℤ} (hencode : v.encode = c :: (signed n ++ crlf))
    (hl : NumberLine recorder grow (create (some config)) [] c kind state failure done)
    (hdone : ∃ t, done { (create (some config)).begin kind state with stringBuf := signed n } [] =
      .error t) : ¬ v.Parsed config grow before := by
  by_cases hg : grow (signed n).length
  · obtain ⟨t, ht⟩ := hdone
    have hcall := passes_number (u := []) rfl hl hg before [] (v.encode.length + 1)
    rw [ht, append_nil, ← hencode] at hcall
    exact not_parsed_of_fail hcall
  · exact number_not_parsed hg (by rw [hencode, append_nil]) hl

theorem least_not_parsed : ¬ (Value.integer (-2 ^ 63)).Parsed config grow before := by
  have hread : parseInteger (signed (-2 ^ 63)) = none := by decide +kernel
  refine refused_not_parsed rfl ⟨rfl, fun s cur => pass_integer⟩ ?_
  unfold integerDone
  dsimp only
  rw [hread]
  exact ⟨_, rfl⟩

theorem shallow_not_parsed (hdepth : config.maxNestingDepth = 0) :
    ¬ (Value.array []).Parsed config grow before := by
  have hread : parseInteger (signed 0) = some 0 := by decide +kernel
  refine refused_not_parsed (n := 0) rfl ⟨rfl, fun s cur => pass_arrayCount⟩ ?_
  unfold arrayCountDone
  dsimp only
  rw [hread]
  dsimp only
  rw [if_neg (by decide), if_neg (fun hlarge => Nat.not_lt_zero _ hlarge.2), if_pos]
  · exact ⟨_, rfl⟩
  · exact Nat.le_of_eq hdepth

end

def Event.hollow : Event → Bool
  | .arrayStart k => k = 0 ∨ k = -1
  | _ => false

/-- Each end of an array belongs to the start of one without elements, and the open arrays still
miss elements, unless the number of one was negative. -/
structure Unclosed (s : Parser × List Event) : Prop where
  ends : s.2.countP (· = .arrayComplete) = s.2.countP Event.hollow
  misses : (∃ k < -1, .arrayStart k ∈ s.2) ∨ ∀ l ∈ s.1.arrayStack, (l.current : ℤ) < l.count

section
variable {grow : ℕ → Bool}

variable {p : Parser} {u : List Event}

section
variable (hu : Unclosed (p, u))
include hu

theorem Unclosed.more {q : Parser} {e : Event} (hend : e ≠ .arrayComplete)
    (hstart : e.hollow = false)
    (hstack : ∀ l ∈ q.arrayStack, l ∈ p.arrayStack ∨ (∃ k < -1, e = .arrayStart k) ∨
      (l.current : ℤ) < l.count) : Unclosed (q, u ++ [e]) := by
  constructor
  · simp only [countP_append, countP_singleton, hstart, hend, decide_false]
    simp only [hu.ends]
  · by_cases hneg : ∃ k < -1, .arrayStart k ∈ u ++ [e]
    · exact .inl hneg
    · refine .inr fun l hl => ?_
      rcases hstack l hl with hl | ⟨k, hk, rfl⟩ | hl
      · rcases hu.misses with ⟨k, hk, hmem⟩ | hall
        · exact absurd ⟨k, hk, mem_append_left _ hmem⟩ hneg
        · exact hall l hl
      · exact absurd ⟨k, hk, mem_append_right _ (mem_singleton.mpr rfl)⟩ hneg
      · exact hl

theorem Unclosed.same {q : Parser} (hstack : q.arrayStack = p.arrayStack) : Unclosed (q, u) :=
  ⟨hu.ends, by rw [show (q, u).1.arrayStack = p.arrayStack from hstack]; exact hu.misses⟩

theorem elementDone_unclosed {t : Parser × List Event} (ht : elementDone recorder p u = .ok t) :
    Unclosed t := by
  unfold elementDone at ht
  split at ht
  · next hstack =>
    obtain rfl := Except.ok.inj ht
    exact hu.same rfl
  · next top rest hstack =>
    dsimp only [emit_recorder, Except.map] at ht
    split at ht
    · next hlt =>
      obtain rfl := Except.ok.inj ht
      refine hu.more (by simp) rfl fun l hl => ?_
      rcases mem_cons.mp hl with rfl | hl
      · exact .inr (.inr hlt)
      · exact .inl (by rw [hstack]; exact mem_cons_of_mem _ hl)
    · obtain rfl := Except.ok.inj ht
      exact hu.more (by simp) rfl fun l hl => .inl (by rw [hstack]; exact mem_cons_of_mem _ hl)

theorem simpleDone_unclosed {t : Parser × List Event} (ht : simpleDone recorder p u = .ok t) :
    Unclosed t := by
  unfold simpleDone at ht
  rw [emit_recorder, Except.bind] at ht
  refine elementDone_unclosed (hu.more ?_ ?_ fun l hl => .inl hl) ht
  · split <;> simp
  · split <;> rfl

theorem integerDone_unclosed {t : Parser × List Event} (ht : integerDone recorder p u = .ok t) :
    Unclosed t := by
  unfold integerDone at ht
  split at ht
  · cases ht
  · rw [emit_recorder, Except.bind] at ht
    exact elementDone_unclosed (hu.more (by simp) rfl fun l hl => .inl hl) ht

theorem bulkStringLenDone_unclosed {t : Parser × List Event}
    (ht : bulkStringLenDone recorder p u = .ok t) : Unclosed t := by
  unfold bulkStringLenDone at ht
  split at ht
  · cases ht
  · next len hlen =>
    dsimp only [emit_recorder, Except.bind, Except.map] at ht
    split at ht
    · obtain rfl := Except.ok.inj ht
      have hstart := hu.more (q := p) (e := .bulkStringStart (-1)) (by simp) rfl
        fun l hl => .inl hl
      exact hstart.more (by simp) rfl fun l hl => .inl hl
    · split at ht
      · cases ht
      · obtain rfl := Except.ok.inj ht
        exact hu.more (by simp) rfl fun l hl => .inl hl

/-- An array without elements is closed at once, and one with elements is left open. -/
theorem arrayCountDone_unclosed {t : Parser × List Event}
    (ht : arrayCountDone recorder p u = .ok t) : Unclosed t := by
  have hempty {k : ℤ} (hk : k = 0 ∨ k = -1) {q : Parser} (hstack : q.arrayStack = p.arrayStack) :
      Unclosed (q, u ++ [Event.arrayStart k] ++ [Event.arrayComplete]) := by
    constructor
    · have hhollow : (Event.arrayStart k).hollow = true := decide_eq_true hk
      have hends := hu.ends
      simp only [countP_append, countP_singleton, hhollow]
      simp [Event.hollow] at hends ⊢
      exact hends
    · rcases hu.misses with ⟨m, hm, hmem⟩ | hall
      · exact .inl ⟨m, hm, by simp [hmem]⟩
      · exact .inr (by rw [hstack]; exact hall)
  unfold arrayCountDone at ht
  split at ht
  · cases ht
  · next count hcount =>
    dsimp only [emit_recorder, Except.bind, Except.map] at ht
    split at ht
    · next hnull =>
      obtain rfl := Except.ok.inj ht
      exact hempty (.inr rfl) rfl
    · next hnull =>
      split at ht
      · cases ht
      · split at ht
        · cases ht
        · split at ht
          · next hzero =>
            obtain rfl := Except.ok.inj ht
            exact hempty (.inl hzero) rfl
          · next hzero =>
            obtain rfl := Except.ok.inj ht
            have hstart : Unclosed ({ p with arrayStack := ⟨count, 0⟩ :: p.arrayStack },
                u ++ [Event.arrayStart count]) := by
              refine hu.more (by simp) (by simp [Event.hollow, hzero, hnull]) fun l hl => ?_
              rcases mem_cons.mp hl with rfl | hl
              · by_cases hpos : 0 < count
                · exact .inr (.inr hpos)
                · exact .inr (.inl ⟨count, by omega, rfl⟩)
              · exact .inl hl
            exact hstart.more (by simp) rfl fun l hl => .inl hl

end

theorem Turn.flow_holds {P : Parser × List Event → Prop} {r : Turn (List Event)}
    (h : ∀ t, r = .ok t → P t) (rest : Bytes) : (r.flow rest).Holds P := by
  cases r with
  | ok t => exact h t rfl
  | error t => trivial

theorem line_unclosed {s : Parser × List Event} (hs : Unclosed s) (text cur : Bytes)
    (failure : String) {done : Parser → List Event → Turn (List Event)}
    (hdone : ∀ {p u}, Unclosed (p, u) → ∀ {t}, done p u = .ok t → Unclosed t) :
    (line recorder grow s text cur failure done).Holds Unclosed := by
  unfold line
  split
  · split
    · trivial
    · next p hp => exact Turn.flow_holds (fun t => hdone (hs.same (by rw [accumulate_eq hp]))) _
  · split
    · trivial
    · next p hp => exact hs.same (by rw [accumulate_eq hp])

theorem bulkStringData_unclosed {s : Parser × List Event} (hs : Unclosed s) (cur : Bytes) :
    (bulkStringData recorder s cur).Holds Unclosed := by
  unfold bulkStringData
  refine Turn.flow_holds (fun t ht => ?_) _
  split at ht
  · obtain rfl := Except.ok.inj ht
    exact hs.more (by simp) rfl fun l hl => .inl hl
  · obtain rfl := Except.ok.inj ht
    exact hs.same rfl

theorem typeByte_unclosed (hu : Unclosed (p, u)) (c : UInt8) {t : Parser × List Event}
    (ht : typeByte recorder p u c = .ok t) : Unclosed t := by
  unfold typeByte at ht
  repeat' split at ht
  all_goals first | cases ht; done | (obtain rfl := Except.ok.inj ht; exact hu.same rfl)

theorem pass_unclosed (s : Parser × List Event) (cur : Bytes) (hs : Unclosed s) :
    (pass recorder grow s cur).Holds Unclosed := by
  unfold pass
  split
  · exact hs
  · next c l hcur =>
    split
    · exact Turn.flow_holds (fun t => typeByte_unclosed hs c) _
    · exact line_unclosed hs _ _ _ simpleDone_unclosed
    · exact line_unclosed hs _ _ _ simpleDone_unclosed
    · exact line_unclosed hs _ _ _ integerDone_unclosed
    · exact line_unclosed hs _ _ _ bulkStringLenDone_unclosed
    · exact bulkStringData_unclosed hs cur
    · exact line_unclosed hs _ _ _ arrayCountDone_unclosed
    · refine Turn.flow_holds (fun t ht => ?_) _
      unfold crByte at ht
      split at ht
      · obtain rfl := Except.ok.inj ht
        exact hs.same rfl
      · cases ht
    · refine Turn.flow_holds (fun t ht => ?_) _
      unfold lfByte at ht
      split at ht
      · rw [emit_recorder, Except.bind] at ht
        exact elementDone_unclosed (hs.more (by simp) rfl fun l hl => .inl hl) ht
      · cases ht
    · exact hs
    · exact hs

theorem finish_unclosed {s t : Parser × List Event} (hs : Unclosed s)
    (ht : finish recorder s = .ok t) : (∃ k < -1, .arrayStart k ∈ t.2) ∨
      t.2.countP (· = .arrayComplete) = t.2.countP Event.hollow := by
  unfold finish at ht
  split at ht
  · obtain rfl := Except.ok.inj ht
    exact .inr hs.ends
  · have hlast : (s.2 ++ [Event.complete]).countP (· = .arrayComplete) =
        (s.2 ++ [Event.complete]).countP Event.hollow :=
      (hs.more (by simp) rfl fun l hl => .inl hl).ends
    split at ht
    · next top rest hstack =>
      split at ht
      · next hfull =>
        rcases hs.misses with ⟨k, hk, hmem⟩ | hall
        · obtain rfl := Except.ok.inj ht
          exact .inl ⟨k, hk, mem_append_left _ (mem_append_left _ hmem)⟩
        · have := hall top (by rw [hstack]; exact mem_cons_self)
          omega
      · obtain rfl := Except.ok.inj ht
        exact .inr hlast
    · obtain rfl := Except.ok.inj ht
      exact .inr hlast

theorem execute_unclosed {config : Config} {before : UInt8} {data : Bytes} {n : ℕ}
    (hdata : data ≠ [])
    (hret : (execute recorder grow before (create (some config)) [] data).ret = some n) :
    (∃ k < -1, .arrayStart k ∈ (execute recorder grow before (create (some config)) [] data).u) ∨
      (execute recorder grow before (create (some config)) [] data).u.countP (· = .arrayComplete) =
        (execute recorder grow before (create (some config)) [] data).u.countP Event.hollow := by
  have hstart : Unclosed (create (some config), []) := ⟨rfl, .inr fun l hl => by cases hl⟩
  have hpasses := passes_holds (@pass_unclosed grow) (data.length + 3) hstart
    (before :: data)
  obtain ⟨t, rest, v, hgo | hwait, hfinish, hexecute⟩ := execute_some hdata hret
  · rw [hgo] at hpasses
    rw [hexecute]
    exact finish_unclosed hpasses hfinish
  · rw [hwait] at hpasses
    rw [hexecute]
    exact finish_unclosed hpasses hfinish

end

def Event.solid : Event → Bool
  | .arrayStart k => 0 < k
  | _ => false

mutual

theorem meaning_ends (v : Value) : v.meaning.countP (· = .arrayComplete) =
    v.meaning.countP Event.hollow + v.meaning.countP Event.solid := by
  cases v with
  | array vs =>
    have hvs := meaningAll_ends vs
    have hone : (Event.arrayStart vs.length).hollow = !(Event.arrayStart vs.length).solid := by
      show decide ((vs.length : ℤ) = 0 ∨ (vs.length : ℤ) = -1) = !decide (0 < (vs.length : ℤ))
      by_cases hpos : 0 < (vs.length : ℤ)
      · rw [decide_eq_true hpos, decide_eq_false (by omega)]
        rfl
      · rw [decide_eq_false hpos, decide_eq_true (by omega)]
        rfl
    have hend : Event.arrayComplete.hollow = false ∧ Event.arrayComplete.solid = false :=
      ⟨rfl, rfl⟩
    simp only [Value.meaning, countP_cons, countP_append, countP_nil, hone, hend,
      reduceCtorEq, decide_true, decide_false]
    cases (Event.arrayStart vs.length).solid <;> simp <;> omega
  | bulkString s =>
    unfold Value.meaning
    split <;> rfl
  | simpleString s => rfl
  | error s => rfl
  | integer n => rfl
  | null => rfl
  | nullArray => rfl

theorem meaningAll_ends (vs : List Value) : (meaningAll vs).countP (· = .arrayComplete) =
    (meaningAll vs).countP Event.hollow + (meaningAll vs).countP Event.solid := by
  cases vs with
  | nil => rfl
  | cons v vs =>
    have hv := meaning_ends v
    have hvs := meaningAll_ends vs
    simp only [meaningAll, countP_append]
    omega

end

mutual

theorem meaning_counts (v : Value) {k : ℤ} (hk : .arrayStart k ∈ v.meaning) : -1 ≤ k := by
  cases v with
  | array vs =>
    rcases mem_cons.mp hk with hk | hk
    · have : k = vs.length := Event.arrayStart.inj hk
      omega
    · rcases mem_append.mp hk with hk | hk
      · exact meaningAll_counts vs hk
      · cases mem_singleton.mp hk
  | bulkString s =>
    unfold Value.meaning at hk
    split at hk <;> simp at hk
  | simpleString s => simp [Value.meaning] at hk
  | error s => simp [Value.meaning] at hk
  | integer n => simp [Value.meaning] at hk
  | null => simp [Value.meaning] at hk
  | nullArray =>
    simp [Value.meaning] at hk
    omega

theorem meaningAll_counts (vs : List Value) {k : ℤ} (hk : .arrayStart k ∈ meaningAll vs) :
    -1 ≤ k := by
  cases vs with
  | nil => cases hk
  | cons v vs =>
    rcases mem_append.mp hk with hk | hk
    · exact meaning_counts v hk
    · exact meaningAll_counts vs hk

end

theorem array_not_parsed {config : Config} {grow : ℕ → Bool} {before : UInt8} {vs : List Value}
    (hvs : vs ≠ []) : ¬ (Value.array vs).Parsed config grow before := by
  rintro ⟨hevents, hret⟩
  have hcount (P : Event → Bool) (hP : ∀ e, P e → e.ofValue) (hlast : P .complete = false) :
      (execute recorder grow before (create (some config)) [] (Value.array vs).encode).u.countP P =
        (Value.array vs).meaning.countP P := by
    have hfilter : ((execute recorder grow before (create (some config)) []
        (Value.array vs).encode).u.filter Event.ofValue).countP P =
        (Value.array vs).meaning.countP P := by
      rw [hevents, countP_append, countP_singleton, hlast]
      rfl
    rw [← hfilter, countP_filter]
    refine countP_congr fun e he => ?_
    simp only [Bool.and_eq_true]
    exact ⟨fun h => ⟨h, hP e h⟩, fun h => h.1⟩
  rcases execute_unclosed (encode_ne_nil _) hret with ⟨k, hk, hmem⟩ | hends
  · have hkept : .arrayStart k ∈ (Value.array vs).meaning ++ [Event.complete] := by
      rw [← hevents]
      exact mem_filter.mpr ⟨hmem, rfl⟩
    rcases mem_append.mp hkept with hkept | hkept
    · have := meaning_counts _ hkept
      omega
    · cases mem_singleton.mp hkept
  · have hhollow (e : Event) (he : e.hollow) : e.ofValue := by
      cases e <;> first | rfl | cases he
    have hcomplete (e : Event) (he : decide (e = .arrayComplete) = true) : e.ofValue := by
      rw [of_decide_eq_true he]
      rfl
    rw [hcount _ hcomplete rfl, hcount _ hhollow rfl, meaning_ends] at hends
    have hsolid : 0 < (Value.array vs).meaning.countP Event.solid := by
      rw [countP_pos_iff]
      have := length_pos_of_ne_nil hvs
      exact ⟨.arrayStart vs.length, mem_cons_self, decide_eq_true (by omega)⟩
    omega

/-- A new parser, given the standard encoding of a value in one call, reads it to its end with the
events of the value and on_complete exactly when the value is no simple string, no error, not the
least integer and no array but a null or empty one. -/
theorem parsed_iff {config : Config} {grow : ℕ → Bool} {before : UInt8} (v : Value)
    (hfits : v.Fits config 0) : v.Parsed config grow before ↔ v.Understood config grow := by
  cases v with
  | simpleString s =>
    exact iff_of_false (text_not_parsed rfl (by decide) hfits rfl (.inl rfl)) id
  | error s =>
    exact iff_of_false (text_not_parsed rfl (by decide) hfits rfl (.inr rfl)) id
  | integer n =>
    have hfits : -2 ^ 63 ≤ n ∧ n < 2 ^ 63 := hfits
    by_cases hn : n = -2 ^ 63
    · subst hn
      exact iff_of_false least_not_parsed fun h => h.1 rfl
    · have hmin : -int64Max ≤ n := by
        unfold int64Max
        omega
      have hmax : n ≤ int64Max := by
        unfold int64Max
        omega
      refine ⟨fun h => ⟨hn, ?_⟩, fun h => integer_parsed h.2 hmin hmax⟩
      by_contra hg
      exact number_not_parsed hg rfl ⟨rfl, fun s cur => pass_integer⟩ h
  | bulkString s =>
    refine ⟨fun h => ?_, fun h => bulkString_parsed h hfits.1 hfits.2⟩
    by_contra hg
    have hencode : (Value.bulkString s).encode =
        36 :: (signed s.length ++ (crlf ++ (s ++ crlf))) := by
      rw [Value.encode, append_assoc]
    exact number_not_parsed hg hencode ⟨rfl, fun s cur => pass_bulkStringLen⟩ h
  | null =>
    refine ⟨fun h => ?_, fun h => null_parsed h⟩
    by_contra hg
    exact number_not_parsed hg rfl ⟨rfl, fun s cur => pass_bulkStringLen⟩ h
  | nullArray =>
    refine ⟨fun h => ?_, fun h => nullArray_parsed h⟩
    by_contra hg
    exact number_not_parsed hg rfl ⟨rfl, fun s cur => pass_arrayCount⟩ h
  | array vs =>
    by_cases hvs : vs = []
    · subst hvs
      by_cases hdepth : config.maxNestingDepth = 0
      · exact iff_of_false (shallow_not_parsed hdepth) fun h => h.2.1 hdepth
      · refine ⟨fun h => ⟨rfl, hdepth, ?_⟩, fun h => emptyArray_parsed h.2.2 hdepth⟩
        by_contra hg
        exact number_not_parsed hg rfl ⟨rfl, fun s cur => pass_arrayCount⟩ h
    · exact iff_of_false (array_not_parsed hvs) fun h => hvs h.1

theorem hi_parsed : (Value.bulkString (lit "hi")).Parsed defaultConfig (fun _ => true) 0 :=
  (parsed_iff (.bulkString (lit "hi")) ⟨by decide, .inr (by decide)⟩).mpr rfl

/-- `+OK` is handed on with its `+`, and 6 of its 5 bytes are read. -/
theorem ok_not_parsed : (Value.simpleString (lit "OK")).Fits defaultConfig 0 ∧
    (Value.simpleString (lit "OK")).encode = lit "+OK\r\n" ∧
    (execute recorder (fun _ => true) 0 (create none) [] (lit "+OK\r\n")).u =
      [.simpleString (lit "+OK"), .complete] ∧
    (execute recorder (fun _ => true) 0 (create none) [] (lit "+OK\r\n")).ret = some 6 ∧
    ¬ (Value.simpleString (lit "OK")).Parsed defaultConfig (fun _ => true) 0 := by
  refine ⟨?_, by decide, by decide, by decide, ?_⟩
  · exact forall_mem_of_all (P := fun c => c ≠ 13 ∧ c ≠ 10) (by decide)
  · rintro ⟨-, hret⟩
    exact absurd hret (by decide)

end Voxlib.Redis
