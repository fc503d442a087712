import Voxlib.Lib.Run
import Voxlib.Redis.Pieces

/-!
# Bounds and progress of the RESP parser (vox_redis_parser.c)
-/

namespace Voxlib.Redis
open CStr Stream Run List Option

def stackSize : ℕ := 64

section
variable {σ : Type*} (h : Handler σ) (grow : ℕ → Bool)

/- The length of the line that ends in `text`, and the parser with the line in string_buf. -/
def ended (p : Parser) (text : Bytes) : Option (ℕ × Parser) :=
  (findCrlf text).bind fun k => (accumulate grow p (text.take k)).map fun q => (k, q)

/- The callbacks for a simple string or an error return 0. -/
def takesText (p : Parser) (u : σ) : Bool :=
  let r := h.on u (if p.state = .simpleString then .simpleString p.stringBuf
    else .error p.stringBuf)
  match p.arrayStack with
  | [] => r.1
  | top :: _ => r.1 && (h.on r.2 (.arrayElementComplete top.current)).1

/- An array count that passes the checks, and on_array_start returns 0: the entry of array_stack at
   array_depth is written. -/
def opens (p : Parser) (u : σ) : Bool :=
  match parseInteger p.stringBuf with
  | none => false
  | some count =>
    count ≠ -1 && !(p.config.maxArraySize > 0 && sizeT count > p.config.maxArraySize) &&
      p.arrayStack.length < p.config.maxNestingDepth && (h.on u (.arrayStart count)).1

def Opening (s : Parser × σ) (cur : Bytes) : Prop :=
  s.1.state = .arrayCount ∧ ∃ x ∈ ended grow s.1 cur.tail, opens h x.2 s.2

/-- The pass takes the line of a simple string or an error that ends with the piece. -/
def LastLine (s : Parser × σ) (cur : Bytes) : Prop :=
  s.1.inText ∧ ∃ x ∈ ended grow s.1 cur, cur.length ≤ x.1 + 2 ∧ takesText h x.2 s.2

instance Opening.decidable (s : Parser × σ) (cur : Bytes) : Decidable (Opening h grow s cur) :=
  inferInstanceAs (Decidable (_ ∧ _))

instance LastLine.decidable (s : Parser × σ) (cur : Bytes) : Decidable (LastLine h grow s cur) :=
  inferInstanceAs (Decidable (_ ∧ _))

/- The largest array_depth in the pass; the one of an empty array goes back at once. -/
def depthIn (s : Parser × σ) (cur : Bytes) : ℕ :=
  if Opening h grow s cur then s.1.arrayStack.length + 1 else s.1.arrayStack.length

/- The bytes that a pass reads, as offsets in a piece of `n` bytes. find_crlf and the copy of what
   it found stay between where the search starts and the end. -/
def touched (n : ℕ) (p : Parser) (cur : Bytes) : Set ℤ :=
  let pos : ℤ := n + 1 - cur.length
  if cur.tail = [] then ∅
  else
    match p.state with
    | .start | .cr | .lf => {pos}
    | .simpleString | .error => Set.Ico (pos - 1) n
    | .integer | .bulkStringLen | .arrayCount => Set.Ico pos n
    | .bulkStringData => Set.Ico pos (pos + (min cur.tail.length (sizeT p.bulkStringLen) : ℕ))
    | .complete | .errorState => ∅

/-- The pass is neither the first of its piece in a simple string or an error, nor takes such a line
at the end of it, nor opens an array inside 64 others. -/
structure Fits (n : ℕ) (s : Parser × σ) (cur : Bytes) : Prop where
  front : s.1.inText → cur.tail ≠ [] → cur.length ≤ n
  last : ¬ LastLine h grow s cur
  room : Opening h grow s cur → s.1.arrayStack.length < stackSize

instance Fits.decidable (n : ℕ) (s : Parser × σ) (cur : Bytes) : Decidable (Fits h grow n s cur) :=
  decidable_of_iff
    ((s.1.inText → cur.tail ≠ [] → cur.length ≤ n) ∧ ¬ LastLine h grow s cur ∧
      (Opening h grow s cur → s.1.arrayStack.length < stackSize))
    ⟨fun ⟨a, b, c⟩ => ⟨a, b, c⟩, fun ⟨a, b, c⟩ => ⟨a, b, c⟩⟩

/-- The read pointer and the reads of the pass are in the piece, the entries that it uses in
array_stack. -/
structure Inside (n : ℕ) (s : Parser × σ) (cur : Bytes) : Prop where
  pointer : cur ≠ [] ∧ cur.length ≤ n + 1
  reads : touched n s.1 cur ⊆ Set.Ico 0 (n : ℤ)
  depth : depthIn h grow s cur ≤ stackSize

def Suits (s : Parser × σ) (x : Piece) : Prop :=
  Fronts (pass h grow) (Fits h grow x.data.length) (x.data.length + 3) s (x.before :: x.data)

instance Suits.decidable (s : Parser × σ) (x : Piece) : Decidable (Suits h grow s x) :=
  inferInstanceAs (Decidable (Fronts _ _ _ _ _))

/-- The call makes a bounded number of passes, each of them inside, returns -1 or at most the length
of the piece, and does not depend on the byte in front of it. -/
structure Safe (s : Parser × σ) (x : Piece) : Prop where
  ends : ¬ Lasts (pass h grow) (x.data.length + 3) s (x.before :: x.data)
  inside : Fronts (pass h grow) (Inside h grow x.data.length) (x.data.length + 3) s
    (x.before :: x.data)
  returns : ∀ n ∈ (execute h grow x.before s.1 s.2 x.data).ret, n ≤ x.data.length
  front : ∀ b, execute h grow b s.1 s.2 x.data = execute h grow x.before s.1 s.2 x.data

def call (s : Parser × σ) (x : Piece) : Option (Parser × σ) :=
  let r := execute h grow x.before s.1 s.2 x.data
  some (r.p, r.u)

end

section
variable {σ : Type*} {h : Handler σ} {grow : ℕ → Bool} {d : ℕ}

def Turn.Gives (G F : Parser × σ → Prop) : Turn σ → Prop
  | .ok t => G t
  | .error t => F t

/- At most `d` arrays are open. -/
def Low (d : ℕ) (s : Parser × σ) : Prop := s.1.arrayStack.length ≤ d

def LowAway (d : ℕ) (s : Parser × σ) : Prop := Low d s ∧ s.1.state ≠ .bulkStringData

variable {r : Turn σ}

theorem Turn.Gives.bind {G G' F : Parser × σ → Prop} {f : Parser × σ → Turn σ} (hr : r.Gives G F)
    (hf : ∀ t, G t → (f t).Gives G' F) : Turn.Gives G' F (r.bind f) := by
  cases r with
  | ok t => exact hf t hr
  | error t => exact hr

theorem Turn.Gives.map {G G' F : Parser × σ → Prop} {f : Parser × σ → Parser × σ} (hr : r.Gives G F)
    (hf : ∀ t, G t → G' (f t)) : Turn.Gives G' F (r.map f) := by
  cases r with
  | ok t => exact hf t hr
  | error t => exact hr

theorem Turn.Gives.weaken {G G' F : Parser × σ → Prop} (hr : r.Gives G F) (hG : ∀ t, G t → G' t) :
    r.Gives G' F := by
  cases r with
  | ok t => exact hG t hr
  | error t => exact hr

variable {p : Parser}

section
variable (hd : p.arrayStack.length ≤ d)
include hd

theorem setError_low (u : σ) (message : String) : Low d (setError h p u message) := hd

theorem emit_low (u : σ) (e : Event) : (emit h p u e).Gives (fun t => t.1 = p) (Low d) := by
  unfold emit
  dsimp only
  split
  · rfl
  · exact hd

theorem elementDone_low (u : σ) : (elementDone h p u).Gives (LowAway d) (Low d) := by
  unfold elementDone
  cases hstack : p.arrayStack with
  | nil => exact ⟨Nat.zero_le d, by simp⟩
  | cons top rest =>
    rw [hstack, length_cons] at hd
    refine (emit_low (by simpa using hd) u _).map fun t ht => ?_
    split
    · exact ⟨by rw [Low, ht]; simpa using hd, by simp⟩
    · exact ⟨by simp only [Low]; omega, by simp⟩

theorem typeByte_low (u : σ) (c : UInt8) : (typeByte h p u c).Gives (LowAway d) (Low d) := by
  have hbegin (kind : Kind) {state : State} (hstate : state ≠ .bulkStringData) :
      LowAway d (p.begin kind state, u) := ⟨hd, hstate⟩
  unfold typeByte
  split
  · exact hbegin _ (by decide)
  · split
    · exact hbegin _ (by decide)
    · split
      · exact hbegin _ (by decide)
      · split
        · exact hbegin _ (by decide)
        · split
          · exact hbegin _ (by decide)
          · exact setError_low hd u _

theorem simpleDone_low (u : σ) : (simpleDone h p u).Gives (LowAway d) (Low d) :=
  (emit_low hd u _).bind fun t ht => elementDone_low (by rwa [ht]) t.2

theorem integerDone_low (u : σ) : (integerDone h p u).Gives (LowAway d) (Low d) := by
  unfold integerDone
  split
  · exact setError_low hd u _
  · exact (emit_low hd u _).bind fun t ht => elementDone_low (by rwa [ht]) t.2

theorem bulkStringLenDone_low (u : σ) : (bulkStringLenDone h p u).Gives (Low d) (Low d) := by
  unfold bulkStringLenDone
  cases parseInteger p.stringBuf with
  | none => exact setError_low hd u _
  | some len =>
    have hstart := emit_low (h := h) (p := { p with bulkStringLen := len }) hd u
    dsimp only
    split
    · refine (hstart _).bind fun t ht => ?_
      refine (emit_low (by rwa [ht]) t.2 _).map fun v hv => ?_
      rw [Low, hv, ht]
      exact hd
    · split
      · exact setError_low (p := { p with bulkStringLen := len }) hd u _
      · refine (hstart _).map fun t ht => ?_
        rw [Low, ht]
        exact hd

theorem arrayCountDone_low (u : σ) (hopens : opens h p u → p.arrayStack.length + 1 ≤ d) :
    (arrayCountDone h p u).Gives (LowAway d) (Low d) := by
  unfold arrayCountDone
  cases hcount : parseInteger p.stringBuf with
  | none => exact setError_low hd u _
  | some count =>
    dsimp only
    split
    · refine (emit_low hd u _).bind fun t ht => ?_
      refine (emit_low (by rwa [ht]) t.2 _).map fun v hv => ?_
      rw [LowAway, Low, hv, ht]
      exact ⟨hd, by simp⟩
    · next hnull =>
      split
      · exact setError_low hd u _
      · next hsize =>
        split
        · exact setError_low hd u _
        · next hdepth =>
          have hstart : (emit h p u (.arrayStart count)).Gives
              (fun t => t.1 = p ∧ p.arrayStack.length + 1 ≤ d) (Low d) := by
            unfold emit
            dsimp only
            split
            · next htaken =>
              refine ⟨rfl, hopens ?_⟩
              unfold opens
              rw [hcount]
              dsimp only
              rw [decide_eq_true hnull, htaken, decide_eq_true (Nat.lt_of_not_le hdepth),
                ← Bool.decide_and, decide_eq_false hsize]
              rfl
            · exact hd
          refine hstart.bind fun t ht => ?_
          obtain ⟨ht, hroom⟩ := ht
          split
          · refine (emit_low (by rwa [ht]) t.2 _).map fun v hv => ?_
            rw [LowAway, Low, hv, ht]
            exact ⟨hd, by simp⟩
          · refine (emit_low (by simpa [ht] using hroom) t.2 _).map fun v hv => ?_
            rw [LowAway, Low, hv, ht]
            exact ⟨by simpa using hroom, by simp⟩

theorem crByte_low (u : σ) (c : UInt8) : (crByte h p u c).Gives (LowAway d) (Low d) := by
  unfold crByte
  split
  · exact ⟨hd, by simp⟩
  · exact setError_low hd u _

theorem lfByte_low (u : σ) (c : UInt8) : (lfByte h p u c).Gives (LowAway d) (Low d) := by
  unfold lfByte
  split
  · exact (emit_low hd u _).bind fun t ht => elementDone_low (by rwa [ht]) t.2
  · exact setError_low hd u _

end

theorem finish_low {s : Parser × σ} (hd : Low d s) : (finish h s).Gives (Low d) (Low d) := by
  unfold finish
  split
  · exact hd
  · refine Turn.Gives.bind (G := Low d) ?_ fun t ht => ?_
    · cases hstack : s.1.arrayStack with
      | nil => exact hd
      | cons top rest =>
        rw [Low, hstack, length_cons] at hd
        dsimp only
        split
        · have hrest := emit_low (h := h) (p := { s.1 with arrayStack := rest }) (d := d)
            (by dsimp only; omega) s.2 .arrayComplete
          revert hrest
          cases emit h { s.1 with arrayStack := rest } s.2 .arrayComplete with
          | error t => exact id
          | ok t =>
            intro ht
            rw [Turn.Gives, Low, show t.1 = _ from ht]
            dsimp only
            omega
        · rw [Turn.Gives, Low, hstack, length_cons]
          exact hd
    · refine (emit_low ht t.2 _).map fun v hv => ?_
      split
      · exact Nat.zero_le d
      · rw [Low, hv]
        exact ht

def pending (s : Parser × σ) : ℕ := if s.1.state = .bulkStringData then 1 else 0

/- What a pass does to its input and to the depth; it gets past the end with a last line only. -/
def Moves (h : Handler σ) (grow : ℕ → Bool) (s : Parser × σ) (cur : Bytes) :
    Flow (Parser × σ) UInt8 → Prop :=
  Flow.Gives
    (fun t rest => Low (depthIn h grow s cur) t ∧
      rest.length + pending t < cur.length + pending s ∧ (rest = [] → LastLine h grow s cur))
    (fun t rest => t = s ∧ rest = cur) (Low (depthIn h grow s cur))

variable {s : Parser × σ} {cur : Bytes}

variable {t : Parser × σ}

theorem pending_away (ht : t.1.state ≠ .bulkStringData) : pending t = 0 :=
  if_neg ht

theorem pending_le (t : Parser × σ) : pending t ≤ 1 := by
  unfold pending
  split <;> omega

theorem low_depthIn (h : Handler σ) (grow : ℕ → Bool) (s : Parser × σ) (cur : Bytes) :
    s.1.arrayStack.length ≤ depthIn h grow s cur := by
  unfold depthIn
  split <;> omega

theorem byte_moves {b c : UInt8} {l : Bytes}
    (hr : r.Gives (LowAway (depthIn h grow s (b :: c :: l)))
      (Low (depthIn h grow s (b :: c :: l)))) : Moves h grow s (b :: c :: l) (r.flow (c :: l)) := by
  cases r with
  | error t => exact hr
  | ok t =>
    refine ⟨hr.1, ?_, fun hnil => absurd hnil (cons_ne_nil c l)⟩
    rw [pending_away hr.2]
    simp only [length_cons]
    omega

theorem ended_eq {text : Bytes} {x : ℕ × Parser} (hx : x ∈ ended grow p text) :
    findCrlf text = some x.1 ∧ x.2 = { p with stringBuf := p.stringBuf ++ text.take x.1 } := by
  obtain ⟨k, hk, hx⟩ := bind_eq_some_iff.mp hx
  obtain ⟨q, hq, rfl⟩ := map_eq_some_iff.mp hx
  exact ⟨hk, accumulate_eq hq⟩

theorem ended_low {text : Bytes} {x : ℕ × Parser} (hx : x ∈ ended grow s.1 text) :
    x.2.arrayStack.length ≤ depthIn h grow s cur := by
  rw [(ended_eq hx).2]
  exact low_depthIn h grow s cur

theorem line_moves {text : Bytes} {failure : String} {done : Parser → σ → Turn σ}
    {G : Parser × σ → Prop} (hs : s.1.state ≠ .bulkStringData) (hmore : 2 ≤ cur.length)
    (hdone : ∀ x ∈ ended grow s.1 text, (done x.2 s.2).Gives G (Low (depthIn h grow s cur)))
    (hgo : ∀ x ∈ ended grow s.1 text, ∀ t, done x.2 s.2 = .ok t → G t →
      Low (depthIn h grow s cur) t ∧ (cur.drop (x.1 + 2)).length + pending t < cur.length ∧
        (cur.drop (x.1 + 2) = [] → LastLine h grow s cur)) :
    Moves h grow s cur (line h grow s text cur failure done) := by
  have hlow := low_depthIn h grow s cur
  unfold line
  cases hfind : findCrlf text with
  | none =>
    cases hq : accumulate grow s.1 text with
    | none => exact setError_low hlow s.2 failure
    | some q =>
      obtain rfl := accumulate_eq hq
      refine ⟨hlow, ?_, fun hnil => ?_⟩
      · rw [pending_away hs, length_drop, pending_away]
        · omega
        · exact hs
      · have := congrArg List.length hnil
        rw [length_drop, length_nil] at this
        omega
  | some k =>
    dsimp only
    cases hq : accumulate grow s.1 (text.take k) with
    | none => exact setError_low hlow s.2 failure
    | some q =>
      have hx : (k, q) ∈ ended grow s.1 text := by
        rw [ended, hfind, bind_some, hq]
        rfl
      have hturn := hdone _ hx
      dsimp only
      cases hr : done q s.2 with
      | error t =>
        rw [show done (k, q).2 s.2 = _ from hr] at hturn
        exact hturn
      | ok t =>
        rw [show done (k, q).2 s.2 = _ from hr] at hturn
        rw [Moves, pending_away hs]
        exact hgo _ hx t hr hturn

theorem emit_ok {u : σ} {e : Event} (hok : emit h p u e = .ok t) :
    (h.on u e).1 = true ∧ t = (p, (h.on u e).2) := by
  unfold emit at hok
  dsimp only at hok
  split at hok
  · next htaken => exact ⟨htaken, (Except.ok.inj hok).symm⟩
  · cases hok

theorem takesText_of {u : σ} (hok : simpleDone h p u = .ok t) : takesText h p u := by
  unfold simpleDone at hok
  cases hr : emit h p u
      (if p.state = .simpleString then .simpleString p.stringBuf else .error p.stringBuf) with
  | error v =>
    rw [hr] at hok
    cases hok
  | ok v =>
    rw [hr] at hok
    obtain ⟨htaken, rfl⟩ := emit_ok hr
    have hok : elementDone h p (h.on u _).2 = .ok t := hok
    unfold elementDone at hok
    unfold takesText
    cases hstack : p.arrayStack with
    | nil => exact htaken
    | cons top rest =>
      rw [hstack] at hok
      dsimp only at hok ⊢
      rw [htaken, Bool.true_and]
      cases hlast : emit h { p with arrayStack := { top with current := top.current + 1 } :: rest }
          (h.on u (if p.state = .simpleString then .simpleString p.stringBuf
            else .error p.stringBuf)).2 (.arrayElementComplete (top.current + 1 - 1)) with
      | error w =>
        rw [hlast] at hok
        cases hok
      | ok w => exact (emit_ok hlast).1

theorem text_moves (hs : s.1.inText) (hcur : cur.tail ≠ []) :
    Moves h grow s cur (pass h grow s cur) := by
  have hmore : 2 ≤ cur.length := by
    have := length_pos_iff.mpr hcur
    rw [length_tail] at this
    omega
  rw [pass_text hs hcur]
  refine line_moves (G := LowAway (depthIn h grow s cur)) ?_ hmore (fun x hx => ?_)
    fun x hx t hok ht => ?_
  · rcases hs with hs | hs <;> simp [hs]
  · exact simpleDone_low (ended_low hx) s.2
  · refine ⟨ht.1, ?_, fun hnil => ⟨hs, x, hx, ?_, takesText_of hok⟩⟩
    · rw [pending_away ht.2, length_drop]
      omega
    · rwa [drop_eq_nil_iff] at hnil

theorem number_moves {failure : String} {done : Parser → σ → Turn σ}
    (hs : s.1.state ≠ .bulkStringData) (hcur : cur.tail ≠ [])
    (hdone : ∀ x ∈ ended grow s.1 cur.tail,
      (done x.2 s.2).Gives (Low (depthIn h grow s cur)) (Low (depthIn h grow s cur))) :
    Moves h grow s cur (line h grow s cur.tail cur failure done) := by
  have hlen := length_pos_iff.mpr hcur
  rw [length_tail] at hlen
  refine line_moves hs (by omega) hdone fun x hx t _ ht => ⟨ht, ?_, fun hnil => ?_⟩
  · have hend := (findCrlf_some (ended_eq hx).1).2
    have hpending := pending_le t
    rw [length_tail] at hend
    rw [length_drop]
    omega
  · have hend := (findCrlf_some (ended_eq hx).1).2
    rw [drop_eq_nil_iff] at hnil
    rw [length_tail] at hend
    omega

theorem data_moves (hs : s.1.state = .bulkStringData) (hcur : cur.tail ≠ []) :
    Moves h grow s cur (pass h grow s cur) := by
  have hlow := low_depthIn h grow s cur
  have hlen := length_pos_iff.mpr hcur
  rw [length_tail] at hlen
  have hpending : pending s = 1 := if_pos hs
  rw [pass_bulkStringData hs hcur]
  unfold bulkStringData
  dsimp only
  have hread : (if min cur.tail.length (sizeT s.1.bulkStringLen) > 0 then
      emit h s.1 s.2 (.bulkStringData
        (cur.tail.take (min cur.tail.length (sizeT s.1.bulkStringLen))))
      else .ok s : Turn σ).Gives (fun t => t.1 = s.1) (Low (depthIn h grow s cur)) := by
    split
    · exact emit_low hlow s.2 _
    · rfl
  revert hread
  generalize (if min cur.tail.length (sizeT s.1.bulkStringLen) > 0 then _ else _ : Turn σ) = r
  cases r with
  | error t => exact id
  | ok t =>
    obtain ⟨p, v⟩ := t
    rintro (rfl : p = s.1)
    refine ⟨hlow, ?_, fun hnil => ?_⟩
    · rw [hpending, length_drop]
      dsimp only
      by_cases hnone : sizeT s.1.bulkStringLen = 0
      · rw [hnone, Nat.min_zero, Nat.cast_zero, sub_zero, if_pos (int64_eq_zero.mpr hnone),
          pending_away (by simp)]
        omega
      · refine lt_of_le_of_lt (Nat.add_le_add_left (pending_le _) _) ?_
        rw [length_tail]
        omega
    · rw [drop_eq_nil_iff, length_tail] at hnil
      omega

theorem pass_moves (h : Handler σ) (grow : ℕ → Bool) (s : Parser × σ) (cur : Bytes) :
    Moves h grow s cur (pass h grow s cur) := by
  have hlow := low_depthIn h grow s cur
  by_cases hcur : cur.tail = []
  · unfold pass
    rw [hcur]
    exact ⟨rfl, rfl⟩
  obtain ⟨b, l, rfl⟩ := exists_cons_of_ne_nil (l := cur) (by rintro rfl; exact hcur rfl)
  obtain ⟨c, l, rfl⟩ := exists_cons_of_ne_nil (l := l) hcur
  cases hs : s.1.state with
  | start =>
    unfold pass
    dsimp only [tail_cons]
    rw [hs]
    exact byte_moves (typeByte_low hlow s.2 c)
  | simpleString => exact text_moves (.inl hs) hcur
  | error => exact text_moves (.inr hs) hcur
  | integer =>
    rw [pass_integer hs hcur]
    exact number_moves (by simp [hs]) hcur fun x hx =>
      (integerDone_low (ended_low hx) s.2).weaken fun t ht => ht.1
  | bulkStringLen =>
    rw [pass_bulkStringLen hs hcur]
    exact number_moves (by simp [hs]) hcur fun x hx => bulkStringLenDone_low (ended_low hx) s.2
  | bulkStringData => exact data_moves hs hcur
  | arrayCount =>
    rw [pass_arrayCount hs hcur]
    refine number_moves (by simp [hs]) hcur fun x hx => ?_
    refine (arrayCountDone_low (ended_low hx) s.2 fun hopens => ?_).weaken fun t ht => ht.1
    rw [depthIn, if_pos ⟨hs, x, hx, hopens⟩, (ended_eq hx).2]
  | cr =>
    rw [pass_cr hs]
    exact byte_moves (crByte_low hlow s.2 c)
  | lf =>
    rw [pass_lf hs]
    exact byte_moves (lfByte_low hlow s.2 c)
  | complete =>
    unfold pass
    dsimp only [tail_cons]
    rw [hs]
    exact ⟨rfl, rfl⟩
  | errorState =>
    unfold pass
    dsimp only [tail_cons]
    rw [hs]
    exact ⟨rfl, rfl⟩

theorem pass_uses : Falling (pass h grow) (fun _ => True) pending where
  live_go _ _ := trivial
  falls {s cur t rest} _ hp := by
    have hmoves := pass_moves h grow s cur
    rw [hp] at hmoves
    exact hmoves.2.1

/-- The byte in front does not matter to a pass outside a simple string or an error, or the next
pass has it in front again. -/
theorem pass_front (h : Handler σ) (grow : ℕ → Bool) (hs : ¬ s.1.inText) (b b' : UInt8)
    (data : Bytes) : pass h grow s (b :: data) = pass h grow s (b' :: data) ∨
      (∃ t, ¬ t.1.inText ∧ pass h grow s (b :: data) = .go t (b :: data) ∧
        pass h grow s (b' :: data) = .go t (b' :: data)) ∨
      pass h grow s (b :: data) = .wait s (b :: data) ∧
        pass h grow s (b' :: data) = .wait s (b' :: data) := by
  by_cases hdata : data = []
  · subst hdata
    exact .inr (.inr ⟨rfl, rfl⟩)
  have hcur (b : UInt8) : (b :: data).tail ≠ [] := hdata
  obtain ⟨c, l, hc⟩ := exists_cons_of_ne_nil hdata
  cases hstate : s.1.state with
  | simpleString => exact absurd (.inl hstate) hs
  | error => exact absurd (.inr hstate) hs
  | start =>
    subst hc
    unfold pass
    dsimp only [tail_cons]
    rw [hstate]
    exact .inl rfl
  | integer =>
    rw [pass_integer hstate (hcur b), pass_integer hstate (hcur b')]
    exact .inl (line_front hdata b b' _ _)
  | bulkStringLen =>
    rw [pass_bulkStringLen hstate (hcur b), pass_bulkStringLen hstate (hcur b')]
    exact .inl (line_front hdata b b' _ _)
  | arrayCount =>
    rw [pass_arrayCount hstate (hcur b), pass_arrayCount hstate (hcur b')]
    exact .inl (line_front hdata b b' _ _)
  | bulkStringData =>
    rw [pass_bulkStringData hstate (hcur b), pass_bulkStringData hstate (hcur b')]
    unfold bulkStringData
    dsimp only [tail_cons]
    cases hread : min data.length (sizeT s.1.bulkStringLen) with
    | zero =>
      have hnone : sizeT s.1.bulkStringLen = 0 := by
        have := length_pos_iff.mpr hdata
        omega
      refine .inr (.inl ⟨_, ?_, rfl, rfl⟩)
      dsimp only [Parser.inText]
      rw [Nat.cast_zero, sub_zero, if_pos (int64_eq_zero.mpr hnone)]
      rintro (ht | ht) <;> cases ht
    | succ n => exact .inl rfl
  | cr =>
    subst hc
    rw [pass_cr hstate, pass_cr hstate]
    exact .inl rfl
  | lf =>
    subst hc
    rw [pass_lf hstate, pass_lf hstate]
    exact .inl rfl
  | complete =>
    subst hc
    unfold pass
    dsimp only [tail_cons]
    rw [hstate]
    exact .inr (.inr ⟨rfl, rfl⟩)
  | errorState =>
    subst hc
    unfold pass
    dsimp only [tail_cons]
    rw [hstate]
    exact .inr (.inr ⟨rfl, rfl⟩)

theorem passes_front (h : Handler σ) (grow : ℕ → Bool) (n : ℕ) (hs : ¬ s.1.inText)
    (b b' : UInt8) (data : Bytes) :
    passes (pass h grow) n s (b :: data) = passes (pass h grow) n s (b' :: data) ∨
      ∃ t, passes (pass h grow) n s (b :: data) = .wait t (b :: data) ∧
        passes (pass h grow) n s (b' :: data) = .wait t (b' :: data) := by
  induction n generalizing s with
  | zero => exact .inr ⟨s, rfl, rfl⟩
  | succ n ih =>
    simp only [passes]
    rcases pass_front h grow hs b b' data with heq | ⟨t, ht, hb, hb'⟩ | ⟨hb, hb'⟩
    · rw [heq]
      exact .inl rfl
    · rw [hb, hb']
      exact ih ht
    · rw [hb, hb']
      exact .inr ⟨s, rfl, rfl⟩

theorem execute_front (hs : ¬ s.1.inText) (b b' : UInt8) (data : Bytes) :
    execute h grow b s.1 s.2 data = execute h grow b' s.1 s.2 data := by
  unfold execute
  rcases passes_front h grow (data.length + 3) hs b b' data with heq | ⟨t, hb, hb'⟩
  · rw [heq]
  · rw [hb, hb']
    rfl

def InPiece (n : ℕ) (s : Parser × σ) (cur : Bytes) : Prop :=
  (cur ≠ [] ∧ cur.length ≤ n + 1) ∧ Low stackSize s

theorem Fits.depth {n : ℕ} (hfits : Fits h grow n s cur) (hlow : Low stackSize s) :
    depthIn h grow s cur ≤ stackSize := by
  unfold depthIn
  split
  · next hopen => exact hfits.room hopen
  · exact hlow

theorem Fits.reads {n : ℕ} (hfits : Fits h grow n s cur) (hlen : cur.length ≤ n + 1) :
    touched n s.1 cur ⊆ Set.Ico 0 (n : ℤ) := by
  unfold touched
  dsimp only
  split
  · exact Set.empty_subset _
  · next hcur =>
    have htail := length_pos_iff.mpr hcur
    rw [length_tail] at htail
    split
    · exact Set.singleton_subset_iff.mpr ⟨by omega, by omega⟩
    · exact Set.singleton_subset_iff.mpr ⟨by omega, by omega⟩
    · exact Set.singleton_subset_iff.mpr ⟨by omega, by omega⟩
    · next hs =>
      have := hfits.front (.inl hs) hcur
      exact Set.Ico_subset_Ico_left (by omega)
    · next hs =>
      have := hfits.front (.inr hs) hcur
      exact Set.Ico_subset_Ico_left (by omega)
    · exact Set.Ico_subset_Ico_left (by omega)
    · exact Set.Ico_subset_Ico_left (by omega)
    · exact Set.Ico_subset_Ico_left (by omega)
    · rw [length_tail]
      exact Set.Ico_subset_Ico (by omega) (by omega)
    · exact Set.empty_subset _
    · exact Set.empty_subset _

theorem pass_inside {n : ℕ} (hin : InPiece n s cur) (hfits : Fits h grow n s cur) :
    (pass h grow s cur).Gives (InPiece n) (InPiece n) (Low stackSize) := by
  have hmoves := pass_moves h grow s cur
  have hdepth := hfits.depth hin.2
  revert hmoves
  cases pass h grow s cur with
  | fail t => exact fun ht => le_trans ht hdepth
  | wait t rest =>
    rintro ⟨rfl, rfl⟩
    exact hin
  | go t rest =>
    rintro ⟨hlow, hfalls, hpast⟩
    refine ⟨⟨fun hnil => hfits.last (hpast hnil), ?_⟩, le_trans hlow hdepth⟩
    have hpending := pending_le s
    have hlen := hin.1.2
    omega

theorem finish_ends {n : ℕ} (hin : InPiece n s cur) :
    (∀ v, finish h s = .error v → Low stackSize v) ∧ (∀ v, finish h s = .ok v → Low stackSize v) ∧
      n + 1 - cur.length ≤ n := by
  have hfinish := finish_low (h := h) hin.2
  have hrest := length_pos_iff.mpr hin.1.1
  refine ⟨fun v hv => ?_, fun v hv => ?_, by omega⟩
  · rwa [hv] at hfinish
  · rwa [hv] at hfinish

theorem execute_ends {x : Piece} (hlow : Low stackSize s)
    (hend : (passes (pass h grow) (x.data.length + 3) s (x.before :: x.data)).Gives
      (InPiece x.data.length) (InPiece x.data.length) (Low stackSize)) :
    Low stackSize ((execute h grow x.before s.1 s.2 x.data).p,
        (execute h grow x.before s.1 s.2 x.data).u) ∧
      ∀ n ∈ (execute h grow x.before s.1 s.2 x.data).ret, n ≤ x.data.length := by
  unfold execute
  split
  · refine ⟨hlow, fun n hn => ?_⟩
    dsimp only at hn
    split at hn
    · cases hn
    · obtain rfl := some.inj hn
      exact Nat.zero_le _
  · split
    · exact ⟨hlow, fun n hn => by cases hn⟩
    · revert hend
      cases passes (pass h grow) (x.data.length + 3) (s.1, s.2) (x.before :: x.data) with
      | fail t => exact fun ht => ⟨ht, fun n hn => by cases hn⟩
      | go t rest =>
        intro hin
        obtain ⟨herror, hok, hlen⟩ := finish_ends (h := h) hin
        dsimp only
        cases hfinish : finish h t with
        | error v => exact ⟨herror v hfinish, fun n hn => by cases hn⟩
        | ok v => exact ⟨hok v hfinish, fun n hn => some.inj hn ▸ hlen⟩
      | wait t rest =>
        intro hin
        obtain ⟨herror, hok, hlen⟩ := finish_ends (h := h) hin
        dsimp only
        cases hfinish : finish h t with
        | error v => exact ⟨herror v hfinish, fun n hn => by cases hn⟩
        | ok v => exact ⟨hok v hfinish, fun n hn => some.inj hn ▸ hlen⟩

theorem call_safe {x : Piece} (hlow : Low stackSize s) (hok : Suits h grow s x) :
    ∃ t, call h grow s x = some t ∧ Low stackSize t ∧ Safe h grow s x := by
  have h0 : InPiece x.data.length s (x.before :: x.data) :=
    ⟨⟨cons_ne_nil _ _, le_refl _⟩, hlow⟩
  have hend : (passes (pass h grow) (x.data.length + 3) s (x.before :: x.data)).Gives
      (InPiece x.data.length) (InPiece x.data.length) (Low stackSize) :=
    passes_gives (fun s cur hin hfits => pass_inside hin hfits) h0 hok
  obtain ⟨hcall, hret⟩ := execute_ends hlow hend
  refine ⟨_, rfl, hcall, ⟨fun hlasts => ?_, ?_, hret, fun b => ?_⟩⟩
  · have hle := pass_uses.lasts_le trivial hlasts
    have hpending := pending_le s
    rw [length_cons] at hle
    omega
  · refine fronts_of (I := InPiece x.data.length) (fun s cur hin hfits => ?_) h0 hok
    refine ⟨⟨hin.1, hfits.reads hin.1.2, hfits.depth hin.2⟩, fun t rest hp => ?_⟩
    have hpass := pass_inside hin hfits
    rwa [hp] at hpass
  · by_cases hdata : x.data = []
    · unfold execute
      rw [if_pos hdata, if_pos hdata]
    · refine execute_front (fun htext => ?_) b x.before x.data
      have hfront := hok.1.front htext hdata
      rw [length_cons] at hfront
      omega

/-- In every run over pieces that the parser is fed, with any configuration and callbacks, in which
no pass meets one of the three cases, every call is safe and array_depth stays in array_stack. -/
theorem pieces_safe (config : Option Config) (u : σ) {xs : List Piece}
    (hsuits : Meets (call h grow) (Suits h grow) (create config, u) xs) :
    Along (call h grow) (fun s => s.1.arrayStack.length ≤ stackSize) (create config, u) xs ∧
      Guarded (call h grow) (Safe h grow) (create config, u) xs :=
  guarded_of_meets (I := Low stackSize) (fun _ _ hlow hok => call_safe hlow hok)
    (Nat.zero_le stackSize) hsuits

end

def nested : List Piece :=
  [⟨0, lit "*2\r\n*1\r\n:1"⟩, ⟨49, lit "2\r\n$2\r\nh"⟩, ⟨104, lit "i\r\n"⟩]

theorem nested_safe :
    Along (call recorder fun _ => true) (fun s => s.1.arrayStack.length ≤ stackSize)
        (create none, []) nested ∧
      Guarded (call recorder fun _ => true) (Safe recorder fun _ => true) (create none, [])
        nested :=
  pieces_safe none [] (by decide +kernel)

def headers (n : ℕ) : Bytes := (List.replicate n (lit "*1\r\n")).flatten

/-- A simple string that ends with its piece counts one byte too many; one that goes on in the next
piece takes the byte in front of it; and with a limit of 65 there are 65 open arrays. -/
theorem text_unsafe :
    (execute recorder (fun _ => true) 0 (create none) [] (lit "+OK\r\n")).ret = some 6 ∧
    (lit "+OK\r\n").length = 5 ∧
    (feed recorder (fun _ => true) (create none, []) [⟨0, lit "+O"⟩, ⟨0, lit "K\r\n\r\n"⟩]).2 ≠
      (feed recorder (fun _ => true) (create none, []) [⟨0, lit "+O"⟩, ⟨1, lit "K\r\n\r\n"⟩]).2 ∧
    (execute recorder (fun _ => true) 0 (create (some ⟨0, 0, 65⟩)) []
      (headers 65)).p.arrayStack.length = 65 := by
  refine ⟨by decide +kernel, by decide, by decide +kernel, by decide +kernel⟩

end Voxlib.Redis
