import Voxlib.Redis.Lines

/-!
# A RESP stream that arrives in pieces (vox_redis_parser.c)
-/

namespace Voxlib.Redis
open CStr Stream List

/- The events, the newest first, with the data of a string as one event. -/
def note : List Event → Event → List Event
  | .bulkStringData d :: u, .bulkStringData d' => .bulkStringData (d ++ d') :: u
  | u, e => e :: u

def joiner : Handler (List Event) where
  on u e := (true, note u e)

structure Piece where
  before : UInt8
  data : Bytes
  deriving DecidableEq, Repr

def joined (xs : List Piece) : Bytes := (xs.map Piece.data).flatten

def feed {σ : Type*} (h : Handler σ) (grow : ℕ → Bool) : Parser × σ → List Piece → Parser × σ
  | s, [] => s
  | s, x :: xs =>
    let r := execute h grow x.before s.1 s.2 x.data
    feed h grow (r.p, r.u) xs

def Parser.inText (p : Parser) : Prop := p.state = .simpleString ∨ p.state = .error

def Parser.inNumber (p : Parser) : Prop :=
  p.state = .integer ∨ p.state = .bulkStringLen ∨ p.state = .arrayCount

def Parser.textType (p : Parser) : Prop :=
  p.currentType = .simpleString ∨ p.currentType = .error

instance Parser.decidableInText (p : Parser) : Decidable p.inText :=
  inferInstanceAs (Decidable (_ ∨ _))

instance Parser.decidableInNumber (p : Parser) : Decidable p.inNumber :=
  inferInstanceAs (Decidable (_ ∨ _))

instance Parser.decidableTextType (p : Parser) : Decidable p.textType :=
  inferInstanceAs (Decidable (_ ∨ _))

/-- What the parser, after the piece `x`, must meet in front of the piece `y`: the value is not
complete; of a simple string or an error it has no more than the type byte, which the memory has in
front of `y` too; the CR and the LF of a number are not apart; and `x` does not end with the line
of a simple string or an error. -/
structure Continues (p : Parser) (x y : Piece) : Prop where
  complete : p.state ≠ .complete
  text : p.inText → p.stringBuf = [] ∧ x.data.getLast? = some y.before
  number : p.inNumber → ¬ (p.stringBuf.getLast? = some 13 ∧ y.data.head? = some 10)
  element : ¬ (p.state = .start ∧ p.textType ∧ crlf <:+ x.before :: x.data)

/-- Each cut of a run either comes after an error or meets the condition. -/
def Smooth (grow : ℕ → Bool) : Parser × List Event → Piece → List Piece → Prop
  | _, _, [] => True
  | s, x, y :: ys =>
    let r := execute joiner grow x.before s.1 s.2 x.data
    (r.p.failed ∨ Continues r.p x y) ∧ Smooth grow (r.p, r.u) y ys

/-- The events, the number of complete values and the error status of a run over pieces are those
of one call with all of it. -/
def Agrees (config : Option Config) (grow : ℕ → Bool) (before : UInt8) (xs : List Piece) : Prop :=
  let s := feed joiner grow (create config, []) xs
  let whole := execute joiner grow before (create config) [] (joined xs)
  s.2 = whole.u ∧ s.2.count .complete = whole.u.count .complete ∧ s.1.failed = whole.p.failed

instance Continues.decidable (p : Parser) (x y : Piece) : Decidable (Continues p x y) :=
  decidable_of_iff
    (p.state ≠ .complete ∧ (p.inText → p.stringBuf = [] ∧ x.data.getLast? = some y.before) ∧
      (p.inNumber → ¬ (p.stringBuf.getLast? = some 13 ∧ y.data.head? = some 10)) ∧
      ¬ (p.state = .start ∧ p.textType ∧ crlf <:+ x.before :: x.data))
    ⟨fun ⟨a, b, c, d⟩ => ⟨a, b, c, d⟩, fun ⟨a, b, c, d⟩ => ⟨a, b, c, d⟩⟩

instance Smooth.decidable (grow : ℕ → Bool) :
    ∀ (s : Parser × List Event) (x : Piece) (xs : List Piece), Decidable (Smooth grow s x xs)
  | _, _, [] => .isTrue trivial
  | s, x, y :: ys =>
    let r := execute joiner grow x.before s.1 s.2 x.data
    @instDecidableAnd (r.p.failed ∨ Continues r.p x y) (Smooth grow (r.p, r.u) y ys) inferInstance
      (Smooth.decidable grow (r.p, r.u) y ys)

structure Live (s : Parser × List Event) : Prop where
  error : s.1.hasError = false
  state : s.1.state ≠ .errorState
  typed : s.1.inText → s.1.textType

def rank (s : Parser × List Event) : ℕ := if s.1.state = .bulkStringData then 1 else 0

def Parser.keep (p : Parser) (text : Bytes) : Parser :=
  { p with stringBuf := p.stringBuf ++ text }

theorem Parser.inNumber.not_inText {p : Parser} (h : p.inNumber) : ¬ p.inText := by
  rintro (ht | ht) <;> rcases h with h | h | h <;> rw [ht] at h <;> cases h

theorem Parser.inNumber.not_complete {p : Parser} (h : p.inNumber) : p.state ≠ .complete := by
  intro hc
  rcases h with h | h | h <;> rw [hc] at h <;> cases h

/- What must hold of more input, for a line that is not at its end. -/
def Resumes (p : Parser) (y : Bytes) : Prop :=
  ¬ p.inText ∧ (p.inNumber → ¬ (p.stringBuf.getLast? = some 13 ∧ y.head? = some 10))

/-- What a pass does, and what more input changes. A part of a line or of the data of a string is
kept, and with more input the pass goes on as if it had all been there. -/
inductive Cut (grow : ℕ → Bool) (s : Parser × List Event) (cur : Bytes) : Prop
  | go (t : Parser × List Event) (rest : Bytes) (hlive : Live t)
      (hfalls : rest.length + rank t < cur.length + rank s) (hsuf : rest <:+ cur)
      (hend : rest = [] → t.1.state = .complete ∨
        t.1.state = .start ∧ t.1.textType ∧ crlf <:+ cur)
      (h : ∀ y, pass joiner grow s (cur ++ y) = .go t (rest ++ y))
  | fail (t : Parser × List Event) (hfailed : t.1.failed)
      (h : ∀ y, pass joiner grow s (cur ++ y) = .fail t)
  | kept (t : Parser × List Event) (c : UInt8) (hlive : Live t) (hstate : t.1.state = s.1.state)
      (hopen : t.1.state ≠ .complete) (htext : t.1.inText → t.1.stringBuf ≠ [])
      (hcur : 2 ≤ cur.length) (hsuf : [c] <:+ cur) (hgo : pass joiner grow s cur = .go t [c])
      (h : ∀ b y, y ≠ [] → Resumes t.1 y →
        pass joiner grow t (b :: y) = pass joiner grow s (cur ++ y))
  | wait (hw : pass joiner grow s cur = .wait s cur) (hend : cur.tail = [] ∨ s.1.state = .complete)

section
variable {grow : ℕ → Bool} {s : Parser × List Event} {cur : Bytes}

@[simp]
theorem emit_joiner (p : Parser) (u : List Event) (e : Event) :
    emit joiner p u e = .ok (p, note u e) := rfl

theorem note_data (u : List Event) (d d' : Bytes) :
    note (note u (.bulkStringData d)) (.bulkStringData d') = note u (.bulkStringData (d ++ d')) := by
  cases u with
  | nil => rfl
  | cons e u => cases e <;> simp [note]

theorem setError_failed (p : Parser) (u : List Event) (message : String) :
    (setError joiner p u message).1.failed := by
  simp [setError, Parser.failed]

theorem Live.of (herror : s.1.hasError = false) (hstate : s.1.state ≠ .errorState)
    (htext : ¬ s.1.inText) : Live s :=
  ⟨herror, hstate, fun h => absurd h htext⟩

def Sound (r : Turn (List Event)) : Prop :=
  match r with
  | .ok t => Live t
  | .error t => t.1.failed

variable {p : Parser}

theorem elementDone_done (herror : p.hasError = false) (u : List Event) :
    ∃ t, elementDone joiner p u = .ok t ∧ Live t ∧
      (t.1.state = .complete ∨ t.1.state = .start ∧ t.1.currentType = p.currentType) := by
  unfold elementDone
  split
  · exact ⟨_, rfl, Live.of herror (by simp) (by simp [Parser.inText]), .inl rfl⟩
  · dsimp only [emit_joiner, Except.map]
    split
    · exact ⟨_, rfl, Live.of herror (by simp) (by simp [Parser.inText]), .inr ⟨rfl, rfl⟩⟩
    · exact ⟨_, rfl, Live.of herror (by simp) (by simp [Parser.inText]), .inl rfl⟩

theorem elementDone_sound (herror : p.hasError = false) (u : List Event) :
    Sound (elementDone joiner p u) := by
  obtain ⟨t, ht, hlive, -⟩ := elementDone_done herror u
  rw [ht]
  exact hlive

theorem integerDone_sound (p : Parser) (u : List Event) (herror : p.hasError = false) :
    Sound (integerDone joiner p u) := by
  unfold integerDone
  split
  · exact setError_failed p u _
  · exact elementDone_sound herror _

theorem bulkStringLenDone_sound (p : Parser) (u : List Event) (herror : p.hasError = false) :
    Sound (bulkStringLenDone joiner p u) := by
  unfold bulkStringLenDone
  split
  · exact setError_failed p u _
  · dsimp only
    split
    · exact Live.of herror (by simp) (by simp [Parser.inText])
    · split
      · exact setError_failed _ u _
      · exact Live.of herror (by simp) (by simp [Parser.inText])

theorem arrayCountDone_sound (p : Parser) (u : List Event) (herror : p.hasError = false) :
    Sound (arrayCountDone joiner p u) := by
  unfold arrayCountDone
  split
  · exact setError_failed p u _
  · split
    · exact Live.of herror (by simp) (by simp [Parser.inText])
    · split
      · exact setError_failed p u _
      · split
        · exact setError_failed p u _
        · dsimp only [emit_joiner, Except.bind]
          split
          · exact Live.of herror (by simp) (by simp [Parser.inText])
          · exact Live.of herror (by simp) (by simp [Parser.inText])

theorem typeByte_sound {u : List Event} (herror : p.hasError = false) (c : UInt8) :
    Sound (typeByte joiner p u c) := by
  unfold typeByte
  split
  · exact ⟨herror, by simp [Parser.begin], fun _ => .inl rfl⟩
  · split
    · exact ⟨herror, by simp [Parser.begin], fun _ => .inr rfl⟩
    · split
      · exact Live.of herror (by simp [Parser.begin]) (by simp [Parser.inText, Parser.begin])
      · split
        · exact Live.of herror (by simp [Parser.begin]) (by simp [Parser.inText, Parser.begin])
        · split
          · exact Live.of herror (by simp [Parser.begin]) (by simp [Parser.inText, Parser.begin])
          · exact setError_failed p u _

theorem rank_le (t : Parser × List Event) : rank t ≤ 1 := by
  unfold rank
  split <;> omega

theorem found_cut {text : Bytes} {k : ℕ} {failure : String}
    {done : Parser → List Event → Turn (List Event)} (hg : ∀ n, grow n) (hlive : Live s)
    (htail : text <:+ cur) (hk : findCrlf text = some k)
    (hline : ∀ y, pass joiner grow s (cur ++ y) =
      line joiner grow s (text ++ y) (cur ++ y) failure done)
    (hdone : ∀ p u, p.hasError = false → Sound (done p u))
    (hover : ∀ p u t, p.hasError = false → p.currentType = s.1.currentType →
      done p u = .ok t → cur.drop (k + 2) = [] →
      t.1.state = .complete ∨ t.1.state = .start ∧ t.1.textType) : Cut grow s cur := by
  obtain ⟨htext, hlen⟩ := findCrlf_some hk
  have hle := htail.length_le
  have hpass (y : Bytes) : pass joiner grow s (cur ++ y) =
      (done { s.1 with stringBuf := s.1.stringBuf ++ text.take k } s.2).flow
        (cur.drop (k + 2) ++ y) := by
    rw [hline]
    unfold line
    rw [findCrlf_append_some hk]
    dsimp only
    rw [take_append_of_le_length (by omega), accumulate_grown (hg _),
      drop_append_of_le_length (by omega)]
  have hsound := hdone { s.1 with stringBuf := s.1.stringBuf ++ text.take k } s.2 hlive.error
  cases hr : done { s.1 with stringBuf := s.1.stringBuf ++ text.take k } s.2 with
  | error t =>
    rw [hr] at hsound
    refine .fail t hsound fun y => ?_
    rw [hpass, hr]
    rfl
  | ok t =>
    rw [hr] at hsound
    refine .go t (cur.drop (k + 2)) hsound ?_ (drop_suffix _ _) (fun hnil => ?_) fun y => ?_
    · have := rank_le t
      rw [length_drop]
      omega
    · rcases hover { s.1 with stringBuf := s.1.stringBuf ++ text.take k } s.2 t hlive.error rfl
        hr hnil with hcomplete | ⟨hstart, htype⟩
      · exact .inl hcomplete
      · have hcurlen : cur.length ≤ k + 2 := drop_eq_nil_iff.mp hnil
        have hnone : text.drop (k + 2) = [] := drop_eq_nil_iff.mpr (by omega)
        rw [hnone, append_nil] at htext
        exact .inr ⟨hstart, htype, List.IsSuffix.trans ⟨text.take k, htext.symm⟩ htail⟩
    · rw [hpass, hr]
      rfl

theorem getLast_append {l text : Bytes} (htext : text ≠ []) :
    (l ++ text).getLast? = text.getLast? := by
  rw [List.getLast?_append]
  cases h : text.getLast? with
  | none => exact absurd (List.getLast?_eq_none_iff.mp h) htext
  | some c => rfl

theorem drop_last {l : Bytes} (hl : l ≠ []) : ∃ c, l.drop (l.length - 1) = [c] := by
  have hpos := length_pos_of_ne_nil hl
  have hone : (l.drop (l.length - 1)).length = 1 := by
    rw [length_drop]
    omega
  exact length_eq_one_iff.mp hone

theorem number_cut {failure : String} {done : Parser → List Event → Turn (List Event)}
    (hg : ∀ n, grow n) (hlive : Live s) (hs : s.1.inNumber) (hcur : cur.tail ≠ [])
    (hline : ∀ t l, t.1.state = s.1.state → l.tail ≠ [] →
      pass joiner grow t l = line joiner grow t l.tail l failure done)
    (hdone : ∀ p u, p.hasError = false → Sound (done p u)) : Cut grow s cur := by
  obtain ⟨b, text, rfl⟩ := exists_cons_of_ne_nil (l := cur) (by rintro rfl; exact hcur rfl)
  have htext : text ≠ [] := hcur
  have hpass (y : Bytes) : pass joiner grow s (b :: text ++ y) =
      line joiner grow s (text ++ y) (b :: text ++ y) failure done :=
    hline s _ rfl (by simp [htext])
  cases hk : findCrlf text with
  | some k =>
    refine found_cut hg hlive (suffix_cons b text) hk hpass hdone
      fun p u t _ _ _ hnil => ?_
    have hlen := (findCrlf_some hk).2
    have := drop_eq_nil_iff.mp hnil
    rw [length_cons] at this
    omega
  | none =>
    obtain ⟨c, hc⟩ := drop_last (cons_ne_nil b text)
    have hgo : pass joiner grow s (b :: text) = .go (s.1.keep text, s.2) [c] := by
      rw [hline s _ rfl hcur]
      unfold line
      rw [tail_cons, hk]
      dsimp only
      rw [accumulate_grown (hg _), ← hc]
      rfl
    refine .kept (s.1.keep text, s.2) c (Live.of hlive.error hlive.state (hs.not_inText)) rfl
      (hs.not_complete) (fun h => absurd h hs.not_inText) ?_
      ⟨(b :: text).take ((b :: text).length - 1), by rw [← hc, take_append_drop]⟩ hgo ?_
    · have := length_pos_of_ne_nil htext
      rw [length_cons]
      omega
    · intro b' y hy hresumes
      have hcut : ¬ (text.getLast? = some 13 ∧ y.head? = some 10) := by
        have := hresumes.2 hs
        unfold Parser.keep at this
        rwa [getLast_append htext] at this
      rw [hpass, hline (s.1.keep text, s.2) (b' :: y) rfl hy]
      unfold line
      rw [tail_cons, findCrlf_append_none hk hcut]
      cases hk' : findCrlf y with
      | some k =>
        have htake : (text ++ y).take (k + text.length) = text ++ y.take k := by
          rw [Nat.add_comm, take_length_add_append]
        have hdrop : (b :: text ++ y).drop (k + text.length + 2) = (b' :: y).drop (k + 2) := by
          rw [cons_append, drop_succ_cons, drop_succ_cons,
            show k + text.length + 1 = text.length + (k + 1) by omega,
            drop_length_add_append]
        dsimp only [Option.map_some]
        rw [htake, hdrop, accumulate_grown (hg _), accumulate_grown (hg _)]
        dsimp only [Parser.keep]
        rw [append_assoc]
      | none =>
        have hdrop : (b :: text ++ y).drop ((b :: text ++ y).length - 1) =
            (b' :: y).drop ((b' :: y).length - 1) := by
          obtain ⟨m, hm⟩ := Nat.exists_eq_succ_of_ne_zero (length_pos_of_ne_nil hy).ne'
          rw [cons_append, length_cons, length_cons, Nat.add_sub_cancel,
            Nat.add_sub_cancel, length_append, hm, drop_succ_cons,
            show text.length + m.succ = (text.length + m) + 1 by omega, drop_succ_cons,
            drop_length_add_append]
        dsimp only [Option.map_none]
        rw [hdrop, accumulate_grown (hg _), accumulate_grown (hg _)]
        dsimp only [Parser.keep]
        rw [append_assoc]

theorem text_cut (hg : ∀ n, grow n) (hlive : Live s) (hs : s.1.inText) (hcur : cur.tail ≠ []) :
    Cut grow s cur := by
  have hne : cur ≠ [] := by
    rintro rfl
    exact hcur rfl
  have hpass (y : Bytes) : pass joiner grow s (cur ++ y) =
      line joiner grow s (cur ++ y) (cur ++ y) "Failed to accumulate string" (simpleDone joiner) := by
    refine pass_text hs ?_
    rw [tail_append_of_ne_nil hne]
    simp [hcur]
  cases hk : findCrlf cur with
  | some k =>
    refine found_cut hg hlive suffix_rfl hk hpass (fun p u herror => ?_)
      fun p u t herror htype ht _ => ?_
    · exact elementDone_sound herror _
    · obtain ⟨t', ht', -, hstate⟩ := elementDone_done herror
        (note u (if p.state = .simpleString then .simpleString p.stringBuf
          else .error p.stringBuf))
      obtain rfl : t' = t := Except.ok.inj (ht'.symm.trans ht)
      rcases hstate with hcomplete | ⟨hstart, hsame⟩
      · exact .inl hcomplete
      · refine .inr ⟨hstart, ?_⟩
        have := hlive.typed hs
        unfold Parser.textType at this ⊢
        rwa [hsame, htype]
  | none =>
    obtain ⟨c, hc⟩ := drop_last hne
    have hlen : 2 ≤ cur.length := by
      have := length_pos_of_ne_nil hcur
      rw [length_tail] at this
      omega
    have hgo : pass joiner grow s cur = .go (s.1.keep cur, s.2) [c] := by
      have := hpass []
      rw [append_nil] at this
      rw [this]
      unfold line
      rw [hk]
      dsimp only
      rw [accumulate_grown (hg _), hc]
      rfl
    refine .kept (s.1.keep cur, s.2) c ⟨hlive.error, hlive.state, hlive.typed⟩ rfl ?_ (fun _ => ?_)
      hlen ⟨cur.take (cur.length - 1), by rw [← hc, take_append_drop]⟩ hgo ?_
    · rintro h
      rcases hs with hs | hs <;> rw [show s.1.state = .complete from h] at hs <;> cases hs
    · simp [Parser.keep, hne]
    · exact fun b y _ hresumes => absurd hs hresumes.1

theorem sizeT_int64 (x : ℤ) : sizeT (int64 x) = sizeT x := by
  unfold sizeT int64
  exact congrArg Int.toNat Int.bmod_emod

theorem sizeT_sub {x : ℤ} {n : ℕ} (h : n ≤ sizeT x) : sizeT (int64 (x - n)) = sizeT x - n := by
  rw [sizeT_int64]
  unfold sizeT at *
  omega

theorem int64_eq_zero {x : ℤ} : int64 x = 0 ↔ sizeT x = 0 := by
  unfold sizeT int64
  rw [Int.bmod_def]
  split <;> omega

theorem int64_sub (x y : ℤ) : int64 (int64 x - y) = int64 (x - y) := Int.bmod_sub_bmod

def dataRead (s : Parser × List Event) (d : Bytes) : Parser × List Event :=
  let len := int64 (s.1.bulkStringLen - d.length)
  ({ s.1 with bulkStringLen := len, state := if len = 0 then .cr else s.1.state },
    if d = [] then s.2 else note s.2 (.bulkStringData d))

theorem bulkStringData_eq (s : Parser × List Event) (cur : Bytes) : bulkStringData joiner s cur =
      .go (dataRead s (cur.tail.take (sizeT s.1.bulkStringLen)))
        (cur.drop (min cur.tail.length (sizeT s.1.bulkStringLen))) := by
  have htake : cur.tail.take (min cur.tail.length (sizeT s.1.bulkStringLen)) =
      cur.tail.take (sizeT s.1.bulkStringLen) := by
    rw [Nat.min_comm, ← take_eq_take_min]
  have hlen : (cur.tail.take (sizeT s.1.bulkStringLen)).length =
      min cur.tail.length (sizeT s.1.bulkStringLen) := by
    rw [length_take, Nat.min_comm]
  unfold bulkStringData dataRead
  dsimp only
  rw [htake, hlen]
  by_cases hempty : cur.tail.take (sizeT s.1.bulkStringLen) = []
  · rw [if_neg (by rw [← hlen, hempty]; decide), if_pos hempty]
    rfl
  · rw [if_pos (by rw [← hlen]; exact length_pos_of_ne_nil hempty), if_neg hempty]
    rfl

theorem dataRead_dataRead (s : Parser × List Event) {d d' : Bytes} (hd : d ≠ []) (hd' : d' ≠ [])
    (hmore : d.length < sizeT s.1.bulkStringLen) :
    dataRead (dataRead s d) d' = dataRead s (d ++ d') := by
  have hopen : int64 (s.1.bulkStringLen - d.length) ≠ 0 := by
    intro hzero
    have := sizeT_sub (Nat.le_of_lt hmore)
    rw [hzero] at this
    have hsize : sizeT 0 = 0 := rfl
    omega
  have hboth : d ++ d' ≠ [] := by simp [hd]
  unfold dataRead
  dsimp only
  rw [int64_sub, length_append, Nat.cast_add, ← sub_sub]
  simp only [if_neg hd, if_neg hd', if_neg hboth, if_neg hopen, note_data]

theorem dataRead_live (hlive : Live s) (hs : s.1.state = .bulkStringData) (d : Bytes) :
    Live (dataRead s d) := by
  refine Live.of hlive.error ?_ ?_
  · unfold dataRead
    dsimp only
    split <;> simp [hs]
  · unfold dataRead Parser.inText
    dsimp only
    split <;> simp [hs]

theorem data_cut (hlive : Live s) (hs : s.1.state = .bulkStringData) (hcur : cur.tail ≠ []) :
    Cut grow s cur := by
  obtain ⟨b, text, rfl⟩ := exists_cons_of_ne_nil (l := cur) (by rintro rfl; exact hcur rfl)
  have htext : text ≠ [] := hcur
  have hpass (y : Bytes) : pass joiner grow s (b :: text ++ y) =
      .go (dataRead s ((text ++ y).take (sizeT s.1.bulkStringLen)))
        ((b :: text ++ y).drop (min (text ++ y).length (sizeT s.1.bulkStringLen))) := by
    rw [pass_bulkStringData hs (by simp [htext]), bulkStringData_eq]
    rfl
  by_cases hall : sizeT s.1.bulkStringLen ≤ text.length
  · -- the string ends here
    have hdrop (y : Bytes) :
        (b :: text ++ y).drop (min (text ++ y).length (sizeT s.1.bulkStringLen)) =
        (b :: text).drop (sizeT s.1.bulkStringLen) ++ y := by
      rw [Nat.min_eq_right (by rw [length_append]; omega),
        drop_append_of_le_length (by rw [length_cons]; omega)]
    have hstate : (dataRead s (text.take (sizeT s.1.bulkStringLen))).1.state = .cr := by
      unfold dataRead
      dsimp only
      rw [if_pos]
      rw [length_take, Nat.min_eq_left hall, int64_eq_zero, ← sizeT_int64,
        sizeT_sub (Nat.le_refl _), Nat.sub_self]
    refine .go _ _ (dataRead_live hlive hs (text.take (sizeT s.1.bulkStringLen))) ?_
      (drop_suffix (sizeT s.1.bulkStringLen) _) (fun hnil => ?_) fun y => ?_
    · unfold rank
      rw [hstate, hs, length_drop]
      simp only [reduceCtorEq, if_true, if_false]
      omega
    · have := drop_eq_nil_iff.mp hnil
      rw [length_cons] at this
      omega
    · rw [hpass, hdrop, take_append_of_le_length hall]
  · -- all of the input is data
    have hmore : text.length < sizeT s.1.bulkStringLen := Nat.lt_of_not_le hall
    obtain ⟨c, hc⟩ := drop_last (cons_ne_nil b text)
    have hstate : (dataRead s text).1.state = .bulkStringData := by
      unfold dataRead
      dsimp only
      rw [if_neg, hs]
      rw [int64_eq_zero, ← sizeT_int64, sizeT_sub (Nat.le_of_lt hmore)]
      omega
    have hgo : pass joiner grow s (b :: text) = .go (dataRead s text) [c] := by
      have := hpass []
      rw [append_nil, append_nil] at this
      rw [this, take_of_length_le (Nat.le_of_lt hmore), Nat.min_eq_left (Nat.le_of_lt hmore),
        ← hc]
      rfl
    refine .kept (dataRead s text) c (dataRead_live hlive hs text) (by rw [hstate, hs])
      (by rw [hstate]; simp) (fun h => ?_) ?_
      ⟨(b :: text).take ((b :: text).length - 1), by rw [← hc, take_append_drop]⟩ hgo ?_
    · rcases h with h | h <;> rw [hstate] at h <;> cases h
    · have := length_pos_of_ne_nil htext
      rw [length_cons]
      omega
    · intro b' y hy _
      have hsize : sizeT (dataRead s text).1.bulkStringLen =
          sizeT s.1.bulkStringLen - text.length := sizeT_sub (Nat.le_of_lt hmore)
      have htake : (text ++ y).take (sizeT s.1.bulkStringLen) =
          text ++ y.take (sizeT s.1.bulkStringLen - text.length) := by
        rw [take_append, take_of_length_le (Nat.le_of_lt hmore)]
      have hdata : y.take (sizeT s.1.bulkStringLen - text.length) ≠ [] := by
        rw [Ne, take_eq_nil_iff]
        rintro (hzero | hnil)
        · omega
        · exact hy hnil
      have hdrop :
          (b :: text ++ y).drop (min (text ++ y).length (sizeT s.1.bulkStringLen)) =
          (b' :: y).drop (min y.length (sizeT s.1.bulkStringLen - text.length)) := by
        have hpos := length_pos_of_ne_nil hy
        obtain ⟨m, hm⟩ : ∃ m, min y.length (sizeT s.1.bulkStringLen - text.length) = m + 1 :=
          Nat.exists_eq_succ_of_ne_zero (by omega)
        have hboth : min (text ++ y).length (sizeT s.1.bulkStringLen) = text.length + m + 1 := by
          rw [length_append]
          omega
        rw [hm, hboth, cons_append, drop_succ_cons, drop_succ_cons,
          drop_length_add_append]
      rw [hpass, htake, hdrop, ← dataRead_dataRead s htext hdata hmore,
        pass_bulkStringData hstate (by exact hy), bulkStringData_eq, hsize]
      rfl

theorem byte_cut {b c : UInt8} {l : Bytes} {r : Turn (List Event)} (hsound : Sound r)
    (hrank : ∀ t, r = .ok t → rank t = 0)
    (hpass : ∀ y, pass joiner grow s (b :: c :: l ++ y) = r.flow (c :: l ++ y)) :
    Cut grow s (b :: c :: l) := by
  cases r with
  | error t => exact .fail t hsound hpass
  | ok t =>
    refine .go t (c :: l) hsound ?_ (suffix_cons b _) (fun hnil => by cases hnil) hpass
    rw [hrank t rfl]
    simp only [length_cons]
    omega

variable {t : Parser × List Event}

theorem elementDone_rank {u : List Event} (herror : p.hasError = false)
    (ht : elementDone joiner p u = .ok t) : rank t = 0 := by
  obtain ⟨t', ht', -, hstate⟩ := elementDone_done herror u
  obtain rfl : t' = t := Except.ok.inj (ht'.symm.trans ht)
  unfold rank
  rcases hstate with h | ⟨h, -⟩
  · rw [h, if_neg (by simp)]
  · rw [h, if_neg (by simp)]

theorem typeByte_rank {u : List Event} {c : UInt8} (ht : typeByte joiner p u c = .ok t) :
    rank t = 0 := by
  unfold typeByte at ht
  split at ht
  · obtain rfl := Except.ok.inj ht
    rfl
  · split at ht
    · obtain rfl := Except.ok.inj ht
      rfl
    · split at ht
      · obtain rfl := Except.ok.inj ht
        rfl
      · split at ht
        · obtain rfl := Except.ok.inj ht
          rfl
        · split at ht
          · obtain rfl := Except.ok.inj ht
            rfl
          · cases ht

theorem cr_cut (hlive : Live s) (hs : s.1.state = .cr) (b c : UInt8) (l : Bytes) :
    Cut grow s (b :: c :: l) := by
  refine byte_cut ?_ ?_ fun y => pass_cr hs b c (l ++ y)
  · unfold crByte
    split
    · exact Live.of hlive.error (by simp) (by simp [Parser.inText])
    · exact setError_failed _ _ _
  · intro t ht
    unfold crByte at ht
    split at ht
    · obtain rfl := Except.ok.inj ht
      rfl
    · cases ht

theorem lf_cut (hlive : Live s) (hs : s.1.state = .lf) (b c : UInt8) (l : Bytes) :
    Cut grow s (b :: c :: l) := by
  refine byte_cut ?_ ?_ fun y => pass_lf hs b c (l ++ y)
  · unfold lfByte
    split
    · exact elementDone_sound hlive.error _
    · exact setError_failed _ _ _
  · intro t ht
    unfold lfByte at ht
    split at ht
    · exact elementDone_rank hlive.error ht
    · cases ht

theorem pass_cut (hg : ∀ n, grow n) (hlive : Live s) (cur : Bytes) : Cut grow s cur := by
  by_cases hcur : cur.tail = []
  · refine .wait ?_ (.inl hcur)
    unfold pass
    rw [hcur]
  · obtain ⟨b, text, rfl⟩ := exists_cons_of_ne_nil (l := cur) (by rintro rfl; exact hcur rfl)
    obtain ⟨c, l, rfl⟩ := exists_cons_of_ne_nil (l := text) hcur
    cases hs : s.1.state with
    | start =>
      refine byte_cut (typeByte_sound (u := s.2) hlive.error c) (fun t => typeByte_rank) fun y => ?_
      unfold pass
      dsimp only [cons_append, tail_cons]
      rw [hs]
    | simpleString => exact text_cut hg hlive (.inl hs) hcur
    | error => exact text_cut hg hlive (.inr hs) hcur
    | integer =>
      exact number_cut hg hlive (.inl hs) hcur (fun t l ht => pass_integer (ht.trans hs))
        integerDone_sound
    | bulkStringLen =>
      exact number_cut hg hlive (.inr (.inl hs)) hcur
        (fun t l ht => pass_bulkStringLen (ht.trans hs)) bulkStringLenDone_sound
    | bulkStringData => exact data_cut hlive hs hcur
    | arrayCount =>
      exact number_cut hg hlive (.inr (.inr hs)) hcur
        (fun t l ht => pass_arrayCount (ht.trans hs)) arrayCountDone_sound
    | cr => exact cr_cut hlive hs b c l
    | lf => exact lf_cut hlive hs b c l
    | complete =>
      refine .wait ?_ (.inr hs)
      unfold pass
      dsimp only [tail_cons]
      rw [hs]
    | errorState => exact absurd hs hlive.state

theorem Cut.pass_go (hcut : Cut grow s cur) {rest : Bytes}
    (ht : pass joiner grow s cur = .go t rest) :
    Live t ∧ rest.length + rank t < cur.length + rank s := by
  cases hcut with
  | go t' rest' hlive hfalls _ _ h =>
    have h0 := h []
    rw [append_nil, append_nil, ht] at h0
    obtain ⟨rfl, rfl⟩ : t = t' ∧ rest = rest' := by simpa using h0
    exact ⟨hlive, hfalls⟩
  | fail t' _ h =>
    have h0 := h []
    rw [append_nil, ht] at h0
    cases h0
  | kept t' c hlive hstate _ _ hcur _ hgo _ =>
    rw [ht] at hgo
    obtain ⟨rfl, rfl⟩ : t = t' ∧ rest = [c] := by simpa using hgo
    refine ⟨hlive, ?_⟩
    unfold rank
    rw [hstate, length_singleton]
    omega
  | wait hw _ =>
    rw [ht] at hw
    cases hw

theorem pass_falling (hg : ∀ n, grow n) : Falling (pass joiner grow) Live rank where
  live_go hlive ht := ((pass_cut hg hlive _).pass_go ht).1
  falls hlive ht := ((pass_cut hg hlive _).pass_go ht).2

abbrev settled (grow : ℕ → Bool) : Parser × List Event → Bytes → Flow (Parser × List Event) UInt8 :=
  settle (pass joiner grow) rank

theorem pass_short (s : Parser × List Event) {cur : Bytes} (hcur : cur.tail = []) :
    pass joiner grow s cur = .wait s cur := by
  unfold pass
  rw [hcur]

theorem settled_nil (grow : ℕ → Bool) (s : Parser × List Event) :
    settled grow s [] = .wait s [] := by
  unfold settled settle
  simp only [passes]
  rw [pass_short s rfl, Flow.wait_andThen]

theorem settled_one (grow : ℕ → Bool) (s : Parser × List Event) (c : UInt8) :
    settled grow s [c] = .wait s [c] := by
  unfold settled settle
  simp only [passes]
  rw [pass_short s rfl, Flow.wait_andThen]

theorem settled_front (hg : ∀ n, grow n) (hlive : Live s) (htext : ¬ s.1.inText)
    (hopen : s.1.state ≠ .complete) {y : Bytes} (hy : y ≠ []) (b b' : UInt8) :
    settled grow s (b :: y) = settled grow s (b' :: y) := by
  have hfall := pass_falling hg
  obtain ⟨c, l, rfl⟩ := exists_cons_of_ne_nil hy
  have htail (b : UInt8) : (b :: c :: l).tail ≠ [] := hy
  have hsame (t : Parser × List Event) (ht : Live t)
      (hpass : pass joiner grow t (b :: c :: l) = pass joiner grow t (b' :: c :: l)) :
      settled grow t (b :: c :: l) = settled grow t (b' :: c :: l) := by
    unfold settled
    rw [settle_eq hfall ht, settle_eq hfall ht, hpass]
  cases hs : s.1.state with
  | start =>
    refine hsame s hlive ?_
    unfold pass
    rw [hs]
    rfl
  | simpleString => exact absurd (.inl hs) htext
  | error => exact absurd (.inr hs) htext
  | integer =>
    refine hsame s hlive ?_
    rw [pass_integer hs (htail b), pass_integer hs (htail b')]
    exact line_front hy b b' _ _
  | bulkStringLen =>
    refine hsame s hlive ?_
    rw [pass_bulkStringLen hs (htail b), pass_bulkStringLen hs (htail b')]
    exact line_front hy b b' _ _
  | bulkStringData =>
    have hpass (b : UInt8) : pass joiner grow s (b :: c :: l) = _ :=
      (pass_bulkStringData hs (htail b)).trans (bulkStringData_eq s _)
    cases hm : min (c :: l).length (sizeT s.1.bulkStringLen) with
    | zero =>
      have hsize : sizeT s.1.bulkStringLen = 0 := by
        rw [length_cons] at hm
        omega
      have hcr : (dataRead s []).1.state = .cr := by
        unfold dataRead
        dsimp only
        rw [if_pos]
        rw [int64_eq_zero]
        simpa using hsize
      have hread (b : UInt8) : pass joiner grow s (b :: c :: l) = .go (dataRead s []) (b :: c :: l) := by
        rw [hpass]
        simp only [tail_cons, hsize, take_zero, Nat.min_zero, drop_zero]
      unfold settled
      rw [settle_eq hfall hlive, settle_eq hfall hlive, hread, hread, Flow.go_andThen,
        Flow.go_andThen]
      exact hsame _ (dataRead_live hlive hs []) (by rw [pass_cr hcr, pass_cr hcr])
    | succ m =>
      refine hsame s hlive ?_
      rw [hpass, hpass]
      simp only [tail_cons, hm, drop_succ_cons]
  | arrayCount =>
    refine hsame s hlive ?_
    rw [pass_arrayCount hs (htail b), pass_arrayCount hs (htail b')]
    exact line_front hy b b' _ _
  | cr => exact hsame s hlive (by rw [pass_cr hs, pass_cr hs])
  | lf => exact hsame s hlive (by rw [pass_lf hs, pass_lf hs])
  | complete => exact absurd hs hopen
  | errorState => exact absurd hs hlive.state

/-- What a call leaves. Where it has gone past the end of its input, it has read the line of a
simple string or an error up to there. -/
theorem settled_wait (hg : ∀ n, grow n) (hlive : Live s) {rest : Bytes}
    (hw : settled grow s cur = .wait t rest) :
    Live t ∧ rest <:+ cur ∧ (rest.tail = [] ∨ t.1.state = .complete) ∧
      (rest = [] → cur = [] ∨ t.1.state = .complete ∨
        t.1.state = .start ∧ t.1.textType ∧ crlf <:+ cur) := by
  have hfall := pass_falling hg
  revert hw
  refine settle_induction hfall (P := fun s cur => settled grow s cur = .wait t rest →
    Live t ∧ rest <:+ cur ∧ (rest.tail = [] ∨ t.1.state = .complete) ∧
      (rest = [] → cur = [] ∨ t.1.state = .complete ∨
        t.1.state = .start ∧ t.1.textType ∧ crlf <:+ cur)) (fun s cur hlive ih hw => ?_) hlive cur
  unfold settled at hw
  rw [settle_eq hfall hlive] at hw
  cases pass_cut hg hlive cur with
  | go t' rest' hlive' _ hsuf hend h =>
    have hgo := h []
    rw [append_nil, append_nil] at hgo
    rw [hgo, Flow.go_andThen] at hw
    obtain ⟨ht, hrest, htail, hover⟩ := ih t' rest' hgo hw
    refine ⟨ht, hrest.trans hsuf, htail, fun hnil => ?_⟩
    rcases hover hnil with hempty | hcomplete | ⟨hstart, htype, hline⟩
    · obtain ⟨rfl, -⟩ : t' = t ∧ rest' = rest := by
        rw [hempty] at hw
        have := (settled_nil grow t').symm.trans hw
        simpa [hempty, eq_comm] using this
      exact .inr (hend hempty)
    · exact .inr (.inl hcomplete)
    · exact .inr (.inr ⟨hstart, htype, hline.trans hsuf⟩)
  | fail t' _ h =>
    have hfail := h []
    rw [append_nil] at hfail
    rw [hfail] at hw
    cases hw
  | kept t' c hlive' _ _ _ _ hsuf hgo _ =>
    rw [hgo, Flow.go_andThen] at hw
    obtain ⟨rfl, rfl⟩ : t' = t ∧ [c] = rest := by
      have := (settled_one grow t' c).symm.trans hw
      simpa using this
    exact ⟨hlive', hsuf, .inl rfl, fun hnil => by cases hnil⟩
  | wait hpass hend =>
    rw [hpass, Flow.wait_andThen] at hw
    obtain ⟨rfl, rfl⟩ : s = t ∧ cur = rest := by simpa using hw
    exact ⟨hlive, suffix_rfl, hend, .inl⟩

theorem settled_fail (hg : ∀ n, grow n) (hlive : Live s) (hf : settled grow s cur = .fail t) :
    t.1.failed ∧ ∀ y, settled grow s (cur ++ y) = .fail t := by
  have hfall := pass_falling hg
  revert hf
  refine settle_induction hfall (P := fun s cur => settled grow s cur = .fail t →
    t.1.failed ∧ ∀ y, settled grow s (cur ++ y) = .fail t) (fun s cur hlive ih hf => ?_) hlive cur
  unfold settled at hf ⊢
  rw [settle_eq hfall hlive] at hf
  cases pass_cut hg hlive cur with
  | go t' rest' _ _ _ _ h =>
    have hgo := h []
    rw [append_nil, append_nil] at hgo
    rw [hgo, Flow.go_andThen] at hf
    obtain ⟨hfailed, hmore⟩ := ih t' rest' hgo hf
    refine ⟨hfailed, fun y => ?_⟩
    rw [settle_eq hfall hlive, h, Flow.go_andThen]
    exact hmore y
  | fail t' hfailed h =>
    have hfail := h []
    rw [append_nil] at hfail
    rw [hfail, Flow.fail_andThen] at hf
    obtain rfl := Flow.fail.inj hf
    refine ⟨hfailed, fun y => ?_⟩
    rw [settle_eq hfall hlive, h, Flow.fail_andThen]
  | kept t' c _ _ _ _ _ _ hgo _ =>
    rw [hgo, Flow.go_andThen] at hf
    have := (settled_one grow t' c).symm.trans hf
    cases this
  | wait hpass _ =>
    rw [hpass, Flow.wait_andThen] at hf
    cases hf

theorem settled_join (hg : ∀ n, grow n) (hlive : Live s) {rest : Bytes}
    (hw : settled grow s cur = .wait t rest) (hrest : rest ≠ []) (hopen : t.1.state ≠ .complete)
    {b : UInt8} {y : Bytes} (hy : y ≠ []) (htext : t.1.inText → t.1.stringBuf = [] ∧ rest = [b])
    (hnumber : t.1.inNumber → ¬ (t.1.stringBuf.getLast? = some 13 ∧ y.head? = some 10)) :
    settled grow s (cur ++ y) = settled grow t (b :: y) := by
  have hfall := pass_falling hg
  revert hw
  refine settle_induction hfall (P := fun s cur => settled grow s cur = .wait t rest →
    settled grow s (cur ++ y) = settled grow t (b :: y)) (fun s cur hlive ih hw => ?_) hlive cur
  unfold settled at hw ⊢
  rw [settle_eq hfall hlive] at hw
  cases pass_cut hg hlive cur with
  | go t' rest' _ _ _ _ h =>
    have hgo := h []
    rw [append_nil, append_nil] at hgo
    rw [hgo, Flow.go_andThen] at hw
    rw [settle_eq hfall hlive, h, Flow.go_andThen]
    exact ih t' rest' hgo hw
  | fail t' _ h =>
    have hfail := h []
    rw [append_nil] at hfail
    rw [hfail] at hw
    cases hw
  | kept t' c hlive' _ _ hbuf _ _ hgo h =>
    rw [hgo, Flow.go_andThen] at hw
    obtain ⟨rfl, rfl⟩ : t' = t ∧ [c] = rest := by
      have := (settled_one grow t' c).symm.trans hw
      simpa using this
    have hno : ¬ t'.1.inText := fun hin => hbuf hin (htext hin).1
    rw [settle_eq hfall hlive, settle_eq hfall hlive', h b y hy ⟨hno, hnumber⟩]
  | wait hpass hend =>
    rw [hpass, Flow.wait_andThen] at hw
    obtain ⟨rfl, rfl⟩ : s = t ∧ cur = rest := by simpa using hw
    rcases hend with hshort | hcomplete
    · obtain ⟨c, l, rfl⟩ := exists_cons_of_ne_nil hrest
      obtain rfl : l = [] := hshort
      by_cases hin : s.1.inText
      · rw [(htext hin).2]
        rfl
      · exact settled_front hg hlive hin hopen hy c b
    · exact absurd hcomplete hopen

def ending : Flow (Parser × List Event) UInt8 → Parser × List Event
  | .fail t => t
  | .go t _ | .wait t _ =>
    match finish joiner t with
    | .error t => t
    | .ok t => t

theorem Live.not_failed (h : Live s) : s.1.failed = false := by
  unfold Parser.failed
  rw [decide_eq_false_iff_not, h.error]
  exact fun hor => hor.elim (fun h => by cases h) h.state

theorem execute_settled (hg : ∀ n, grow n) (hlive : Live s) (b : UInt8) {data : Bytes}
    (hdata : data ≠ []) :
    ((execute joiner grow b s.1 s.2 data).p, (execute joiner grow b s.1 s.2 data).u) =
      ending (settled grow s (b :: data)) := by
  have hgo : ¬ (s.1.hasError = true ∨ s.1.state = .errorState) := by
    rw [hlive.error]
    exact fun hor => hor.elim (fun h => by cases h) hlive.state
  have hpasses : passes (pass joiner grow) (data.length + 3) (s.1, s.2) (b :: data) =
      settled grow s (b :: data) := by
    refine passes_eq_settle (pass_falling hg) hlive ?_
    have := rank_le (s.1, s.2)
    rw [length_cons]
    omega
  unfold execute
  rw [if_neg hdata, if_neg hgo, hpasses]
  cases settled grow s (b :: data) with
  | fail t => rfl
  | go t rest =>
    unfold ending
    dsimp only
    cases finish joiner t <;> rfl
  | wait t rest =>
    unfold ending
    dsimp only
    cases finish joiner t <;> rfl

theorem execute_failed (h : p.failed) (b : UInt8) (u : List Event) {data : Bytes}
    (hdata : data ≠ []) : execute joiner grow b p u data = ⟨none, p, u⟩ := by
  unfold execute
  rw [if_neg hdata, if_pos (by simpa [Parser.failed] using h)]

theorem feed_failed (h : s.1.failed) {xs : List Piece} (hne : ∀ x ∈ xs, x.data ≠ []) :
    feed joiner grow s xs = s := by
  induction xs with
  | nil => rfl
  | cons x xs ih =>
    unfold feed
    rw [execute_failed h x.before s.2 (hne x mem_cons_self)]
    exact ih fun y hy => hne y (mem_cons_of_mem _ hy)

theorem ending_open (hopen : t.1.state ≠ .complete) (rest : Bytes) : ending (.wait t rest) = t := by
  have hfinish : finish joiner t = .ok t := by
    unfold finish
    rw [if_pos hopen]
  unfold ending
  dsimp only
  rw [hfinish]

theorem ending_complete (hlive : Live t) (hend : t.1.state = .complete) (rest : Bytes) :
    (ending (.wait t rest)).1.state = .complete ∧ (ending (.wait t rest)).1.failed = false := by
  have hstate (p : Parser) (herror : p.hasError = false) (hp : p.state = .complete) :
      p.failed = false := by
    unfold Parser.failed
    rw [herror, hp]
    rfl
  obtain ⟨v, hv, herror, hcomplete⟩ : ∃ v, finish joiner t = .ok v ∧ v.1.hasError = false ∧
      v.1.state = .complete := by
    unfold finish
    rw [if_neg (not_not.mpr hend)]
    dsimp only
    split
    · split
      · exact ⟨_, rfl, hlive.error, hend⟩
      · exact ⟨_, rfl, hlive.error, hend⟩
    · exact ⟨_, rfl, hlive.error, hend⟩
  unfold ending
  dsimp only
  rw [hv]
  exact ⟨hcomplete, hstate v.1 herror hcomplete⟩

theorem joined_cons (x : Piece) (xs : List Piece) : joined (x :: xs) = x.data ++ joined xs := rfl

/-- A run over pieces whose cuts all meet the condition does what one call does. -/
theorem feed_joined (hg : ∀ n, grow n) (hlive : Live s) {x : Piece} {xs : List Piece}
    (hne : ∀ y ∈ x :: xs, y.data ≠ []) (h : Smooth grow s x xs) :
    feed joiner grow s (x :: xs) = ending (settled grow s (x.before :: joined (x :: xs))) := by
  induction xs generalizing s x with
  | nil =>
    unfold feed joined
    rw [map_singleton, flatten_singleton,
      ← execute_settled hg hlive x.before (hne x mem_cons_self)]
    rfl
  | cons y ys ih =>
    have hx := hne x mem_cons_self
    have hy := hne y (mem_cons_of_mem _ mem_cons_self)
    have hmore : joined (y :: ys) ≠ [] := by
      rw [joined_cons]
      exact append_ne_nil_of_left_ne_nil hy _
    have hcall := execute_settled hg hlive x.before hx
    obtain ⟨hcut, hrest⟩ := h
    unfold feed
    dsimp only at hcut hrest ⊢
    rw [joined_cons, ← cons_append]
    have hp := congrArg Prod.fst hcall
    dsimp only at hp
    rw [hcall] at hrest ⊢
    rw [hp] at hcut
    cases hc : settled grow s (x.before :: x.data) with
    | go t left => exact absurd hc (settle_ne_go (pass_falling hg) hlive _ t left)
    | fail t =>
      obtain ⟨hfailed, hmore⟩ := settled_fail hg hlive hc
      rw [hmore]
      exact feed_failed hfailed fun z hz => hne z (mem_cons_of_mem _ hz)
    | wait t left =>
      rw [hc] at hcut hrest
      obtain ⟨ht, hsuf, hshort, hover⟩ := settled_wait hg hlive hc
      by_cases hopen : t.1.state = .complete
      · -- the value is complete, and the cut does not meet the condition
        obtain ⟨hstate, hfine⟩ := ending_complete ht hopen left
        rcases hcut with hfailed | hcut
        · rw [hfine] at hfailed
          cases hfailed
        · exact absurd hstate hcut.complete
      · rw [ending_open hopen] at hcut hrest ⊢
        have hcut : Continues t.1 x y := by
          rcases hcut with hfailed | hcut
          · rw [ht.not_failed] at hfailed
            cases hfailed
          · exact hcut
        have hleft : left ≠ [] := by
          intro hnil
          rcases hover hnil with h | h | h
          · cases h
          · exact hopen h
          · exact hcut.element h
        rw [settled_join hg hlive hc hleft hopen hmore (b := y.before) (fun hin => ?_)
          (fun hin => ?_)]
        · exact ih ht (fun z hz => hne z (mem_cons_of_mem _ hz)) hrest
        · obtain ⟨hbuf, hlast⟩ := hcut.text hin
          obtain ⟨c, l, rfl⟩ := exists_cons_of_ne_nil hleft
          obtain rfl : l = [] := hshort.resolve_right hopen
          have hc := getLast_append (l := [x.before]) hx
          obtain ⟨front, hfront⟩ := hsuf
          rw [singleton_append, ← hfront, List.getLast?_append, hlast] at hc
          obtain rfl : c = y.before := Option.some.inj hc
          exact ⟨hbuf, rfl⟩
        · have hhead : (joined (y :: ys)).head? = y.data.head? := by
            rw [joined_cons, List.head?_append_of_ne_nil _ hy]
          rw [hhead]
          exact hcut.number hin

end

/-- A stream that is given to a new parser in pieces, with each cut as `Continues` says, gives the
events, the complete values and the error status of one call. -/
theorem pieces_agree {config : Option Config} {grow : ℕ → Bool} (hg : ∀ n, grow n) {x : Piece}
    {xs : List Piece} (hne : ∀ y ∈ x :: xs, y.data ≠ [])
    (h : Smooth grow (create config, []) x xs) (before : UInt8) :
    Agrees config grow before (x :: xs) := by
  have hlive : Live (create config, []) :=
    Live.of rfl (by simp [create]) (by simp [Parser.inText, create])
  have hdata : joined (x :: xs) ≠ [] := by
    rw [joined_cons]
    exact append_ne_nil_of_left_ne_nil (hne x mem_cons_self) _
  have hwhole := execute_settled hg hlive before hdata
  rw [settled_front hg hlive (by simp [Parser.inText, create]) (by simp [create]) hdata before
    x.before, ← feed_joined hg hlive hne h] at hwhole
  unfold Agrees
  dsimp only
  rw [← hwhole]
  exact ⟨rfl, rfl, rfl⟩

theorem hello_agrees : Agrees none (fun _ => true) 0
    [⟨0, lit "$5\r\nhe"⟩, ⟨7, lit "ll"⟩, ⟨7, lit "o\r"⟩, ⟨7, lit "\n"⟩] :=
  pieces_agree (fun _ => rfl) (by decide) (by decide +kernel) 0

/-- The CR and the LF of an integer come apart, and its value is lost. -/
theorem integer_cut_lost : joined [⟨0, lit ":12\r"⟩, ⟨13, lit "\n"⟩] = lit ":12\r\n" ∧
    (feed joiner (fun _ => true) (create none, []) [⟨0, lit ":12\r"⟩, ⟨13, lit "\n"⟩]).2 = [] ∧
    (execute joiner (fun _ => true) 0 (create none) [] (lit ":12\r\n")).u =
      [.complete, .integer 12] ∧
    ¬ Agrees none (fun _ => true) 0 [⟨0, lit ":12\r"⟩, ⟨13, lit "\n"⟩] := by
  refine ⟨by decide, by decide, by decide, ?_⟩
  rintro ⟨hevents, -⟩
  exact absurd hevents (by decide)

end Voxlib.Redis
