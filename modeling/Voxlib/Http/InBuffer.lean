import Voxlib.Http.Parser.Pieces
import Voxlib.Lib.Buffer

/-!
# The buffer of the HTTP and multipart parsers

compact_buf, ensure_buf and the copy of a piece are the same code in both. The block is its
cells; an access outside is `none`.
-/

namespace Voxlib.InBuffer
open CStr Buffer List Option

def sizeMod : ℕ := 2 ^ 64

structure InBuf where
  buf : Bytes := []
  off : ℕ := 0
  size : ℕ := 0

/- buf_capacity is set where buf is, and 0 without a block. -/
def InBuf.capacity (b : InBuf) : ℕ := b.buf.length

def InBuf.unparsed (b : InBuf) : Bytes := (b.buf.drop b.off).take b.size

/- The macros ..._BUF_INIT and ..._BUF_MAX of a parser. -/
structure Limits where
  bufInit : ℕ
  bufMax : ℕ
  init_le : bufInit ≤ bufMax
  max_lt : bufMax < sizeMod

/- What the pool answers: no block, or one with anything in it. -/
abbrev Pool := (n : ℕ) → Option { block : Bytes // block.length = n }

-- compact_buf (vox_http_parser.c:151-155, vox_http_multipart_parser.c:85-89)
def compactBuf (b : InBuf) : Option InBuf :=
  if b.off = 0 ∨ b.size = 0 then some b
  else (memmove b.buf 0 b.off b.size).map fun buf => { b with buf := buf, off := 0 }

/- The loop that enlarges the capacity; `growCap_fuel` says which fuel is enough. -/
def growCap (bufMax : ℕ) : ℕ → ℕ → ℕ → Option ℕ
  | 0, _, _ => none
  | fuel + 1, newCap, want =>
    if newCap < want then
      let next := newCap + (newCap >>> 1)
      if next ≤ newCap ∨ next > bufMax then none else growCap bufMax fuel next want
    else some newCap

def newCapacity (l : Limits) (b : InBuf) (need : ℕ) : Option ℕ :=
  let want := (b.size + need + 1) % sizeMod
  growCap l.bufMax (want + 1) (if b.capacity = 0 then l.bufInit else b.capacity) want

/- The end of ensure_buf: the unparsed bytes go to a new block. -/
def growBuf (l : Limits) (alloc : Pool) (b : InBuf) (need : ℕ) : Option (Bool × InBuf) :=
  match newCapacity l b need with
  | none => some (false, b)
  | some newCap =>
    match alloc newCap with
    | none => some (false, b)
    | some newBuf =>
      if b.capacity = 0 ∨ b.size = 0 then some (true, { b with buf := newBuf, off := 0 })
      else
        (fetch b.buf b.off b.size).bind fun bytes =>
          (blit newBuf.1 0 bytes).map fun buf => (true, { b with buf := buf, off := 0 })

-- ensure_buf (vox_http_parser.c:158-184, vox_http_multipart_parser.c:91-118)
def ensureBuf (l : Limits) (alloc : Pool) (b : InBuf) (need : ℕ) : Option (Bool × InBuf) :=
  if (b.off + b.size + need + 1) % sizeMod ≤ b.capacity then some (true, b)
  else if b.off > 0 then
    (compactBuf b).bind fun b₁ =>
      if (b₁.size + need + 1) % sizeMod ≤ b₁.capacity then some (true, b₁)
      else growBuf l alloc b₁ need
  else growBuf l alloc b need

def copyIn (b : InBuf) (data : Bytes) : Option InBuf :=
  (blit b.buf (b.off + b.size) data).bind fun buf =>
    (store buf (b.off + b.size + data.length) 0).map fun buf =>
      { b with buf := buf, size := b.size + data.length }

def advance (b : InBuf) (consumed : ℕ) : Option InBuf :=
  if consumed > 0 then
    let b₁ := { b with off := b.off + consumed, size := b.size - consumed }
    if b₁.off ≥ 4096 ∨ (b₁.capacity > 0 ∧ b₁.off > b₁.capacity >>> 1) then compactBuf b₁
    else some b₁
  else some b

/- From the feed of the scanner to the test of `consumed`: what the call returns,
   the state of the parser and how many of `n` bytes are consumed. -/
structure Scan (σ : Type) (n : ℕ) where
  ret : ℤ
  core : σ
  consumed : ℕ
  le : consumed ≤ n

structure Kind (σ : Type) where
  limits : Limits
  /- returned before the length of the piece is looked at -/
  refusal : σ → Option ℤ
  setError : σ → String → σ
  scan : Bool → σ → (v : Bytes) → Option (Scan σ v.length)

structure Parser (σ : Type) where
  core : σ
  buffer : InBuf := {}

variable {σ : Type}

def execute (k : Kind σ) (alloc : Pool) (p : Parser σ) (data : Bytes) : Option (ℤ × Parser σ) :=
  match k.refusal p.core with
  | some code => some (code, p)
  | none =>
    if data.length = 0 then some (0, p)
    else
      (ensureBuf k.limits alloc p.buffer data.length).bind fun e =>
        if e.1 = false then
          some (-1, { core := k.setError p.core "buffer alloc failed", buffer := e.2 })
        else
          (copyIn e.2 data).bind fun b =>
            (k.scan (alloc HttpParser.sizeofScannerChunk).isSome p.core b.unparsed).bind fun s =>
              (advance b s.consumed).map fun b' => (s.ret, { core := s.core, buffer := b' })

def feed (k : Kind σ) (p : Parser σ) (piece : Pool × Bytes) : Option (Parser σ) :=
  (execute k piece.1 p piece.2).map Prod.snd

namespace Http

def limits : Limits := ⟨HttpParser.bufInit, HttpParser.bufMax, by decide, by decide⟩

/- vox_http_parser_execute (vox_http_parser.c:634-654) -/
def scan (cb : HttpParser.Event → ℤ) (cfg : HttpParser.Config) (feeds : Bool)
    (c : HttpParser.Core) (v : Bytes) : Option (Scan HttpParser.Core v.length) :=
  if feeds = false then
    some ⟨-1, HttpParser.setError c "stream feed failed", 0, Nat.zero_le _⟩
  else
    (HttpParser.doParse cb cfg c v).map fun r =>
      let consumed := v.length - r.rest.length
      if r.code = -1 then ⟨-1, r.core, 0, Nat.zero_le _⟩
      else if r.code = -2 ∧ consumed = 0 then
        if cfg.maxHeaderSize ≠ 0 ∧ v.length ≥ cfg.maxHeaderSize then
          ⟨-1, HttpParser.setError r.core "header too large", 0, Nat.zero_le _⟩
        else ⟨0, { r.core with phase := .init }, 0, Nat.zero_le _⟩
      else ⟨consumed, r.core, consumed, Nat.sub_le _ _⟩

def kind (cb : HttpParser.Event → ℤ) (cfg : HttpParser.Config) : Kind HttpParser.Core where
  limits := limits
  refusal c := if c.hasError ∨ c.phase = .error then some (-1) else none
  setError := HttpParser.setError
  scan := scan cb cfg

end Http

namespace Multipart

def limits : Limits := ⟨4096, 1024 * 1024, by decide, by decide⟩

inductive Phase where
  | init | firstBoundary | partHeaders | partBody | complete | error
  deriving DecidableEq, Repr

structure Core where
  phase : Phase := .init
  complete : Bool := false
  hasError : Bool := false
  errorMsg : String := ""
  headerCount : ℕ := 0
  headerSize : ℕ := 0
  deriving DecidableEq, Repr

-- set_error (vox_http_multipart_parser.c:71-82)
def setError (c : Core) (msg : String) : Core :=
  { c with hasError := true, phase := .error, errorMsg := msg }

/- The result of do_parse on a view of `n` bytes; `consumed` is a difference of two
   offsets of the scanner. ensure_buf sees no more of a call than this number, so
   do_parse is left arbitrary. -/
structure Result (n : ℕ) where
  code : ℤ
  core : Core
  consumed : ℕ
  le : consumed ≤ n

/- vox_multipart_parser_execute (vox_http_multipart_parser.c:634-657) -/
def scan (maxHeaderSize : ℕ) (doParse : Core → (v : Bytes) → Option (Result v.length))
    (feeds : Bool) (c : Core) (v : Bytes) : Option (Scan Core v.length) :=
  if feeds = false then some ⟨-1, setError c "stream feed failed", 0, Nat.zero_le _⟩
  else
    (doParse c v).map fun r =>
      if r.code = -1 then ⟨-1, r.core, 0, Nat.zero_le _⟩
      else if r.code = -2 ∧ r.consumed = 0 then
        if maxHeaderSize ≠ 0 ∧ r.core.headerSize ≥ maxHeaderSize then
          ⟨-1, setError r.core "header too large", 0, Nat.zero_le _⟩
        else if r.core.phase = .init ∨ r.core.phase = .firstBoundary then
          ⟨0, { r.core with phase := .init }, 0, Nat.zero_le _⟩
        else ⟨0, r.core, 0, Nat.zero_le _⟩
      else ⟨r.consumed, r.core, r.consumed, r.le⟩

def kind (maxHeaderSize : ℕ) (doParse : Core → (v : Bytes) → Option (Result v.length)) :
    Kind Core where
  limits := limits
  refusal c :=
    if c.hasError ∨ c.phase = .error then some (-1) else if c.complete then some 0 else none
  setError := setError
  scan := scan maxHeaderSize doParse

end Multipart

def Sound (l : Limits) (b : InBuf) : Prop :=
  b.off + b.size ≤ b.capacity ∧ b.capacity ≤ l.bufMax

variable {b : InBuf}

theorem cut (h : b.off + b.size ≤ b.capacity) :
    ∃ before after, b.buf = before ++ (b.unparsed ++ after) ∧ before.length = b.off ∧
      b.unparsed.length = b.size := by
  unfold InBuf.capacity at h
  refine ⟨b.buf.take b.off, (b.buf.drop b.off).drop b.size, ?_, ?_, ?_⟩
  · rw [InBuf.unparsed, take_append_drop, take_append_drop]
  · rw [length_take]
    omega
  · rw [InBuf.unparsed, length_take, length_drop]
    omega

theorem unparsed_of_cut {before v after : Bytes} (h : b.buf = before ++ (v ++ after))
    (hoff : before.length = b.off) (hsize : v.length = b.size) : b.unparsed = v := by
  rw [InBuf.unparsed, h, ← hoff, ← hsize, drop_left, take_left]

variable {l : Limits}

theorem unparsed_length (h : Sound l b) : b.unparsed.length = b.size := by
  obtain ⟨_, _, _, _, hsize⟩ := cut h.1
  exact hsize

theorem fetch_unparsed (h : b.off + b.size ≤ b.capacity) :
    fetch b.buf b.off b.size = some b.unparsed := if_pos h

theorem compactBuf_spec (h : b.off + b.size ≤ b.capacity) :
    ∃ b', compactBuf b = some b' ∧ b'.size = b.size ∧ b'.capacity = b.capacity ∧
      b'.unparsed = b.unparsed ∧ b'.off = if b.size = 0 then b.off else 0 := by
  by_cases hstay : b.off = 0 ∨ b.size = 0
  · refine ⟨b, if_pos hstay, rfl, rfl, rfl, ?_⟩
    split
    · rfl
    · omega
  · obtain ⟨before, after, hbuf, hoff, hsize⟩ := cut h
    have hfits : b.unparsed.length ≤ b.buf.length := by
      rw [hbuf, length_append, length_append]
      omega
    have hblit : blit b.buf 0 b.unparsed = some (b.unparsed ++ b.buf.drop b.unparsed.length) :=
      blit_append (l := []) hfits
    refine ⟨{ b with buf := b.unparsed ++ b.buf.drop b.unparsed.length, off := 0 }, ?_, rfl, ?_,
      ?_, ?_⟩
    · rw [compactBuf, if_neg hstay, memmove, fetch_unparsed h, bind_some, hblit,
        map_some]
    · rw [InBuf.capacity, InBuf.capacity, length_append, length_drop]
      omega
    · exact @unparsed_of_cut _ [] _ _ rfl rfl hsize
    · rw [if_neg]
      omega

theorem compactBuf_sound {b' : InBuf} (h : Sound l b) (heq : compactBuf b = some b') :
    Sound l b' := by
  obtain ⟨c, hc, hsize, hcap, _, hoff⟩ := compactBuf_spec h.1
  cases hc.symm.trans heq
  have hle : b'.off ≤ b.off := by
    rw [hoff]
    split <;> omega
  have hin := h.1
  exact ⟨by omega, by rw [hcap]; exact h.2⟩

theorem growCap_spec {bufMax want fuel cap newCap : ℕ}
    (h : growCap bufMax fuel cap want = some newCap) :
    cap ≤ newCap ∧ want ≤ newCap ∧ (cap ≤ bufMax → newCap ≤ bufMax) := by
  induction fuel generalizing cap with
  | zero => cases h
  | succ fuel ih =>
    rw [growCap] at h
    by_cases hless : cap < want
    · rw [if_pos hless] at h
      by_cases hstop : cap + (cap >>> 1) ≤ cap ∨ cap + (cap >>> 1) > bufMax
      · rw [if_pos hstop] at h
        cases h
      · rw [if_neg hstop] at h
        obtain ⟨hup, hwant, hmax⟩ := ih h
        exact ⟨by omega, hwant, fun _ => hmax (by omega)⟩
    · rw [if_neg hless] at h
      cases h
      exact ⟨Nat.le_refl _, by omega, fun hc => hc⟩

theorem growCap_fuel (bufMax want : ℕ) (fuel : ℕ) : ∀ fuel' cap, want ≤ cap + fuel → fuel ≤ fuel' →
      growCap bufMax (fuel' + 1) cap want = growCap bufMax (fuel + 1) cap want := by
  induction fuel with
  | zero =>
    intro fuel' cap hle _
    rw [growCap, growCap, if_neg (by omega), if_neg (by omega)]
  | succ fuel ih =>
    intro fuel' cap hle hfuel
    cases fuel' with
    | zero => omega
    | succ n =>
      rw [growCap, growCap]
      by_cases hless : cap < want
      · rw [if_pos hless, if_pos hless]
        dsimp only
        split
        · rfl
        · exact ih n _ (by omega) (by omega)
      · rw [if_neg hless, if_neg hless]

structure Kept (l : Limits) (b b' : InBuf) : Prop where
  sound : Sound l b'
  size : b'.size = b.size
  unparsed : b'.unparsed = b.unparsed

variable {need : ℕ}

theorem newCapacity_spec (h : Sound l b) {newCap : ℕ} (hnew : newCapacity l b need = some newCap) :
    b.capacity ≤ newCap ∧ newCap ≤ l.bufMax ∧ (b.size + need + 1) % sizeMod ≤ newCap := by
  obtain ⟨hup, hwant, hle⟩ := growCap_spec hnew
  by_cases hzero : b.capacity = 0
  · rw [if_pos hzero] at hle
    exact ⟨by omega, hle l.init_le, hwant⟩
  · rw [if_neg hzero] at hup hle
    exact ⟨hup, hle h.2, hwant⟩

theorem growBuf_cases (l : Limits) (alloc : Pool) (h : Sound l b) (need : ℕ) :
    (growBuf l alloc b need = some (false, b) ∧
      ∀ newCap, newCapacity l b need = some newCap → alloc newCap = none) ∨
    ∃ newCap b', newCapacity l b need = some newCap ∧ (alloc newCap).isSome ∧
      growBuf l alloc b need = some (true, b') ∧ Kept l b b' ∧ b'.off = 0 ∧
      b'.capacity = newCap := by
  unfold growBuf
  cases hnew : newCapacity l b need with
  | none => exact .inl ⟨rfl, fun _ hn => by cases hn⟩
  | some newCap =>
    obtain ⟨hup, hmax, _⟩ := newCapacity_spec h hnew
    have hin := h.1
    dsimp only
    cases halloc : alloc newCap with
    | none => exact .inl ⟨rfl, fun n hn => by cases hn; exact halloc⟩
    | some newBuf =>
      obtain ⟨block, hblock⟩ := newBuf
      dsimp only
      by_cases hempty : b.capacity = 0 ∨ b.size = 0
      · have hzero : b.size = 0 := by omega
        rw [if_pos hempty]
        refine .inr ⟨newCap, { b with buf := block, off := 0 }, rfl, by simp [halloc], rfl,
          ⟨⟨?_, hblock.trans_le hmax⟩, rfl, ?_⟩, rfl, hblock⟩
        · rw [hzero]
          exact Nat.zero_le _
        · rw [InBuf.unparsed, InBuf.unparsed, hzero, take_zero, take_zero]
      · rw [if_neg hempty]
        obtain ⟨before, after, hbuf, hoff, hsize⟩ := cut hin
        have hblit : blit block 0 b.unparsed = some (b.unparsed ++ block.drop b.unparsed.length) :=
          blit_append (l := []) (by omega)
        have hlen : (b.unparsed ++ block.drop b.unparsed.length).length = newCap := by
          rw [length_append, length_drop]
          omega
        rw [fetch_unparsed hin, bind_some, hblit, map_some]
        refine .inr ⟨newCap, _, rfl, by simp [halloc], rfl, ⟨⟨?_, hlen.trans_le hmax⟩, rfl, ?_⟩,
          rfl, hlen⟩
        · rw [InBuf.capacity, hlen]
          dsimp only
          omega
        · exact @unparsed_of_cut _ [] _ _ rfl rfl hsize

theorem growBuf_spec (l : Limits) (alloc : Pool) (h : Sound l b) (need : ℕ) :
    ∃ done b', growBuf l alloc b need = some (done, b') ∧ Kept l b b' ∧
      (done = true → b'.off = 0 ∧ (b.size + need + 1) % sizeMod ≤ b'.capacity) := by
  cases growBuf_cases l alloc h need with
  | inl hstays => exact ⟨false, b, hstays.1, ⟨h, rfl, rfl⟩, fun hd => by cases hd⟩
  | inr hgrown =>
    obtain ⟨newCap, b', hnew, _, heq, hkept, hoff, hcap⟩ := hgrown
    refine ⟨true, b', heq, hkept, fun _ => ⟨hoff, ?_⟩⟩
    rw [hcap]
    exact (newCapacity_spec h hnew).2.2

/- compact_buf leaves an empty buffer where it is, and the test that follows does not
   look at buf_off. -/
def Stuck (b : InBuf) (need : ℕ) : Prop :=
  0 < b.off ∧ b.size = 0 ∧ b.capacity < b.off + need + 1 ∧ need + 1 ≤ b.capacity

/- ensure_buf reports room that is not there: the buffer is stuck, or the sum that is
   compared with the capacity is no value of size_t. -/
def Overruns (b : InBuf) (need : ℕ) : Prop :=
  Stuck b need ∨ sizeMod ≤ b.off + b.size + need + 1

instance (b : InBuf) (need : ℕ) : Decidable (Overruns b need) :=
  inferInstanceAs (Decidable ((_ ∧ _) ∨ _))

/- Room for `need` bytes and the NUL behind the unparsed bytes of `b`, which are kept. -/
def Room (b : InBuf) (need : ℕ) (b' : InBuf) : Prop :=
  b'.off + b'.size + need + 1 ≤ b'.capacity ∧ b'.unparsed = b.unparsed

theorem ensureBuf_cases (l : Limits) (alloc : Pool) (h : Sound l b) (need : ℕ) :
    ∃ done b', ensureBuf l alloc b need = some (done, b') ∧ Kept l b b' ∧
      (((b.off + b.size + need + 1) % sizeMod ≤ b.capacity ∧ done = true ∧ b' = b) ∨
        (b.capacity < (b.off + b.size + need + 1) % sizeMod ∧ 0 < b.off ∧ b.size = 0 ∧
          (need + 1) % sizeMod ≤ b.capacity ∧ done = true ∧ b'.off = b.off ∧
          b'.capacity = b.capacity) ∨ (b.capacity < (b.off + b.size + need + 1) % sizeMod ∧
          ¬ (0 < b.off ∧ b.size = 0 ∧ (need + 1) % sizeMod ≤ b.capacity) ∧
          (done = true → b'.off = 0 ∧ (b.size + need + 1) % sizeMod ≤ b'.capacity))) := by
  unfold ensureBuf
  by_cases hfits : (b.off + b.size + need + 1) % sizeMod ≤ b.capacity
  · rw [if_pos hfits]
    exact ⟨true, b, rfl, ⟨h, rfl, rfl⟩, .inl ⟨hfits, rfl, rfl⟩⟩
  · rw [if_neg hfits]
    have hover := Nat.lt_of_not_le hfits
    by_cases hpos : b.off > 0
    · obtain ⟨c, hc, hsize, hcap, hsame, hoff⟩ := compactBuf_spec h.1
      have hsound := compactBuf_sound h hc
      rw [if_pos hpos, hc, bind_some, hsize, hcap]
      by_cases hroom : (b.size + need + 1) % sizeMod ≤ b.capacity
      · rw [if_pos hroom]
        refine ⟨true, c, rfl, ⟨hsound, hsize, hsame⟩, .inr ?_⟩
        by_cases hzero : b.size = 0
        · rw [hzero, Nat.zero_add] at hroom
          rw [if_pos hzero] at hoff
          exact .inl ⟨hover, hpos, hzero, hroom, rfl, hoff, hcap⟩
        · rw [if_neg hzero] at hoff
          refine .inr ⟨hover, fun hs => hzero hs.2.1, fun _ => ⟨hoff, ?_⟩⟩
          rw [hcap]
          exact hroom
      · rw [if_neg hroom]
        obtain ⟨done, b', hgrow, hkept, hend⟩ := growBuf_spec l alloc hsound need
        rw [hsize] at hend
        refine ⟨done, b', hgrow, ⟨hkept.sound, hkept.size.trans hsize, hkept.unparsed.trans hsame⟩,
          .inr (.inr ⟨hover, ?_, hend⟩)⟩
        intro hs
        rw [hs.2.1, Nat.zero_add] at hroom
        exact hroom hs.2.2
    · rw [if_neg hpos]
      obtain ⟨done, b', hgrow, hkept, hend⟩ := growBuf_spec l alloc h need
      exact ⟨done, b', hgrow, hkept, .inr (.inr ⟨hover, fun hs => hpos hs.1, hend⟩)⟩

theorem wrapped_fits (h : Sound l b) (hneed : need < sizeMod)
    (hwrap : sizeMod ≤ b.off + b.size + need + 1) :
    (b.off + b.size + need + 1) % sizeMod ≤ b.capacity := by
  have hin := h.1
  have hmax := h.2
  have hlt := l.max_lt
  rw [Nat.mod_eq_sub_mod hwrap, Nat.mod_eq_of_lt (by omega)]
  omega

theorem ensureBuf_room_iff (l : Limits) (alloc : Pool) (h : Sound l b) (hneed : need < sizeMod) :
    (∀ b', ensureBuf l alloc b need = some (true, b') → Room b need b') ↔ ¬ Overruns b need := by
  obtain ⟨done, b', heq, hkept, hcases⟩ := ensureBuf_cases l alloc h need
  have hcap : b.capacity < sizeMod := Nat.lt_of_le_of_lt h.2 l.max_lt
  have hroom : (∀ b'', ensureBuf l alloc b need = some (true, b'') → Room b need b'') ↔
      (done = true → b'.off + b.size + need + 1 ≤ b'.capacity) := by
    rw [heq]
    constructor
    · intro hall hd
      rw [← hkept.size]
      exact (hall b' (by rw [hd])).1
    · intro hle b'' hsome
      cases hsome
      exact ⟨by rw [hkept.size]; exact hle rfl, hkept.unparsed⟩
  rw [hroom]
  by_cases hwrap : sizeMod ≤ b.off + b.size + need + 1
  · have hfits := wrapped_fits h hneed hwrap
    have hover : Overruns b need := .inr hwrap
    cases hcases with
    | inl hfit =>
      obtain ⟨_, hd, rfl⟩ := hfit
      constructor
      · intro hle
        have := hle hd
        omega
      · intro hno
        exact absurd hover hno
    | inr hrest =>
      cases hrest with
      | inl hstuck => omega
      | inr hmoved => omega
  · have hsum := Nat.lt_of_not_le hwrap
    rw [Nat.mod_eq_of_lt hsum, Nat.mod_eq_of_lt (show need + 1 < sizeMod by omega),
      Nat.mod_eq_of_lt (show b.size + need + 1 < sizeMod by omega)] at hcases
    have hover : Overruns b need ↔ Stuck b need := or_iff_left hwrap
    rw [hover]
    cases hcases with
    | inl hfit =>
      obtain ⟨hle, _, rfl⟩ := hfit
      constructor
      · intro _ hs
        obtain ⟨_, hzero, hfull, _⟩ := hs
        omega
      · intro _ _
        exact hle
    | inr hrest =>
      cases hrest with
      | inl hstuck =>
        obtain ⟨hfull, hpos, hzero, hle, hd, hoff, hsame⟩ := hstuck
        constructor
        · intro himp
          have := himp hd
          omega
        · intro hno
          exact absurd ⟨hpos, hzero, by omega, hle⟩ hno
      | inr hmoved =>
        obtain ⟨_, hno, hend⟩ := hmoved
        constructor
        · intro _ hs
          exact hno ⟨hs.1, hs.2.1, hs.2.2.2⟩
        · intro _ hd
          obtain ⟨hoff, hle⟩ := hend hd
          omega

variable {data : Bytes}

theorem copyIn_spec (h : b.off + b.size + data.length + 1 ≤ b.capacity) :
    ∃ b', copyIn b data = some b' ∧ b'.off = b.off ∧ b'.size = b.size + data.length ∧
      b'.capacity = b.capacity ∧ b'.unparsed = b.unparsed ++ data := by
  obtain ⟨before, after, hbuf, hoff, hsize⟩ := cut (b := b) (by omega)
  unfold InBuf.capacity at h
  have hlen : b.buf.length = b.off + b.size + after.length := by
    rw [hbuf, length_append, length_append, hoff, hsize]
    omega
  obtain ⟨x, rest, htail⟩ : ∃ x rest, after.drop data.length = x :: rest := by
    apply exists_cons_of_ne_nil
    intro hnil
    have := drop_eq_nil_iff.mp hnil
    omega
  have hat : b.off + b.size = (before ++ b.unparsed).length := by
    rw [length_append, hoff, hsize]
  have hblit : blit b.buf (b.off + b.size) data =
      some ((before ++ b.unparsed ++ data) ++ x :: rest) := by
    rw [hat, hbuf, ← append_assoc, blit_append (by omega), htail]
    simp only [append_assoc]
  have hnul : b.off + b.size + data.length = (before ++ b.unparsed ++ data).length := by
    rw [length_append, hat]
  refine ⟨{ b with buf := before ++ b.unparsed ++ data ++ 0 :: rest, size := b.size + data.length },
    ?_, rfl, rfl, ?_, ?_⟩
  · rw [copyIn, hblit, bind_some, hnul, store_append, map_some]
  · have htaillen := congrArg List.length htail
    rw [length_drop, length_cons] at htaillen
    rw [InBuf.capacity, InBuf.capacity, hlen, length_append, length_cons, ← hnul]
    omega
  · apply @unparsed_of_cut _ before _ (0 :: rest)
    · simp only [append_assoc]
    · exact hoff
    · rw [length_append, hsize]

theorem copyIn_inside {b' : InBuf} (h : copyIn b data = some b') :
    b.off + b.size + data.length + 1 ≤ b.capacity := by
  obtain ⟨buf, hblit, hrest⟩ := bind_eq_some_iff.mp h
  obtain ⟨buf', hstore, _⟩ := map_eq_some_iff.mp hrest
  unfold blit at hblit
  unfold store at hstore
  by_cases hin : b.off + b.size + data.length ≤ b.buf.length
  · rw [if_pos hin] at hblit
    cases hblit
    by_cases hnul : b.off + b.size + data.length <
        (b.buf.take (b.off + b.size) ++ (data ++ b.buf.drop (b.off + b.size + data.length))).length
    · rw [length_append, length_append, length_take, length_drop] at hnul
      unfold InBuf.capacity
      omega
    · rw [if_neg hnul] at hstore
      cases hstore
  · rw [if_neg hin] at hblit
    cases hblit

theorem copyIn_sound {b' : InBuf} (h : Sound l b) (heq : copyIn b data = some b') : Sound l b' := by
  have hin := copyIn_inside heq
  obtain ⟨c, hc, hoff, hsize, hcap, _⟩ := copyIn_spec hin
  cases hc.symm.trans heq
  refine ⟨by omega, ?_⟩
  rw [hcap]
  exact h.2

theorem advance_spec (h : Sound l b) {consumed : ℕ} (hle : consumed ≤ b.size) :
    ∃ b', advance b consumed = some b' ∧ Sound l b' ∧ b'.unparsed = b.unparsed.drop consumed := by
  by_cases hpos : consumed > 0
  · obtain ⟨c, hc⟩ : ∃ c : InBuf,
        c = { b with off := b.off + consumed, size := b.size - consumed } := ⟨_, rfl⟩
    have hin := h.1
    have hsound : Sound l c := by
      rw [hc]
      exact ⟨by simp only [InBuf.capacity] at hin ⊢; omega, h.2⟩
    have hrest : c.unparsed = b.unparsed.drop consumed := by
      rw [hc, InBuf.unparsed, InBuf.unparsed, drop_take, drop_drop]
    rw [advance, if_pos hpos, ← hc]
    dsimp only
    split
    · obtain ⟨b', hb', _, _, hsame, _⟩ := compactBuf_spec hsound.1
      exact ⟨b', hb', compactBuf_sound hsound hb', hsame.trans hrest⟩
    · exact ⟨c, rfl, hsound, hrest⟩
  · obtain rfl : consumed = 0 := by omega
    exact ⟨b, if_neg hpos, h, rfl⟩

theorem feed_sound (k : Kind σ) (p : Parser σ) (piece : Pool × Bytes) (q : Parser σ)
    (h : Sound k.limits p.buffer) (heq : feed k p piece = some q) : Sound k.limits q.buffer := by
  obtain ⟨r, hr, rfl⟩ := map_eq_some_iff.mp heq
  unfold execute at hr
  cases hrefuse : k.refusal p.core with
  | some code =>
    rw [hrefuse] at hr
    cases hr
    exact h
  | none =>
    rw [hrefuse] at hr
    dsimp only at hr
    by_cases hlen : piece.2.length = 0
    · rw [if_pos hlen] at hr
      cases hr
      exact h
    · rw [if_neg hlen] at hr
      obtain ⟨e, he, hrest⟩ := bind_eq_some_iff.mp hr
      obtain ⟨done, b', hens, hkept, _⟩ := ensureBuf_cases k.limits piece.1 h piece.2.length
      cases hens.symm.trans he
      cases done with
      | false =>
        rw [if_pos rfl] at hrest
        cases hrest
        exact hkept.sound
      | true =>
        rw [if_neg (by simp)] at hrest
        obtain ⟨b₁, hcopy, hscan⟩ := bind_eq_some_iff.mp hrest
        obtain ⟨s, _, hend⟩ := bind_eq_some_iff.mp hscan
        have hsound := copyIn_sound hkept.sound hcopy
        have hle : s.consumed ≤ b₁.size := s.le.trans (unparsed_length hsound).le
        obtain ⟨b₂, hadv, hsound₂, _⟩ := advance_spec hsound hle
        rw [hadv] at hend
        cases hend
        exact hsound₂

theorem fresh_sound (l : Limits) : Sound l {} := ⟨Nat.le_refl _, Nat.zero_le _⟩

theorem run_sound {k : Kind σ} {c : σ} {pieces : List (Pool × Bytes)} {p : Parser σ}
    (h : Run.exec (feed k) { core := c } pieces = some p) : Sound k.limits p.buffer :=
  Run.exec_invariant (I := fun p => Sound k.limits p.buffer) (feed_sound k) (fresh_sound _) h

def view (c : HttpParser.Core) (b : InBuf) : HttpParser.Parser :=
  { core := c, off := b.off, cap := b.capacity, buf := b.unparsed }

theorem growCap_http (fuel cap want : ℕ) :
    HttpParser.growCap fuel cap want = growCap HttpParser.bufMax fuel cap want := by
  induction fuel generalizing cap with
  | zero => rfl
  | succ fuel ih =>
    rw [HttpParser.growCap, growCap]
    dsimp only
    rw [ih]

theorem compactBuf_view (c : HttpParser.Core) {b' : InBuf} (h : Sound l b)
    (heq : compactBuf b = some b') : HttpParser.compactBuf (view c b) = view c b' := by
  obtain ⟨d, hd, hsize, hcap, hsame, hoff⟩ := compactBuf_spec h.1
  cases hd.symm.trans heq
  have hlen : (view c b).buf.length = b.size := unparsed_length h
  unfold HttpParser.compactBuf
  by_cases hstay : b.off = 0 ∨ b.size = 0
  · rw [compactBuf, if_pos hstay] at heq
    cases heq
    rw [hlen]
    exact if_pos hstay
  · rw [hlen, if_neg (show ¬ ((view c b).off = 0 ∨ b.size = 0) from hstay)]
    rw [if_neg (by omega)] at hoff
    unfold view
    rw [hcap, hsame, hoff]

theorem ensureBuf_moved (c : HttpParser.Core) (alloc : Pool) (h : Sound l b)
    (hfull : ¬ (b.off + b.size + need + 1) % sizeMod ≤ b.capacity) :
    ∃ d, Sound l d ∧ d.size = b.size ∧
      (if b.off > 0 then HttpParser.compactBuf (view c b) else view c b) = view c d ∧
      ensureBuf l alloc b need =
        if b.off > 0 ∧ (d.size + need + 1) % sizeMod ≤ d.capacity then some (true, d)
        else growBuf l alloc d need := by
  unfold ensureBuf
  rw [if_neg hfull]
  by_cases hpos : b.off > 0
  · obtain ⟨d, hd, hsize, _⟩ := compactBuf_spec h.1
    refine ⟨d, compactBuf_sound h hd, hsize, ?_, ?_⟩
    · rw [if_pos hpos]
      exact compactBuf_view c h hd
    · rw [if_pos hpos, hd, bind_some]
      by_cases hroom : (d.size + need + 1) % sizeMod ≤ d.capacity
      · rw [if_pos hroom, if_pos ⟨hpos, hroom⟩]
      · rw [if_neg hroom, if_neg fun hr => hroom hr.2]
  · refine ⟨b, h, rfl, if_neg hpos, ?_⟩
    rw [if_neg hpos, if_neg fun hr => hpos hr.1]

/-- ensure_buf over the block does what it does over the list, for sums of size_t. -/
theorem ensureBuf_view (c : HttpParser.Core) (alloc : Pool) {b' : InBuf} {done : Bool}
    (h : Sound Http.limits b) (hsum : b.off + b.size + need + 1 < sizeMod)
    (heq : ensureBuf Http.limits alloc b need = some (done, b')) :
    HttpParser.ensureBuf (fun n => (alloc n).isSome) (view c b) need = (done, view c b') := by
  have hlen : (view c b).buf.length = b.size := unparsed_length h
  unfold HttpParser.ensureBuf
  rw [hlen]
  by_cases hfits : b.off + b.size + need + 1 ≤ b.capacity
  · rw [ensureBuf, Nat.mod_eq_of_lt hsum, if_pos hfits] at heq
    cases heq
    exact if_pos hfits
  · rw [if_neg (show ¬ (view c b).off + b.size + need + 1 ≤ (view c b).cap from hfits)]
    obtain ⟨d, hd, hsize, hview, hens⟩ := ensureBuf_moved c alloc h
      (show ¬ (b.off + b.size + need + 1) % sizeMod ≤ b.capacity by rwa [Nat.mod_eq_of_lt hsum])
    have hdlen : (view c d).buf.length = d.size := unparsed_length hd
    have hmod : (d.size + need + 1) % sizeMod = d.size + need + 1 := Nat.mod_eq_of_lt (by omega)
    rw [show (if (view c b).off > 0 then HttpParser.compactBuf (view c b) else view c b) = view c d
      from hview]
    dsimp only
    rw [hdlen]
    rw [hens, hmod] at heq
    by_cases hroom : b.off > 0 ∧ d.size + need + 1 ≤ d.capacity
    · rw [if_pos hroom] at heq
      cases heq
      exact if_pos hroom
    · rw [if_neg hroom] at heq
      rw [if_neg (show ¬ ((view c b).off > 0 ∧ d.size + need + 1 ≤ (view c d).cap) from hroom)]
      have hnew : HttpParser.growCap (d.size + need + 1 + 1)
          (if (view c d).cap = 0 then HttpParser.bufInit else (view c d).cap) (d.size + need + 1) =
            newCapacity Http.limits d need := by
        rw [growCap_http, newCapacity, hmod]
        rfl
      rw [hnew]
      cases growBuf_cases Http.limits alloc hd need with
      | inl hstays =>
        obtain ⟨hgrow, hnone⟩ := hstays
        cases hgrow.symm.trans heq
        cases hcap : newCapacity Http.limits b' need with
        | none => rfl
        | some newCap =>
          dsimp only
          exact if_neg (by simp [hnone newCap hcap])
      | inr hgrown =>
        obtain ⟨newCap, b'', hcap, hsome, hgrow, hkept, hoff, hcapacity⟩ := hgrown
        cases hgrow.symm.trans heq
        rw [hcap]
        dsimp only
        rw [if_pos hsome]
        unfold view
        rw [hoff, hcapacity, hkept.unparsed]

/-- In every state that a run of execute calls of either parser reaches, and for every number of
bytes, there is the room that ensure_buf reports if and only if the buffer does not overrun. -/
theorem parsers_room_iff (cb : HttpParser.Event → ℤ) (cfg : HttpParser.Config) (maxHeaderSize : ℕ)
    (doParse : Multipart.Core → (v : Bytes) → Option (Multipart.Result v.length))
    (pieces : List (Pool × Bytes)) (alloc : Pool) {need : ℕ} (hneed : need < sizeMod) :
    (∀ p, Run.exec (feed (Http.kind cb cfg)) { core := {} } pieces = some p →
      ((∀ b', ensureBuf Http.limits alloc p.buffer need = some (true, b') →
        Room p.buffer need b') ↔ ¬ Overruns p.buffer need)) ∧
    (∀ p, Run.exec (feed (Multipart.kind maxHeaderSize doParse)) { core := {} } pieces = some p →
      ((∀ b', ensureBuf Multipart.limits alloc p.buffer need = some (true, b') →
        Room p.buffer need b') ↔ ¬ Overruns p.buffer need)) := by
  constructor
  · intro p hrun
    exact ensureBuf_room_iff _ alloc (run_sound hrun) hneed
  · intro p hrun
    exact ensureBuf_room_iff _ alloc (run_sound hrun) hneed

def pool : Pool := fun n => some ⟨List.replicate n 0, length_replicate⟩

def get : Bytes := lit "GET / HTTP/1.1\r\n\r\n"

theorem get_spends : (Run.exec (feed (Http.kind HttpParser.quiet {})) { core := {} }
    [(pool, get)]).map (fun p => (p.buffer.off, p.buffer.size, p.buffer.capacity)) =
      some (18, 0, 4096) := by
  decide +kernel

theorem room_after_get : ∃ p,
    Run.exec (feed (Http.kind HttpParser.quiet {})) { core := {} } [(pool, get)] = some p ∧
      ∀ b', ensureBuf Http.limits pool p.buffer 100 = some (true, b') → Room p.buffer 100 b' := by
  obtain ⟨p, hp, hfields⟩ := map_eq_some_iff.mp get_spends
  obtain ⟨hoff, hrest⟩ := Prod.mk.inj hfields
  obtain ⟨hsize, hcap⟩ := Prod.mk.inj hrest
  refine ⟨p, hp, ((parsers_room_iff HttpParser.quiet {} 0 (fun _ _ => none) [(pool, get)] pool
    (by decide)).1 p hp).mpr ?_⟩
  intro hover
  cases hover with
  | inl hstuck =>
    have := hstuck.2.2.1
    omega
  | inr hwrap =>
    rw [hoff, hsize] at hwrap
    exact absurd hwrap (by decide)

/-- After one whole message the buffer is empty at offset 18, and 4090 more bytes are let in. -/
theorem spent_buffer_overruns : ∃ p b',
    Run.exec (feed (Http.kind HttpParser.quiet {})) { core := {} } [(pool, get)] = some p ∧
      ensureBuf Http.limits pool p.buffer 4090 = some (true, b') ∧
      b'.capacity < b'.off + b'.size + 4090 + 1 := by
  obtain ⟨p, hp, hfields⟩ := map_eq_some_iff.mp get_spends
  obtain ⟨hoff, hrest⟩ := Prod.mk.inj hfields
  obtain ⟨hsize, hcap⟩ := Prod.mk.inj hrest
  refine ⟨p, p.buffer, hp, ?_, by omega⟩
  have hfull : ¬ (p.buffer.off + p.buffer.size + 4090 + 1) % sizeMod ≤ p.buffer.capacity := by
    rw [hoff, hsize, hcap]
    decide
  have hroom : (p.buffer.size + 4090 + 1) % sizeMod ≤ p.buffer.capacity := by
    rw [hsize, hcap]
    decide
  rw [ensureBuf, if_neg hfull, if_pos (by omega), compactBuf, if_pos (.inr hsize), bind_some,
    if_pos hroom]

open HttpParser

theorem advance_view (c : HttpParser.Core) {rest : Bytes} {b' : InBuf} (h : Sound l b)
    (hsuf : rest <:+ b.unparsed) (heq : advance b (b.unparsed.length - rest.length) = some b') :
    HttpParser.advance (view c b) rest (b.unparsed.length - rest.length) = view c b' := by
  have hrest : rest = b.unparsed.drop (b.unparsed.length - rest.length) := suffix_iff_eq_drop.mp hsuf
  have hle : b.unparsed.length - rest.length ≤ b.size := by
    rw [unparsed_length h]
    exact Nat.sub_le _ _
  generalize b.unparsed.length - rest.length = n at *
  subst hrest
  unfold advance at heq
  unfold HttpParser.advance
  by_cases hpos : n > 0
  · rw [if_pos hpos] at heq ⊢
    have hsound : Sound l { b with off := b.off + n, size := b.size - n } :=
      ⟨by have := h.1; simp only [InBuf.capacity] at this ⊢; omega, h.2⟩
    have hview : { view c b with off := (view c b).off + n, buf := b.unparsed.drop n } =
        view c { b with off := b.off + n, size := b.size - n } := by
      unfold view InBuf.unparsed
      rw [drop_take, drop_drop]
      rfl
    dsimp only at heq
    simp only [hview]
    split at heq
    · rename_i hmove
      exact (if_pos hmove).trans (compactBuf_view c hsound heq)
    · rename_i hstay
      cases heq
      exact if_neg hstay
  · rw [if_neg hpos] at heq ⊢
    cases heq
    rfl

theorem copyIn_none (h : ¬ b.off + b.size + data.length + 1 ≤ b.capacity) : copyIn b data = none :=
  Option.eq_none_iff_forall_ne_some.mpr fun _ hc => h (copyIn_inside hc)

def Parser.view (p : Parser HttpParser.Core) : HttpParser.Parser := InBuffer.view p.core p.buffer

/-- A call on the block is the call on the list: both give the same code and state, or both
leave the block. -/
theorem execute_view {cb : HttpParser.Event → ℤ} (hcb : ∀ e, cb e = 0) (cfg : HttpParser.Config)
    (alloc : Pool) (p : Parser HttpParser.Core) (h : Sound Http.limits p.buffer)
    (hlen : data.length + HttpParser.bufMax + 1 < sizeMod) :
    (HttpParser.execute (fun n => (alloc n).isSome) cb cfg p.view data).map
        (fun r => (r.1, r.2.1)) =
      (execute (Http.kind cb cfg) alloc p data).map fun r => (r.1, r.2.view) := by
  have hsum : p.buffer.off + p.buffer.size + data.length + 1 < sizeMod := by
    have hin := h.1
    have hmax : p.buffer.capacity ≤ HttpParser.bufMax := h.2
    omega
  unfold HttpParser.execute execute
  by_cases herr : p.core.hasError ∨ p.core.phase = .error
  · rw [if_pos (show p.view.core.hasError ∨ p.view.core.phase = .error from herr)]
    rw [show (Http.kind cb cfg).refusal p.core = some (-1) from if_pos herr]
    rfl
  · rw [if_neg (show ¬ (p.view.core.hasError ∨ p.view.core.phase = .error) from herr)]
    rw [show (Http.kind cb cfg).refusal p.core = none from if_neg herr]
    dsimp only
    by_cases hzero : data.length = 0
    · rw [if_pos hzero, if_pos hzero]
      rfl
    · rw [if_neg hzero, if_neg hzero]
      obtain ⟨done, b, hens, hkept, _⟩ := ensureBuf_cases Http.limits alloc h data.length
      rw [show ensureBuf (Http.kind cb cfg).limits alloc p.buffer data.length = some (done, b)
        from hens, bind_some]
      rw [show HttpParser.ensureBuf (fun n => (alloc n).isSome) p.view data.length = _ from
        ensureBuf_view p.core alloc h hsum hens]
      cases done with
      | false => rfl
      | true =>
        dsimp only
        rw [if_neg (show ¬ (true, b).1 = false by simp)]
        have hinside : (view p.core b).off + (view p.core b).buf.length + data.length + 1 ≤
            (view p.core b).cap ↔ b.off + b.size + data.length + 1 ≤ b.capacity := by
          rw [show (view p.core b).buf.length = b.size from unparsed_length hkept.sound]
          rfl
        -- where the piece does not fit behind the bytes, both leave the block
        by_cases hfits : b.off + b.size + data.length + 1 ≤ b.capacity
        · obtain ⟨d, hd, hoff, _, hcap, hun⟩ := copyIn_spec hfits
          have hsound := copyIn_sound hkept.sound hd
          rw [if_neg (Nat.not_lt.mpr (hinside.mpr hfits)), hd, bind_some]
          dsimp only [view]
          simp only [← hun, ← hoff, ← hcap]
          obtain ⟨r, hr, hparses⟩ := doParse_parses cfg hcb p.core (v := d.unparsed)
            (by rw [hun]; simp [length_eq_zero_iff.not.mp hzero])
          show _ = Option.map _ ((Http.scan cb cfg _ p.core d.unparsed).bind _)
          rw [Http.scan]
          by_cases hscan : (alloc HttpParser.sizeofScannerChunk).isSome = false
          · rw [if_pos hscan, if_pos hscan]
            rfl
          · rw [if_neg hscan, if_neg hscan, hr]
            dsimp only [Option.map_some, bind_some]
            by_cases hfail : r.code = -1
            · simp only [if_pos hfail]
              rfl
            · simp only [if_neg hfail]
              by_cases hwait : r.code = -2 ∧ d.unparsed.length - r.rest.length = 0
              · simp only [if_pos hwait]
                split
                · rfl
                · rfl
              · simp only [if_neg hwait]
                obtain ⟨b', hb', -⟩ := advance_spec hsound
                  ((Nat.sub_le d.unparsed.length r.rest.length).trans (unparsed_length hsound).le)
                rw [hb']
                exact congrArg (fun q => some (_, q))
                  (advance_view r.core hsound (parses_suffix hparses) hb')
        · rw [if_pos (Nat.lt_of_not_le fun hle => hfits (hinside.mp hle)), copyIn_none hfits]
          rfl

/- `feed` over the lists. -/
def feedView (cb : Event → ℤ) (cfg : Config) (q : HttpParser.Parser) (piece : Pool × Bytes) :
    Option HttpParser.Parser :=
  (HttpParser.execute (fun n => (piece.1 n).isSome) cb cfg q piece.2).map fun r => r.2.1

theorem feed_view {cb : Event → ℤ} (hcb : ∀ e, cb e = 0) (cfg : Config) (p : Parser Core)
    (piece : Pool × Bytes) (h : Sound Http.limits p.buffer)
    (hlen : piece.2.length + bufMax + 1 < sizeMod) :
    feedView cb cfg p.view piece = (feed (Http.kind cb cfg) p piece).map Parser.view := by
  have hcall := congrArg (Option.map Prod.snd) (execute_view hcb cfg piece.1 p h hlen)
  rw [Option.map_map, Option.map_map] at hcall
  rw [feedView, feed, Option.map_map]
  exact hcall

/-- A run of calls on the block is the run on the lists, also where it leaves the block, and
behind it the next call answers the same. -/
theorem runs_refine {cb : Event → ℤ} (hcb : ∀ e, cb e = 0) (cfg : Config)
    {pieces : List (Pool × Bytes)}
    (hpieces : ∀ piece ∈ pieces, piece.2.length + bufMax + 1 < sizeMod) (alloc : Pool)
    (hlen : data.length + bufMax + 1 < sizeMod) :
    Run.exec (feedView cb cfg) {} pieces =
        (Run.exec (feed (Http.kind cb cfg)) { core := {} } pieces).map Parser.view ∧
      ∀ p, Run.exec (feed (Http.kind cb cfg)) { core := {} } pieces = some p →
        (HttpParser.execute (fun n => (alloc n).isSome) cb cfg p.view data).map
            (fun r => (r.1, r.2.1)) =
          (execute (Http.kind cb cfg) alloc p data).map fun r => (r.1, r.2.view) := by
  constructor
  · exact Run.exec_map (s := (⟨{}, {}⟩ : Parser Core)) (feed_sound (Http.kind cb cfg))
      (feed_view hcb cfg) (fresh_sound _) hpieces
  · intro p hrun
    exact execute_view hcb cfg alloc p (run_sound hrun) hlen

theorem get_refines : ∃ p, Run.exec (feed (Http.kind quiet {})) { core := {} } [(pool, get)] = some p ∧
    (HttpParser.execute (fun n => (pool n).isSome) quiet {} p.view get).map (fun r => (r.1, r.2.1)) =
      (execute (Http.kind quiet {}) pool p get).map fun r => (r.1, r.2.view) := by
  obtain ⟨p, hp, _⟩ := map_eq_some_iff.mp get_spends
  exact ⟨p, hp, (@runs_refine get quiet quiet_eq {} [(pool, get)] (by decide) pool (by decide)).2 p hp⟩

end Voxlib.InBuffer
