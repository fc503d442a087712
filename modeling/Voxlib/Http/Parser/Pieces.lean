import Voxlib.Http.Parser.Outcome
import Voxlib.Lib.Run

/-!
# A message in pieces

vox_http_parser_execute over the pieces of a message against one call with the
whole message.
-/

namespace Voxlib.HttpParser
open CStr List

def capacities : List ℕ :=
  [4096, 6144, 9216, 13824, 20736, 31104, 46656, 69984, 104976, 157464, 236196, 354294, 531441,
    797161]

def capMax : ℕ := 797161

theorem capacities_next : ∀ cap ∈ capacities, cap = capMax ∨
    (cap + (cap >>> 1) ∈ capacities ∧ cap < cap + (cap >>> 1) ∧ cap + (cap >>> 1) ≤ bufMax) := by
  decide

theorem growCap_grows (want : ℕ) (hwant : want ≤ capMax) (fuel : ℕ) :
    ∀ cap ∈ capacities, 0 < fuel → want < cap + fuel →
      ∃ newCap, growCap fuel cap want = some newCap ∧ newCap ∈ capacities ∧ want ≤ newCap := by
  induction fuel with
  | zero =>
    intro cap _ hpos
    omega
  | succ fuel ih =>
    intro cap hcap _ hlt
    unfold growCap
    by_cases hless : cap < want
    · rw [if_pos hless]
      cases capacities_next cap hcap with
      | inl hmax => omega
      | inr hnext =>
        obtain ⟨hmem, hup, hmax⟩ := hnext
        dsimp only
        rw [if_neg (by omega)]
        exact ih _ hmem (by omega) (by omega)
    · rw [if_neg hless]
      exact ⟨cap, rfl, hcap, by omega⟩

def CapOk (p : Parser) : Prop := p.cap = 0 ∨ p.cap ∈ capacities

/- compact_buf leaves an empty buffer where it is, and the piece does not fit
   behind it although ensure_buf reports that it does. -/
def Overruns (p : Parser) (n : ℕ) : Prop :=
  p.off > 0 ∧ p.buf.length = 0 ∧ p.cap < p.off + n + 1 ∧ n + 1 ≤ p.cap

instance (p : Parser) (n : ℕ) : Decidable (Overruns p n) :=
  inferInstanceAs (Decidable (_ ∧ _))

theorem compactBuf_buf (p : Parser) : (compactBuf p).buf = p.buf ∧ (compactBuf p).core = p.core ∧
    (compactBuf p).cap = p.cap := by
  unfold compactBuf
  split
  · exact ⟨rfl, rfl, rfl⟩
  · exact ⟨rfl, rfl, rfl⟩

variable {p : Parser}

theorem compactBuf_off (h : p.buf.length ≠ 0) : (compactBuf p).off = 0 := by
  unfold compactBuf
  by_cases hoff : p.off = 0
  · rw [if_pos (.inl hoff)]
    exact hoff
  · rw [if_neg (by simp [hoff]; simpa using h)]

def MakesRoom (p : Parser) (n : ℕ) (p₁ : Parser) : Prop :=
  p₁.core = p.core ∧ p₁.buf = p.buf ∧ CapOk p₁ ∧ p₁.off + p₁.buf.length + n + 1 ≤ p₁.cap

theorem growCap_room {n : ℕ} (hcap : CapOk p) (hwant : p.buf.length + n + 1 ≤ capMax) :
    ∃ newCap, growCap (p.buf.length + n + 1 + 1) (if p.cap = 0 then bufInit else p.cap)
        (p.buf.length + n + 1) = some newCap ∧
      MakesRoom p n { p with off := 0, cap := newCap } := by
  have hmem : (if p.cap = 0 then bufInit else p.cap) ∈ capacities := by
    cases hcap with
    | inl h0 =>
      rw [if_pos h0]
      decide
    | inr h =>
      split
      · decide
      · exact h
  obtain ⟨newCap, hgrow, hin, hle⟩ := growCap_grows _ hwant _ _ hmem (Nat.succ_pos _)
    (show p.buf.length + n + 1 < _ + (p.buf.length + n + 1 + 1) by omega)
  exact ⟨newCap, hgrow, rfl, rfl, .inr hin, by dsimp only; omega⟩

theorem ensureBuf_room {alloc : ℕ → Bool} (halloc : ∀ n, alloc n = true) {n : ℕ} (hcap : CapOk p)
    (hwant : p.buf.length + n + 1 ≤ capMax) (hroom : ¬ Overruns p n) :
    ∃ p₁, ensureBuf alloc p n = (true, p₁) ∧ MakesRoom p n p₁ := by
  unfold ensureBuf
  by_cases hfits : p.off + p.buf.length + n + 1 ≤ p.cap
  · rw [if_pos hfits]
    exact ⟨p, rfl, rfl, rfl, hcap, hfits⟩
  · rw [if_neg hfits]
    dsimp only
    obtain ⟨q, hq⟩ : ∃ q, (if p.off > 0 then compactBuf p else p) = q := ⟨_, rfl⟩
    have hsame : q.buf = p.buf ∧ q.core = p.core ∧ q.cap = p.cap := by
      rw [← hq]
      split
      · exact compactBuf_buf p
      · exact ⟨rfl, rfl, rfl⟩
    rw [hq]
    obtain ⟨hbuf, hcore, hqcap⟩ := hsame
    by_cases hmoved : p.off > 0 ∧ q.buf.length + n + 1 ≤ q.cap
    · rw [if_pos hmoved]
      have hne : p.buf.length ≠ 0 := by
        intro hzero
        rw [hbuf, hqcap] at hmoved
        exact hroom ⟨hmoved.1, hzero, by omega, by omega⟩
      have hoff : q.off = 0 := by
        rw [← hq, if_pos hmoved.1]
        exact compactBuf_off hne
      exact ⟨q, rfl, hcore, hbuf, by rw [CapOk, hqcap]; exact hcap, by omega⟩
    · rw [if_neg hmoved]
      have hqok : CapOk q := by
        rw [CapOk, hqcap]
        exact hcap
      obtain ⟨newCap, hgrow, hc, hb, hok, hle⟩ := growCap_room hqok (hbuf.symm ▸ hwant)
      rw [hgrow]
      dsimp only
      rw [if_pos (halloc newCap)]
      exact ⟨_, rfl, hc.trans hcore, hb.trans hbuf, hok, hle⟩

variable {alloc : ℕ → Bool} {cb : Event → ℤ} {cfg : Config}

theorem advance_buf (p : Parser) (rest : Bytes) {consumed : ℕ} (h : 0 < consumed) :
    (advance p rest consumed).buf = rest ∧ (advance p rest consumed).core = p.core ∧
      (advance p rest consumed).cap = p.cap := by
  unfold advance
  rw [if_pos h]
  dsimp only
  split
  · exact compactBuf_buf _
  · exact ⟨rfl, rfl, rfl⟩

theorem advance_zero (p : Parser) (rest : Bytes) : advance p rest 0 = p := rfl

variable {r : Result}

theorem execute_eq (halloc : ∀ n, alloc n = true) {p₁ : Parser} {d : Bytes}
    (herr : p.core.hasError = false) (hphase : p.core.phase ≠ .error) (hne : d ≠ [])
    (hbuf : ensureBuf alloc p d.length = (true, p₁)) (hroom : MakesRoom p d.length p₁)
    (hr : doParse cb cfg p.core (p.buf ++ d) = some r) (hcode : r.code ≠ -1)
    (hprog : r.code = -2 → r.rest.length < (p.buf ++ d).length) :
    execute alloc cb cfg p d = some ((((p.buf ++ d).length - r.rest.length : ℕ) : ℤ),
      advance { p₁ with core := r.core, buf := p.buf ++ d } r.rest
        ((p.buf ++ d).length - r.rest.length), r.events) := by
  obtain ⟨hcore, hsame, _, hle⟩ := hroom
  have hlen : d.length ≠ 0 := fun h => hne (length_eq_zero_iff.mp h)
  unfold execute
  rw [if_neg (by simp [herr, hphase]), if_neg hlen, hbuf]
  dsimp only
  rw [if_neg (by omega), halloc, if_neg (by simp), hcore, hsame, hr]
  dsimp only
  rw [if_neg hcode, if_neg]
  intro hstop
  have := hprog hstop.1
  omega

theorem growCap_bounds {fuel newCap want cap : ℕ} (h : growCap fuel newCap want = some cap) :
    want ≤ cap ∧ cap ≤ max newCap bufMax := by
  induction fuel generalizing newCap with
  | zero => cases h
  | succ fuel ih =>
    rw [growCap] at h
    by_cases hless : newCap < want
    · rw [if_pos hless] at h
      dsimp only at h
      split_ifs at h with hnext
      have hmax := ih h
      omega
    · rw [if_neg hless] at h
      cases h
      omega

theorem ensureBuf_fresh {n : ℕ} {p₁ : Parser} (h : ensureBuf alloc {} n = (true, p₁)) :
    n < bufMax ∧ p₁.core = {} ∧ p₁.buf = [] ∧ p₁.off + p₁.buf.length + n + 1 ≤ p₁.cap := by
  unfold ensureBuf at h
  rw [if_neg (by simp)] at h
  dsimp only at h
  rw [if_neg (by simp)] at h
  cases hgrow : growCap (([] : Bytes).length + n + 1 + 1) (if 0 = 0 then bufInit else 0)
      (([] : Bytes).length + n + 1) with
  | none =>
    rw [if_neg (by simp), hgrow] at h
    cases h
  | some newCap =>
    rw [if_neg (by simp), hgrow] at h
    dsimp only at h
    by_cases hcap : alloc newCap = true
    swap
    · rw [if_neg hcap] at h
      cases h
    rw [if_pos hcap] at h
    cases h
    obtain ⟨hle, hmax⟩ := growCap_bounds hgrow
    have hinit : (if 0 = 0 then bufInit else 0) = 4096 := rfl
    have hbuf : bufMax = 1048576 := rfl
    rw [length_nil] at hle
    refine ⟨by omega, rfl, rfl, ?_⟩
    dsimp only
    rw [length_nil]
    omega

theorem execute_fresh {d : Bytes} (hne : d ≠ []) (hroom : (ensureBuf alloc {} d.length).1 = true)
    (hscan : alloc sizeofScannerChunk = true) (hr : doParse cb cfg {} d = some r)
    (hprog : r.code = -2 → r.rest.length < d.length) : ∃ q, execute alloc cb cfg {} d = some
        (if r.code = -1 then -1 else ((d.length - r.rest.length : ℕ) : ℤ), q,
          r.events ++ if r.code = -1 then [.error r.core.errorMsg] else []) ∧ q.core = r.core := by
  obtain ⟨p₁, hbuf⟩ : ∃ p₁, ensureBuf alloc {} d.length = (true, p₁) :=
    ⟨(ensureBuf alloc {} d.length).2, Prod.ext hroom rfl⟩
  obtain ⟨-, hcore, hnil, hle⟩ := ensureBuf_fresh hbuf
  have hlen : d.length ≠ 0 := fun h => hne (length_eq_zero_iff.mp h)
  unfold execute
  rw [if_neg (by simp), if_neg hlen, hbuf]
  dsimp only
  rw [if_neg (by omega), hscan, if_neg (by simp), hcore, hnil, nil_append, hr]
  dsimp only
  by_cases hfail : r.code = -1
  · rw [if_pos hfail, if_pos hfail, if_pos hfail]
    exact ⟨_, rfl, rfl⟩
  · rw [if_neg hfail, if_neg hfail, if_neg hfail, append_nil, if_neg fun hstop => by
      have := hprog hstop.1
      omega]
    refine ⟨_, rfl, ?_⟩
    generalize d.length - r.rest.length = n
    cases n with
    | zero => rfl
    | succ n => exact (advance_buf _ _ (Nat.succ_pos n)).2.1

def feed (alloc : ℕ → Bool) (cb : Event → ℤ) (cfg : Config) (s : Parser × List Event) (d : Bytes) :
    Option (Parser × List Event) :=
  (execute alloc cb cfg s.1 d).map fun r => (r.2.1, s.2 ++ r.2.2)

def fresh : Parser × List Event := ({}, [])

structure Report where
  method : Method
  httpMajor : ℤ
  httpMinor : ℤ
  statusCode : ℕ
  headers : List Event
  body : Bytes
  begins : ℕ
  completes : ℕ
  hasError : Bool
  deriving DecidableEq, Repr

def report (s : Parser × List Event) : Report where
  method := s.1.core.method
  httpMajor := s.1.core.httpMajor
  httpMinor := s.1.core.httpMinor
  statusCode := s.1.core.statusCode
  headers := s.2.filter Event.isHeader
  body := bodyOf s.2
  begins := s.2.count .messageBegin
  completes := s.2.count .messageComplete
  hasError := s.1.core.hasError

/- do_parse over the whole of it ends one message and leaves no byte. -/
def IsMessage (cfg : Config) (w : Bytes) : Prop :=
  ∃ r, doParse quiet cfg {} w = some r ∧ r.code = 0 ∧ r.rest = []

/- The pieces give what the whole gives, in one message. -/
def SameInPieces (alloc : ℕ → Bool) (cb : Event → ℤ) (cfg : Config) (w : Bytes)
    (pieces : List Bytes) : Prop :=
  ∃ s t, Run.exec (feed alloc cb cfg) fresh [w] = some s ∧
    Run.exec (feed alloc cb cfg) fresh pieces = some t ∧
    report t = report s ∧ (report t).begins = 1 ∧ (report t).completes = 1

/- The piece does not overrun the buffer, and with it there are enough bytes for
   the phase in which the call starts. -/
def PieceOk (s : Parser × List Event) (d : Bytes) : Prop :=
  ¬ Overruns s.1 d.length ∧ CutOk s.1.core (s.1.buf ++ d)

instance (s : Parser × List Event) (d : Bytes) : Decidable (PieceOk s d) :=
  inferInstanceAs (Decidable (_ ∧ _))

inductive Underway (cfg : Config) (r : Result) (s : Parser × List Event) (x : Bytes) : Prop
  | parsing {r₂ : Result} (hx : x ≠ []) (hready : s.1.core.Ready)
    (hp : Parses cfg s.1.core (s.1.buf ++ x) r₂) (hcode : r₂.code = 0) (hcore : r₂.core = r.core)
    (hev : Alike r.events (s.2 ++ r₂.events))
  | complete (hcore : s.1.core = r.core) (hev : Alike r.events s.2)

structure Feeding (cfg : Config) (w : Bytes) (r : Result) (s : Parser × List Event)
    (pieces : List Bytes) : Prop where
  nonempty : ∀ d ∈ pieces, d ≠ []
  bounded : s.1.buf.length + pieces.flatten.length ≤ w.length
  cap : CapOk s.1
  underway : Underway cfg r s pieces.flatten

theorem underway_step {r' : Result} {es : List Event} {d x : Bytes}
    (hr : r.core.hasError = false ∧ r.core.phase = .messageComplete)
    (h : Underway cfg r (p, es) (d ++ x)) (hv : p.buf ++ d ≠ [])
    (hparses : Parses cfg p.core (p.buf ++ d) r') (hcut : CutOk p.core (p.buf ++ d)) :
    r'.code ≠ -1 ∧ (r'.code = -2 → r'.rest.length < (p.buf ++ d).length) ∧
      r'.rest.length ≤ (p.buf ++ d).length ∧
      ∀ p' : Parser, p'.core = r'.core → (r'.code = -2 → p'.buf = r'.rest) →
        Underway cfg r (p', es ++ r'.events) x := by
  cases h with
  | complete hcore hev =>
    dsimp only at hcore hev
    have hhalt : p.core.halted := .inr (.inl (hcore ▸ hr.2))
    rw [parses_unique hparses (.ends (.halted hhalt))]
    refine ⟨by simp, by simp, le_refl _, ?_⟩
    intro p' hp' _
    refine .complete (hp'.trans hcore) ?_
    rw [append_nil]
    exact hev
  | parsing hx hready hp hcode hcore hev =>
    rename_i r₂
    have hprog := cutOk_progress hparses hready hv hcut
    have hout := parses_outcome hparses hready.noError hready.running
    obtain ⟨r'', hr'', hcont⟩ := parses_append hparses hprog.1 x
    rw [append_assoc] at hr''
    have hsame : r'' = r₂ := parses_unique hr'' hp
    subst hsame
    refine ⟨?_, hprog.2, hout.shorter, ?_⟩
    · intro hfail
      cases hcont with
      | failed _ h' => rw [hcode] at h'; cases h'
      | completed h' => rw [hfail] at h'; cases h'
      | resumed h' => rw [hfail] at h'; cases h'
    · intro p' hp' hbuf
      cases hcont with
      | failed _ h' =>
        rw [hcode] at h'
        cases h'
      | completed _ _ hsame hev' =>
        refine .complete (hp'.trans (hsame.symm.trans hcore)) ?_
        exact hev.trans ((Alike.refl es).append hev')
      | resumed hmore hp₃ hcode₃ hcore₃ hev₃ =>
        rename_i r₃
        by_cases hxe : x = []
        · -- without bytes to come the two results are the same one
          subst hxe
          rw [append_nil] at hp
          rw [parses_unique hparses hp, hcode] at hmore
          cases hmore
        · have hready' : r'.core.Ready := by
            rcases hout.codes with hc | hc | hc
            · rw [hmore] at hc
              cases hc.1
            · exact hc.2
            · rw [hmore] at hc
              cases hc.1
          rw [← hp'] at hready' hp₃
          rw [← hbuf hmore] at hp₃
          refine .parsing hxe hready' hp₃ (hcode₃.symm.trans hcode) (hcore₃.symm.trans hcore) ?_
          have happ := (Alike.refl es).append hev₃
          rw [← append_assoc] at happ
          exact hev.trans happ

theorem underway_open {es : List Event} {x : Bytes}
    (hr : r.core.hasError = false ∧ r.core.phase = .messageComplete)
    (h : Underway cfg r (p, es) x) : p.core.hasError = false ∧ p.core.phase ≠ .error := by
  cases h with
  | parsing _ hready _ _ _ _ =>
    exact ⟨hready.noError, fun h => hready.running (.inr (.inr h))⟩
  | complete hcore _ =>
    dsimp only at hcore
    rw [hcore]
    exact ⟨hr.1, by simp [hr.2]⟩

variable {w : Bytes}

theorem feed_step (hcb : ∀ e, cb e = 0) (halloc : ∀ n, alloc n = true) (hlen : w.length < capMax)
    (hr : r.core.hasError = false ∧ r.core.phase = .messageComplete) (s : Parser × List Event)
    (d : Bytes) (ds : List Bytes) (h : Feeding cfg w r s (d :: ds)) (hok : PieceOk s d) :
    ∃ t, feed alloc cb cfg s d = some t ∧ Feeding cfg w r t ds := by
  obtain ⟨p, es⟩ := s
  obtain ⟨hne, hbound, hcap, hway⟩ := h
  rw [flatten_cons] at hbound hway
  rw [length_append] at hbound
  have hd : d ≠ [] := hne d mem_cons_self
  have hds : ∀ d ∈ ds, d ≠ [] := fun d' h' => hne d' (mem_cons_of_mem d h')
  have hv : p.buf ++ d ≠ [] := fun h => hd (append_eq_nil_iff.mp h).2
  have hvlen : (p.buf ++ d).length = p.buf.length + d.length := length_append
  dsimp only at hbound hcap
  have hwant : p.buf.length + d.length + 1 ≤ capMax := by omega
  obtain ⟨p₁, hbuf, hroom⟩ := ensureBuf_room halloc hcap hwant hok.1
  obtain ⟨r', hr', hparses⟩ := doParse_parses cfg hcb p.core hv
  obtain ⟨hcode, hprog, hshort, hnext⟩ := underway_step hr hway hv hparses hok.2
  obtain ⟨herr, hphase⟩ := underway_open hr hway
  have hexec := execute_eq halloc herr hphase hd hbuf hroom hr' hcode hprog
  rw [feed, hexec]
  refine ⟨_, rfl, hds, ?_, ?_, ?_⟩
  · by_cases hzero : (p.buf ++ d).length - r'.rest.length = 0
    · rw [hzero, advance_zero]
      dsimp only
      omega
    · rw [(advance_buf _ _ (Nat.pos_of_ne_zero hzero)).1]
      omega
  · by_cases hzero : (p.buf ++ d).length - r'.rest.length = 0
    · rw [hzero, advance_zero]
      exact hroom.2.2.1
    · unfold CapOk
      rw [(advance_buf _ _ (Nat.pos_of_ne_zero hzero)).2.2]
      exact hroom.2.2.1
  · by_cases hzero : (p.buf ++ d).length - r'.rest.length = 0
    · rw [hzero, advance_zero]
      refine hnext _ rfl ?_
      intro hmore
      have := hprog hmore
      omega
    · obtain ⟨hb, hc, _⟩ := advance_buf { p₁ with core := r'.core, buf := p.buf ++ d } r'.rest
        (Nat.pos_of_ne_zero hzero)
      exact hnext _ hc (fun _ => hb)

theorem filter_withoutBody {f : Event → Bool} (hf : ∀ e, f e = true → e.isBody = false)
    (es : List Event) : (withoutBody es).filter f = es.filter f := by
  unfold withoutBody
  rw [filter_filter]
  apply filter_congr
  intro e _
  cases hfe : f e with
  | false => rfl
  | true => simp [hf e hfe]

theorem report_alike {s t : Parser × List Event} (hcore : t.1.core = s.1.core)
    (hev : Alike s.2 t.2) : report t = report s := by
  have hheaders : t.2.filter Event.isHeader = s.2.filter Event.isHeader := by
    have hb : ∀ e : Event, e.isHeader = true → e.isBody = false := by
      intro e he
      cases e with
      | headerField d => rfl
      | headerValue d => rfl
      | _ => cases he
    rw [← filter_withoutBody hb, ← hev.1, filter_withoutBody hb]
  have hcount : ∀ e : Event, e.isBody = false → t.2.count e = s.2.count e := by
    intro e he
    have hkeep : (!e.isBody) = true := by rw [he]; rfl
    have ht : (withoutBody t.2).count e = t.2.count e := count_filter hkeep
    have hs : (withoutBody s.2).count e = s.2.count e := count_filter hkeep
    rw [← ht, ← hs, hev.1]
  unfold report
  rw [hcore, hheaders, hcount .messageBegin rfl, hcount .messageComplete rfl, hev.2]

theorem isMessage_parses (h : IsMessage cfg w) : w ≠ [] ∧ ∃ r, Parses cfg {} w r ∧ r.code = 0 := by
  obtain ⟨r, hr, hcode, _⟩ := h
  have hne : w ≠ [] := by
    intro hnil
    subst hnil
    rw [doParse, if_pos length_nil] at hr
    rw [← Option.some.inj hr] at hcode
    cases hcode
  obtain ⟨r', hr', hparses⟩ := doParse_parses cfg quiet_eq {} hne
  rw [hr] at hr'
  rw [← Option.some.inj hr'] at hparses
  exact ⟨hne, r, hparses, hcode⟩

theorem core_ready : Core.Ready {} := ⟨rfl, by simp [Core.halted], by simp⟩

theorem message_outcome (hr : Parses cfg {} w r) (hcode : r.code = 0) :
    r.events.count .messageBegin = 1 ∧ r.events.count .messageComplete = 1 ∧
      r.core.hasError = false ∧ r.core.phase = .messageComplete := by
  obtain ⟨hb, hc, _, hcodes⟩ := parses_outcome hr core_ready.noError core_ready.running
  rw [if_pos hcode] at hc
  refine ⟨hb, hc, ?_⟩
  rcases hcodes with h | h | h
  · rw [hcode] at h
    cases h.1
  · rw [hcode] at h
    cases h.1
  · exact h.2

theorem feed_whole (hcb : ∀ e, cb e = 0) (halloc : ∀ n, alloc n = true) (hne : w ≠ [])
    (hlen : w.length < capMax) (hr : Parses cfg {} w r) (hcode : r.code = 0) :
    ∃ s, Run.exec (feed alloc cb cfg) fresh [w] = some s ∧ s.1.core = r.core ∧ s.2 = r.events := by
  have hroom : ¬ Overruns {} w.length := fun h => Nat.lt_irrefl 0 h.1
  have hwant : ([] : Bytes).length + w.length + 1 ≤ capMax := by
    rw [length_nil]
    omega
  obtain ⟨p₁, hbuf, hmakes⟩ := ensureBuf_room halloc (.inl rfl : CapOk {}) hwant hroom
  obtain ⟨r', hr', hparses⟩ := doParse_parses cfg hcb {} hne
  rw [parses_unique hparses hr] at hr'
  have hexec := execute_eq halloc rfl (by simp) hne hbuf hmakes hr'
    (by rw [hcode]; decide) (by rw [hcode]; intro h; cases h)
  refine ⟨_, by rw [Run.exec, feed, fresh, hexec]; rfl, ?_, rfl⟩
  dsimp only
  generalize hn : (([] : Bytes) ++ w).length - r.rest.length = n
  cases n with
  | zero => rfl
  | succ n => exact (advance_buf _ _ (Nat.succ_pos n)).2.1

/-- Feeding a message in pieces that lose nothing is feeding it whole. -/
theorem pieces_same (hcb : ∀ e, cb e = 0) (halloc : ∀ n, alloc n = true) {w : Bytes}
    {pieces : List Bytes} (hw : IsMessage cfg w) (hcut : pieces.flatten = w)
    (hne : ∀ d ∈ pieces, d ≠ []) (hlen : w.length < capMax)
    (hok : Run.Meets (feed alloc cb cfg) PieceOk fresh pieces) :
    SameInPieces alloc cb cfg w pieces := by
  obtain ⟨hwne, r, hr, hcode⟩ := isMessage_parses hw
  obtain ⟨hb, hc, hcore⟩ := message_outcome hr hcode
  obtain ⟨s, hs, hscore, hsev⟩ := feed_whole hcb halloc hwne hlen hr hcode
  have hstart : Feeding cfg w r fresh pieces := by
    refine ⟨hne, ?_, .inl rfl, ?_⟩
    · rw [hcut]
      exact (Nat.zero_add _).le
    · rw [hcut]
      exact .parsing hwne core_ready hr hcode rfl (Alike.refl _)
  obtain ⟨t, ht, hend⟩ := Run.exec_of_meets (feed_step hcb halloc hlen hcore) hstart hok
  cases hend.underway with
  | parsing hx _ _ _ _ _ => exact absurd rfl hx
  | complete htcore hev =>
    have hreport : report t = report s := report_alike (htcore.trans hscore.symm) (hsev ▸ hev)
    refine ⟨s, t, hs, ht, hreport, ?_, ?_⟩
    · rw [hreport, report, hsev]
      exact hb
    · rw [hreport, report, hsev]
      exact hc

def samplePost : List Bytes :=
  [lit "POST /a HTTP/1.1\r\n", lit "Content-Length: 3\r\nA: b\r\n\r\nx", lit "yz"]

theorem samplePost_isMessage : IsMessage {} samplePost.flatten := by
  have hrun : (doParse quiet {} {} samplePost.flatten).map (fun r => (r.code, r.rest)) =
      some (0, []) := by
    decide +kernel
  obtain ⟨r, hr, heq⟩ := Option.map_eq_some_iff.mp hrun
  obtain ⟨hcode, hrest⟩ := Prod.mk.inj heq
  exact ⟨r, hr, hcode, hrest⟩

theorem samplePost_same : SameInPieces (fun _ => true) quiet {} samplePost.flatten samplePost :=
  pieces_same quiet_eq (fun _ => rfl) samplePost_isMessage rfl (by decide) (by decide)
    (by decide +kernel)

def sampleGet : List Bytes := [lit "G", lit "ET / HTTP/1.1\r\n\r\n"]

/- The first call reads no line and goes back to the phase in which it started. -/
theorem sampleGet_begins_twice : IsMessage {} sampleGet.flatten ∧ (∀ d ∈ sampleGet, d ≠ []) ∧
    sampleGet.flatten.length < capMax ∧
    ¬ SameInPieces (fun _ => true) quiet {} sampleGet.flatten sampleGet := by
  have hrun : (doParse quiet {} {} sampleGet.flatten).map (fun r => (r.code, r.rest)) =
      some (0, []) := by
    decide +kernel
  have htwo : (Run.exec (feed (fun _ => true) quiet {}) fresh sampleGet).map
      (fun t => (report t).begins) = some 2 := by
    decide +kernel
  obtain ⟨r, hr, heq⟩ := Option.map_eq_some_iff.mp hrun
  obtain ⟨hcode, hrest⟩ := Prod.mk.inj heq
  refine ⟨⟨r, hr, hcode, hrest⟩, by decide, by decide, ?_⟩
  intro hsame
  obtain ⟨s, t, _, ht, _, hone, _⟩ := hsame
  rw [ht, Option.map_some, hone] at htwo
  cases htwo

end Voxlib.HttpParser
