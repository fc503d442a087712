import Voxlib.Http.Parser.Pieces

/-!
# The requests of a connection (vox_http_server.c)

The read callback takes what the parser has consumed off the front of what it has
read, which waits in a buffer while a response is not written. `keeps` is the
decision of vox_http_should_keep_alive; `taken` and `received` count bytes.
-/

namespace Voxlib.HttpStream
open CStr HttpParser List Option

variable {alloc : ℕ → Bool} {cfg : Config}

structure Request where
  method : Method
  httpMajor : ℤ
  httpMinor : ℤ
  upgrade : Bool
  fields : List Event
  body : Bytes
  deriving DecidableEq

def Request.of (c : Core) (es : List Event) : Request :=
  ⟨c.method, c.httpMajor, c.httpMinor, c.upgrade, withoutBody es, bodyOf es⟩

/- `waits` is write_pending or deferred_pending. -/
structure Conn where
  parser : Parser := {}
  request : List Event := []
  pendingIn : Bytes := []
  waits : Bool := false
  shouldCloseAfterWrite : Bool := false
  closing : Bool := false
  handled : List Request := []
  taken : Bytes := []
  received : Bytes := []

/- vox_http_on_message_begin forgets what there is of a request. -/
def collect (request : List Event) (es : List Event) : List Event :=
  es.foldl (fun request e => if e = .messageBegin then [e] else request ++ [e]) request

def callbacks (keeps : Request → Bool) (s : Conn) (es : List Event) : Conn :=
  let request := collect s.request es
  if .messageComplete ∈ es then
    let handed := Request.of s.parser.core request
    { s with
      request := request
      waits := true
      shouldCloseAfterWrite := !keeps handed
      handled := s.handled ++ [handed] }
  else { s with request := request }

/- The loop of vox_http_tcp_read_cb (vox_http_server.c:657-674) and of vox_http_drain_pending, with
   what is left and whether it was left by a break. `none` when `left` goes below zero or the parser
   writes past its buffer. -/
def feedLoop (alloc : ℕ → Bool) (cfg : Config) (keeps : Request → Bool) :
    ℕ → Conn → Bytes → Option (Conn × Bytes × Bool)
  | 0, _, _ => none
  | fuel + 1, s, data =>
    if data.length = 0 ∨ s.waits = true then some (s, data, false)
    else
      match execute alloc quiet cfg s.parser data with
      | none => none
      | some (n, p, es) =>
        let t := callbacks keeps { s with parser := p } es
        if n < 0 then some ({ t with closing := true }, data, true)
        else if n = 0 then some (t, data, true)
        else if n.toNat > data.length then none
        else
          feedLoop alloc cfg keeps fuel
            { t with taken := t.taken ++ (s.parser.buf ++ data).take n.toNat } (data.drop n.toNat)

/- What is read waits, or is given to the parser (vox_http_server.c:648-674). -/
def takeIn (alloc : ℕ → Bool) (cfg : Config) (keeps : Request → Bool) (s : Conn) (data : Bytes) :
    Option Conn :=
  if s.waits = true then some { s with pendingIn := s.pendingIn ++ data }
  else
    (feedLoop alloc cfg keeps (data.length + 1) s data).map fun r =>
      if r.2.2 = false ∧ r.1.waits = true ∧ 0 < r.2.1.length then
        { r.1 with pendingIn := r.1.pendingIn ++ r.2.1 }
      else r.1

-- vox_http_tcp_read_cb (vox_http_server.c:638-675)
def readCb (alloc : ℕ → Bool) (cfg : Config) (keeps : Request → Bool) (s : Conn) (data : Bytes) :
    Option Conn :=
  if s.closing = true then some s
  else if data.length = 0 then some { s with closing := true }
  else takeIn alloc cfg keeps { s with received := s.received ++ data } data

-- vox_http_parser_reset (vox_http_parser.c:665-685)
def reset (p : Parser) : Parser := { p with core := {}, off := 0, buf := [] }

-- vox_http_drain_pending (vox_http_server.c:507-534)
def drainPending (alloc : ℕ → Bool) (cfg : Config) (keeps : Request → Bool) (s : Conn) :
    Option Conn :=
  if s.waits = true ∨ s.pendingIn.length = 0 then some s
  else
    (feedLoop alloc cfg keeps (s.pendingIn.length + 1) s s.pendingIn).map fun r =>
      { r.1 with pendingIn := r.2.1 }

/- vox_http_tcp_write_done (vox_http_server.c:536-593) for a response that was written; there is
   none unless a write is pending. -/
def writeDone (alloc : ℕ → Bool) (cfg : Config) (keeps : Request → Bool) (s : Conn) : Option Conn :=
  if s.waits = false then none
  else if s.shouldCloseAfterWrite = true then some { s with waits := false, closing := true }
  else
    drainPending alloc cfg keeps
      { s with waits := false, parser := reset s.parser, request := [] }

inductive Action where
  | read (data : Bytes)
  | writeDone

def step (alloc : ℕ → Bool) (cfg : Config) (keeps : Request → Bool) (s : Conn) :
    Action → Option Conn
  | .read data => readCb alloc cfg keeps s data
  | .writeDone => writeDone alloc cfg keeps s

def IsRequest (cfg : Config) (w : Bytes) : Prop :=
  ∀ y, ∃ r, doParse quiet cfg {} (w ++ y) = some r ∧ r.code = 0 ∧ r.rest = y

def wholeRequest (cfg : Config) (w : Bytes) : Option Request :=
  (doParse quiet cfg {} w).map fun r => Request.of r.core r.events

/- The bytes that were consumed, those that the parser has kept and those that wait are those that
   were read, each of them once. -/
def Conn.AccountsAgree (s : Conn) : Prop :=
  s.taken ++ ((if s.waits = true then [] else s.parser.buf) ++ s.pendingIn) = s.received

/- The requests are handled once and in order, none of them is lost, and no byte is given twice. -/
structure Served (cfg : Config) (ws : List Bytes) (s : Conn) : Prop where
  accounts : s.AccountsAgree
  isOpen : s.closing = false
  inOrder : s.handled <+: ws.filterMap (wholeRequest cfg)
  all : s.received = ws.flatten → s.waits = false → s.handled = ws.filterMap (wholeRequest cfg)

/- The passes of the parser take the bytes to their end: they end behind the request line, in the
   body, or behind a line or in the data of a chunk. -/
inductive Lined (cfg : Config) : Core → Bytes → Prop
  | stop {c : Core} (h : Starved c []) : Lined cfg c []
  | goes {c c' : Core} {v rest : Bytes} {es : List Event} (hg : Goes cfg c v c' es rest)
    (h : Lined cfg c' rest) : Lined cfg c v

def StreamCut (cfg : Config) : List Bytes → Bytes → Prop
  | [], v => v = []
  | w :: ws, v => v = [] ∨ (∃ v', v = w ++ v' ∧ StreamCut cfg ws v') ∨
    (v <+: w ∧ v ≠ w ∧ Lined cfg {} v)

/- A read ends between lines, and what the parser is given fits its buffer. -/
def ActionOk (cfg : Config) (ws : List Bytes) (s : Conn) : Action → Prop
  | .read data => data ≠ [] ∧ StreamCut cfg ws (s.received ++ data) ∧
    (s.waits = false → data.length < capMax ∧ ¬ Overruns s.parser data.length)
  | .writeDone => s.waits = true ∧ s.pendingIn.length < capMax

theorem Lined.parses {c : Core} {v : Bytes} (h : Lined cfg c v) :
    ∃ c' es, Parses cfg c v (.more c' es []) ∧ Starved c' [] := by
  induction h with
  | stop h => exact ⟨_, [], .ends (.starved h), h⟩
  | goes hg _ ih =>
    obtain ⟨c', es, hp, hs⟩ := ih
    exact ⟨c', _, .goes hg hp, hs⟩

structure Follows (es : List Event) (r₂ r' : Result) : Prop where
  code : r'.code = r₂.code
  core : r'.core = r₂.core
  leaves : Leaves r₂ r'
  events : Alike r'.events (es ++ r₂.events)

theorem Follows.prepend {es : List Event} {r₂ r' : Result} (h : Follows es r₂ r')
    (fs : List Event) : Follows (fs ++ es) r₂ (r'.prepend fs) := by
  refine ⟨h.code, h.core, h.leaves, ?_⟩
  rw [append_assoc]
  exact (Alike.refl fs).append h.events

/-- Behind whole passes the parser goes on as if it had been given everything at once. -/
theorem Lined.append {c c' : Core} {v x : Bytes} {es : List Event} {r₂ : Result}
    (h : Lined cfg c v) (hv : Parses cfg c v (.more c' es [])) (hx : x ≠ [])
    (hr : Parses cfg c' x r₂) : ∃ r', Parses cfg c (v ++ x) r' ∧ Follows es r₂ r' := by
  induction h generalizing es with
  | stop hs =>
    have hmore := parses_unique hv (.ends (.starved hs))
    obtain ⟨rfl, rfl⟩ : c' = _ ∧ es = [] := by
      constructor
      · exact congrArg Result.core hmore
      · exact congrArg Result.events hmore
    exact ⟨r₂, hr, rfl, rfl, ⟨rfl, rfl⟩, Alike.refl _⟩
  | goes hg hl ih =>
    obtain ⟨c'', es', hp, hs⟩ := hl.parses
    have hmore := parses_unique hv (.goes hg hp)
    obtain ⟨rfl, rfl⟩ : c' = c'' ∧ es = _ ++ es' := by
      constructor
      · exact congrArg Result.core hmore
      · exact congrArg Result.events hmore
    cases goes_append hg x with
    | inl hgo =>
      obtain ⟨r', hr', hf⟩ := ih hp
      exact ⟨_, .goes hgo hr', hf.prepend _⟩
    | inr hsw =>
      obtain ⟨hswallow, rfl, rfl⟩ := hsw
      have hend := parses_unique hp (.ends (.starved (swallows_starved hswallow)))
      obtain ⟨rfl, rfl⟩ : c' = _ ∧ es' = [] := by
        constructor
        · exact congrArg Result.core hend
        · exact congrArg Result.events hend
      obtain ⟨r₃, r', hr₃, hr', ⟨hcode, hcore, hev⟩, hleaves⟩ :=
        @swallows_merged cfg _ _ _ x hswallow hx
      obtain rfl := parses_unique hr₃ hr
      exact ⟨r', hr', hcode, hcore, hleaves, hev⟩

theorem parses_kept {c : Core} {v : Bytes} {r : Result} (h : Parses cfg c v r)
    (hcode : r.code = 0) : r.dropped = none := by
  induction h with
  | ends he =>
    cases he with
    | lost => cases hcode
    | _ => rfl
  | goes _ _ ih => exact ih hcode

theorem IsRequest.ne_nil {w : Bytes} (h : IsRequest cfg w) : w ≠ [] := by
  rintro rfl
  obtain ⟨r, hr, hcode, _⟩ := h []
  rw [nil_append, doParse, if_pos length_nil] at hr
  rw [← some.inj hr] at hcode
  cases hcode

theorem IsRequest.parses {w : Bytes} (h : IsRequest cfg w) (y : Bytes) :
    ∃ r, Parses cfg {} (w ++ y) r ∧ r.code = 0 ∧ r.rest = y := by
  obtain ⟨r, hr, hcode, hrest⟩ := h y
  have hne : w ++ y ≠ [] := fun hnil => h.ne_nil (append_eq_nil_iff.mp hnil).1
  obtain ⟨r', hr', hparses⟩ := doParse_parses cfg quiet_eq {} hne
  rw [hr] at hr'
  obtain rfl := some.inj hr'
  exact ⟨r, hparses, hcode, hrest⟩

theorem IsRequest.whole {w : Bytes} (h : IsRequest cfg w) {y : Bytes} {r : Result}
    (hr : Parses cfg {} (w ++ y) r) {es : List Event} (hes : Alike r.events es) :
    r.code = 0 ∧ r.rest = y ∧ wholeRequest cfg w = some (Request.of r.core es) := by
  obtain ⟨r', hr', hcode, hrest⟩ := h.parses y
  obtain rfl := parses_unique hr hr'
  refine ⟨hcode, hrest, ?_⟩
  obtain ⟨r₀, hr₀, hcode₀, hrest₀⟩ := h []
  rw [append_nil] at hr₀
  obtain ⟨r₁, hr₁, hparses⟩ := doParse_parses cfg quiet_eq {} h.ne_nil
  rw [hr₀] at hr₁
  obtain rfl := some.inj hr₁
  obtain ⟨r₂, hr₂, hcont⟩ := parses_append hparses (parses_kept hparses hcode₀) y
  obtain rfl := parses_unique hr hr₂
  have hsame : r.core = r₀.core ∧ Alike r.events r₀.events := by
    cases hcont with
    | failed hfail => rw [hcode₀] at hfail; cases hfail
    | completed _ _ hcore hev => exact ⟨hcore, hev⟩
    | resumed hmore => rw [hcode₀] at hmore; cases hmore
  obtain ⟨hcore, hev⟩ := hsame
  have halike := hes.symm.trans hev
  rw [wholeRequest, hr₀, map_some, Request.of, Request.of, ← hcore, ← halike.1, ← halike.2]

theorem collect_append {es : List Event} (h : es.count .messageBegin = 0) (request : List Event) :
    collect request es = request ++ es := by
  induction es generalizing request with
  | nil => exact (append_nil request).symm
  | cons e es ih =>
    rw [count_eq_zero, mem_cons, not_or] at h
    obtain ⟨hne, hes⟩ := h
    have hkeep : ¬ e = .messageBegin := fun h => hne h.symm
    unfold collect at ih ⊢
    rw [foldl_cons, if_neg hkeep, ih (count_eq_zero.mpr hes), append_assoc]
    rfl

theorem collect_first {c : Core} {v : Bytes} {r : Result} (h : Parses cfg c v r)
    (hp : c.phase = .init) (herr : c.hasError = false) (request : List Event) :
    collect request r.events = r.events := by
  cases h with
  | ends he =>
    cases he with
    | starved hs => exact absurd hp (starved_ready hs herr).2
    | lost hin => exact absurd hp (inHeaders_ne_init hin)
    | failed hf =>
      cases hf with
      | start hp' => rw [hp] at hp'; cases hp'
      | headers hin => exact absurd hp (inHeaders_ne_init hin)
      | chunkSize hp' => rw [hp] at hp'; cases hp'
    | completed hc =>
      cases hc with
      | headers hin => exact absurd hp (inHeaders_ne_init hin)
      | bodyNone hp' => rw [hp] at hp'; cases hp'
      | body hp' => rw [hp] at hp'; cases hp'
      | lastChunk hp' => rw [hp] at hp'; cases hp'
    | halted hh => simp [Core.halted, hp] at hh
  | goes hg hr =>
    obtain ⟨herr', hinit, hrun, -⟩ := goes_outcome hg
    have hcount := (parses_outcome hr (herr'.trans herr) hrun).begins
    rw [if_neg hinit] at hcount
    cases hg with
    | begin => exact collect_append hcount [.messageBegin]
    | start hp' => rw [hp] at hp'; cases hp'
    | headersChunked hin => exact absurd hp (inHeaders_ne_init hin)
    | headersBody hin => exact absurd hp (inHeaders_ne_init hin)
    | bodyPart hp' => rw [hp] at hp'; cases hp'
    | chunk hp' => rw [hp] at hp'; cases hp'
    | chunkNone hp' => rw [hp] at hp'; cases hp'
    | chunkAll hp' => rw [hp] at hp'; cases hp'
    | chunkPart hp' => rw [hp] at hp'; cases hp'
    | chunkNext hp' => rw [hp] at hp'; cases hp'

structure Begun (cfg : Config) (u : Bytes) (s : Conn) : Prop where
  none : u = [] → s.parser.core = {} ∧ s.request = []
  some : u ≠ [] → Lined cfg {} u ∧
    ∃ es, Parses cfg {} u (.more s.parser.core es []) ∧ Alike es s.request

theorem Begun.ready {u : Bytes} {s : Conn} (h : Begun cfg u s) : s.parser.core.Ready := by
  by_cases hu : u = []
  · rw [(h.none hu).1]
    exact core_ready
  · obtain ⟨-, es, hp, -⟩ := h.some hu
    rcases (parses_outcome hp core_ready.noError core_ready.running).codes with hc | hc | hc
    · cases hc.1
    · exact hc.2
    · cases hc.1

theorem Begun.parses {u d : Bytes} {s : Conn} (h : Begun cfg u s) (hd : d ≠ []) {r : Result}
    (hr : Parses cfg s.parser.core d r) :
    ∃ r', Parses cfg {} (u ++ d) r' ∧ r'.code = r.code ∧ r'.core = r.core ∧ r'.rest = r.rest ∧
      Alike r'.events (collect s.request r.events) := by
  by_cases hu : u = []
  · obtain ⟨hcore, hreq⟩ := h.none hu
    rw [hcore] at hr
    refine ⟨r, by rwa [hu], rfl, rfl, rfl, ?_⟩
    rw [collect_first hr rfl rfl]
    exact Alike.refl _
  · obtain ⟨hl, es, hp, hev⟩ := h.some hu
    obtain ⟨r', hr', hf⟩ := hl.append hp hd hr
    refine ⟨r', hr', hf.code, hf.core, hf.leaves.1, ?_⟩
    obtain ⟨c', es', hp', hs⟩ := hl.parses
    have hcore : s.parser.core = c' := congrArg Result.core (parses_unique hp hp')
    have hphase : s.parser.core.phase ≠ .init := by
      rw [hcore]
      exact (starved_ready hs (hcore ▸ h.ready.noError)).2
    have hcount := (parses_outcome hr h.ready.noError h.ready.running).begins
    rw [if_neg hphase] at hcount
    rw [collect_append hcount]
    exact hf.events.trans (hev.append (Alike.refl _))

theorem execute_reads (halloc : ∀ n, alloc n = true) {p : Parser} {d : Bytes} {r : Result}
    (hready : p.core.Ready) (hbuf : p.buf = []) (hcap : CapOk p) (hd : d ≠ [])
    (hlen : d.length < capMax) (hroom : ¬ Overruns p d.length) (hr : Parses cfg p.core d r)
    (hcode : r.code ≠ -1) (hshort : r.rest.length < d.length) :
    ∃ q, execute alloc quiet cfg p d = some (((d.length - r.rest.length : ℕ) : ℤ), q, r.events) ∧
      q.core = r.core ∧ q.buf = r.rest ∧ CapOk q := by
  have hphase : p.core.phase ≠ .error := fun h => hready.running (.inr (.inr h))
  have hwant : p.buf.length + d.length + 1 ≤ capMax := by
    rw [hbuf, length_nil]
    omega
  obtain ⟨p₁, hensure, hmakes⟩ := ensureBuf_room halloc hcap hwant hroom
  have hwhole : p.buf ++ d = d := by
    rw [hbuf, nil_append]
  obtain ⟨r', hr', hparses⟩ := doParse_parses cfg quiet_eq p.core hd
  obtain rfl := parses_unique hparses hr
  rw [← hwhole] at hr'
  have hexec := execute_eq halloc hready.noError hphase hd hensure hmakes hr' hcode
    (fun _ => by rwa [hwhole])
  rw [hwhole] at hexec
  obtain ⟨hb, hc, hcap'⟩ := advance_buf { p₁ with core := r'.core, buf := d } r'.rest
    (Nat.sub_pos_of_lt hshort)
  refine ⟨_, hexec, hc, hb, ?_⟩
  unfold CapOk
  rw [hcap']
  exact hmakes.2.2.1

structure Kept (s t : Conn) : Prop where
  closing : t.closing = s.closing
  pendingIn : t.pendingIn = s.pendingIn
  received : t.received = s.received

theorem callbacks_more {keeps : Request → Bool} {s : Conn} {es : List Event}
    (h : es.count .messageComplete = 0) :
    callbacks keeps s es = { s with request := collect s.request es } :=
  if_neg (count_eq_zero.mp h)

theorem callbacks_complete {keeps : Request → Bool} {s : Conn} {es : List Event}
    (h : es.count .messageComplete = 1) : callbacks keeps s es = { s with
      request := collect s.request es
      waits := true
      shouldCloseAfterWrite := !keeps (Request.of s.parser.core (collect s.request es))
      handled := s.handled ++ [Request.of s.parser.core (collect s.request es)] } :=
  if_pos (count_pos_iff.mp (by omega))

theorem feedLoop_end {keeps : Request → Bool} {s : Conn} {data : Bytes} {fuel : ℕ}
    (hfuel : 0 < fuel) (h : data.length = 0 ∨ s.waits = true) :
    feedLoop alloc cfg keeps fuel s data = some (s, data, false) := by
  obtain ⟨fuel, rfl⟩ := Nat.exists_eq_add_one_of_ne_zero (Nat.ne_of_gt hfuel)
  rw [feedLoop, if_pos h]

theorem feedLoop_round {keeps : Request → Bool} {s : Conn} {d : Bytes} {q : Parser}
    {es : List Event} {k : ℕ} (fuel : ℕ) (hwaits : s.waits = false) (hd : d ≠ [])
    (hexec : execute alloc quiet cfg s.parser d = some ((k : ℤ), q, es)) (hpos : 0 < k)
    (hle : k ≤ d.length) : feedLoop alloc cfg keeps (fuel + 1) s d = feedLoop alloc cfg keeps fuel
        { callbacks keeps { s with parser := q } es with
          taken := (callbacks keeps { s with parser := q } es).taken ++
            (s.parser.buf ++ d).take k } (d.drop k) := by
  have hlen : d.length ≠ 0 := fun h => hd (length_eq_zero_iff.mp h)
  rw [feedLoop, if_neg (by simp [hlen, hwaits]), hexec]
  dsimp only
  rw [if_neg (by omega), if_neg (by omega), Int.toNat_natCast, if_neg (by omega)]

structure Idle (cfg : Config) (u : Bytes) (s : Conn) : Prop where
  waits : s.waits = false
  buf : s.parser.buf = []
  cap : CapOk s.parser
  begun : Begun cfg u s

theorem feed_part (halloc : ∀ n, alloc n = true) (keeps : Request → Bool) {u d : Bytes} {s : Conn}
    (h : Idle cfg u s) (hd : d ≠ []) (hlen : d.length < capMax)
    (hroom : ¬ Overruns s.parser d.length) (hl : Lined cfg {} (u ++ d)) :
    ∃ t, feedLoop alloc cfg keeps (d.length + 1) s d = some (t, [], false) ∧ Kept s t ∧
      t.handled = s.handled ∧ t.taken = s.taken ++ d ∧ Idle cfg (u ++ d) t := by
  obtain ⟨r, hr⟩ := parses_total cfg s.parser.core d
  obtain ⟨r', hr', hcode, hcore, hrest, hev⟩ := h.begun.parses hd hr
  obtain ⟨c', es', hp, hs⟩ := hl.parses
  obtain rfl := parses_unique hr' hp
  have hmore : r.code = -2 := hcode.symm
  have hnone : r.rest = [] := hrest.symm
  have hpos : 0 < d.length := length_pos_iff.mpr hd
  obtain ⟨q, hexec, hqcore, hqbuf, hqcap⟩ := execute_reads halloc h.begun.ready h.buf h.cap hd hlen
    hroom hr (by rw [hmore]; decide) (by rw [hnone]; exact hpos)
  have hcount := (parses_outcome hr h.begun.ready.noError h.begun.ready.running).completes
  rw [if_neg (by rw [hmore]; decide)] at hcount
  rw [hnone, length_nil, Nat.sub_zero] at hexec
  have hround := @feedLoop_round alloc cfg keeps s d q r.events d.length d.length h.waits hd hexec
    hpos le_rfl
  rw [callbacks_more hcount, h.buf, nil_append, take_length, drop_length] at hround
  refine ⟨_, hround.trans (feedLoop_end hpos (.inl rfl)), ⟨rfl, rfl, rfl⟩, rfl, rfl, h.waits,
    hqbuf.trans hnone, hqcap, ?_, ?_⟩
  · intro hnil
    exact absurd (append_eq_nil_iff.mp hnil).2 hd
  · intro _
    have hqc : q.core = c' := hqcore.trans hcore.symm
    refine ⟨hl, es', ?_, hev⟩
    dsimp only
    rw [hqc]
    exact hp

/-- The end of a request: it is handled, and what is behind it is left. -/
theorem feed_request (halloc : ∀ n, alloc n = true) (keeps : Request → Bool) {u x y : Bytes}
    {s : Conn} (h : Idle cfg u s) (hx : x ≠ []) (hlen : (x ++ y).length < capMax)
    (hroom : ¬ Overruns s.parser (x ++ y).length) (hw : IsRequest cfg (u ++ x)) :
    ∃ t handed, feedLoop alloc cfg keeps ((x ++ y).length + 1) s (x ++ y) = some (t, y, false) ∧
      Kept s t ∧ wholeRequest cfg (u ++ x) = some handed ∧ t.handled = s.handled ++ [handed] ∧
      t.taken = s.taken ++ x ∧ t.waits = true ∧ t.shouldCloseAfterWrite = !keeps handed ∧
      CapOk t.parser := by
  have hd : x ++ y ≠ [] := fun hnil => hx (append_eq_nil_iff.mp hnil).1
  have hxpos : 0 < x.length := length_pos_iff.mpr hx
  have hxy : (x ++ y).length = x.length + y.length := length_append
  obtain ⟨r, hr⟩ := parses_total cfg s.parser.core (x ++ y)
  obtain ⟨r', hr', hcode, hcore, hrest, hev⟩ := h.begun.parses hd hr
  rw [← append_assoc] at hr'
  obtain ⟨hdone, hleft, hwhole⟩ := hw.whole hr' hev
  rw [hcode] at hdone
  rw [hrest] at hleft
  rw [hcore] at hwhole
  obtain ⟨q, hexec, hqcore, hqbuf, hqcap⟩ := execute_reads halloc h.begun.ready h.buf h.cap hd hlen
    hroom hr (by rw [hdone]; decide) (by rw [hleft]; omega)
  have hcount := (parses_outcome hr h.begun.ready.noError h.begun.ready.running).completes
  rw [if_pos hdone] at hcount
  have hk : (x ++ y).length - r.rest.length = x.length := by
    rw [hleft]
    omega
  rw [hk] at hexec
  have hround := @feedLoop_round alloc cfg keeps s (x ++ y) q r.events x.length (x ++ y).length
    h.waits hd hexec hxpos (by omega)
  rw [callbacks_complete hcount, h.buf, nil_append, take_left, drop_left] at hround
  dsimp only at hround
  rw [hqcore] at hround
  exact ⟨_, _, hround.trans (feedLoop_end (by omega) (.inr rfl)), ⟨rfl, rfl, rfl⟩, hwhole, rfl, rfl,
    rfl, rfl, hqcap⟩

theorem streamCut_behind {w v : Bytes} {ws : List Bytes} (hw : w ≠ [])
    (h : StreamCut cfg (w :: ws) (w ++ v)) : StreamCut cfg ws v := by
  rcases h with hnil | ⟨v', heq, hcut⟩ | ⟨hpre, hne, -⟩
  · exact absurd (append_eq_nil_iff.mp hnil).1 hw
  · rwa [append_cancel_left heq]
  · have hlen := hpre.length_le
    rw [length_append] at hlen
    have hv : v = [] := length_eq_zero_iff.mp (by omega)
    rw [hv, append_nil] at hne
    exact absurd rfl hne

theorem streamCut_drop {done ws : List Bytes} {v : Bytes} (hdone : ∀ w ∈ done, w ≠ [])
    (h : StreamCut cfg (done ++ ws) (done.flatten ++ v)) : StreamCut cfg ws v := by
  induction done with
  | nil => exact h
  | cons w done ih =>
    rw [cons_append, flatten_cons, append_assoc] at h
    exact ih (fun u hu => hdone u (mem_cons_of_mem w hu))
      (streamCut_behind (hdone w mem_cons_self) h)

def PartOf (ws : List Bytes) (u : Bytes) : Prop :=
  u = [] ∨ ∃ w ws', ws = w :: ws' ∧ u <+: w ∧ u ≠ w

inductive Serving (cfg : Config) (done ws : List Bytes) (s : Conn) : Prop
  | idle {u : Bytes} (h : Idle cfg u s) (hu : PartOf ws u) (hpending : s.pendingIn = [])
    (htaken : s.taken = done.flatten ++ u) (hreceived : s.received = done.flatten ++ u)
  | answering (hwaits : s.waits = true) (hclose : s.shouldCloseAfterWrite = false)
    (hcap : CapOk s.parser) (htaken : s.taken = done.flatten)
    (hreceived : s.received = done.flatten ++ s.pendingIn) (hcut : StreamCut cfg ws s.pendingIn)

structure Inv (cfg : Config) (all : List Bytes) (s : Conn) : Prop where
  isOpen : s.closing = false
  serving : ∃ done ws, all = done ++ ws ∧ s.handled = done.filterMap (wholeRequest cfg) ∧
    Serving cfg done ws s

theorem inv_served {all : List Bytes} {s : Conn} (hall : ∀ w ∈ all, IsRequest cfg w)
    (h : Inv cfg all s) : Served cfg all s := by
  obtain ⟨hopen, done, ws, rfl, hhandled, hserving⟩ := h
  have haccounts : s.AccountsAgree := by
    unfold Conn.AccountsAgree
    cases hserving with
    | idle h _ hpending htaken hreceived =>
      rw [h.waits, if_neg Bool.false_ne_true, h.buf, hpending, htaken, hreceived]
      exact append_nil _
    | answering hwaits _ _ htaken hreceived _ =>
      rw [hwaits, if_pos rfl, nil_append, htaken, hreceived]
  refine ⟨haccounts, hopen, ?_, ?_⟩
  · rw [hhandled, filterMap_append]
    exact prefix_append _ _
  · intro hreceived hwaits
    cases hserving with
    | answering hwaiting =>
      rw [hwaits] at hwaiting
      cases hwaiting
    | idle h hu hpending htaken hread =>
      rename_i u
      rw [hreceived, flatten_append] at hread
      have hrest : ws.flatten = u := append_cancel_left hread
      have hnone : ws = [] := by
        cases ws with
        | nil => rfl
        | cons w ws =>
          have hw := (hall w (mem_append_right done mem_cons_self)).ne_nil
          have hpos := length_pos_iff.mpr hw
          have hlen := congrArg List.length hrest
          rw [flatten_cons, length_append] at hlen
          rcases hu with rfl | ⟨w', ws', heq, hpre, hne⟩
          · rw [length_nil] at hlen
            omega
          · obtain ⟨rfl, rfl⟩ := List.cons.inj heq
            have hle := hpre.length_le
            exact absurd (hpre.eq_of_length (by omega)) hne
      rw [hhandled, hnone, append_nil]

inductive Fed (cfg : Config) (keeps : Request → Bool) (ws : List Bytes) (u d : Bytes)
    (s t : Conn) : Bytes → Prop
  | part (hu : PartOf ws (u ++ d)) (h : Idle cfg (u ++ d) t) (hhandled : t.handled = s.handled)
    (htaken : t.taken = s.taken ++ d) : Fed cfg keeps ws u d s t []
  | request {x y : Bytes} {ws' : List Bytes} {handed : Request} (hws : ws = (u ++ x) :: ws')
    (hd : d = x ++ y) (hcut : StreamCut cfg ws' y)
    (hwhole : wholeRequest cfg (u ++ x) = some handed)
    (hhandled : t.handled = s.handled ++ [handed]) (htaken : t.taken = s.taken ++ x)
    (hwaits : t.waits = true) (hclose : t.shouldCloseAfterWrite = !keeps handed)
    (hcap : CapOk t.parser) : Fed cfg keeps ws u d s t y

theorem feed_stream (halloc : ∀ n, alloc n = true) (keeps : Request → Bool) {ws : List Bytes}
    (hws : ∀ w ∈ ws, IsRequest cfg w) {u d : Bytes} {s : Conn} (h : Idle cfg u s)
    (hu : PartOf ws u) (hd : d ≠ []) (hlen : d.length < capMax)
    (hroom : ¬ Overruns s.parser d.length) (hcut : StreamCut cfg ws (u ++ d)) :
    ∃ t left, feedLoop alloc cfg keeps (d.length + 1) s d = some (t, left, false) ∧ Kept s t ∧
      Fed cfg keeps ws u d s t left := by
  have hne : u ++ d ≠ [] := fun hnil => hd (append_eq_nil_iff.mp hnil).2
  cases ws with
  | nil => exact absurd hcut hne
  | cons w ws =>
    rcases hcut with hnil | ⟨v, heq, hcut⟩ | ⟨hpre, hproper, hl⟩
    · exact absurd hnil hne
    · -- the request ends in these bytes
      have hw := hws w mem_cons_self
      have hshort : u.length < w.length := by
        rcases hu with rfl | ⟨w', ws', hcons, hpre, hproper⟩
        · exact length_pos_iff.mpr hw.ne_nil
        · obtain ⟨rfl, rfl⟩ := List.cons.inj hcons
          exact lt_of_le_of_ne hpre.length_le fun hsame => hproper (hpre.eq_of_length hsame)
      obtain ⟨x, hx⟩ : u <+: w := by
        refine prefix_of_prefix_length_le (prefix_append u d) ?_ (le_of_lt hshort)
        rw [heq]
        exact prefix_append w v
      subst hx
      rw [append_assoc] at heq
      obtain rfl := append_cancel_left heq
      have hxne : x ≠ [] := by
        rintro rfl
        rw [append_nil] at hshort
        exact Nat.lt_irrefl _ hshort
      obtain ⟨t, handed, hloop, hkept, hwhole, hhandled, htaken, hwaits, hclose, hcap⟩ :=
        feed_request halloc keeps h hxne hlen hroom hw
      exact ⟨t, v, hloop, hkept, .request rfl rfl hcut hwhole hhandled htaken hwaits hclose hcap⟩
    · obtain ⟨t, hloop, hkept, hhandled, htaken, hidle⟩ := feed_part halloc keeps h hd hlen hroom hl
      exact ⟨t, [], hloop, hkept, .part (.inr ⟨w, ws, rfl, hpre, hproper⟩) hidle hhandled htaken⟩

theorem fed_serving {keeps : Request → Bool} {done ws : List Bytes} {u d left : Bytes}
    {s t : Conn} (hkeeps : ∀ w ∈ ws, ∀ handed, wholeRequest cfg w = some handed →
      keeps handed = true) (hhandled : s.handled = done.filterMap (wholeRequest cfg))
    (htaken : s.taken = done.flatten ++ u)
    (hread : t.received = done.flatten ++ (u ++ d)) (hpending : t.pendingIn = left)
    (h : Fed cfg keeps ws u d s t left) : ∃ done' ws', done ++ ws = done' ++ ws' ∧
      t.handled = done'.filterMap (wholeRequest cfg) ∧ Serving cfg done' ws' t := by
  cases h with
  | part hu hidle hsame htook =>
    refine ⟨done, ws, rfl, hsame.trans hhandled, .idle hidle hu hpending ?_ hread⟩
    rw [htook, htaken, append_assoc]
  | request hws hd hcut hwhole hsame htook hwaits hclose hcap =>
    rename_i x ws' handed
    subst hws hd
    have hkept := hkeeps _ mem_cons_self handed hwhole
    refine ⟨done ++ [u ++ x], ws', by simp, ?_, .answering hwaits ?_ hcap ?_ ?_ ?_⟩
    · rw [hsame, hhandled, filterMap_append, filterMap_cons_some hwhole]
      rfl
    · rw [hclose, hkept]
      rfl
    · rw [htook, htaken]
      simp
    · rw [hread, hpending]
      simp
    · rwa [hpending]

section Steps

variable (halloc : ∀ n, alloc n = true) (keeps : Request → Bool) {all : List Bytes}
  (hall : ∀ w ∈ all, IsRequest cfg w)
  (hkeeps : ∀ w ∈ all, ∀ handed, wholeRequest cfg w = some handed → keeps handed = true)

include halloc hall hkeeps

theorem read_kept {s : Conn} (h : Inv cfg all s) {d : Bytes} (hok : ActionOk cfg all s (.read d)) :
    ∃ t, readCb alloc cfg keeps s d = some t ∧ Inv cfg all t := by
  obtain ⟨hopen, done, ws, rfl, hhandled, hserving⟩ := h
  obtain ⟨hd, hcut, hroom⟩ := hok
  have hlen : d.length ≠ 0 := fun hnil => hd (length_eq_zero_iff.mp hnil)
  have hdone : ∀ w ∈ done, w ≠ [] := fun w hw => (hall w (mem_append_left ws hw)).ne_nil
  rw [readCb, if_neg (by simp [hopen]), if_neg hlen, takeIn]
  dsimp only
  cases hserving with
  | answering hwaits hclose hcap htaken hreceived hold =>
    rw [if_pos hwaits]
    rw [hreceived, append_assoc] at hcut
    refine ⟨_, rfl, hopen, done, ws, rfl, hhandled, .answering hwaits hclose hcap htaken ?_ ?_⟩
    · dsimp only
      rw [hreceived, append_assoc]
    · exact streamCut_drop hdone hcut
  | idle hidle hu hpending htaken hreceived =>
    rename_i u
    obtain ⟨hfits, hfree⟩ := hroom hidle.waits
    rw [if_neg (by simp [hidle.waits])]
    rw [hreceived, append_assoc] at hcut
    have hidle' : Idle cfg u { s with received := s.received ++ d } :=
      ⟨hidle.waits, hidle.buf, hidle.cap, hidle.begun.none, hidle.begun.some⟩
    obtain ⟨t, left, hloop, hkept, hfed⟩ := feed_stream halloc keeps
      (fun w hw => hall w (mem_append_right done hw)) hidle' hu hd hfits hfree
      (streamCut_drop hdone hcut)
    have hread : t.received = done.flatten ++ (u ++ d) := by
      rw [hkept.received]
      dsimp only
      rw [hreceived, append_assoc]
    have hempty : t.pendingIn = [] := hkept.pendingIn.trans hpending
    rw [hloop, map_some]
    refine ⟨_, rfl, ?_⟩
    have hlater : ∀ w ∈ ws, ∀ handed, wholeRequest cfg w = some handed → keeps handed = true :=
      fun w hw => hkeeps w (mem_append_right done hw)
    dsimp only
    by_cases hwaiting : t.waits = true ∧ 0 < left.length
    · rw [if_pos ⟨rfl, hwaiting⟩]
      refine ⟨hkept.closing.trans hopen, ?_⟩
      cases hfed with
      | part _ hpart => exact absurd hwaiting.2 (Nat.lt_irrefl 0)
      | request hws hd' hcut' hwhole hsame htook hwaits hclose hcap =>
        refine fed_serving hlater hhandled htaken hread ?_
          (.request hws hd' hcut' hwhole hsame htook hwaits hclose hcap)
        dsimp only
        rw [hempty, nil_append]
    · rw [if_neg fun h => hwaiting h.2]
      refine ⟨hkept.closing.trans hopen, fed_serving (s := { s with received := s.received ++ d })
        hlater hhandled htaken hread ?_ hfed⟩
      rw [hempty]
      cases hfed with
      | part => rfl
      | request _ _ _ _ _ _ hwaits _ _ =>
        have hzero : ¬ 0 < left.length := fun hpos => hwaiting ⟨hwaits, hpos⟩
        exact (length_eq_zero_iff.mp (by omega)).symm

theorem writeDone_kept {s : Conn} (h : Inv cfg all s) (hok : ActionOk cfg all s .writeDone) :
    ∃ t, writeDone alloc cfg keeps s = some t ∧ Inv cfg all t := by
  obtain ⟨hopen, done, ws, rfl, hhandled, hserving⟩ := h
  obtain ⟨hwaits, hfits⟩ := hok
  cases hserving with
  | idle hidle =>
    rw [hidle.waits] at hwaits
    cases hwaits
  | answering _ hclose hcap htaken hreceived hcut =>
    obtain ⟨s', hs'⟩ : ∃ s' : Conn, s' =
        { s with waits := false, parser := reset s.parser, request := [] } := ⟨_, rfl⟩
    have hidle : Idle cfg [] s' := by
      rw [hs']
      exact ⟨rfl, rfl, hcap, fun _ => ⟨rfl, rfl⟩, fun hne => absurd rfl hne⟩
    have hpending : s'.pendingIn = s.pendingIn := by rw [hs']
    have hsame : s'.closing = false ∧ s'.handled = done.filterMap (wholeRequest cfg) ∧
        s'.taken = done.flatten ++ [] ∧ s'.received = done.flatten ++ s.pendingIn := by
      rw [hs', append_nil]
      exact ⟨hopen, hhandled, htaken, hreceived⟩
    obtain ⟨hopen', hhandled', htaken', hreceived'⟩ := hsame
    have hroom : ¬ Overruns s'.parser s'.pendingIn.length := by
      rw [hs']
      exact fun hover => Nat.lt_irrefl 0 hover.1
    rw [writeDone, if_neg (by simp [hwaits]), if_neg (by simp [hclose]), ← hs', drainPending]
    by_cases hnone : s.pendingIn = []
    · rw [hpending, if_pos (.inr (by rw [hnone]; rfl))]
      refine ⟨s', rfl, hopen', done, ws, rfl, hhandled', .idle hidle (.inl rfl) ?_ htaken' ?_⟩
      · rw [hpending, hnone]
      · rw [hreceived', hnone]
    · have hlen : s.pendingIn.length ≠ 0 := fun hnil => hnone (length_eq_zero_iff.mp hnil)
      rw [hpending] at hroom
      obtain ⟨t, left, hloop, hkept, hfed⟩ := feed_stream halloc keeps
        (fun w hw => hall w (mem_append_right done hw)) hidle (.inl rfl) hnone hfits hroom hcut
      rw [if_neg (by simp [hidle.waits, hpending, hlen]), hpending, hloop, map_some]
      refine ⟨_, rfl, hkept.closing.trans hopen', ?_⟩
      have hread : t.received = done.flatten ++ ([] ++ s.pendingIn) :=
        hkept.received.trans hreceived'
      have hlater : ∀ w ∈ ws, ∀ handed, wholeRequest cfg w = some handed → keeps handed = true :=
        fun w hw => hkeeps w (mem_append_right done hw)
      dsimp only
      have hfed' : Fed cfg keeps ws [] s.pendingIn s' { t with pendingIn := left } left := by
        cases hfed with
        | part hu hpart hsame htook =>
          exact .part hu ⟨hpart.waits, hpart.buf, hpart.cap, hpart.begun.none, hpart.begun.some⟩
            hsame htook
        | request hws hd' hcut' hwhole hsame htook hwaits hclose hcap =>
          exact .request hws hd' hcut' hwhole hsame htook hwaits hclose hcap
      exact fed_serving (t := { t with pendingIn := left }) hlater hhandled' htaken' hread rfl hfed'

theorem step_kept {s : Conn} {a : Action} (h : Inv cfg all s) (hok : ActionOk cfg all s a) :
    ∃ t, step alloc cfg keeps s a = some t ∧ Inv cfg all t := by
  cases a with
  | read d => exact read_kept halloc keeps hall hkeeps h hok
  | writeDone => exact writeDone_kept halloc keeps hall hkeeps h hok

end Steps

theorem inv_start (all : List Bytes) : Inv cfg all {} := by
  refine ⟨rfl, [], all, rfl, rfl, .idle (u := []) ?_ (.inl rfl) rfl rfl rfl⟩
  exact ⟨rfl, rfl, .inl rfl, fun _ => ⟨rfl, rfl⟩, fun hne => absurd rfl hne⟩

def requestLine : Bytes := lit "GET / HTTP/1.1\r\n"

def get : Bytes := requestLine ++ crlf

theorem get_isRequest : IsRequest {} get := by
  intro y
  obtain ⟨c, hc⟩ : ∃ c, c = { (parseStartLine {} { phase := .startLine }
    (lit "GET / HTTP/1.1")).core with phase := .headerName, headerCount := 0 } := ⟨_, rfl⟩
  have hline : splitLine get = some (lit "GET / HTTP/1.1", crlf) := by decide
  have hbegin : Goes {} {} (get ++ y) { phase := .startLine } [.messageBegin] (get ++ y) :=
    .begin rfl
  have hstart : Goes {} { phase := .startLine } (get ++ y) c
      (parseStartLine {} { phase := .startLine } (lit "GET / HTTP/1.1")).events (crlf ++ y) := by
    rw [hc]
    exact .start rfl (splitLine_append hline y) (by decide)
  have hdone : headers {} c none crlf = .done c [] [] := by
    rw [hc]
    rfl
  have hend : Completes {} c (crlf ++ y) c ([] ++ [Event.headersComplete]) ([] ++ y) :=
    .headers (by rw [hc]; exact .inl rfl) (headers_done_append hdone y) (by rw [hc]; rfl)
      (by rw [hc]; rfl)
  obtain ⟨r, hr, hrules⟩ := doParse_parses {} quiet_eq {} (show get ++ y ≠ [] by simp [get, crlf])
  rw [parses_unique hrules (.goes hbegin (.goes hstart (.ends (.completed hend))))] at hr
  exact ⟨_, hr, rfl, rfl⟩

end Voxlib.HttpStream
