import Voxlib.Http.Ws

/-!
# Fragments out of turn (vox_http_ws.c)
-/

namespace Voxlib.Http.Ws
open CStr Wire WebSocket Stream List Option

structure ClientFrame where
  fin : Bool
  opcode : UInt8
  payload : Bytes
  key : MaskKey
  low : opcode.toNat < 16
  control : 8 ≤ opcode.toNat → fin = true ∧ payload.length ≤ 125
  fits : (frameBytes fin opcode payload true key).length ≤ 2 ^ 31 - 1

def ClientFrame.bytes (f : ClientFrame) : Bytes := frameBytes f.fin f.opcode f.payload true f.key

/- The message that is open: if it is a text, and the payloads of its frames. -/
abbrev Opened := Option (Bool × List Bytes)

/-- What a frame in its turn does to the open message, and what it leads to. -/
inductive Turn : Opened → ClientFrame → Opened → List Event → Prop
  | ping {o : Opened} {f : ClientFrame} (hop : f.opcode = 0x9) :
      Turn o f o [.write (frameBytes true 0xA f.payload false fun _ => 0)]
  | pong {o : Opened} {f : ClientFrame} (hop : f.opcode = 0xA) : Turn o f o []
  | single {f : ClientFrame} {isText : Bool} (hop : f.opcode = if isText then 0x1 else 0x2)
      (hfin : f.fin = true) (hutf8 : isText = true → validateUtf8 f.payload = true) :
      Turn none f none [.message f.payload isText]
  | opening {f : ClientFrame} {isText : Bool} (hop : f.opcode = if isText then 0x1 else 0x2)
      (hfin : f.fin = false) : Turn none f (some (isText, [f.payload])) []
  | more {f : ClientFrame} {isText : Bool} {parts : List Bytes} (hop : f.opcode = 0x0)
      (hfin : f.fin = false) :
      Turn (some (isText, parts)) f (some (isText, parts ++ [f.payload])) []
  | last {f : ClientFrame} {isText : Bool} {parts : List Bytes} (hop : f.opcode = 0x0)
      (hfin : f.fin = true)
      (hutf8 : isText = true → validateUtf8 (parts ++ [f.payload]).flatten = true) :
      Turn (some (isText, parts)) f none [.message (parts ++ [f.payload]).flatten isText]

inductive Turns : Opened → List ClientFrame → Opened → List Event → Prop
  | nil (o : Opened) : Turns o [] o []
  | cons {o p q : Opened} {f : ClientFrame} {fs : List ClientFrame} {es gs : List Event}
      (h : Turn o f p es) (hs : Turns p fs q gs) : Turns o (f :: fs) q (es ++ gs)

/-- A TEXT or BINARY frame while a message is open, or a CONTINUATION frame while none is. -/
def OutOfTurn (o : Opened) (f : ClientFrame) : Prop :=
  (f.opcode = 0x1 ∨ f.opcode = 0x2) ∧ o ≠ none ∨ f.opcode = 0x0 ∧ o = none

structure At (ws : WsConn) (o : Opened) : Prop where
  active : ws.fragActive = o.isSome
  kind : ∀ isText parts, o = some (isText, parts) → ws.fragIsText = isText
  frag : ∀ isText parts, o = some (isText, parts) → ws.frag = parts.flatten

variable {mem : Memory} {ws : WsConn} {o : Opened} {f : ClientFrame}

theorem at_none (h : ws.fragActive = false) : At ws none :=
  ⟨h, fun _ _ ho => absurd ho.symm (some_ne_none _),
    fun _ _ ho => absurd ho.symm (some_ne_none _)⟩

theorem At.congr {t : WsConn} (h : At ws o) (ha : t.fragActive = ws.fragActive)
    (ht : t.fragIsText = ws.fragIsText) (hf : t.frag = ws.frag) : At t o :=
  ⟨ha.trans h.active, fun i p ho => ht.trans (h.kind i p ho),
    fun i p ho => hf.trans (h.frag i p ho)⟩

theorem handleFrame_data {isText : Bool} (hop : f.opcode = if isText then 0x1 else 0x2) :
    handleFrame mem ws f.opcode f.fin f.payload = handleData mem ws isText f.fin f.payload := by
  rw [hop]
  cases isText <;> rfl

theorem handleFrame_continuation (hop : f.opcode = 0x0) :
    handleFrame mem ws f.opcode f.fin f.payload = handleContinuation mem ws f.fin f.payload := by
  rw [hop]
  rfl

section
variable (halloc : ∀ n, mem.alloc n = true)
include halloc

theorem handleFrame_turn (hgrow : ∀ n, mem.grow n = true) {p : Opened} {es : List Event}
    (hat : At ws o) (h : Turn o f p es) :
    ∃ t, handleFrame mem ws f.opcode f.fin f.payload = (t, true) ∧ At t p ∧
      t.events = ws.events ++ es := by
  cases h with
  | ping hop =>
    have hbuilt : buildFrame mem.alloc 0xA f.payload false (fun _ => 0) =
        some (frameBytes true 0xA f.payload false fun _ => 0) := by
      rw [buildFrame, if_neg (by simp [halloc])]
      rfl
    refine ⟨ws.emit (.write (frameBytes true 0xA f.payload false fun _ => 0)), ?_,
      hat.congr rfl rfl rfl, rfl⟩
    have hsent : sendFrame mem ws 0xA f.payload =
        ws.emit (.write (frameBytes true 0xA f.payload false fun _ => 0)) := by
      rw [sendFrame, hbuilt]
    rw [hop, ← hsent]
    rfl
  | pong hop =>
    rw [hop]
    exact ⟨ws, rfl, hat, (append_nil _).symm⟩
  | @single _ isText hop hfin hutf8 =>
    refine ⟨ws.emit (.message f.payload isText), ?_, hat.congr rfl rfl rfl, rfl⟩
    rw [handleFrame_data hop, handleData, if_neg (by simp [hfin]), if_neg fun h => h.2 (hutf8 h.1)]
  | @opening _ isText hop hfin =>
    refine ⟨{ ws with fragActive := true, fragIsText := isText, frag := f.payload }, ?_, ?_,
      (append_nil _).symm⟩
    · rw [handleFrame_data hop, handleData, if_pos (by simp [hfin]), appendFrag_eq hgrow]
      rfl
    · refine ⟨rfl, fun i p ho => ?_, fun i p ho => ?_⟩
      · exact (Prod.mk.inj (some.inj ho)).1
      · rw [← (Prod.mk.inj (some.inj ho)).2]
        exact (append_nil _).symm
  | @more _ isText parts hop hfin =>
    refine ⟨{ ws with frag := ws.frag ++ f.payload }, ?_, ?_, (append_nil _).symm⟩
    · rw [handleFrame_continuation hop, handleContinuation, if_neg (by simp [hat.active]),
        appendFrag_eq hgrow]
      dsimp only
      rw [if_pos (by simp [hfin])]
    · refine ⟨hat.active, fun i p ho => ?_, fun i p ho => ?_⟩
      · exact (hat.kind isText parts rfl).trans (Prod.mk.inj (some.inj ho)).1
      · rw [← (Prod.mk.inj (some.inj ho)).2, flatten_append,
          ← hat.frag isText parts rfl]
        simp
  | @last _ isText parts hop hfin hutf8 =>
    have hall : ws.frag ++ f.payload = (parts ++ [f.payload]).flatten := by
      rw [hat.frag isText parts rfl]
      simp
    refine ⟨{ ws.emit (.message (parts ++ [f.payload]).flatten isText) with
      fragActive := false, fragIsText := isText, frag := [] }, ?_, at_none rfl, rfl⟩
    rw [handleFrame_continuation hop, handleContinuation, if_neg (by simp [hat.active]),
      appendFrag_eq hgrow]
    dsimp only
    rw [hat.kind isText parts rfl, hall, if_neg (by simp [hfin]), if_neg fun h => h.2 (hutf8 h.1)]
    rfl

theorem frames_turns (hgrow : ∀ n, mem.grow n = true) {fs : List ClientFrame} {p : Opened}
    {es : List Event} (h : Turns o fs p es) (hat : At ws o) :
    ∃ t, Frames (framePass mem) ws (fs.map ClientFrame.bytes) t ∧ At t p ∧
      t.events = ws.events ++ es := by
  induction h generalizing ws with
  | nil o => exact ⟨ws, .nil ws, hat, (append_nil _).symm⟩
  | @cons o p q f fs es gs hf _ ih =>
    obtain ⟨t, hgo, hmid, hevents⟩ := handleFrame_turn halloc hgrow hat hf
    obtain ⟨u, hrest, hlast, hall⟩ := ih hmid
    refine ⟨u, .cons (takes_masked halloc f.low f.control f.fits hgo) hrest, hlast, ?_⟩
    rw [hall, hevents, append_assoc]

theorem refuses_masked {t : WsConn} (h : handleFrame mem ws f.opcode f.fin f.payload = (t, false)) :
    Refuses (framePass mem) ws f.bytes fun u => u.events = t.events where
  nonempty := cons_ne_nil _ _
  whole x := by
    obtain ⟨g, hparse, hfields⟩ := parseFrame_whole f.low f.control f.fits x
    have hpos : 0 < (frameBytes f.fin f.opcode f.payload true f.key).length := Nat.succ_pos _
    refine ⟨{ t with buffer := x }, ?_, rfl⟩
    simp only [ClientFrame.bytes, framePass, hparse, hfields.content, hfields.opcode, hfields.fin,
      hfields.masked, halloc, h, Int.toNat_natCast, drop_left']
    rw [if_neg (by omega), if_neg (by omega), if_neg (by simp), if_neg (by simp)]
  part p x hp hx := by
    have hparse := parseFrame_part f.low f.control f.fits hp hx
    simp only [framePass, hparse]
    rw [if_neg (by decide), if_pos trivial]

end

/-- The frames out of turn at which the connection reports an error: each CONTINUATION frame, and
a whole TEXT frame that fails the check of the text. -/
def Noticed (f : ClientFrame) : Prop :=
  f.opcode = 0x0 ∨ f.opcode = 0x1 ∧ f.fin = true ∧ ¬ validateUtf8 f.payload = true

theorem handleFrame_noticed (hat : At ws o) (hout : OutOfTurn o f) (h : Noticed f) :
    ∃ t msg, handleFrame mem ws f.opcode f.fin f.payload = (t, false) ∧
      t.events = ws.events ++ [Event.error (lit msg)] := by
  rcases h with hop | ⟨hop, hfin, hutf8⟩
  · have hnone : o = none := by
      rcases hout with ⟨hdata, _⟩ | ⟨_, ho⟩
      · rw [hop] at hdata
        exact absurd hdata (by decide)
      · exact ho
    refine ⟨ws.reportError "ws protocol error: unexpected continuation",
      "ws protocol error: unexpected continuation", ?_, rfl⟩
    rw [handleFrame_continuation hop, handleContinuation,
      if_pos (by rw [hat.active, hnone]; decide)]
  · refine ⟨ws.reportError "ws protocol error: invalid UTF-8",
      "ws protocol error: invalid UTF-8", ?_, rfl⟩
    have hkind : f.opcode = if true then 0x1 else 0x2 := hop
    rw [handleFrame_data hkind, handleData, if_neg (by simp [hfin]),
      if_pos ⟨rfl, hutf8⟩]

theorem handleFrame_unnoticed (hout : OutOfTurn o f) (h : ¬ Noticed f) :
    ∃ t, handleFrame mem ws f.opcode f.fin f.payload = (t, true) := by
  rcases hout with ⟨hdata, _⟩ | ⟨hop, _⟩
  · obtain ⟨isText, hop⟩ : ∃ isText : Bool, f.opcode = if isText then 0x1 else 0x2 := by
      rcases hdata with hop | hop
      · exact ⟨true, hop⟩
      · exact ⟨false, hop⟩
    rw [handleFrame_data hop, handleData]
    by_cases hfin : f.fin = true
    · rw [if_neg (by simp [hfin]), if_neg]
      · exact ⟨_, rfl⟩
      · rintro ⟨rfl, hutf8⟩
        exact h (.inr ⟨hop, hfin, hutf8⟩)
    · rw [if_pos hfin]
      exact ⟨_, rfl⟩
  · exact absurd (.inl hop) h

/-- Behind frames in their turns, a frame out of turn is reported as an error at once, whatever
follows it, if and only if it is a CONTINUATION frame, or a whole text that fails its own check. -/
theorem outOfTurn_reported_iff (halloc : ∀ n, mem.alloc n = true)
    (hgrow : ∀ n, mem.grow n = true) {before : List ClientFrame} {es : List Event}
    (hbefore : Turns none before o es) (hout : OutOfTurn o f) :
    (∀ (more : Bytes) (reads : List Bytes), (∀ r ∈ reads, r ≠ []) →
        reads.flatten = (before.map ClientFrame.bytes).flatten ++ (f.bytes ++ more) →
        ∃ t msg, feeds mem {} reads = (-1, t) ∧ t.events = es ++ [.error (lit msg)]) ↔
      Noticed f := by
  have hat : At {} none := at_none rfl
  obtain ⟨t, hframes, hlast, hevents⟩ := frames_turns halloc hgrow hbefore hat
  constructor
  · intro h
    by_contra hnot
    obtain ⟨u, hgo⟩ : ∃ u, handleFrame mem t f.opcode f.fin f.payload = (u, true) :=
      handleFrame_unnoticed hout hnot
    have htakes : Takes (framePass mem) t f.bytes u :=
      takes_masked halloc f.low f.control f.fits hgo
    have hall := hframes.append (.cons htakes (.nil u))
    have hne : (before.map ClientFrame.bytes).flatten ++ f.bytes ≠ [] :=
      append_ne_nil_of_right_ne_nil _ (cons_ne_nil _ _)
    have hreads : ∀ r ∈ [(before.map ClientFrame.bytes).flatten ++ f.bytes], r ≠ [] :=
      fun r hr => (mem_singleton.mp hr) ▸ hne
    have hdeliver := deliver_frames framePass_nil hall
      [(before.map ClientFrame.bytes).flatten ++ f.bytes] (by simp)
      hall.partial_nil
    have hfeeds := feeds_of_deliver hgrow rfl hreads hdeliver
    obtain ⟨v, msg, hfail, _⟩ := h [] _ hreads (by simp)
    rw [hfail] at hfeeds
    exact absurd (congrArg Prod.fst hfeeds) (by simp)
  · intro hnoticed more reads hreads hstream
    obtain ⟨u, msg, hfail, hu⟩ : ∃ u msg, handleFrame mem t f.opcode f.fin f.payload = (u, false) ∧
        u.events = t.events ++ [Event.error (lit msg)] := handleFrame_noticed hlast hout hnoticed
    have hrefuses := refuses_masked halloc hfail
    obtain ⟨v, hdeliver, hv⟩ := deliver_refused hframes hrefuses reads hstream
      (hrefuses.partial_nil hframes)
    refine ⟨v, msg, feeds_of_fail hgrow rfl hreads hdeliver, ?_⟩
    rw [hv, hu, hevents]
    rfl

theorem text_low : (0x1 : UInt8).toNat < 16 := by decide

theorem text_control (fin : Bool) (b : UInt8) :
    8 ≤ (0x1 : UInt8).toNat → fin = true ∧ [b].length ≤ 125 := fun h => absurd h (by decide)

theorem text_fits (fin : Bool) (b : UInt8) :
    (frameBytes fin 0x1 [b] true fun _ => 7).length ≤ 2 ^ 31 - 1 := by
  rw [frameBytes_length]
  exact le_of_eq_of_le (by rfl : _ = 7) (by decide)

def textFrame (fin : Bool) (b : UInt8) : ClientFrame :=
  ⟨fin, 0x1, [b], fun _ => 7, text_low, text_control fin b, text_fits fin b⟩

theorem turns_opening : Turns none [textFrame false 0x61] (some (true, [[0x61]])) [] :=
  .cons (.opening rfl rfl) (.nil _)

theorem outOfTurn_text : OutOfTurn (some (true, [[0x61]])) (textFrame true 0x62) :=
  .inl ⟨.inl rfl, some_ne_none _⟩

theorem whole_text_unreported : (∀ (more : Bytes) (reads : List Bytes), (∀ r ∈ reads, r ≠ []) →
        reads.flatten = ([textFrame false 0x61].map ClientFrame.bytes).flatten ++
          ((textFrame true 0x62).bytes ++ more) →
        ∃ t msg, feeds ⟨fun _ => true, fun _ => true⟩ {} reads = (-1, t) ∧
          t.events = [] ++ [.error (lit msg)]) ↔ Noticed (textFrame true 0x62) :=
  outOfTurn_reported_iff (fun _ => rfl) (fun _ => rfl) turns_opening outOfTurn_text

/-- A whole TEXT frame inside of an open message is delivered, and then the rest of the open one. -/
theorem whole_text_delivered : Turns none [textFrame false 0x61] (some (true, [[0x61]])) [] ∧
      OutOfTurn (some (true, [[0x61]])) (textFrame true 0x62) ∧
      feeds ⟨fun _ => true, fun _ => true⟩ {}
          [(textFrame false 0x61).bytes ++ (textFrame true 0x62).bytes ++
            frameBytes true 0x0 [0x63] true fun _ => 7] =
        (0, { events := [.message [0x62] true, .message [0x61, 0x63] true],
              fragIsText := true }) :=
  ⟨turns_opening, outOfTurn_text, rfl⟩

end Voxlib.Http.Ws
