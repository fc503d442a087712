import Voxlib.Mqtt.Encoder
import Voxlib.Mqtt.Segments

/-!
# One packet on its way from an encoder to a parser
-/

namespace Voxlib.Mqtt
open CStr Wire Stream List

def firstByte (type : PacketType) (flags : ℕ) : UInt8 := UInt8.ofNat (type.code * 16 ||| flags)

def frame (type : PacketType) (flags : ℕ) (rl body : Bytes) : Bytes :=
  firstByte type flags :: (rl ++ body)

theorem frame_length (type : PacketType) (flags : ℕ) (rl body : Bytes) :
    (frame type flags rl body).length = 1 + rl.length + body.length := by
  simp only [frame, length_cons, length_append]
  omega

theorem encodeRemainingLength_none {n : ℕ} (h : encodeRemainingLength n = none) : 2 ^ 28 ≤ n := by
  have hsome := putVarint_isSome 4 n
  rw [show putVarint 4 n = none from h] at hsome
  simp only [Option.isSome_none, Bool.false_eq_true, false_iff, not_and] at hsome
  by_contra hlt
  exact hsome (by omega) (by norm_num)

theorem encodeRemainingLength_lt {n : ℕ} {rl : Bytes} (h : encodeRemainingLength n = some rl) :
    n < 2 ^ 28 := by
  have hsome := (putVarint_isSome 4 n).mp (by rw [show putVarint 4 n = some rl from h]; rfl)
  omega

theorem encodePacket_frame {type : PacketType} {flags need : ℕ} {bytes : Bytes}
    (hlen : bytes.length = need) {buf : Bytes}
    (hbuf : buf.length = (encodePacket type flags need (putting bytes) []).1) :
    (2 ^ 28 ≤ need ∧ (encodePacket type flags need (putting bytes) []).1 = 0) ∨
    ∃ rl, encodeRemainingLength need = some rl ∧
      (encodePacket type flags need (putting bytes) buf).2 = frame type flags rl bytes := by
  unfold encodePacket at hbuf ⊢
  cases hrl : encodeRemainingLength need with
  | none => exact Or.inl ⟨encodeRemainingLength_none hrl, rfl⟩
  | some rl =>
    refine Or.inr ⟨rl, rfl, ?_⟩
    rw [hrl] at hbuf
    have hempty : ([] : Bytes).length < 1 + rl.length + need := by
      rw [length_nil]
      omega
    simp only [hempty, if_true] at hbuf
    have hframe := frame_length type flags rl bytes
    simp only [hbuf, lt_irrefl, if_false]
    show frame type flags rl bytes ++ buf.drop (frame type flags rl bytes).length = _
    rw [drop_eq_nil_of_le (by omega), append_nil]

theorem ofCode_code (type : PacketType) : PacketType.ofCode type.code = some type := by
  cases type <;> rfl

theorem firstByte_toNat (type : PacketType) {flags : ℕ} (hf : flags < 16) :
    (firstByte type flags).toNat = type.code * 16 + flags := by
  have hor : type.code * 16 ||| flags = type.code * 16 + flags := by
    have h := Nat.two_pow_add_eq_or_of_lt (i := 4) hf type.code
    rw [Nat.mul_comm type.code 16]
    exact h.symm
  have hcode : type.code ≤ 15 := by cases type <;> decide
  unfold firstByte
  rw [hor, UInt8.toNat_ofNat']
  omega

theorem le_doubled (fuel cap need : ℕ) (h : need ≤ cap * 2 ^ fuel) :
    need ≤ doubled fuel cap need := by
  induction fuel generalizing cap with
  | zero => simpa [doubled] using h
  | succ fuel ih =>
    simp only [doubled]
    split
    · refine ih (cap * 2) ?_
      rw [Nat.mul_assoc, ← Nat.pow_succ']
      exact h
    · omega

theorem ensureBuf_some {alloc : ℕ → Bool} (ha : ∀ n, alloc n) {p : Parser} {need : ℕ}
    (hn : need < 2 ^ 28) (hmax : need ≤ p.maxPayload) :
    ∃ c, ensureBuf alloc p need = some { p with bufCap := c } := by
  unfold ensureBuf
  by_cases hcap : p.bufCap ≥ need
  · exact ⟨p.bufCap, by rw [if_pos hcap]⟩
  · rw [if_neg hcap]
    have hpos : 1 ≤ (if p.bufCap > 0 then p.bufCap else initialBufSize) := by
      split
      · omega
      · decide
    have hle := le_doubled 28 (if p.bufCap > 0 then p.bufCap else initialBufSize) need (by omega)
    dsimp only
    rw [if_neg (by omega), if_pos (ha _)]
    exact ⟨_, rfl⟩

section
variable {σ : Type*} (cb : Callbacks σ) {alloc : ℕ → Bool}

/- The parser with the body of a packet in its buffer; `c` is the capacity of the buffer. -/
def Parser.holding (p : Parser) (type : PacketType) (flags : ℕ) (body : Bytes) (c : ℕ) : Parser :=
  { p with
    bufCap := c, state := .varheaderPayload, type := type, flags := flags
    remainingLen := body.length, need := 0, buf := body }

variable {type : PacketType}

theorem readType_firstByte (s : Parser × σ) (ht : type ≠ .auth) {flags : ℕ} (hf : flags < 16) :
    readType cb s (firstByte type flags) =
      .ok ({ s.1 with type := type, flags := flags, state := .remainingLen }, s.2) := by
  have hb := firstByte_toNat type hf
  have hcode : (firstByte type flags).toNat / 16 = type.code := by omega
  have hflags : (firstByte type flags).toNat % 16 = flags := by omega
  unfold readType
  rw [hcode, ofCode_code, hflags]
  dsimp only
  rw [if_neg ht]

theorem pass_frame (ha : ∀ n, alloc n) {p : Parser} (hp : p.state = .fixedHeader) (u : σ)
    (ht : type ≠ .auth) {flags : ℕ} (hf : flags < 16) {rl body : Bytes}
    (hrl : encodeRemainingLength body.length = some rl) (hbody : body ≠ [])
    (hmax : body.length ≤ p.maxPayload) (rest : Bytes) :
    ∃ c, pass cb alloc (p, u) (frame type flags rl body ++ rest) =
      (finishPacket cb alloc (p.holding type flags body c) u).flow rest := by
  have hpos : body.length ≠ 0 := by
    rw [Ne, length_eq_zero_iff]
    exact hbody
  have hlen : decodeVarint (rl ++ (body ++ rest)) = .ok body.length rl.length := by
    have h : readVarint 4 0 1 0 (rl ++ (body ++ rest)) =
        .ok (0 + body.length * 1) (0 + rl.length) := readVarint_putVarint hrl (body ++ rest)
    rw [Nat.zero_add, Nat.mul_one, Nat.zero_add] at h
    exact h
  obtain ⟨c, hc⟩ := ensureBuf_some ha (encodeRemainingLength_lt hrl)
    (p := { p with
      type := type, flags := flags, state := .remainingLen
      remainingLen := body.length, need := body.length, buf := [] }) hmax
  refine ⟨c, ?_⟩
  have hstart : startPacket cb alloc
      ({ p with type := type, flags := flags, state := .remainingLen }, u) body.length =
      .ok ({ p with
        type := type, flags := flags, state := .varheaderPayload, bufCap := c
        remainingLen := body.length, need := body.length, buf := [] }, u) := by
    unfold startPacket
    dsimp only
    rw [if_neg (by omega), if_neg hpos, hc]
  unfold pass frame
  rw [cons_append, append_assoc, fixedHeader_cons cb hp,
    readType_firstByte cb (p, u) ht hf]
  simp only [Turn.flow, Flow.go_andThen]
  rw [remainingLen_ok cb alloc rfl hlen, hstart, drop_left]
  simp only [Turn.flow, Flow.go_andThen]
  rw [varheaderPayload_full cb alloc rfl (by rw [length_append]; exact Nat.le_add_right _ _)]
  dsimp only
  rw [take_left, drop_left]
  congr 2
  simp [collect, Parser.holding]

theorem execute_frame (ha : ∀ n, alloc n) {p : Parser} (hp : p.state = .fixedHeader) (u : σ)
    (ht : type ≠ .auth) {flags : ℕ} (hf : flags < 16) {rl body : Bytes}
    (hrl : encodeRemainingLength body.length = some rl) (hbody : body ≠ [])
    (hmax : body.length ≤ p.maxPayload) : ∃ c, execute cb alloc p u (frame type flags rl body) =
      let r := dispatch cb alloc (p.holding type flags body c) u
      if r.ok then ⟨some (frame type flags rl body).length, { r.p with state := .fixedHeader }, r.u⟩
      else ⟨none, r.p, r.u⟩ := by
  have hinc := pass_incremental cb alloc
  have hlive : p.live := by simp [Parser.live, hp]
  obtain ⟨c, hc⟩ := pass_frame cb ha hp u ht hf hrl hbody hmax []
  refine ⟨c, ?_⟩
  rw [append_nil] at hc
  rw [execute_eq cb alloc hlive, settled, settle_eq hinc.falling hlive, hc]
  unfold finishPacket
  dsimp only
  split
  · simp only [Turn.flow, Flow.go_andThen]
    show Executed.ofFlow _ (settled cb alloc (_, _) []) = _
    rw [settled_nil cb alloc (by simp [Parser.ready, Parser.live])]
    rfl
  · rfl

end

inductive Version where
  | v311 | v5
  deriving DecidableEq, Repr

def Version.props : Version → Bytes
  | .v311 => []
  | .v5 => encodeVarint 0

structure Parser.idle (p : Parser) (v : Version) : Prop where
  state : p.state = .fixedHeader
  clean : p.hasError = false
  version : p.protocolVersion = 5 ↔ v = .v5

theorem create_idle (alloc : ℕ → Bool) (maxPayload version : ℕ) {v : Version}
    (hv : version = 5 ↔ v = .v5) : (create alloc maxPayload version).idle v :=
  ⟨rfl, rfl, hv⟩

theorem encodeVarintLoop_eq {left value : ℕ} {bs : Bytes} (h : putVarint left value = some bs) :
    encodeVarintLoop left value = bs := by
  induction left generalizing value bs with
  | zero => simp [putVarint] at h
  | succ left ih =>
    simp only [putVarint, encodeVarintLoop] at h ⊢
    split at h
    · next h0 =>
      rw [if_pos h0]
      exact Option.some.inj h
    · next h0 =>
      obtain ⟨tail, ht, rfl⟩ := Option.map_eq_some_iff.mp h
      rw [if_neg h0, ih ht]

theorem decodeVarint_encodeVarint {n : ℕ} (hn : n < 2 ^ 28) (rest : Bytes) :
    decodeVarint (encodeVarint n ++ rest) = .ok n (encodeVarint n).length := by
  have hsome : (putVarint 4 n).isSome := (putVarint_isSome 4 n).mpr ⟨by omega, by norm_num⟩
  obtain ⟨bs, hbs⟩ := Option.isSome_iff_exists.mp hsome
  have henc : encodeVarint n = bs := encodeVarintLoop_eq hbs
  have h : readVarint 4 0 1 0 (bs ++ rest) = .ok (0 + n * 1) (0 + bs.length) :=
    readVarint_putVarint hbs rest
  rw [Nat.zero_add, Nat.mul_one, Nat.zero_add] at h
  rw [henc]
  exact h

/-- Encoders and decoders of variable-length numbers agree: below 2^28 a number is read back behind
any bytes, and asked for again where it is cut off. -/
theorem varint_codecs :
    (∀ n < 2 ^ 28, ∃ bs, encodeRemainingLength n = some bs ∧ encodeVarint n = bs ∧
      (∀ rest, decodeRemainingLength (bs ++ rest) = .ok n bs.length ∧
        decodeVarint (bs ++ rest) = .ok n bs.length) ∧
      ∀ k < bs.length, decodeRemainingLength (bs.take k) = .more ∧
        decodeVarint (bs.take k) = .more) ∧ (∀ n, encodeRemainingLength n = none ↔ 2 ^ 28 ≤ n) ∧
    ∀ d, decodeRemainingLength d = decodeVarint d := by
  refine ⟨fun n hn => ?_, fun n => ⟨encodeRemainingLength_none, fun hn => ?_⟩,
    decodeRemainingLength_eq⟩
  · have hsome : (putVarint 4 n).isSome := (putVarint_isSome 4 n).mpr ⟨by omega, by norm_num⟩
    obtain ⟨bs, hbs⟩ := Option.isSome_iff_exists.mp hsome
    have henc : encodeVarint n = bs := encodeVarintLoop_eq hbs
    have hdec (rest : Bytes) : decodeVarint (bs ++ rest) = .ok n bs.length := by
      rw [← henc]
      exact decodeVarint_encodeVarint hn rest
    have hcut (k : ℕ) (hk : k < bs.length) : decodeVarint (bs.take k) = .more := by
      have hwhole := hdec []
      rw [append_nil] at hwhole
      exact readVarint_cut (by rw [Nat.zero_add]; exact hwhole) hk
    simp only [decodeRemainingLength_eq]
    exact ⟨bs, hbs, henc, fun rest => ⟨hdec rest, hdec rest⟩, fun k hk => ⟨hcut k hk, hcut k hk⟩⟩
  · cases h : encodeRemainingLength n with
    | none => rfl
    | some rl => exact absurd (encodeRemainingLength_lt h) (by omega)

theorem takeProperties_put {n : ℕ} (hn : n < 2 ^ 28) {block : Bytes} (hb : block.length = n)
    (d : Bytes) : takeProperties (encodeVarint n ++ (block ++ d)) = some (block, d) := by
  have hlen : ¬ (encodeVarint n ++ (block ++ d)).length < (encodeVarint n).length + n := by
    rw [length_append, length_append]
    omega
  unfold takeProperties
  rw [decodeVarint_encodeVarint hn]
  dsimp only
  rw [if_neg hlen, drop_left, ← drop_drop, drop_left, ← hb, take_left,
    drop_left]

theorem skipPropertiesV5_props {version : ℕ} {v : Version} (hv : version = 5 ↔ v = .v5)
    (d : Bytes) : skipPropertiesV5 version (v.props ++ d) = some d := by
  unfold skipPropertiesV5
  cases v with
  | v311 =>
    rw [if_neg (by simp [hv])]
    rfl
  | v5 =>
    rw [if_pos (by simp [hv])]
    have hcons : Version.props .v5 ++ d = 0 :: d := rfl
    have hd : decodeVarint (0 :: d) = .ok 0 1 := rfl
    simp [takeProperties, hcons, hd]

section
variable {σ : Type*}

/- All callbacks are there and succeed; the value of on_subscribe is the QoS granted. -/
structure Callbacks.obliging (cb : Callbacks σ) : Prop where
  installed : ∀ k, cb.installed k
  succeeds : ∀ u c, c.target ≠ .onSubscribe → (cb.run u c).1 = 0

def Received (cb : Callbacks σ) (alloc : ℕ → Bool) (p : Parser) (u : σ) (bytes : Bytes)
    (calls : List Call) : Prop :=
  let r := execute cb.logged alloc p (u, []) bytes
  r.ret = some bytes.length ∧ r.p.hasError = false ∧ r.u.2 = calls

theorem callWith_logged {cb : Callbacks σ} (hcb : cb.obliging) (p : Parser) (u : σ)
    (log : List Call) {c : Call} (hc : c.target ≠ .onSubscribe) :
    callWith cb.logged p (u, log) c = ⟨true, p, ((cb.run u c).2, log ++ [c])⟩ := by
  have hi : cb.logged.installed c.target := hcb.installed c.target
  have hr : (cb.logged.run (u, log) c).1 = 0 := hcb.succeeds u c hc
  unfold callWith invoke
  rw [if_pos hi]
  dsimp only
  rw [hr]
  rfl

theorem received_of_dispatch {cb : Callbacks σ} {alloc : ℕ → Bool} (ha : ∀ n, alloc n) {p : Parser}
    (hp : p.state = .fixedHeader) (u : σ) {type : PacketType} (ht : type ≠ .auth) {flags : ℕ}
    (hf : flags < 16) {rl body : Bytes} (hrl : encodeRemainingLength body.length = some rl)
    (hbody : body ≠ []) (hmax : body.length ≤ p.maxPayload) {P : List Call → Prop}
    (hd : ∀ c, ∃ q t made, dispatch cb.logged alloc (p.holding type flags body c) (u, []) =
      ⟨true, q, (t, made)⟩ ∧ q.hasError = false ∧ P made) : ∃ made, P made ∧
      ∀ calls, Received cb alloc p u (frame type flags rl body) calls ↔ made = calls := by
  obtain ⟨c, hc⟩ := execute_frame cb.logged ha hp (u, []) ht hf hrl hbody hmax
  obtain ⟨q, t, made, hdisp, hq, hP⟩ := hd c
  refine ⟨made, hP, fun calls => ?_⟩
  unfold Received
  rw [hc, hdisp]
  simp [hq]

/- What the encoder puts into a buffer of the size it asked for is received with calls that
   satisfy `P`; where the encoder gives up, the remaining length has no encoding. -/
def RoundTrips (cb : Callbacks σ) (alloc : ℕ → Bool) (p : Parser) (u : σ)
    (enc : Bytes → ℕ × Bytes) (need : ℕ) (P : List Call → Prop) : Prop :=
  if (enc []).1 = 0 then 2 ^ 28 ≤ need
  else need ≤ p.maxPayload → ∀ buf : Bytes, buf.length = (enc []).1 →
    ∃ calls, P calls ∧ Received cb alloc p u (enc buf).2 calls

theorem roundTrips_packet {cb : Callbacks σ} {alloc : ℕ → Bool} (ha : ∀ n, alloc n) {p : Parser}
    (hp : p.state = .fixedHeader) (u : σ) {type : PacketType} (ht : type ≠ .auth) {flags : ℕ}
    (hf : flags < 16) {need : ℕ} {body : Bytes} (hlen : body.length = need) (hpos : 0 < need)
    {P : List Call → Prop}
    (hd : ∀ c, ∃ q t made, dispatch cb.logged alloc (p.holding type flags body c) (u, []) =
      ⟨true, q, (t, made)⟩ ∧ q.hasError = false ∧ P made) :
    RoundTrips cb alloc p u (encodePacket type flags need (putting body)) need P := by
  have hbody : body ≠ [] := by
    intro h
    rw [h, length_nil] at hlen
    omega
  unfold RoundTrips
  split
  · next h0 =>
    have hnil : ([] : Bytes).length = (encodePacket type flags need (putting body) []).1 := by
      rw [h0, length_nil]
    rcases encodePacket_frame hlen hnil with ⟨hbig, -⟩ | ⟨rl, hrl, -⟩
    · exact hbig
    · simp [encodePacket, hrl] at h0
  · next h0 =>
    intro hmax buf hbuf
    rcases encodePacket_frame hlen hbuf with ⟨-, hzero⟩ | ⟨rl, hrl, hframe⟩
    · exact absurd hzero h0
    · rw [hframe]
      obtain ⟨made, hP, hmade⟩ := received_of_dispatch ha hp u ht hf (by rw [hlen]; exact hrl)
        hbody (by rw [hlen]; exact hmax) hd
      exact ⟨made, hP, (hmade made).mpr rfl⟩

end

theorem willing_obliging : willing.obliging := ⟨fun _ => rfl, fun _ _ _ => rfl⟩

end Voxlib.Mqtt
