import Voxlib.Mqtt.Frame

/-!
# CONNECT from the encoders back through the parser

`write_utf8` leaves out a string of more than 65535 bytes that was counted, and the parser reads
a property length of the will that is not written.
-/

namespace Voxlib.Mqtt
open CStr Wire Stream List Option

theorem writeUtf8_length (size : ℕ) (s : Bytes) : (writeUtf8 size s).length ≤ 2 + s.length := by
  unfold writeUtf8
  split
  · exact Nat.zero_le _
  · split
    · exact Nat.zero_le _
    · rw [putString_length]

theorem appendUtf8_full {size : ℕ} {out s : Bytes} (hs : s.length ≤ 65535)
    (hroom : out.length + (2 + s.length) ≤ size) : appendUtf8 size out s = out ++ putString s := by
  unfold appendUtf8 writeUtf8
  rw [if_neg (by omega), if_neg (by omega)]

def stringsBytes (strings : List (Bool × Bytes)) : Bytes :=
  strings.flatMap fun s => if s.1 then putString s.2 else []

/- No string that is to be written is too long for its length field. -/
def Fits (strings : List (Bool × Bytes)) : Prop := ∀ s ∈ strings, s.1 → s.2.length ≤ 65535

theorem stringsBytes_length (strings : List (Bool × Bytes)) :
    (stringsBytes strings).length = stringsNeed strings := by
  unfold stringsBytes stringsNeed
  rw [length_flatMap]
  congr 1
  refine map_congr_left fun s _ => ?_
  split
  · rw [putString_length]
  · rfl

theorem putStrings_some (strings : List (Bool × Bytes)) (size : ℕ) (out : Bytes) :
    ∃ t, putStrings strings size out = out ++ t ∧ t.length ≤ stringsNeed strings := by
  induction strings generalizing out with
  | nil => exact ⟨[], by simp [putStrings], by simp [stringsNeed]⟩
  | cons s strings ih =>
    unfold putStrings stringsNeed at *
    rw [foldl_cons, map_cons, sum_cons]
    by_cases hs : s.1
    · rw [if_pos hs, if_pos hs]
      obtain ⟨t, ht, hl⟩ := ih (appendUtf8 size out s.2)
      have hw := writeUtf8_length (size - out.length) s.2
      refine ⟨writeUtf8 (size - out.length) s.2 ++ t, ?_, ?_⟩
      · rw [ht, appendUtf8, append_assoc]
      · rw [length_append]
        omega
    · rw [if_neg hs, if_neg hs]
      obtain ⟨t, ht, hl⟩ := ih out
      exact ⟨t, ht, by omega⟩

theorem putStrings_full {strings : List (Bool × Bytes)} (hf : Fits strings) {size : ℕ}
    {out : Bytes} (hroom : out.length + stringsNeed strings ≤ size) :
    putStrings strings size out = out ++ stringsBytes strings := by
  induction strings generalizing out with
  | nil => simp [putStrings, stringsBytes]
  | cons s strings ih =>
    have hf' : Fits strings := fun s hs => hf s (mem_cons_of_mem _ hs)
    unfold putStrings stringsBytes stringsNeed at *
    rw [map_cons, sum_cons] at hroom
    rw [foldl_cons, flatMap_cons]
    by_cases hs : s.1
    · rw [if_pos hs] at hroom
      rw [if_pos hs, if_pos hs,
        appendUtf8_full (hf s (mem_cons_self ..) hs) (by omega), ih hf']
      · rw [append_assoc]
      · rw [length_append, putString_length]
        omega
    · rw [if_neg hs] at hroom
      rw [if_neg hs, if_neg hs, ih hf' (by omega), nil_append]

def Version.level : Version → ℕ
  | .v311 => 4
  | .v5 => 5

def encodeConnectIn (v : Version) : Bytes → ConnectArgs → ℕ × Bytes :=
  match v with
  | .v311 => encodeConnect
  | .v5 => encodeConnectV5

def connectProps (v : Version) (a : ConnectArgs) : Bytes :=
  match v with
  | .v311 => []
  | .v5 => encodeVarint (propertiesLen a.sessionExpiryInterval a.receiveMaximum)
      ++ putProperties a.sessionExpiryInterval a.receiveMaximum

def connectNeedIn (v : Version) (a : ConnectArgs) : ℕ :=
  10 + (connectProps v a).length + stringsNeed a.strings

theorem putProperties_length (expiry : UInt32) (receiveMax : UInt16) :
    (putProperties expiry receiveMax).length = propertiesLen expiry receiveMax := by
  unfold putProperties propertiesLen
  rw [length_append]
  split <;> split <;> simp

theorem connectHead_length (version : ℕ) (a : ConnectArgs) : (connectHead version a).length = 10 :=
  rfl

theorem encodeConnectIn_eq (v : Version) (buf : Bytes) (a : ConnectArgs) :
    encodeConnectIn v buf a = encodePacket .connect 0 (connectNeedIn v a)
      (fun size out => putStrings a.strings size (out ++ connectHead v.level a ++ connectProps v a))
      buf := by
  cases v with
  | v311 =>
    show encodeConnect buf a = _
    unfold encodeConnect connectNeed connectNeedIn connectProps
    simp only [append_nil]
    rfl
  | v5 =>
    show encodeConnectV5 buf a = _
    unfold encodeConnectV5 connectNeedV5 connectNeedIn connectProps
    simp only [length_append, putProperties_length, append_assoc]
    rfl

theorem encodeConnectIn_frame (v : Version) (a : ConnectArgs) {buf : Bytes}
    (hbuf : buf.length = (encodeConnectIn v [] a).1) :
    (2 ^ 28 ≤ connectNeedIn v a ∧ (encodeConnectIn v [] a).1 = 0) ∨
    ∃ rl rest, encodeRemainingLength (connectNeedIn v a) = some rl ∧
      (encodeConnectIn v [] a).1 ≠ 0 ∧ (encodeConnectIn v buf a).2 =
        frame .connect 0 rl (connectHead v.level a ++ (connectProps v a ++ rest)) ∧
      rest.length = stringsNeed a.strings ∧ (Fits a.strings → rest = stringsBytes a.strings) := by
  rw [encodeConnectIn_eq] at hbuf ⊢
  rw [encodeConnectIn_eq]
  unfold encodePacket at hbuf ⊢
  cases hrl : encodeRemainingLength (connectNeedIn v a) with
  | none => exact Or.inl ⟨encodeRemainingLength_none hrl, rfl⟩
  | some rl =>
    rw [hrl] at hbuf
    have hempty : ([] : Bytes).length < 1 + rl.length + connectNeedIn v a := by
      rw [length_nil]
      omega
    simp only [hempty, if_true] at hbuf ⊢
    simp only [hbuf, lt_irrefl, if_false]
    have hhead := connectHead_length v.level a
    have hneed : connectNeedIn v a = 10 + (connectProps v a).length + stringsNeed a.strings := rfl
    set out := firstByte .connect 0 :: rl ++ connectHead v.level a ++ connectProps v a with hout
    have houtlen : out.length = 1 + rl.length + 10 + (connectProps v a).length := by
      simp only [hout, length_append, length_cons, hhead]
      omega
    obtain ⟨t, ht, hl⟩ := putStrings_some a.strings (1 + rl.length + connectNeedIn v a) out
    refine Or.inr ⟨rl, t ++ buf.drop (out ++ t).length, rfl, by omega, ?_, ?_, ?_⟩
    · show putStrings a.strings (1 + rl.length + connectNeedIn v a) out ++ List.drop
        (putStrings a.strings (1 + rl.length + connectNeedIn v a) out).length buf = _
      rw [ht, hout]
      simp [frame]
    · rw [length_append, length_drop, length_append]
      omega
    · intro hf
      have hfull : putStrings a.strings (1 + rl.length + connectNeedIn v a) out
          = out ++ stringsBytes a.strings := putStrings_full hf (by omega)
      have htb : t = stringsBytes a.strings := by
        rw [ht] at hfull
        exact append_cancel_left hfull
      have hlen := stringsBytes_length a.strings
      rw [htb, drop_eq_nil_of_le (by rw [length_append]; omega), append_nil]

section
variable {σ : Type*}

def connectReply (cb : Callbacks σ) (p : Parser) (u : σ) : Option Connect → Reply σ
  | none => failed p u
  | some c => callWith cb p u (.connect c)

theorem parseConnectPayload_head {p : Parser} {v : Version} {a : ConnectArgs} {rest : Bytes}
    (hbuf : p.buf = connectHead v.level a ++ rest) (cb : Callbacks σ) (u : σ) :
    parseConnectPayload cb p u = connectReply cb { p with protocolVersion := v.level } u
      (readConnect v.level (connectFlags a) a.keepalive.toNat rest) := by
  have hlen : p.buf.length = 10 + rest.length := by
    rw [hbuf, length_append, connectHead_length]
  have hcons : p.buf = 0 :: 4 :: 77 :: 81 :: 84 :: 84 :: UInt8.ofNat v.level :: connectFlags a ::
      UInt8.ofNat (a.keepalive.toNat / 256) :: UInt8.ofNat a.keepalive.toNat :: rest := by
    rw [hbuf]
    rfl
  have hproto : ofU16 0 4 = 4 := rfl
  have hversion : (UInt8.ofNat v.level).toNat = v.level := by
    cases v <;> rfl
  have hknown : protocolKnown [77, 81, 84, 84] v.level = true := by
    cases v <;> decide
  have hkeep := ofU16_ofNat (n := a.keepalive.toNat) a.keepalive.toNat_lt
  have hlong : ¬ rest.length + 1 + 1 + 1 + 1 + 1 + 1 + 1 + 1 + 1 + 1 < 2 + 4 + 4 := by omega
  unfold parseConnectPayload
  dsimp only
  rw [if_neg (by omega)]
  cases hc : readConnect v.level (connectFlags a) a.keepalive.toNat rest with
  | none =>
    simp only [hcons, getD_cons_zero, getD_cons_succ, hproto, length_cons,
      drop_succ_cons, drop_zero, take_succ_cons, take_zero, hversion, hknown,
      hkeep, ne_eq, not_true_eq_false, false_and, if_false, hlong, hc, connectReply]
  | some c =>
    simp only [hcons, getD_cons_zero, getD_cons_succ, hproto, length_cons,
      drop_succ_cons, drop_zero, take_succ_cons, take_zero, hversion, hknown,
      hkeep, ne_eq, not_true_eq_false, false_and, if_false, hlong, hc, connectReply]

theorem connect_received_iff {cb : Callbacks σ} (hcb : cb.obliging) {alloc : ℕ → Bool}
    (ha : ∀ n, alloc n) {p : Parser} (hp : p.state = .fixedHeader) (hclean : p.hasError = false)
    (u : σ) {v : Version} {a : ConnectArgs} {rl rest : Bytes}
    (hrl : encodeRemainingLength (connectHead v.level a ++ rest).length = some rl)
    (hmax : (connectHead v.level a ++ rest).length ≤ p.maxPayload) (c : Connect) :
    Received cb alloc p u (frame .connect 0 rl (connectHead v.level a ++ rest)) [.connect c] ↔
      readConnect v.level (connectFlags a) a.keepalive.toNat rest = some c := by
  have hbody : connectHead v.level a ++ rest ≠ [] := by
    intro h
    have hlen : (connectHead v.level a ++ rest).length = 10 + rest.length := by
      rw [length_append, connectHead_length]
    rw [h, length_nil] at hlen
    omega
  obtain ⟨k, hk⟩ := execute_frame cb.logged ha hp (u, [])
    (by decide : PacketType.connect ≠ .auth) (by decide : 0 < 16) hrl hbody hmax
  have hparse : dispatch cb.logged alloc
      (p.holding .connect 0 (connectHead v.level a ++ rest) k) (u, []) = _ :=
    parseConnectPayload_head (p := p.holding .connect 0 (connectHead v.level a ++ rest) k) rfl
      cb.logged (u, [])
  unfold Received
  rw [hk]
  cases hc : readConnect v.level (connectFlags a) a.keepalive.toNat rest with
  | none =>
    rw [hc] at hparse
    rw [hparse]
    simp [connectReply, failed]
  | some c' =>
    rw [hc] at hparse
    rw [hparse.trans (callWith_logged hcb _ u [] (by simp [Call.target]))]
    simp [Parser.holding, hclean]

end

def propsSeen (v : Version) (a : ConnectArgs) : Properties :=
  match v with
  | .v311 => {}
  | .v5 => ⟨a.sessionExpiryInterval.toNat, a.receiveMaximum.toNat⟩

theorem propertiesLen_le (expiry : UInt32) (receiveMax : UInt16) :
    propertiesLen expiry receiveMax ≤ 8 := by
  unfold propertiesLen
  split <;> split <;> omega

theorem scanProperties_put (expiry : UInt32) (receiveMax : UInt16) :
    scanProperties (putProperties expiry receiveMax).length (putProperties expiry receiveMax) {} =
      ⟨expiry.toNat, receiveMax.toNat⟩ := by
  have he := ofU32_ofNat (n := expiry.toNat) expiry.toNat_lt
  have hr := ofU16_ofNat (n := receiveMax.toNat) receiveMax.toNat_lt
  unfold putProperties
  by_cases h₁ : expiry = 0
  · subst h₁
    by_cases h₂ : receiveMax = 0
    · subst h₂
      rfl
    · simpa [h₂, u16, scanProperties, propertyValueSkip, skipFixed, Properties.note] using hr
  · by_cases h₂ : receiveMax = 0
    · subst h₂
      simpa [h₁, u32, scanProperties, propertyValueSkip, skipFixed, Properties.note] using he
    · simpa [h₁, h₂, u32, u16, scanProperties, propertyValueSkip, skipFixed, Properties.note]
        using And.intro he hr

theorem readConnect_props (v : Version) (a : ConnectArgs) (flags : UInt8) (keepalive : ℕ)
    (d : Bytes) : readConnect v.level flags keepalive (connectProps v a ++ d) =
      readStrings v.level flags keepalive (propsSeen v a) d := by
  cases v with
  | v311 => rfl
  | v5 =>
    have hle := propertiesLen_le a.sessionExpiryInterval a.receiveMaximum
    show (takeProperties (connectProps .v5 a ++ d)).bind (fun b =>
      readStrings 5 flags keepalive (scanProperties b.1.length b.1 {}) b.2) = _
    unfold connectProps
    rw [append_assoc, takeProperties_put (by omega) (putProperties_length _ _) d,
      bind_some, scanProperties_put]
    rfl

theorem qos_cases_three {qos : UInt8} (h : qos ≤ 3) : qos = 0 ∨ qos = 1 ∨ qos = 2 ∨ qos = 3 := by
  have hle : qos.toNat ≤ 3 := UInt8.le_iff_toNat_le.mp h
  have hcases : qos.toNat = 0 ∨ qos.toNat = 1 ∨ qos.toNat = 2 ∨ qos.toNat = 3 := by omega
  simp only [← UInt8.toNat_inj]
  exact hcases

theorem flagByte_bits (clean will : Bool) (qos : UInt8) (retain user pass : Bool)
    (hq : will → qos ≤ 3) : (flagByte clean will qos retain user pass &&& flagClean ≠ 0 ↔ clean) ∧
    (flagByte clean will qos retain user pass &&& flagWill ≠ 0 ↔ will) ∧
    (flagByte clean will qos retain user pass &&& flagUsername ≠ 0 ↔ user) ∧
    (flagByte clean will qos retain user pass &&& flagPassword ≠ 0 ↔ pass) ∧
    (will → (flagByte clean will qos retain user pass >>> 3) &&& 3 = qos ∧
      (flagByte clean will qos retain user pass &&& flagWillRetain ≠ 0 ↔ retain)) := by
  cases will with
  | false =>
    simp only [flagByte, Bool.false_eq_true, if_false, false_implies, and_true]
    revert clean retain user pass
    decide
  | true =>
    rcases qos_cases_three (hq rfl) with rfl | rfl | rfl | rfl
    · revert clean retain user pass
      decide
    · revert clean retain user pass
      decide
    · revert clean retain user pass
      decide
    · revert clean retain user pass
      decide

theorem takeStringIf_some {c : Bool} {d s rest : Bytes} (h : takeStringIf c d = some (s, rest)) :
    s.length ≤ 65535 ∧ d.length = (if c then 2 + s.length else 0) + rest.length := by
  unfold takeStringIf at h
  split at h
  · next hc =>
    obtain ⟨hlt, hlen⟩ := takeString_some h
    rw [if_pos hc]
    exact ⟨by omega, hlen⟩
  · next hc =>
    obtain ⟨rfl, rfl⟩ : [] = s ∧ d = rest := by simpa using h
    rw [if_neg hc, Nat.zero_add]
    exact ⟨Nat.zero_le _, rfl⟩

theorem takeWill_some {version : ℕ} {flags : UInt8} {d t m rest : Bytes}
    (h : takeWill version flags d = some ((t, m), rest)) : t.length ≤ 65535 ∧ m.length ≤ 65535 ∧
    (flags &&& flagWill ≠ 0 → (if version = 5 then 1 else 0) + (2 + t.length) + (2 + m.length)
      + rest.length ≤ d.length) ∧ rest.length ≤ d.length := by
  unfold takeWill at h
  split at h
  · next hw =>
    obtain ⟨⟨rfl, rfl⟩, rfl⟩ : ([] = t ∧ [] = m) ∧ d = rest := by simpa using h
    exact ⟨Nat.zero_le _, Nat.zero_le _, fun hne => absurd hw hne, le_refl _⟩
  · obtain ⟨d', hd', h⟩ := bind_eq_some_iff.mp h
    obtain ⟨⟨t', r⟩, ht, h⟩ := bind_eq_some_iff.mp h
    obtain ⟨⟨m', r'⟩, hm, h⟩ := map_eq_some_iff.mp h
    obtain ⟨⟨rfl, rfl⟩, rfl⟩ : (t' = t ∧ m' = m) ∧ r' = rest := by simpa using h
    obtain ⟨hlt, hlen⟩ := takeString_some ht
    obtain ⟨hlt', hlen'⟩ := takeString_some hm
    dsimp only at hlen hlen'
    have hshift : (if version = 5 then 1 else 0) + d'.length ≤ d.length := by
      split at hd'
      · next hv =>
        rw [if_pos hv]
        split at hd'
        · next n size hdec =>
          obtain rfl := some.inj hd'
          have hsize := decodeVarint_size hdec
          rw [length_drop]
          omega
        · simp at hd'
      · next hv =>
        obtain rfl := some.inj hd'
        rw [if_neg hv]
        omega
    exact ⟨by omega, by omega, fun _ => by omega, by omega⟩

theorem readStrings_some {version : ℕ} {flags : UInt8} {keepalive : ℕ} {q : Properties} {d : Bytes}
    {c : Connect} (h : readStrings version flags keepalive q d = some c) :
    c.flags = flags ∧ c.clientId.length ≤ 65535 ∧ c.willTopic.length ≤ 65535 ∧
    c.willMsg.length ≤ 65535 ∧ c.username.length ≤ 65535 ∧ c.password.length ≤ 65535 ∧
    (flags &&& flagWill ≠ 0 →
      (2 + c.clientId.length) + ((if version = 5 then 1 else 0) + (2 + c.willTopic.length)
        + (2 + c.willMsg.length))
        + (if flags &&& flagUsername ≠ 0 then 2 + c.username.length else 0)
        + (if flags &&& flagPassword ≠ 0 then 2 + c.password.length else 0) ≤ d.length) := by
  unfold readStrings at h
  obtain ⟨⟨id, r₁⟩, hid, h⟩ := bind_eq_some_iff.mp h
  obtain ⟨⟨⟨t, m⟩, r₂⟩, hw, h⟩ := bind_eq_some_iff.mp h
  obtain ⟨⟨user, r₃⟩, huser, h⟩ := bind_eq_some_iff.mp h
  obtain ⟨⟨pass, r₄⟩, hpass, rfl⟩ := map_eq_some_iff.mp h
  obtain ⟨hlt₁, hlen₁⟩ := takeString_some hid
  obtain ⟨hlt₂, hlt₂', hlen₂, -⟩ := takeWill_some hw
  obtain ⟨hlt₃, hlen₃⟩ := takeStringIf_some huser
  obtain ⟨hlt₄, hlen₄⟩ := takeStringIf_some hpass
  simp only [ne_eq, decide_not, Bool.not_eq_true', decide_eq_false_iff_not]
    at hlen₂ hlen₃ hlen₄ ⊢
  refine ⟨trivial, by omega, hlt₂, hlt₂', hlt₃, hlt₄, fun hwill => ?_⟩
  have := hlen₂ hwill
  omega

theorem takeStringIf_put {c : Bool} {s : Bytes} (hs : c → s.length ≤ 65535)
    (hempty : c = false → s = []) (d : Bytes) :
    takeStringIf c ((if c then putString s else []) ++ d) = some (s, d) := by
  cases c with
  | false =>
    obtain rfl := hempty rfl
    rfl
  | true => exact takeString_putString (by have := hs rfl; omega) d

/- The CONNECTs that come back: no string is too long, the will QoS fits into its two bits, and
   version 5 has no will. -/
structure ConnectArgs.Sound (a : ConnectArgs) (v : Version) : Prop where
  fits : Fits a.strings
  qos : a.willTopic ≠ [] → a.willQos ≤ 3
  noWill : v = .v5 → a.willTopic = []

theorem stringsNeed_strings (a : ConnectArgs) : stringsNeed a.strings = (2 + a.clientId.length)
      + (if a.willTopic ≠ [] then (2 + a.willTopic.length) + (2 + a.willMsg.length) else 0)
      + (if a.username ≠ [] then 2 + a.username.length else 0)
      + (if a.password ≠ [] then 2 + a.password.length else 0) := by
  have hnil : ∀ s : Bytes, (decide (s.length ≠ 0) = true) = (s ≠ []) := by
    intro s
    simp
  unfold stringsNeed ConnectArgs.strings
  simp only [map_cons, map_nil, sum_cons, sum_nil, hnil, if_true]
  split
  · ring
  · ring

theorem connectFlags_bits {a : ConnectArgs} (hq : a.willTopic ≠ [] → a.willQos ≤ 3) :
    (connectFlags a &&& flagClean ≠ 0 ↔ a.cleanSession) ∧
    (connectFlags a &&& flagWill ≠ 0 ↔ a.willTopic ≠ []) ∧
    (connectFlags a &&& flagUsername ≠ 0 ↔ a.username ≠ []) ∧
    (connectFlags a &&& flagPassword ≠ 0 ↔ a.password ≠ []) ∧
    (a.willTopic ≠ [] → (connectFlags a >>> 3) &&& 3 = a.willQos ∧
      (connectFlags a &&& flagWillRetain ≠ 0 ↔ a.willRetain)) := by
  have hbits := flagByte_bits a.cleanSession (a.willTopic.length ≠ 0) a.willQos a.willRetain
    (a.username.length ≠ 0) (a.password.length ≠ 0)
  simp only [ne_eq, length_eq_zero_iff, decide_eq_true_eq] at hbits
  have heq : connectFlags a = flagByte a.cleanSession (¬ a.willTopic = []) a.willQos a.willRetain
      (¬ a.username = []) (¬ a.password = []) := by
    unfold connectFlags
    simp only [ne_eq, length_eq_zero_iff]
  rw [heq]
  exact hbits hq

theorem readStrings_put {a : ConnectArgs} {v : Version} (ha : a.Sound v) (keepalive : ℕ)
    (q : Properties) : readStrings v.level (connectFlags a) keepalive q (stringsBytes a.strings) =
      some { clientId := a.clientId, protocolVersion := v.level, keepalive := keepalive
             flags := connectFlags a, willTopic := a.willTopic
             willMsg := if a.willTopic = [] then [] else a.willMsg
             username := a.username, password := a.password
             sessionExpiryInterval := q.sessionExpiryInterval
             receiveMaximum := q.receiveMaximum } := by
  obtain ⟨-, hwill, huser, hpass, -⟩ := connectFlags_bits ha.qos
  have hfit := ha.fits
  simp only [Fits, ConnectArgs.strings, forall_mem_cons, not_mem_nil, false_implies,
    implies_true, and_true, true_implies, decide_eq_true_eq, ne_eq, length_eq_zero_iff] at hfit
  obtain ⟨hid, hwt, hwm, hu, hpw⟩ := hfit
  have hopt : ∀ (s d : Bytes), (¬ s = [] → s.length ≤ 65535) →
      takeStringIf (s ≠ []) ((if s.length ≠ 0 then putString s else []) ++ d) = some (s, d) := by
    intro s d hs
    have h := takeStringIf_put (c := s ≠ []) (s := s) (by simpa using hs) (by simp) d
    simpa [length_eq_zero_iff] using h
  have hbytes : stringsBytes a.strings = putString a.clientId
      ++ ((if a.willTopic ≠ [] then putString a.willTopic ++ putString a.willMsg else [])
      ++ ((if a.username.length ≠ 0 then putString a.username else [])
      ++ ((if a.password.length ≠ 0 then putString a.password else []) ++ []))) := by
    by_cases hw : a.willTopic = []
    · simp [stringsBytes, ConnectArgs.strings, hw]
    · simp [stringsBytes, ConnectArgs.strings, hw]
  have htakeWill : ∀ d, takeWill v.level (connectFlags a)
      ((if a.willTopic ≠ [] then putString a.willTopic ++ putString a.willMsg else []) ++ d) =
      some ((a.willTopic, if a.willTopic = [] then [] else a.willMsg), d) := by
    intro d
    unfold takeWill
    by_cases hw : a.willTopic = []
    · have hzero : connectFlags a &&& flagWill = 0 := by
        by_contra hne
        exact hwill.mp hne hw
      rw [if_pos hzero]
      simp [hw]
    · have hv : v.level ≠ 5 := by
        cases v with
        | v311 => decide
        | v5 => exact absurd (ha.noWill rfl) hw
      rw [if_neg (hwill.mpr hw), if_neg hv, if_pos hw, bind_some, append_assoc,
        takeString_putString (by have := hwt hw; omega), bind_some,
        takeString_putString (by have := hwm hw; omega), if_neg hw]
      rfl
  have hflag : ∀ (f : UInt8) (s : Bytes), (connectFlags a &&& f ≠ 0 ↔ s ≠ []) →
      decide (connectFlags a &&& f ≠ 0) = decide (s ≠ []) := by
    intro f s h
    exact decide_eq_decide.mpr h
  unfold readStrings
  rw [hbytes, takeString_putString (by omega), bind_some, htakeWill, bind_some,
    hflag flagUsername a.username huser, hflag flagPassword a.password hpass,
    hopt a.username _ hu, bind_some, hopt a.password _ hpw]
  rfl

structure Connect.Agrees (c : Connect) (v : Version) (a : ConnectArgs) : Prop where
  version : c.protocolVersion = v.level
  clientId : c.clientId = a.clientId
  keepalive : c.keepalive = a.keepalive.toNat
  clean : c.flags &&& flagClean ≠ 0 ↔ a.cleanSession
  willTopic : c.willTopic = a.willTopic
  will : a.willTopic ≠ [] → c.willMsg = a.willMsg ∧ (c.flags >>> 3) &&& 3 = a.willQos ∧
    (c.flags &&& flagWillRetain ≠ 0 ↔ a.willRetain)
  username : c.username = a.username
  password : c.password = a.password
  properties : v = .v5 → c.sessionExpiryInterval = a.sessionExpiryInterval.toNat ∧
    c.receiveMaximum = a.receiveMaximum.toNat

section
variable {σ : Type*}

/- The encoder gives up, or the bytes make one call of on_connect, with its arguments. -/
def ConnectRoundTrips (v : Version) (cb : Callbacks σ) (alloc : ℕ → Bool) (p : Parser) (u : σ)
    (a : ConnectArgs) (buf : Bytes) : Prop :=
  (encodeConnectIn v [] a).1 = 0 ∨
    ∃ c : Connect, c.Agrees v a ∧
      Received cb alloc p u (encodeConnectIn v buf a).2 [.connect c]

theorem sound_agrees {a : ConnectArgs} {v : Version} (ha : a.Sound v) :
    ∃ c : Connect, c.Agrees v a ∧ readStrings v.level (connectFlags a) a.keepalive.toNat
      (propsSeen v a) (stringsBytes a.strings) = some c := by
  obtain ⟨hclean, -, -, -, hwill⟩ := connectFlags_bits ha.qos
  refine ⟨_, ?_, readStrings_put ha _ _⟩
  refine ⟨rfl, rfl, rfl, hclean, rfl, ?_, rfl, rfl, ?_⟩
  · intro hne
    obtain ⟨hq, hr⟩ := hwill hne
    exact ⟨if_neg hne, hq, hr⟩
  · intro hv
    subst hv
    exact ⟨rfl, rfl⟩

theorem agrees_sound {a : ConnectArgs} {v : Version} {c : Connect} (hc : c.Agrees v a) {d : Bytes}
    (hd : d.length = stringsNeed a.strings)
    (h : readStrings v.level (connectFlags a) a.keepalive.toNat (propsSeen v a) d = some c) :
    a.Sound v := by
  obtain ⟨hflags, hid, hwt, hwm, huser, hpass, hlen⟩ := readStrings_some h
  have hq : a.willTopic ≠ [] → a.willQos ≤ 3 := by
    intro hne
    rw [← (hc.will hne).2.1, UInt8.le_iff_toNat_le, UInt8.toNat_and]
    exact Nat.and_le_right
  refine ⟨?_, hq, ?_⟩
  · simp only [Fits, ConnectArgs.strings, forall_mem_cons, not_mem_nil, false_implies,
      implies_true, and_true, true_implies, decide_eq_true_eq, ne_eq, length_eq_zero_iff]
    refine ⟨hc.clientId ▸ hid, fun _ => hc.willTopic ▸ hwt, fun hne => ?_,
      fun _ => hc.username ▸ huser, fun _ => hc.password ▸ hpass⟩
    rw [← (hc.will hne).1]
    exact hwm
  · rintro rfl
    by_contra hne
    obtain ⟨-, hw, hu, hpw, -⟩ := connectFlags_bits hq
    have hle := hlen (hw.mpr hne)
    rw [hc.clientId, hc.willTopic, (hc.will hne).1, hc.username, hc.password, hd,
      stringsNeed_strings, if_pos hne] at hle
    simp only [hu, hpw, Version.level, if_true] at hle
    omega

/-- A CONNECT comes back as it was sent if and only if it is too long to be encoded at all, or no
string is longer than 65535 bytes, the will QoS is at most 3 and version 5 has no will. -/
theorem connect_round_trip_iff (v : Version) (cb : Callbacks σ) (hcb : cb.obliging)
    (alloc : ℕ → Bool) (ha : ∀ n, alloc n) (p : Parser) (hp : p.state = .fixedHeader)
    (hclean : p.hasError = false) (u : σ) (a : ConnectArgs) (buf : Bytes)
    (hbuf : buf.length = (encodeConnectIn v [] a).1) (hmax : connectNeedIn v a ≤ p.maxPayload) :
    ConnectRoundTrips v cb alloc p u a buf ↔ 2 ^ 28 ≤ connectNeedIn v a ∨ a.Sound v := by
  unfold ConnectRoundTrips
  rcases encodeConnectIn_frame v a hbuf with ⟨hbig, h0⟩ | ⟨rl, rest, hrl, hne, hframe, hlen, hfull⟩
  · exact ⟨fun _ => Or.inl hbig, fun _ => Or.inl h0⟩
  · have hlt := encodeRemainingLength_lt hrl
    have hbody : (connectHead v.level a ++ (connectProps v a ++ rest)).length
        = connectNeedIn v a := by
      simp only [length_append, connectHead_length, hlen, connectNeedIn]
      omega
    have hrec : ∀ c : Connect,
        Received cb alloc p u (encodeConnectIn v buf a).2 [.connect c] ↔
        readStrings v.level (connectFlags a) a.keepalive.toNat (propsSeen v a) rest = some c := by
      intro c
      rw [hframe, connect_received_iff hcb ha hp hclean u (by rw [hbody]; exact hrl)
        (by rw [hbody]; exact hmax), readConnect_props]
    simp only [hne, false_or, hrec, not_le.mpr hlt]
    constructor
    · rintro ⟨c, hagree, hread⟩
      exact agrees_sound hagree hlen hread
    · intro hs
      rw [hfull hs.fits]
      exact sound_agrees hs

end

def sampleConnect : ConnectArgs :=
  { clientId := lit "c", keepalive := 60, cleanSession := true, willTopic := lit "w"
    willMsg := lit "m", willQos := 1 }

/-- A CONNECT of version 3.1.1 with a will. -/
theorem connect_with_will_round_trips :
    ConnectRoundTrips .v311 willing (fun _ => true) (create (fun _ => true) 0 0) () sampleConnect
      (List.replicate 21 0) :=
  (connect_round_trip_iff .v311 willing willing_obliging (fun _ => true) (fun _ => rfl)
    (create (fun _ => true) 0 0) rfl rfl () sampleConnect (List.replicate 21 0) (by decide)
    (by decide)).mpr (Or.inr ⟨by unfold Fits; decide, by decide, by decide⟩)

/-- The same CONNECT in version 5 is refused: the parser takes the first byte of the will topic's
length for a property length and the second for the first of a length. -/
theorem connect_v5_with_will_refused : (encodeConnectIn .v5 [] sampleConnect).1 = 22 ∧
    ¬ ConnectRoundTrips .v5 willing (fun _ => true) (create (fun _ => true) 0 0) () sampleConnect
      (List.replicate 22 0) := by
  have hret : (execute willing.logged (fun _ => true) (create (fun _ => true) 0 0) ((), [])
      (encodeConnectIn .v5 (List.replicate 22 0) sampleConnect).2).ret = none := by decide
  refine ⟨by decide, ?_⟩
  rintro (h | ⟨c, -, hr, -⟩)
  · exact absurd h (by decide)
  · rw [hret] at hr
    simp at hr

end Voxlib.Mqtt
