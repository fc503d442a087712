import Voxlib.Mqtt.ConnectTrip

/-!
# The properties of CONNECT and CONNACK

Four of the standard's identifiers the parser does not know or gives another length.
-/

namespace Voxlib.Mqtt
open CStr Wire List

abbrev ShortText := { s : Bytes // s.length < 65536 }

inductive Property where
  | sessionExpiryInterval (n : UInt32)
  | assignedClientIdentifier (s : ShortText)
  | serverKeepAlive (n : UInt16)
  | authenticationMethod (s : ShortText)
  | authenticationData (s : ShortText)
  | requestProblemInformation (b : UInt8)
  | requestResponseInformation (b : UInt8)
  | responseInformation (s : ShortText)
  | serverReference (s : ShortText)
  | reasonString (s : ShortText)
  | receiveMaximum (n : UInt16)
  | topicAliasMaximum (n : UInt16)
  | maximumQos (b : UInt8)
  | retainAvailable (b : UInt8)
  | userProperty (key value : ShortText)
  | maximumPacketSize (n : UInt32)
  | wildcardSubscriptionAvailable (b : UInt8)
  | subscriptionIdentifierAvailable (b : UInt8)
  | sharedSubscriptionAvailable (b : UInt8)

def Property.id : Property → UInt8
  | .sessionExpiryInterval _ => 0x11
  | .assignedClientIdentifier _ => 0x12
  | .serverKeepAlive _ => 0x13
  | .authenticationMethod _ => 0x15
  | .authenticationData _ => 0x16
  | .requestProblemInformation _ => 0x17
  | .requestResponseInformation _ => 0x19
  | .responseInformation _ => 0x1A
  | .serverReference _ => 0x1C
  | .reasonString _ => 0x1F
  | .receiveMaximum _ => 0x21
  | .topicAliasMaximum _ => 0x22
  | .maximumQos _ => 0x24
  | .retainAvailable _ => 0x25
  | .userProperty _ _ => 0x26
  | .maximumPacketSize _ => 0x27
  | .wildcardSubscriptionAvailable _ => 0x28
  | .subscriptionIdentifierAvailable _ => 0x29
  | .sharedSubscriptionAvailable _ => 0x2A

def Property.value : Property → Bytes
  | .sessionExpiryInterval n | .maximumPacketSize n => u32 n.toNat
  | .serverKeepAlive n | .receiveMaximum n | .topicAliasMaximum n => u16 n.toNat
  | .requestProblemInformation b | .requestResponseInformation b | .maximumQos b
  | .retainAvailable b | .wildcardSubscriptionAvailable b | .subscriptionIdentifierAvailable b
  | .sharedSubscriptionAvailable b => [b]
  | .assignedClientIdentifier s | .authenticationMethod s | .authenticationData s
  | .responseInformation s | .serverReference s | .reasonString s => putString s.1
  | .userProperty key value => putString key.1 ++ putString value.1

def Property.bytes (k : Property) : Bytes := k.id :: k.value

def blockBytes (ks : List Property) : Bytes := ks.flatMap Property.bytes

def propertyBlock (ks : List Property) : Bytes :=
  encodeVarint (blockBytes ks).length ++ blockBytes ks

def Property.note (k : Property) (q : Properties) : Properties :=
  match k with
  | .sessionExpiryInterval n => { q with sessionExpiryInterval := n.toNat }
  | .receiveMaximum n => { q with receiveMaximum := n.toNat }
  | _ => q

/- The session expiry interval and the receive maximum that the list contains. -/
def contained (ks : List Property) : Properties := ks.foldl (fun q k => k.note q) {}

/- Properties that property_value_skip gives their length. -/
def Property.measured : Property → Bool
  | .serverKeepAlive _ | .requestProblemInformation _ | .requestResponseInformation _
  | .maximumQos _ | .maximumPacketSize _ => false
  | _ => true

def knownIds : List UInt8 :=
  [0x11, 0x21, 0x22, 0x23, 0x27, 0x25, 0x28, 0x29, 0x2A, 0x31, 0x2B, 0x2E, 0x2D, 0x12, 0x1F, 0x13,
    0x1A, 0x1C, 0x15, 0x16, 0x2F, 0x2C, 0x26]

theorem propertyValueSkip_unknown {id : UInt8} (h : id ∉ knownIds) (d : Bytes) :
    propertyValueSkip id d = none := by
  simp only [knownIds, mem_cons, not_mem_nil, or_false, not_or] at h
  unfold propertyValueSkip
  simp only [h, if_false, or_self]

theorem skipFixed_append {n : ℕ} (a : Bytes) (ha : a.length = n) (d : Bytes) :
    skipFixed n (a ++ d) = some n := by
  unfold skipFixed
  rw [if_pos (by rw [length_append]; omega)]

theorem skipString_put (s : ShortText) (d : Bytes) :
    skipString (putString s.1 ++ d) = some (putString s.1).length := by
  unfold skipString
  rw [takeString_putString s.2, putString_length]
  rfl

theorem propertyValueSkip_measured {k : Property} (hk : k.measured = true) (d : Bytes) :
    propertyValueSkip k.id (k.value ++ d) = some k.value.length := by
  cases k with
  | sessionExpiryInterval n => exact skipFixed_append (u32 n.toNat) rfl d
  | receiveMaximum n => exact skipFixed_append (u16 n.toNat) rfl d
  | topicAliasMaximum n => exact skipFixed_append (u16 n.toNat) rfl d
  | retainAvailable b => exact skipFixed_append [b] rfl d
  | wildcardSubscriptionAvailable b => exact skipFixed_append [b] rfl d
  | subscriptionIdentifierAvailable b => exact skipFixed_append [b] rfl d
  | sharedSubscriptionAvailable b => exact skipFixed_append [b] rfl d
  | assignedClientIdentifier s => exact skipString_put s d
  | authenticationMethod s => exact skipString_put s d
  | authenticationData s => exact skipString_put s d
  | responseInformation s => exact skipString_put s d
  | serverReference s => exact skipString_put s d
  | reasonString s => exact skipString_put s d
  | userProperty key value =>
    have hkey := takeString_putString key.2 (putString value.1 ++ d)
    have hvalue := takeString_putString value.2 d
    show (takeString ((putString key.1 ++ putString value.1) ++ d)).bind (fun k =>
      (takeString k.2).map fun v => 4 + k.1.length + v.1.length) = _
    rw [append_assoc, hkey, Option.bind_some, hvalue]
    simp only [Option.map_some, Property.value, length_append, putString_length]
    congr 1
    omega
  | serverKeepAlive n => simp [Property.measured] at hk
  | requestProblemInformation b => simp [Property.measured] at hk
  | requestResponseInformation b => simp [Property.measured] at hk
  | maximumQos b => simp [Property.measured] at hk
  | maximumPacketSize n => simp [Property.measured] at hk

theorem note_measured {k : Property} (hk : k.measured = true) (q : Properties) (d : Bytes) :
    q.note k.id k.value.length (k.value ++ d) = k.note q := by
  cases k with
  | sessionExpiryInterval n =>
    have hn := ofU32_ofNat n.toNat_lt
    simpa [Properties.note, Property.id, Property.value, Property.note, u32] using hn
  | receiveMaximum n =>
    have hn := ofU16_ofNat n.toNat_lt
    simpa [Properties.note, Property.id, Property.value, Property.note, u16] using hn
  | serverKeepAlive n => simp [Property.measured] at hk
  | requestProblemInformation b => simp [Property.measured] at hk
  | requestResponseInformation b => simp [Property.measured] at hk
  | maximumQos b => simp [Property.measured] at hk
  | maximumPacketSize n => simp [Property.measured] at hk
  | _ => simp [Properties.note, Property.id, Property.note]

/- The scan ends in or behind the property: its identifier is not known, the second byte of a
   Maximum Packet Size is taken for an identifier that is not known, or a Server Keep Alive for the
   length of a string that does not fit. `d` is behind the property. -/
def Property.halts (d : Bytes) : Property → Prop
  | .requestProblemInformation _ | .requestResponseInformation _ | .maximumQos _ => True
  | .maximumPacketSize n => UInt8.ofNat (n.toNat / 2 ^ 16) ∉ knownIds
  | .serverKeepAlive n => d.length < n.toNat
  | _ => False

theorem scanProperties_skip {id : UInt8} {d : Bytes} {n : ℕ}
    (hskip : propertyValueSkip id d = some n) (fuel : ℕ) (q : Properties) :
    scanProperties (fuel + 1) (id :: d) q = scanProperties fuel (d.drop n) (q.note id n d) := by
  rw [scanProperties, hskip]

theorem scanProperties_stop {id : UInt8} {d : Bytes} (hskip : propertyValueSkip id d = none)
    (fuel : ℕ) (q : Properties) : scanProperties fuel (id :: d) q = q := by
  cases fuel with
  | zero => rfl
  | succ fuel => rw [scanProperties, hskip]

theorem scanProperties_halted {k : Property} {d : Bytes} (hk : k.halts d) (q : Properties)
    {fuel : ℕ} (hfuel : k.bytes.length ≤ fuel) : scanProperties fuel (k.bytes ++ d) q = q := by
  have hunknown {id : UInt8} (hid : id ∉ knownIds) (fuel : ℕ) (d : Bytes) :
      scanProperties fuel (id :: d) q = q :=
    scanProperties_stop (propertyValueSkip_unknown hid d) fuel q
  cases k with
  | requestProblemInformation b => exact hunknown (by decide : (0x17 : UInt8) ∉ knownIds) fuel _
  | requestResponseInformation b => exact hunknown (by decide : (0x19 : UInt8) ∉ knownIds) fuel _
  | maximumQos b => exact hunknown (by decide : (0x24 : UInt8) ∉ knownIds) fuel _
  | maximumPacketSize n =>
    cases fuel with
    | zero => rfl
    | succ fuel =>
      have hskip : propertyValueSkip 0x27 (u32 n.toNat ++ d) = some 1 := by
        simp [propertyValueSkip, skipFixed, u32]
      exact (scanProperties_skip hskip fuel q).trans (hunknown hk fuel _)
  | serverKeepAlive n =>
    have hskip : propertyValueSkip 0x13 (u16 n.toNat ++ d) = none := by
      have hlong : (d.length < n.toNat) = True := eq_true hk
      show (takeString (u16 n.toNat ++ d)).map _ = none
      unfold takeString
      rw [takeU16_u16 n.toNat_lt, Option.bind_some, if_pos (of_eq_true hlong)]
      rfl
    exact scanProperties_stop hskip fuel q
  | _ => exact absurd hk (by simp [Property.halts])

def FirstHalts (ks : List Property) : Prop :=
  match ks.dropWhile Property.measured with
  | [] => True
  | k :: rest => k.halts (blockBytes rest)

variable {ks : List Property}

theorem scanProperties_block (hks : FirstHalts ks) (q : Properties) {fuel : ℕ}
    (hfuel : (blockBytes ks).length ≤ fuel) : scanProperties fuel (blockBytes ks) q =
      (ks.takeWhile Property.measured).foldl (fun q k => k.note q) q := by
  induction ks generalizing q fuel with
  | nil =>
    cases fuel with
    | zero => rfl
    | succ fuel => rfl
  | cons k ks ih =>
    have hblock : blockBytes (k :: ks) = k.bytes ++ blockBytes ks := flatMap_cons
    rw [hblock, length_append] at hfuel
    rw [hblock]
    by_cases hk : k.measured = true
    · obtain ⟨fuel, rfl⟩ : ∃ f, fuel = f + 1 := by
        have hlen : k.bytes.length = k.value.length + 1 := rfl
        exact ⟨fuel - 1, by omega⟩
      have hrest : FirstHalts ks := by
        unfold FirstHalts at hks
        rwa [dropWhile_cons_of_pos hk] at hks
      have hlen : (blockBytes ks).length ≤ fuel := by
        have hlen : k.bytes.length = k.value.length + 1 := rfl
        omega
      refine (scanProperties_skip (propertyValueSkip_measured hk _) fuel q).trans ?_
      rw [drop_left, note_measured hk, ih hrest _ hlen, takeWhile_cons_of_pos hk,
        foldl_cons]
    · have hhalts : k.halts (blockBytes ks) := by
        unfold FirstHalts at hks
        rwa [dropWhile_cons_of_neg hk] at hks
      rw [scanProperties_halted hhalts q (by omega), takeWhile_cons_of_neg hk]
      rfl

theorem readConnect_block (hlen : (blockBytes ks).length < 2 ^ 28) (flags : UInt8) (keepalive : ℕ)
    (payload : Bytes) : readConnect 5 flags keepalive (propertyBlock ks ++ payload) =
      readStrings 5 flags keepalive
        (scanProperties (blockBytes ks).length (blockBytes ks) {}) payload := by
  unfold readConnect propertyBlock
  rw [if_pos rfl, append_assoc, takeProperties_put hlen rfl]
  rfl

theorem parseConnack_block {σ : Type*} (cb : Callbacks σ) {p : Parser} (u : σ)
    (hlen : (blockBytes ks).length < 2 ^ 28) (hp : p.protocolVersion = 5) {a b : UInt8}
    (hbuf : p.buf = a :: b :: propertyBlock ks) :
    (⟨(parseConnack cb p u).p.connackSessionExpiryInterval,
      (parseConnack cb p u).p.connackReceiveMaximum⟩ : Properties) =
      scanProperties (blockBytes ks).length (blockBytes ks) {} := by
  have htake : takeProperties (p.buf.drop 2) = some (blockBytes ks, []) := by
    have hput := takeProperties_put hlen rfl []
    rw [append_nil] at hput
    rw [hbuf]
    exact hput
  have hpos : (propertyBlock ks).length > 0 := by
    have hcode := decodeVarint_size (decodeVarint_encodeVarint hlen (blockBytes ks))
    unfold propertyBlock
    omega
  have hlong : p.buf.length > 2 := by
    rw [hbuf, length_cons, length_cons]
    omega
  unfold parseConnack
  rw [if_neg (by omega), htake]
  dsimp only
  rw [if_pos ⟨hp, hlong⟩]
  rfl

theorem readStrings_empty (q : Properties) : ∃ a, readStrings 5 0 0 q (putString []) = some a ∧
    a.sessionExpiryInterval = q.sessionExpiryInterval ∧ a.receiveMaximum = q.receiveMaximum := by
  have hid := takeString_putString (s := []) (by norm_num) []
  rw [append_nil] at hid
  have hwill : takeWill 5 0 [] = some (([], []), []) := by
    unfold takeWill
    exact if_pos (by decide)
  have hif (flag : UInt8) : takeStringIf (0 &&& flag ≠ 0) [] = some ([], []) := by
    simp [takeStringIf]
  unfold readStrings
  rw [hid, Option.bind_some, hwill, Option.bind_some, hif, Option.bind_some, hif]
  exact ⟨_, rfl, rfl, rfl⟩

/- Behind the first property that is not measured nothing changes the two values. -/
def Legible (ks : List Property) : Prop :=
  contained (ks.takeWhile Property.measured) = contained ks

/-- Where the first property that is not measured ends the scan, the two values of the list are
reported exactly when nothing behind it changes them. -/
theorem properties_reported_iff {ks : List Property} (hlen : (blockBytes ks).length < 2 ^ 28)
    (hhalts : FirstHalts ks) :
    ((∀ flags keepalive payload, readConnect 5 flags keepalive (propertyBlock ks ++ payload) =
        readStrings 5 flags keepalive (contained ks) payload) ↔ Legible ks) ∧
      ∀ (cb : Callbacks Unit) (p : Parser) (a b : UInt8), p.protocolVersion = 5 →
        p.buf = a :: b :: propertyBlock ks →
        ((⟨(parseConnack cb p ()).p.connackSessionExpiryInterval,
          (parseConnack cb p ()).p.connackReceiveMaximum⟩ : Properties) = contained ks ↔
            Legible ks) := by
  have hscan : scanProperties (blockBytes ks).length (blockBytes ks) {} =
      contained (ks.takeWhile Property.measured) := scanProperties_block hhalts {} (le_refl _)
  constructor
  · constructor
    · intro hreport
      have hempty := hreport 0 0 (putString [])
      rw [readConnect_block hlen, hscan] at hempty
      obtain ⟨a, ha, hexpiry, hmaximum⟩ :=
        readStrings_empty (contained (ks.takeWhile Property.measured))
      obtain ⟨b, hb, hexpiry', hmaximum'⟩ := readStrings_empty (contained ks)
      obtain rfl : a = b := Option.some.inj ((ha.symm.trans hempty).trans hb)
      have hone := hexpiry.symm.trans hexpiry'
      have htwo := hmaximum.symm.trans hmaximum'
      unfold Legible
      cases hfront : contained (ks.takeWhile Property.measured) with
      | mk expiry maximum =>
        cases hall : contained ks with
        | mk expiry' maximum' =>
          rw [hfront, hall] at hone htwo
          obtain rfl : expiry = expiry' := hone
          obtain rfl : maximum = maximum' := htwo
          rfl
    · intro hlegible flags keepalive payload
      rw [readConnect_block hlen, hscan, hlegible]
  · intro cb p a b hp hbuf
    rw [parseConnack_block cb () hlen hp hbuf, hscan]
    rfl

def sizeLast : List Property :=
  [.sessionExpiryInterval 3600, .userProperty ⟨[107], by decide⟩ ⟨[118], by decide⟩,
    .receiveMaximum 20, .maximumPacketSize 65536]

theorem sizeLast_reported : readConnect 5 2 60 (propertyBlock sizeLast ++ putString [99]) =
    readStrings 5 2 60 ⟨3600, 20⟩ (putString [99]) := by
  have hhalts : FirstHalts sizeLast := by
    show UInt8.ofNat (UInt32.toNat 65536 / 2 ^ 16) ∉ knownIds
    decide
  have hlegible : Legible sizeLast := by
    unfold Legible
    decide
  exact (properties_reported_iff (by decide) hhalts).1.mpr hlegible 2 60 (putString [99])

def sizeFirst : List Property := [.maximumPacketSize 65536, .sessionExpiryInterval 3600]

def keepAliveFirst : List Property := [.serverKeepAlive 60, .receiveMaximum 20]

/-- A session expiry interval behind a packet size is not reported, and a receive maximum behind a
keep-alive neither. A packet size of 0x00210005 is read as a receive maximum of 5. -/
theorem values_not_reported : ((readConnect 5 2 60 (propertyBlock sizeFirst ++ putString [])).map
        Connect.sessionExpiryInterval = some 0 ∧
      (contained sizeFirst).sessionExpiryInterval = 3600) ∧
    (∀ (cb : Callbacks Unit) (p : Parser), p.protocolVersion = 5 →
      p.buf = 0 :: 0 :: propertyBlock keepAliveFirst →
      (parseConnack cb p ()).p.connackReceiveMaximum = 0 ∧
        (contained keepAliveFirst).receiveMaximum = 20) ∧
    (readConnect 5 2 60 (propertyBlock [.maximumPacketSize 0x00210005] ++ putString [])).map
        Connect.receiveMaximum = some 5 ∧
      (contained [.maximumPacketSize 0x00210005]).receiveMaximum = 0 := by
  refine ⟨by decide +kernel, fun cb p hp hbuf => ⟨?_, by decide⟩, by decide +kernel⟩
  have hblock := parseConnack_block cb () (by decide) hp hbuf
  have hscan : scanProperties (blockBytes keepAliveFirst).length (blockBytes keepAliveFirst) {} =
      ⟨0, 0⟩ := by
    decide
  exact congrArg Properties.receiveMaximum (hblock.trans hscan)

end Voxlib.Mqtt
