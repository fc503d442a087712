import Voxlib.Lib.Reads
import Voxlib.Mqtt.Parser

/-!
# The body parsers on offsets (vox_mqtt_parser.c:108-187, 289-579, 652-757)
-/

namespace Voxlib.Mqtt
open CStr Wire Voxlib.Reads

def skipFixedAt (k n : ℕ) : Scan UInt8 (Option ℕ) := .pure (if n ≥ k then some k else none)

def skipStringAt (off n : ℕ) : Scan UInt8 (Option ℕ) :=
  if n ≥ 2 then (u16At off).map fun k => if 2 + k ≤ n then some (2 + k) else none else .pure none

def skipPairAt (off n : ℕ) : Scan UInt8 (Option ℕ) :=
  if n ≥ 4 then
    (u16At off).bind fun k =>
      if 4 + k ≤ n then
        (u16At (off + 2 + k)).map fun v => if 4 + k + v ≤ n then some (4 + k + v) else none
      else .pure none
  else .pure none

def decodeVarintAt (off n : ℕ) : Scan UInt8 Read := varintAt off n 4 0 1 0

/-- property_value_skip (vox_mqtt_parser.c:108-169); `n` bytes are left in the block. -/
def propertyValueSkipAt (id : UInt8) (off n : ℕ) : Scan UInt8 (Option ℕ) :=
  if id = 0x11 then skipFixedAt 4 n
  else if id = 0x21 ∨ id = 0x22 ∨ id = 0x23 then skipFixedAt 2 n
  else if id = 0x27 ∨ id = 0x25 ∨ id = 0x28 ∨ id = 0x29 ∨ id = 0x2A ∨ id = 0x31 then
    skipFixedAt 1 n
  else if id = 0x2B ∨ id = 0x2E then skipFixedAt 4 n
  else if id = 0x2D ∨ id = 0x12 ∨ id = 0x1F ∨ id = 0x13 ∨ id = 0x1A ∨ id = 0x1C ∨ id = 0x15 then
    skipStringAt off n
  else if id = 0x16 ∨ id = 0x2F then skipStringAt off n
  else if id = 0x2C then
    (decodeVarintAt off n).map fun r => match r with
      | .ok _ size => some size
      | _ => none
  else if id = 0x26 then skipPairAt off n
  else .pure none

def noteAt (q : Properties) (id : UInt8) (skip pos : ℕ) : Scan UInt8 Properties :=
  if id = 0x11 ∧ skip ≥ 4 then
    (get pos).bind fun a => (get (pos + 1)).bind fun b => (get (pos + 2)).bind fun c =>
      (get (pos + 3)).map fun d => { q with sessionExpiryInterval := ofU32 a b c d }
  else if id = 0x21 ∧ skip ≥ 2 then
    (u16At pos).map fun n => { q with receiveMaximum := n }
  else .pure q

/-- The loop over a property block (vox_mqtt_parser.c:331-340, 669-679). -/
def scanPropertiesAt : (fuel pos propEnd : ℕ) → Properties → Scan UInt8 Properties
  | 0, _, _, q => .pure q
  | fuel + 1, pos, propEnd, q =>
    if pos < propEnd then
      (get pos).bind fun id =>
        (propertyValueSkipAt id (pos + 1) (propEnd - (pos + 1))).bind fun r => match r with
          | none => .pure q
          | some skip =>
            (noteAt q id skip (pos + 1)).bind fun q =>
              scanPropertiesAt fuel (pos + 1 + skip) propEnd q
    else .pure q

def takePropertiesAt (off len : ℕ) : Scan UInt8 (Option (ℕ × ℕ)) :=
  (decodeVarintAt off (len - off)).map fun r => match r with
    | .ok n size => if off + size + n > len then none else some (off + size, off + size + n)
    | _ => none

def skipPropertiesV5At (version off len : ℕ) : Scan UInt8 (Option ℕ) :=
  if version = 5 then
    if off ≥ len then .pure none else (takePropertiesAt off len).map (Option.map Prod.snd)
  else .pure (some off)

section
variable {mem : ℕ → UInt8} {len off : ℕ} {s d : Bytes}

theorem skipFixedAt_yields (k : ℕ) (s : Bytes) :
    Yields mem len (skipFixedAt k s.length) (· = skipFixed k s) := .pure rfl

theorem skipStringAt_yields (h : Held mem off s) (hlen : off + s.length ≤ len) :
    Yields mem len (skipStringAt off s.length) (· = skipString s) := by
  rcases s with _ | ⟨a, _ | ⟨b, s⟩⟩
  · exact .pure rfl
  · exact .pure rfl
  · rw [List.length_cons, List.length_cons] at hlen
    unfold skipStringAt
    rw [if_pos (by simp)]
    refine (u16At_yields h (by omega)).map fun k hk => ?_
    subst hk
    simp only [skipString, takeString, takeU16, Option.bind_some, List.length_cons]
    by_cases hlong : s.length < ofU16 a b
    · rw [if_pos hlong, if_neg (by omega)]
      rfl
    · rw [if_neg hlong, if_pos (by omega), Option.map_some, List.length_take,
        Nat.min_eq_left (by omega)]

theorem skipPairAt_yields (h : Held mem off s) (hlen : off + s.length ≤ len) :
    Yields mem len (skipPairAt off s.length) (· = (takeString s).bind fun k =>
        (takeString k.2).map fun v => 4 + k.1.length + v.1.length) := by
  rcases s with _ | ⟨a, _ | ⟨b, s⟩⟩
  · exact .pure rfl
  · exact .pure rfl
  · rw [List.length_cons, List.length_cons] at hlen
    unfold skipPairAt
    simp only [takeString, takeU16, Option.bind_some, List.length_cons]
    by_cases hshort : s.length + 1 + 1 ≥ 4
    · rw [if_pos hshort]
      refine (u16At_yields h (by omega)).bind fun k hk => ?_
      subst hk
      by_cases hlong : s.length < ofU16 a b
      · rw [if_pos hlong, if_neg (by omega)]
        exact .pure rfl
      · rw [if_neg hlong, Option.bind_some]
        have hheld : Held mem (off + 2 + ofU16 a b) (s.drop (ofU16 a b)) :=
          (h.drop 2).drop (ofU16 a b)
        have hdrop : (s.drop (ofU16 a b)).length = s.length - ofU16 a b := List.length_drop
        have htake : (s.take (ofU16 a b)).length = ofU16 a b := by
          rw [List.length_take, Nat.min_eq_left (by omega)]
        rw [htake]
        generalize s.drop (ofU16 a b) = v at hheld hdrop ⊢
        rcases v with _ | ⟨c, _ | ⟨e, r⟩⟩
        · rw [List.length_nil] at hdrop
          rw [if_neg (by omega)]
          exact .pure rfl
        · rw [List.length_singleton] at hdrop
          rw [if_neg (by omega)]
          exact .pure rfl
        · rw [List.length_cons, List.length_cons] at hdrop
          rw [if_pos (by omega)]
          refine (u16At_yields hheld (by omega)).map fun v hv => ?_
          subst hv
          dsimp only [Option.bind_some]
          by_cases hend : r.length < ofU16 c e
          · rw [if_pos hend, if_neg (by omega)]
            rfl
          · rw [if_neg hend, if_pos (by omega), Option.map_some, List.length_take,
              Nat.min_eq_left (by omega)]
    · rw [if_neg hshort]
      refine .pure ?_
      by_cases hlong : s.length < ofU16 a b
      · rw [if_pos hlong]
        rfl
      · rw [if_neg hlong, Option.bind_some]
        have hdrop : (s.drop (ofU16 a b)).length = s.length - ofU16 a b := List.length_drop
        generalize s.drop (ofU16 a b) = v at hdrop ⊢
        rcases v with _ | ⟨c, _ | ⟨e, r⟩⟩
        · rfl
        · rfl
        · rw [List.length_cons, List.length_cons] at hdrop
          omega

theorem decodeVarintAt_yields (h : Held mem off s) (hlen : off + s.length ≤ len) :
    Yields mem len (decodeVarintAt off s.length) (· = decodeVarint s) :=
  varintAt_yields h hlen 4 0 1 (Nat.zero_le _)

theorem propertyValueSkipAt_yields (id : UInt8) (h : Held mem off s) (hlen : off + s.length ≤ len) :
    Yields mem len (propertyValueSkipAt id off s.length) (· = propertyValueSkip id s) := by
  unfold propertyValueSkipAt propertyValueSkip
  apply Yields.ite (skipFixedAt_yields 4 s)
  apply Yields.ite (skipFixedAt_yields 2 s)
  apply Yields.ite (skipFixedAt_yields 1 s)
  apply Yields.ite (skipFixedAt_yields 4 s)
  apply Yields.ite (skipStringAt_yields h hlen)
  apply Yields.ite (skipStringAt_yields h hlen)
  refine Yields.ite ?_ (Yields.ite (skipPairAt_yields h hlen) (.pure rfl))
  refine (decodeVarintAt_yields h hlen).map fun r hr => ?_
  subst hr
  rfl

theorem propertyValueSkip_le {id : UInt8} {k : ℕ} (h : propertyValueSkip id s = some k) :
    k ≤ s.length := by
  have hfixed {n : ℕ} (h : skipFixed n s = some k) : k ≤ s.length := by
    unfold skipFixed at h
    split at h
    · next hn => exact Option.some.inj h ▸ hn
    · cases h
  have hstring (h : skipString s = some k) : k ≤ s.length := by
    obtain ⟨x, hx, rfl⟩ := Option.map_eq_some_iff.mp h
    have := (takeString_some hx).2
    omega
  have hbranch {c : Prop} [Decidable c] {o o' : Option ℕ} (ho : o = some k → k ≤ s.length)
      (ho' : o' = some k → k ≤ s.length) (h : (if c then o else o') = some k) :
      k ≤ s.length := by
    by_cases hc : c
    · exact ho (by rwa [if_pos hc] at h)
    · exact ho' (by rwa [if_neg hc] at h)
  unfold propertyValueSkip at h
  refine hbranch hfixed (hbranch hfixed (hbranch hfixed (hbranch hfixed (hbranch hstring
    (hbranch hstring (hbranch (fun h => ?_) (hbranch (fun h => ?_) fun h => ?_))))))) h
  · split at h
    · next n size hread =>
      have := (readVarint_size hread).2
      obtain rfl := Option.some.inj h
      omega
    · cases h
  · obtain ⟨x, hx, hrest⟩ := Option.bind_eq_some_iff.mp h
    obtain ⟨y, hy, rfl⟩ := Option.map_eq_some_iff.mp hrest
    have hfirst := (takeString_some hx).2
    have hsecond := (takeString_some hy).2
    omega
  · cases h

theorem noteAt_yields (q : Properties) (id : UInt8) {skip : ℕ} (h : Held mem off s)
    (hskip : skip ≤ s.length) (hlen : off + s.length ≤ len) :
    Yields mem len (noteAt q id skip off) (· = q.note id skip s) := by
  have hbyte (i : ℕ) (hi : i < s.length) : mem (off + i) = s.getD i 0 := h.getD hi 0
  unfold noteAt Properties.note
  by_cases hexpiry : id = 0x11 ∧ skip ≥ 4
  · have hmaximum : ¬ (id = 0x21 ∧ skip ≥ 2) := by
      rintro ⟨hid, -⟩
      rw [hexpiry.1] at hid
      exact absurd hid (by decide)
    have hroom := hexpiry.2
    rw [if_pos hexpiry, if_pos hexpiry, if_neg hmaximum]
    refine (Yields.get (by omega)).bind fun a ha => (Yields.get (by omega)).bind fun b hb =>
      (Yields.get (by omega)).bind fun c hc => (Yields.get (by omega)).map fun d hd => ?_
    rw [ha, hb, hc, hd, ← hbyte 0 (by omega), ← hbyte 1 (by omega), ← hbyte 2 (by omega),
      ← hbyte 3 (by omega)]
    rfl
  · rw [if_neg hexpiry, if_neg hexpiry]
    by_cases hmaximum : id = 0x21 ∧ skip ≥ 2
    · have hroom := hmaximum.2
      rw [if_pos hmaximum, if_pos hmaximum]
      refine (u16At_reads (by omega)).map fun n hn => ?_
      rw [hn, ← hbyte 0 (by omega), ← hbyte 1 (by omega)]
      rfl
    · rw [if_neg hmaximum, if_neg hmaximum]
      exact .pure rfl

theorem scanPropertiesAt_yields (fuel : ℕ) (q : Properties) (h : Held mem off s)
    (hlen : off + s.length ≤ len) : Yields mem len (scanPropertiesAt fuel off (off + s.length) q)
      (· = scanProperties fuel s q) := by
  induction fuel generalizing off s q with
  | zero => exact .pure rfl
  | succ fuel ih =>
    unfold scanPropertiesAt
    cases s with
    | nil =>
      rw [if_neg (by simp)]
      exact .pure rfl
    | cons id s =>
      rw [List.length_cons] at hlen ⊢
      rw [if_pos (by omega)]
      refine (Yields.get (by omega)).bind fun a ha => ?_
      obtain rfl := ha.trans h.head
      have hleft : off + (s.length + 1) - (off + 1) = s.length := by omega
      rw [hleft]
      refine (propertyValueSkipAt_yields a h.tail (by omega)).bind fun r hr => ?_
      subst hr
      unfold scanProperties
      cases hskip : propertyValueSkip a s with
      | none => exact .pure rfl
      | some skip =>
        have hfits := propertyValueSkip_le hskip
        refine (noteAt_yields q a h.tail hfits (by omega)).bind fun q' hq => ?_
        subst hq
        have hdrop : (s.drop skip).length = s.length - skip := List.length_drop
        have hend : off + (s.length + 1) = off + 1 + skip + (s.drop skip).length := by omega
        rw [hend]
        exact ih _ (h.tail.drop skip) (by omega)

def Encloses (mem : ℕ → UInt8) (len : ℕ) (x : ℕ × ℕ) (y : Bytes × Bytes) : Prop :=
  Held mem x.1 y.1 ∧ x.2 = x.1 + y.1.length ∧ Rest mem len x.2 y.2

theorem takePropertiesAt_yields (h : Rest mem len off d) : Yields mem len (takePropertiesAt off len)
      (Option.Rel (Encloses mem len) · (takeProperties d)) := by
  have hends := h.ends
  have hleft : len - off = d.length := by omega
  unfold takePropertiesAt takeProperties
  rw [hleft]
  refine (decodeVarintAt_yields h.held (by omega)).map fun r hr => ?_
  subst hr
  cases decodeVarint d with
  | more => exact .none
  | bad => exact .none
  | ok n size =>
    dsimp only
    by_cases hlong : d.length < size + n
    · rw [if_pos hlong, if_pos (by omega)]
      exact .none
    · rw [if_neg hlong, if_neg (by omega)]
      have htake : ((d.drop size).take n).length = n := by
        rw [List.length_take, List.length_drop, Nat.min_eq_left (by omega)]
      refine .some ⟨(h.held.drop size).take n, ?_, ?_⟩
      · rw [htake]
      · rw [Nat.add_assoc]
        exact h.drop (by omega)

theorem skipPropertiesV5At_yields (version : ℕ) (h : Rest mem len off d) :
    Yields mem len (skipPropertiesV5At version off len)
      (Option.Rel (Rest mem len) · (skipPropertiesV5 version d)) := by
  unfold skipPropertiesV5At skipPropertiesV5
  by_cases hversion : version = 5
  · rw [if_pos hversion, if_pos hversion]
    by_cases hnone : off ≥ len
    · rw [if_pos hnone]
      have hends := h.ends
      obtain rfl : d = [] := List.length_eq_zero_iff.mp (by omega)
      exact .pure .none
    · rw [if_neg hnone]
      exact (takePropertiesAt_yields h).mapSome fun x y _ hxy => hxy.2.2
  · rw [if_neg hversion, if_neg hversion]
    exact .pure (.some h)

end

def takeStringIfAt (c : Bool) (off len : ℕ) : Scan UInt8 (Option (Bytes × ℕ)) :=
  if c then takeStringAt off len else .pure (some ([], off))

/- Behind the property block of the will, which may end behind the packet. -/
def skipWillProperties (version off len : ℕ) : Scan UInt8 (Option ℕ) :=
  if version = 5 then
    if off > len then .pure none
    else
      (decodeVarintAt off (len - off)).map fun r => match r with
        | .ok n size => some (off + (size + n))
        | _ => none
  else .pure (some off)

def takeWillAt (version : ℕ) (flags : UInt8) (off len : ℕ) :
    Scan UInt8 (Option ((Bytes × Bytes) × ℕ)) :=
  if flags &&& flagWill = 0 then .pure (some (([], []), off))
  else
    (skipWillProperties version off len).bindSome fun off =>
      (takeStringAt off len).bindSome fun t =>
        (takeStringAt t.2 len).map (Option.map fun m => ((t.1, m.1), m.2))

/-- The strings of a CONNECT, read in order (vox_mqtt_parser.c:344-405). -/
def readStringsAt (version : ℕ) (flags : UInt8) (keepalive : ℕ) (q : Properties) (off len : ℕ) :
    Scan UInt8 (Option Connect) :=
  (takeStringAt off len).bindSome fun id =>
  (takeWillAt version flags id.2 len).bindSome fun w =>
  (takeStringIfAt (flags &&& flagUsername ≠ 0) w.2 len).bindSome fun user =>
  (takeStringIfAt (flags &&& flagPassword ≠ 0) user.2 len).map (Option.map fun pass =>
    { clientId := id.1, protocolVersion := version, keepalive := keepalive, flags := flags
      willTopic := w.1.1, willMsg := w.1.2, username := user.1, password := pass.1
      sessionExpiryInterval := q.sessionExpiryInterval
      receiveMaximum := q.receiveMaximum })

/-- parse_connect_payload behind the keep-alive (vox_mqtt_parser.c:321-405). -/
def readConnectAt (version : ℕ) (flags : UInt8) (keepalive off len : ℕ) :
    Scan UInt8 (Option Connect) :=
  if version = 5 then
    (takePropertiesAt off len).bindSome fun b =>
      (scanPropertiesAt (b.2 - b.1) b.1 b.2 {}).bind fun q =>
        readStringsAt version flags keepalive q b.2 len
  else readStringsAt version flags keepalive {} off len

section
variable {mem : ℕ → UInt8} {len off : ℕ} {s d : Bytes}

theorem takeStringIfAt_yields (c : Bool) (h : Rest mem len off d) :
    Yields mem len (takeStringIfAt c off len)
      (Option.Rel (Follows mem len) · (takeStringIf c d)) := by
  unfold takeStringIfAt takeStringIf
  split
  · exact takeStringAt_yields h
  · exact .pure (.some ⟨rfl, h⟩)

theorem takeStringAt_behind (h : len < off) :
    Yields mem len (takeStringAt off len) (Option.Rel (Follows mem len) · (takeString [])) := by
  unfold takeStringAt takeU16At
  rw [if_pos (by omega)]
  exact .pure .none

def RestOrBehind (mem : ℕ → UInt8) (len off : ℕ) (d : Bytes) : Prop :=
  Rest mem len off d ∨ len < off ∧ d = []

theorem skipWillProperties_yields (version : ℕ) (h : Rest mem len off d) :
    Yields mem len (skipWillProperties version off len) (Option.Rel (RestOrBehind mem len) ·
        (if version = 5 then match decodeVarint d with
          | .ok n size => some (d.drop (size + n))
          | _ => none
        else some d)) := by
  have hends := h.ends
  have hleft : len - off = d.length := by omega
  unfold skipWillProperties
  by_cases hversion : version = 5
  · rw [if_pos hversion, if_pos hversion, if_neg (by omega), hleft]
    refine (decodeVarintAt_yields h.held (by omega)).map fun r hr => ?_
    subst hr
    cases decodeVarint d with
    | more => exact .none
    | bad => exact .none
    | ok n size =>
      refine .some ?_
      by_cases hlong : d.length < size + n
      · exact .inr ⟨by omega, List.drop_eq_nil_of_le (by omega)⟩
      · exact .inl (h.drop (by omega))
  · rw [if_neg hversion, if_neg hversion]
    exact .pure (.some (.inl h))

theorem takeWillAt_yields (version : ℕ) (flags : UInt8) (h : Rest mem len off d) :
    Yields mem len (takeWillAt version flags off len)
      (Option.Rel (Follows mem len) · (takeWill version flags d)) := by
  unfold takeWillAt takeWill
  split
  · exact .pure (.some ⟨rfl, h⟩)
  · refine (skipWillProperties_yields version h).bindSome fun off' d' _ hrest => ?_
    have htopic : Yields mem len (takeStringAt off' len)
        (Option.Rel (Follows mem len) · (takeString d')) := by
      rcases hrest with hrest | ⟨hbehind, rfl⟩
      · exact takeStringAt_yields hrest
      · exact takeStringAt_behind hbehind
    refine htopic.bindSome fun t t' _ ht => ?_
    refine (takeStringAt_yields ht.2).mapSome fun m m' _ hm => ⟨?_, hm.2⟩
    rw [ht.1, hm.1]

theorem readStringsAt_yields (version : ℕ) (flags : UInt8) (keepalive : ℕ) (q : Properties)
    (h : Rest mem len off d) : Yields mem len (readStringsAt version flags keepalive q off len)
      (Option.Rel Eq · (readStrings version flags keepalive q d)) := by
  unfold readStringsAt readStrings
  refine (takeStringAt_yields h).bindSome fun id id' _ hid => ?_
  refine (takeWillAt_yields version flags hid.2).bindSome fun w w' _ hw => ?_
  refine (takeStringIfAt_yields _ hw.2).bindSome fun user user' _ huser => ?_
  refine (takeStringIfAt_yields _ huser.2).mapSome fun pass pass' _ hpass => ?_
  rw [hid.1, hw.1, huser.1, hpass.1]

theorem readConnectAt_yields (version : ℕ) (flags : UInt8) (keepalive : ℕ)
    (h : Rest mem len off d) : Yields mem len (readConnectAt version flags keepalive off len)
      (Option.Rel Eq · (readConnect version flags keepalive d)) := by
  unfold readConnectAt readConnect
  split
  · refine (takePropertiesAt_yields h).bindSome fun b b' _ hb => ?_
    obtain ⟨hheld, hend, hrest⟩ := hb
    have hends := hrest.ends
    have hfuel : b.2 - b.1 = b'.1.length := by omega
    rw [hfuel, hend]
    refine (scanPropertiesAt_yields b'.1.length {} hheld (by omega)).bind fun q hq => ?_
    subst hq
    rw [← hend]
    exact readStringsAt_yields version flags keepalive _ hrest
  · exact readStringsAt_yields version flags keepalive {} h

end

/-- parse_publish_payload (vox_mqtt_parser.c:418-450). -/
def readPublishAt (p : Parser) (len : ℕ) : Scan UInt8 (Option Publish) :=
  (takeStringAt 0 len).bindSome fun t =>
    let qos := p.flags / 2 % 4
    (if qos > 0 then takeU16At t.2 len else .pure (some (0, t.2))).bindSome fun id =>
      (skipPropertiesV5At p.protocolVersion id.2 len).bindSome fun off =>
        (span off (len - off)).map fun payload =>
          some { qos := qos, retain := p.flags / 16 % 2 = 1, packetId := id.1, topic := t.1
                 payload := payload }

def takePacketIdAt (p : Parser) (len : ℕ) : Scan UInt8 (Option (ℕ × ℕ)) :=
  (takeU16At 0 len).bindSome fun id =>
    (skipPropertiesV5At p.protocolVersion id.2 len).map (Option.map fun off => (id.1, off))

/- parse_packet_id_with_v5_props and parse_unsuback_payload (vox_mqtt_parser.c:556-579). -/
def packetIdWithV5PropsAt (p : Parser) (len : ℕ) : Scan UInt8 (Option ℕ) :=
  (takeU16At 0 len).bindSome fun id =>
    if p.protocolVersion = 5 ∧ len > 2 then
      (takePropertiesAt id.2 len).map (Option.map fun _ => id.1)
    else .pure (some id.1)

def countFiltersAt : (fuel off len : ℕ) → Scan UInt8 ℕ
  | 0, _, _ => .pure 0
  | fuel + 1, off, len =>
    (takeU16At off len).bind fun r => match r with
      | none => .pure 0
      | some n =>
        if n.2 + n.1 + 1 > len then .pure 0
        else (countFiltersAt fuel (n.2 + (n.1 + 1)) len).map (· + 1)

section
variable {σ : Type*} (cb : Callbacks σ) (alloc : ℕ → Bool)

def grantFiltersAt (version id len : ℕ) : (left off : ℕ) → σ → Scan UInt8 (Bytes × σ)
  | 0, _, u => .pure ([], u)
  | left + 1, off, u =>
    (takeU16At off len).bind fun r => match r with
      | none => .pure ([], u)
      | some n =>
        if n.2 + n.1 + 1 > len then .pure ([], u)
        else
          (span n.2 n.1).bind fun topic => (get (n.2 + n.1)).bind fun b =>
            let options := b.toNat
            let g := grant cb u id topic (if version = 5 then options % 4 else options)
            (grantFiltersAt version id len left (n.2 + (n.1 + 1)) g.2).map fun r =>
              (g.1 :: r.1, r.2)

def dropFiltersAt (id len : ℕ) : (fuel off : ℕ) → σ → Scan UInt8 (Bool × σ)
  | 0, _, u => .pure (true, u)
  | fuel + 1, off, u =>
    (takeStringAt off len).bind fun r => match r with
      | none => .pure (true, u)
      | some t =>
        let r := invoke cb u (.unsubscribe id t.1)
        if r.1 = 0 then dropFiltersAt id len fuel t.2 r.2 else .pure (false, r.2)

/-- parse_connect_payload (vox_mqtt_parser.c:289-415). -/
def parseConnectPayloadAt (p : Parser) (u : σ) (len : ℕ) : Scan UInt8 (Reply σ) :=
  if len < 8 then .pure (failed p u)
  else
    (u16At 0).bind fun protoLen =>
      if protoLen ≠ 4 ∧ protoLen ≠ 6 then
        .pure (failedWith cb p u "invalid CONNECT protocol length")
      else if len < 2 + protoLen + 4 then .pure (failed p u)
      else
        (get (2 + protoLen)).bind fun version => (span 2 protoLen).bind fun name =>
          if ¬ protocolKnown name version.toNat then
            .pure (failedWith cb p u "invalid CONNECT protocol")
          else
            (get (2 + protoLen + 1)).bind fun flags =>
            (u16At (2 + protoLen + 2)).bind fun keepalive =>
              let p := { p with protocolVersion := version.toNat }
              (readConnectAt version.toNat flags keepalive (2 + protoLen + 4) len).map fun r =>
                match r with
                | none => failed p u
                | some c => callWith cb p u (.connect c)

def connackPropertiesAt (p : Parser) (len : ℕ) : Scan UInt8 Parser :=
  if p.protocolVersion = 5 ∧ len > 2 then
    (takePropertiesAt 2 len).bind fun r =>
      (match r with
        | none => .pure {}
        | some b => scanPropertiesAt (b.2 - b.1) b.1 b.2 {} : Scan UInt8 Properties).map fun q =>
          { p with
            connackSessionExpiryInterval := q.sessionExpiryInterval
            connackReceiveMaximum := q.receiveMaximum }
  else .pure p

/-- The CONNACK case (vox_mqtt_parser.c:671-699). -/
def parseConnackAt (p : Parser) (u : σ) (len : ℕ) : Scan UInt8 (Reply σ) :=
  if len < 2 then .pure ⟨true, p, u⟩
  else
    (connackPropertiesAt p len).bind fun p => (get 0).bind fun a => (get 1).map fun b =>
      callWith cb p u (.connack (a &&& 1) b)

def parsePublishPayloadAt (p : Parser) (u : σ) (len : ℕ) : Scan UInt8 (Reply σ) :=
  (readPublishAt p len).map fun r => match r with
    | none => failed p u
    | some m => callWith cb p u (.publish m)

/-- parse_subscribe_payload (vox_mqtt_parser.c:453-504). -/
def parseSubscribePayloadAt (p : Parser) (u : σ) (len : ℕ) : Scan UInt8 (Reply σ) :=
  (takePacketIdAt p len).bind fun r => match r with
    | none => .pure (failed p u)
    | some x =>
      (countFiltersAt (len - x.2) x.2 len).bind fun count =>
        if count ≠ 0 ∧ ¬ alloc count then .pure (failed p u)
        else
          (grantFiltersAt cb p.protocolVersion x.1 len count x.2 u).map fun r =>
            callWith cb p r.2 (.subscribeDone x.1 r.1)

/-- parse_suback_payload (vox_mqtt_parser.c:507-525). -/
def parseSubackPayloadAt (p : Parser) (u : σ) (len : ℕ) : Scan UInt8 (Reply σ) :=
  (takePacketIdAt p len).bind fun r => match r with
    | none => .pure (failed p u)
    | some x => (span x.2 (len - x.2)).map fun codes => callWith cb p u (.suback x.1 codes)

/-- parse_unsubscribe_payload (vox_mqtt_parser.c:528-553). -/
def parseUnsubscribePayloadAt (p : Parser) (u : σ) (len : ℕ) : Scan UInt8 (Reply σ) :=
  (takePacketIdAt p len).bind fun r => match r with
    | none => .pure (failed p u)
    | some x => (dropFiltersAt cb x.1 len (len - x.2) x.2 u).map fun r => ⟨r.1, p, r.2⟩

def parsePacketIdAt (p : Parser) (u : σ) (c : ℕ → Call) (len : ℕ) : Scan UInt8 (Reply σ) :=
  (packetIdWithV5PropsAt p len).map fun r => match r with
    | none => failed p u
    | some id => callWith cb p u (c id)

def parseUnsubackAt (p : Parser) (u : σ) (len : ℕ) : Scan UInt8 (Reply σ) :=
  (packetIdWithV5PropsAt p len).map fun r => match r with
    | none => failed p u
    | some id => if cb.installed .onUnsuback then callWith cb p u (.unsuback id) else failed p u

/-- The switch over a complete packet of `len` bytes (vox_mqtt_parser.c:651-751). -/
def dispatchAt (p : Parser) (u : σ) (len : ℕ) : Scan UInt8 (Reply σ) :=
  match p.type with
  | .connect => parseConnectPayloadAt cb p u len
  | .connack => parseConnackAt cb p u len
  | .publish => parsePublishPayloadAt cb p u len
  | .puback => parsePacketIdAt cb p u .puback len
  | .pubrec => parsePacketIdAt cb p u .pubrec len
  | .pubrel => parsePacketIdAt cb p u .pubrel len
  | .pubcomp => parsePacketIdAt cb p u .pubcomp len
  | .subscribe => parseSubscribePayloadAt cb alloc p u len
  | .suback => parseSubackPayloadAt cb p u len
  | .unsubscribe => parseUnsubscribePayloadAt cb p u len
  | .unsuback => parseUnsubackAt cb p u len
  | .pingreq | .pingresp | .disconnect | .auth =>
    .pure (failedWith cb p u "unsupported packet type")

variable {cb} {alloc} {mem : ℕ → UInt8} {len off : ℕ} {s d : Bytes}

theorem Rest.span (h : Rest mem len off d) : Yields mem len (span off (len - off)) (· = d) := by
  have hends := h.ends
  have hleft : len - off = d.length := by omega
  rw [hleft]
  exact (Yields.span h.held (le_refl _) (by omega)).weaken fun s hs => by rw [hs, List.take_length]

theorem readPublishAt_yields {p : Parser} (h : Rest mem len 0 p.buf) :
    Yields mem len (readPublishAt p len) (Option.Rel Eq · (readPublish p)) := by
  unfold readPublishAt readPublish
  refine (takeStringAt_yields h).bindSome fun t t' _ ht => ?_
  have hid : Yields mem len
      (if p.flags / 2 % 4 > 0 then takeU16At t.2 len else .pure (some (0, t.2)))
      (Option.Rel (Follows mem len) ·
        (if p.flags / 2 % 4 > 0 then takeU16 t'.2 else some (0, t'.2))) := by
    split
    · exact takeU16At_yields ht.2
    · exact .pure (.some ⟨rfl, ht.2⟩)
  refine hid.bindSome fun id id' _ hid => ?_
  rw [Option.map_eq_bind]
  refine (skipPropertiesV5At_yields _ hid.2).bindSome fun off rest _ hrest => ?_
  refine (Rest.span hrest).map fun payload hpayload => .some ?_
  rw [hpayload, ht.1, hid.1]

theorem takePacketIdAt_yields {p : Parser} (h : Rest mem len 0 p.buf) :
    Yields mem len (takePacketIdAt p len) (Option.Rel (Follows mem len) · (takePacketId p)) := by
  unfold takePacketIdAt takePacketId
  refine (takeU16At_yields h).bindSome fun id id' _ hid => ?_
  exact (skipPropertiesV5At_yields _ hid.2).mapSome fun off rest _ hrest => ⟨hid.1, hrest⟩

theorem packetIdWithV5PropsAt_yields {p : Parser} (h : Rest mem len 0 p.buf) :
    Yields mem len (packetIdWithV5PropsAt p len) (Option.Rel Eq · (packetIdWithV5Props p)) := by
  have hlen : p.buf.length = len := by
    have := h.ends
    omega
  unfold packetIdWithV5PropsAt packetIdWithV5Props
  refine (takeU16At_yields h).bindSome fun id id' _ hid => ?_
  rw [hlen]
  by_cases hmore : len > 2
  · rw [if_pos hmore]
    unfold skipPropertiesV5
    by_cases hversion : p.protocolVersion = 5
    · rw [if_pos ⟨hversion, hmore⟩, if_pos hversion, Option.map_map]
      exact (takePropertiesAt_yields hid.2).mapSome fun _ _ _ _ => hid.1
    · rw [if_neg fun h => hversion h.1, if_neg hversion]
      exact .pure (.some hid.1)
  · rw [if_neg fun h => hmore h.2, if_neg hmore]
    exact .pure (.some hid.1)

theorem countFiltersAt_yields (fuel : ℕ) (h : Rest mem len off d) :
    Yields mem len (countFiltersAt fuel off len) (· = countFilters fuel d) := by
  induction fuel generalizing off d with
  | zero => exact .pure rfl
  | succ fuel ih =>
    unfold countFiltersAt countFilters
    refine (takeU16At_yields h).bind fun r hr => ?_
    generalize takeU16 d = o at hr ⊢
    cases hr with
    | none => exact .pure rfl
    | @some x y hx =>
      obtain ⟨hn, hrest⟩ := hx
      have hends := hrest.ends
      dsimp only
      by_cases hlong : y.2.length < y.1 + 1
      · rw [if_pos hlong, if_pos (by omega)]
        exact .pure rfl
      · rw [if_neg hlong, if_neg (by omega), hn]
        exact (ih (hrest.drop (by omega))).map fun n hn => by rw [hn]

theorem grantFiltersAt_yields (version id left : ℕ) (u : σ) (h : Rest mem len off d) :
    Yields mem len (grantFiltersAt cb version id len left off u)
      (· = grantFilters cb version id left d u) := by
  induction left generalizing off d u with
  | zero => exact .pure rfl
  | succ left ih =>
    unfold grantFiltersAt grantFilters
    refine (takeU16At_yields h).bind fun r hr => ?_
    generalize takeU16 d = o at hr ⊢
    cases hr with
    | none => exact .pure rfl
    | @some x y hx =>
      obtain ⟨hn, hrest⟩ := hx
      have hends := hrest.ends
      dsimp only
      by_cases hlong : y.2.length < y.1 + 1
      · rw [if_pos hlong, if_pos (by omega)]
        exact .pure rfl
      · rw [if_neg hlong, if_neg (by omega), hn]
        refine (Yields.span hrest.held (by omega) (by omega)).bind fun topic htopic => ?_
        refine (Yields.get (by omega)).bind fun b hb => ?_
        have hoptions : y.2.getD y.1 0 = b := by rw [hb, hrest.held.getD (by omega)]
        rw [hoptions, htopic]
        exact (ih _ (hrest.drop (by omega))).map fun r hr => by rw [hr]

theorem dropFiltersAt_yields (id fuel : ℕ) (u : σ) (h : Rest mem len off d) :
    Yields mem len (dropFiltersAt cb id len fuel off u) (· = dropFilters cb id fuel d u) := by
  induction fuel generalizing off d u with
  | zero => exact .pure rfl
  | succ fuel ih =>
    unfold dropFiltersAt dropFilters
    refine (takeStringAt_yields h).bind fun r hr => ?_
    generalize takeString d = o at hr ⊢
    cases hr with
    | none => exact .pure rfl
    | @some x y hx =>
      obtain ⟨htopic, hrest⟩ := hx
      dsimp only
      rw [htopic]
      split
      · exact ih _ hrest
      · exact .pure rfl

def Agrees (mem : ℕ → UInt8) (p : Parser) (m : Scan UInt8 (Reply σ)) (r : Reply σ) : Prop :=
  Rest mem p.buf.length 0 p.buf → Yields mem p.buf.length m (· = r)

theorem parsePacketIdAt_agrees (p : Parser) (u : σ) (c : ℕ → Call) :
    Agrees mem p (parsePacketIdAt cb p u c p.buf.length) (parsePacketId cb p u c) := by
  intro h
  unfold parsePacketIdAt parsePacketId
  refine (packetIdWithV5PropsAt_yields h).map fun r hr => ?_
  obtain rfl := rel_eq hr
  rfl

theorem parseUnsubackAt_agrees (p : Parser) (u : σ) :
    Agrees mem p (parseUnsubackAt cb p u p.buf.length) (parseUnsuback cb p u) := by
  intro h
  unfold parseUnsubackAt parseUnsuback
  refine (packetIdWithV5PropsAt_yields h).map fun r hr => ?_
  obtain rfl := rel_eq hr
  rfl

theorem parsePublishPayloadAt_agrees (p : Parser) (u : σ) :
    Agrees mem p (parsePublishPayloadAt cb p u p.buf.length) (parsePublishPayload cb p u) := by
  intro h
  unfold parsePublishPayloadAt parsePublishPayload
  refine (readPublishAt_yields h).map fun r hr => ?_
  obtain rfl := rel_eq hr
  rfl

theorem parseSubackPayloadAt_agrees (p : Parser) (u : σ) :
    Agrees mem p (parseSubackPayloadAt cb p u p.buf.length) (parseSubackPayload cb p u) := by
  intro h
  unfold parseSubackPayloadAt parseSubackPayload
  refine (takePacketIdAt_yields h).bind fun r hr => ?_
  generalize takePacketId p = o at hr ⊢
  cases hr with
  | none => exact .pure rfl
  | @some x y hxy =>
    refine (Rest.span hxy.2).map fun codes hcodes => ?_
    rw [hcodes, hxy.1]

theorem parseUnsubscribePayloadAt_agrees (p : Parser) (u : σ) :
    Agrees mem p (parseUnsubscribePayloadAt cb p u p.buf.length)
      (parseUnsubscribePayload cb p u) := by
  intro h
  unfold parseUnsubscribePayloadAt parseUnsubscribePayload
  refine (takePacketIdAt_yields h).bind fun r hr => ?_
  generalize takePacketId p = o at hr ⊢
  cases hr with
  | none => exact .pure rfl
  | @some x y hxy =>
    have hends := hxy.2.ends
    have hfuel : p.buf.length - x.2 = y.2.length := by omega
    dsimp only
    rw [hfuel, hxy.1]
    refine (dropFiltersAt_yields y.1 y.2.length u hxy.2).map fun r hr => ?_
    rw [hr]

theorem parseSubscribePayloadAt_agrees (p : Parser) (u : σ) :
    Agrees mem p (parseSubscribePayloadAt cb alloc p u p.buf.length)
      (parseSubscribePayload cb alloc p u) := by
  intro h
  unfold parseSubscribePayloadAt parseSubscribePayload
  refine (takePacketIdAt_yields h).bind fun r hr => ?_
  generalize takePacketId p = o at hr ⊢
  cases hr with
  | none => exact .pure rfl
  | @some x y hxy =>
    have hends := hxy.2.ends
    have hfuel : p.buf.length - x.2 = y.2.length := by omega
    dsimp only
    rw [hfuel, hxy.1]
    refine (countFiltersAt_yields y.2.length hxy.2).bind fun count hcount => ?_
    subst hcount
    split
    · exact .pure rfl
    · refine (grantFiltersAt_yields p.protocolVersion y.1 _ u hxy.2).map fun r hr => ?_
      rw [hr]

theorem parseConnackAt_agrees (p : Parser) (u : σ) :
    Agrees mem p (parseConnackAt cb p u p.buf.length) (parseConnack cb p u) := by
  intro h
  unfold parseConnackAt parseConnack
  by_cases hshort : p.buf.length < 2
  · rw [if_pos hshort, if_pos hshort]
    exact .pure rfl
  · rw [if_neg hshort, if_neg hshort]
    have hbyte (i : ℕ) (hi : i < p.buf.length) : mem i = p.buf.getD i 0 := by
      rw [← h.held.getD hi, Nat.zero_add]
    have hproperties : Yields mem p.buf.length (connackPropertiesAt p p.buf.length)
        (· = if p.protocolVersion = 5 ∧ p.buf.length > 2 then
          { p with
            connackSessionExpiryInterval :=
              ((takeProperties (p.buf.drop 2)).elim {} fun b =>
                scanProperties b.1.length b.1 {}).sessionExpiryInterval
            connackReceiveMaximum :=
              ((takeProperties (p.buf.drop 2)).elim {} fun b =>
                scanProperties b.1.length b.1 {}).receiveMaximum }
          else p) := by
      unfold connackPropertiesAt
      split
      · have hrest : Rest mem p.buf.length 2 (p.buf.drop 2) := h.drop (n := 2) (by omega)
        refine (takePropertiesAt_yields hrest).bind fun r hr => ?_
        generalize takeProperties (p.buf.drop 2) = o at hr ⊢
        cases hr with
        | none =>
          refine (Yields.pure (P := (· = {})) rfl).map fun q hq => ?_
          subst hq
          rfl
        | @some x y hx =>
          obtain ⟨hheld, hend, hrest⟩ := hx
          have hends := hrest.ends
          have hfuel : x.2 - x.1 = y.1.length := by omega
          dsimp only
          rw [hfuel, hend]
          refine (scanPropertiesAt_yields y.1.length {} hheld (by omega)).map fun q hq => ?_
          subst hq
          rfl
      · exact .pure rfl
    refine hproperties.bind fun p' hp' => ?_
    refine (Yields.get (by omega)).bind fun a ha => (Yields.get (by omega)).map fun b hb => ?_
    rw [hp', ha, hb, hbyte 0 (by omega), hbyte 1 (by omega)]
    cases takeProperties (p.buf.drop 2) with
    | none => split <;> rfl
    | some b => split <;> rfl

theorem parseConnectPayloadAt_agrees (p : Parser) (u : σ) :
    Agrees mem p (parseConnectPayloadAt cb p u p.buf.length) (parseConnectPayload cb p u) := by
  intro h
  have hbyte (i : ℕ) (hi : i < p.buf.length) : mem i = p.buf.getD i 0 := by
    rw [← h.held.getD hi, Nat.zero_add]
  unfold parseConnectPayloadAt parseConnectPayload
  dsimp only
  by_cases hshort : p.buf.length < 8
  · rw [if_pos hshort, if_pos hshort]
    exact .pure rfl
  rw [if_neg hshort, if_neg hshort]
  refine (u16At_reads (by omega)).bind fun protoLen hproto => ?_
  rw [hbyte 0 (by omega), hbyte (0 + 1) (by omega)] at hproto
  rw [← hproto]
  split
  · exact .pure rfl
  split
  · exact .pure rfl
  next hknown hlong =>
    have hdrop (i : ℕ) (hi : 2 + protoLen + i < p.buf.length) :
        (p.buf.drop (2 + protoLen)).getD i 0 = mem (2 + protoLen + i) := by
      rw [hbyte _ hi, List.getD_eq_getElem?_getD, List.getD_eq_getElem?_getD, List.getElem?_drop]
    refine (Yields.get (by omega)).bind fun version hversion => ?_
    have hheld : Held mem 2 (p.buf.drop 2) := h.held.drop 2
    have hname : protoLen ≤ (p.buf.drop 2).length := by
      rw [List.length_drop]
      omega
    refine (Yields.span hheld hname (by omega)).bind fun name hname => ?_
    have hfirst : (p.buf.drop (2 + protoLen)).getD 0 0 = mem (2 + protoLen) := hdrop 0 (by omega)
    rw [hfirst, hdrop 1 (by omega), hdrop 2 (by omega), hdrop 3 (by omega), ← hversion, ← hname]
    split
    · exact .pure rfl
    refine (Yields.get (by omega)).bind fun flags hflags => ?_
    refine (u16At_reads (by omega)).bind fun keepalive hkeepalive => ?_
    have hrest : Rest mem p.buf.length (2 + protoLen + 4)
        ((p.buf.drop (2 + protoLen)).drop 4) := by
      rw [List.drop_drop]
      have hrest := h.drop (n := 2 + protoLen + 4) (by omega)
      rwa [Nat.zero_add] at hrest
    rw [← hflags, show mem (2 + protoLen + 3) = mem (2 + protoLen + 2 + 1) from rfl, ← hkeepalive]
    refine (readConnectAt_yields version.toNat flags keepalive hrest).map fun r hr => ?_
    obtain rfl := rel_eq hr
    rfl

/-- What the parser of a complete packet does on the buffer is what it does on the bytes of the
packet, and it reads no byte behind them. -/
theorem dispatchAt_agrees (p : Parser) (u : σ) :
    Agrees mem p (dispatchAt cb alloc p u p.buf.length) (dispatch cb alloc p u) := by
  unfold dispatchAt dispatch
  cases p.type with
  | connect => exact parseConnectPayloadAt_agrees p u
  | connack => exact parseConnackAt_agrees p u
  | publish => exact parsePublishPayloadAt_agrees p u
  | puback => exact parsePacketIdAt_agrees p u _
  | pubrec => exact parsePacketIdAt_agrees p u _
  | pubrel => exact parsePacketIdAt_agrees p u _
  | pubcomp => exact parsePacketIdAt_agrees p u _
  | subscribe => exact parseSubscribePayloadAt_agrees p u
  | suback => exact parseSubackPayloadAt_agrees p u
  | unsubscribe => exact parseUnsubscribePayloadAt_agrees p u
  | unsuback => exact parseUnsubackAt_agrees p u
  | pingreq | pingresp | disconnect | auth => exact fun _ => .pure rfl

end

end Voxlib.Mqtt
