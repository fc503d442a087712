import Voxlib.Mqtt.Frame

/-!
# Reads of a connection (conn_feed_parser, feed_parser_or_fail)

Bytes that a call did not consume are lost, so reads matter exactly when one ends within a
remaining length.
-/

namespace Voxlib.Mqtt
open CStr Wire Stream List

/- A connection of the server, or the client. `failed` is set by conn_close and by client_fail;
   `dropped` counts the bytes that were handed over and not consumed. -/
structure Peer (σ : Type*) where
  p : Parser
  u : σ
  failed : Bool := false
  dropped : ℕ := 0

section
variable {σ : Type*} (cb : Callbacks σ) (alloc : ℕ → Bool)

/-- conn_feed_parser (vox_mqtt_server.c:269-273); true asks for conn_close. -/
def connFeedParser (s : Peer σ) (data : Bytes) : Bool × Peer σ :=
  let r := execute cb alloc s.p s.u data
  match r.ret with
  | none => (true, { s with p := r.p, u := r.u })
  | some n => (false, { s with p := r.p, u := r.u, dropped := s.dropped + (data.length - n) })

/-- tcp_read_cb of the server (vox_mqtt_server.c:927-933); no data is the end of the stream, and
a closed connection is not read. -/
def serverRead (s : Peer σ) (data : Bytes) : Peer σ :=
  if s.failed then s
  else if data = [] then { s with failed := true }
  else
    let r := connFeedParser cb alloc s data
    if r.1 then { r.2 with failed := true } else r.2

/-- feed_parser_or_fail (vox_mqtt_client.c:232-239). -/
def feedParserOrFail (s : Peer σ) (data : Bytes) : Peer σ :=
  let r := execute cb alloc s.p s.u data
  match r.ret with
  | none => { s with p := r.p, u := r.u, failed := true }
  | some n => { s with p := r.p, u := r.u, dropped := s.dropped + (data.length - n) }

/-- tcp_read_cb of the client (vox_mqtt_client.c:267-276); client_fail does not stop the reads. -/
def clientRead (s : Peer σ) (data : Bytes) : Peer σ :=
  if data = [] then { s with failed := true } else feedParserOrFail cb alloc s data

/- A packet whose remaining length is a number the parser reads, of the length of the body. -/
structure Packet where
  type : PacketType
  flags : ℕ
  rl : Bytes
  body : Bytes
  notAuth : type ≠ .auth
  nibble : flags < 16
  length : decodeVarint rl = .ok body.length rl.length

theorem Packet.noFlags : 0 < 16 := by decide

def Packet.bytes (k : Packet) : Bytes := frame k.type k.flags k.rl k.body

def stream (ks : List Packet) : Bytes := (ks.map Packet.bytes).flatten

/-- The first `n` bytes of the packets end behind the first and before the last byte of a
remaining length. -/
def inLength : List Packet → ℕ → Prop
  | [], _ => False
  | k :: ks, n =>
    (1 < n ∧ n < 1 + k.rl.length) ∨ (k.bytes.length ≤ n ∧ inLength ks (n - k.bytes.length))

instance decidableInLength : (ks : List Packet) → (n : ℕ) → Decidable (inLength ks n)
  | [], _ => inferInstanceAs (Decidable False)
  | k :: ks, n =>
    haveI := decidableInLength ks (n - k.bytes.length)
    inferInstanceAs (Decidable ((1 < n ∧ n < 1 + k.rl.length) ∨
      (k.bytes.length ≤ n ∧ inLength ks (n - k.bytes.length))))

def CleanCuts (ks : List Packet) (reads : List Bytes) : Prop :=
  ∀ front ∈ reads.inits, ¬ inLength ks front.flatten.length

instance (ks : List Packet) (reads : List Bytes) : Decidable (CleanCuts ks reads) :=
  inferInstanceAs (Decidable (∀ front ∈ reads.inits, ¬ inLength ks front.flatten.length))

def oneRead (data : Bytes) : List Bytes := if data = [] then [] else [data]

theorem Parser.ready_of_header {p : Parser} (hp : p.state = .fixedHeader) : p.ready := by
  simp [Parser.ready, Parser.live, hp]

variable {t : Parser × σ}

theorem startPacket_ok {s : Parser × σ} {val : ℕ} (h : startPacket cb alloc s val = .ok t) :
    (val = 0 ∧ t.1.state = .fixedHeader) ∨
      (0 < val ∧ t.1.state = .varheaderPayload ∧ t.1.need = val) := by
  rcases startPacket_cases cb alloc h with ⟨hzero, u, rfl⟩ | ⟨hpos, c, -, rfl⟩
  · exact Or.inl ⟨hzero, rfl⟩
  · exact Or.inr ⟨hpos, rfl, rfl⟩

theorem pass_typed {s : Parser × σ} (hs : s.1.state = .fixedHeader) (k : Packet) (d : Bytes) :
    pass cb alloc s (firstByte k.type k.flags :: d) = (remainingLen cb alloc
        ({ s.1 with type := k.type, flags := k.flags, state := .remainingLen }, s.2) d).andThen
        (varheaderPayload cb alloc) := by
  unfold pass
  rw [fixedHeader_cons cb hs, readType_firstByte cb s k.notAuth k.nibble]
  rfl

theorem Packet.bytes_length (k : Packet) : k.bytes.length = 1 + k.rl.length + k.body.length :=
  frame_length k.type k.flags k.rl k.body

def receive (s : Parser × σ) (k : Packet) : Turn σ :=
  match startPacket cb alloc
      ({ s.1 with type := k.type, flags := k.flags, state := .remainingLen }, s.2)
      k.body.length with
  | .error e => .error e
  | .ok t => if k.body = [] then .ok t else finishPacket cb alloc (collect t.1 k.body) t.2

theorem receive_state {s : Parser × σ} {k : Packet} (h : receive cb alloc s k = .ok t) :
    t.1.state = .fixedHeader := by
  unfold receive at h
  split at h
  · simp at h
  · next t' hstart =>
    split at h
    · next hnil =>
      obtain rfl := Except.ok.inj h
      rcases startPacket_ok cb alloc hstart with ⟨-, hstate⟩ | ⟨hpos, -⟩
      · exact hstate
      · simp [hnil] at hpos
    · exact finishPacket_state cb alloc h

theorem pass_packet {s : Parser × σ} (hs : s.1.state = .fixedHeader) (k : Packet) :
    pass cb alloc s k.bytes = (receive cb alloc s k).flow [] := by
  rw [show k.bytes = firstByte k.type k.flags :: (k.rl ++ k.body) from rfl,
    pass_typed cb alloc hs k, remainingLen_ok cb alloc rfl (readVarint_ok_append k.length k.body),
    drop_left]
  unfold receive
  cases hstart : startPacket cb alloc
      ({ s.1 with type := k.type, flags := k.flags, state := .remainingLen }, s.2)
      k.body.length with
  | error e => rfl
  | ok t =>
    simp only [Turn.flow, Flow.go_andThen]
    rcases startPacket_ok cb alloc hstart with ⟨hzero, hstate⟩ | ⟨hpos, hstate, hneed⟩
    · have hnil : k.body = [] := length_eq_zero_iff.mp hzero
      rw [varheaderPayload_skip cb alloc (by simp [hstate]), if_pos hnil, hnil]
    · have hne : k.body ≠ [] := length_pos_iff.mp hpos
      rw [varheaderPayload_full cb alloc hstate (by omega), hneed, drop_length,
        take_length, if_neg hne]
      rfl

/-- A packet cut off: bytes are left exactly within the remaining length. -/
theorem pass_cut {s : Parser × σ} (hs : s.1.state = .fixedHeader) (k : Packet) {n : ℕ}
    (hpos : 0 < n) (hn : n < k.bytes.length) :
    (∃ t rest, pass cb alloc s (k.bytes.take n) = .wait t rest ∧
      (rest ≠ [] ↔ 1 < n ∧ n < 1 + k.rl.length)) ∨
      ∃ t, pass cb alloc s (k.bytes.take n) = .fail t := by
  obtain ⟨m, rfl⟩ : ∃ m, n = m + 1 := ⟨n - 1, by omega⟩
  rw [k.bytes_length] at hn
  have hbytes : k.bytes.take (m + 1) = firstByte k.type k.flags :: (k.rl ++ k.body).take m := rfl
  rw [hbytes, pass_typed cb alloc hs k]
  generalize ht : ({ s.1 with type := k.type, flags := k.flags, state := .remainingLen }, s.2) = t
  have hstate : t.1.state = .remainingLen := by rw [← ht]
  by_cases hm : m < k.rl.length
  · have hmore : decodeVarint (k.rl.take m) = .more :=
      readVarint_cut (by rw [Nat.zero_add]; exact k.length) hm
    rw [take_append_of_le_length (by omega), remainingLen_more cb alloc hstate hmore]
    refine Or.inl ⟨t, k.rl.take m, rfl, ?_⟩
    rw [← length_pos_iff, length_take]
    omega
  · have hcut : (k.rl ++ k.body).take m = k.rl ++ k.body.take (m - k.rl.length) := by
      rw [take_append, take_of_length_le (by omega)]
    rw [hcut, remainingLen_ok cb alloc hstate (readVarint_ok_append k.length _), drop_left]
    cases hstart : startPacket cb alloc t k.body.length with
    | error e => exact Or.inr ⟨e, rfl⟩
    | ok t' =>
      rcases startPacket_ok cb alloc hstart with ⟨hzero, -⟩ | ⟨-, hstate', hneed⟩
      · omega
      · have hshort : (k.body.take (m - k.rl.length)).length < t'.1.need := by
          rw [hneed, length_take]
          omega
        simp only [Turn.flow, Flow.go_andThen]
        rw [varheaderPayload_short cb alloc hstate' hshort]
        exact Or.inl ⟨_, [], rfl, by simp; omega⟩

theorem stream_cons (k : Packet) (ks : List Packet) : stream (k :: ks) = k.bytes ++ stream ks := rfl

theorem settled_left {s : Parser × σ} (hs : s.1.state = .fixedHeader) {ks : List Packet} {n : ℕ}
    {rest : Bytes} (h : settled cb alloc s ((stream ks).take n) = .wait t rest) :
    rest ≠ [] ↔ inLength ks n := by
  have hinc := pass_incremental cb alloc
  induction ks generalizing s n with
  | nil =>
    have hready := Parser.ready_of_header hs
    have hnil : (stream []).take n = [] := take_nil
    rw [hnil, settled_nil cb alloc hready] at h
    obtain ⟨-, rfl⟩ : s = t ∧ [] = rest := by simpa using h
    simp [inLength]
  | cons k ks ih =>
    have hlive : s.1.live := by simp [Parser.live, hs]
    have hlen := k.bytes_length
    rw [stream_cons] at h
    simp only [inLength]
    by_cases hwhole : k.bytes.length ≤ n
    · rw [take_append, take_of_length_le hwhole, settled,
        settle_eq hinc.falling hlive] at h
      have hpass := pass_packet cb alloc hs k
      cases hr : receive cb alloc s k with
      | ok t' =>
        rw [hr] at hpass
        rw [(hinc.stage.go_append hpass).2, Flow.go_andThen, nil_append] at h
        have hnot : ¬ (1 < n ∧ n < 1 + k.rl.length) := by omega
        simp only [hnot, hwhole, false_or, true_and]
        exact ih (receive_state cb alloc hr) h
      | error t' =>
        rw [hr] at hpass
        rw [hinc.stage.fail_append hpass] at h
        simp at h
    · rw [take_append_of_le_length (by omega)] at h
      have hnot : ¬ (k.bytes.length ≤ n ∧ inLength ks (n - k.bytes.length)) := fun hk =>
        hwhole hk.1
      simp only [hnot, or_false]
      by_cases hzero : n = 0
      · subst hzero
        have hready := Parser.ready_of_header hs
        rw [take_zero, settled_nil cb alloc hready] at h
        obtain ⟨-, rfl⟩ : s = t ∧ [] = rest := by simpa using h
        simp
      · rw [settled, settle_eq hinc.falling hlive] at h
        rcases pass_cut cb alloc hs k (by omega) (by omega : n < k.bytes.length) with
          ⟨t', rest', hwait, hiff⟩ | ⟨t', hfail⟩
        · rw [hwait] at h
          obtain ⟨-, rfl⟩ : t' = t ∧ rest' = rest := by simpa using h
          exact hiff
        · rw [hfail] at h
          simp at h

/- What both read callbacks do with data as long as nothing failed. -/
structure Reads (read : Peer σ → Bytes → Peer σ) : Prop where
  feeds : ∀ {s data}, s.failed = false → data ≠ [] → read s data = feedParserOrFail cb alloc s data
  stays : ∀ {s data}, s.failed = true → (read s data).failed = true
  grows : ∀ {s data}, s.dropped ≤ (read s data).dropped

theorem feedParserOrFail_grows (s : Peer σ) (data : Bytes) :
    s.dropped ≤ (feedParserOrFail cb alloc s data).dropped := by
  unfold feedParserOrFail
  dsimp only
  split
  · exact le_refl _
  · exact Nat.le_add_right _ _

theorem serverRead_open {s : Peer σ} {data : Bytes} (hs : s.failed = false) (hd : data ≠ []) :
    serverRead cb alloc s data = feedParserOrFail cb alloc s data := by
  unfold serverRead connFeedParser feedParserOrFail
  rw [hs, if_neg (by simp), if_neg hd]
  dsimp only
  cases (execute cb alloc s.p s.u data).ret with
  | none => rfl
  | some n => rfl

theorem serverRead_closed {s : Peer σ} (hs : s.failed = true) (data : Bytes) :
    serverRead cb alloc s data = s := by
  unfold serverRead
  rw [if_pos hs]

theorem serverRead_reads : Reads cb alloc (serverRead cb alloc) where
  feeds := serverRead_open cb alloc
  stays := by
    intro s data hs
    rw [serverRead_closed cb alloc hs]
    exact hs
  grows := by
    intro s data
    cases hs : s.failed with
    | true => rw [serverRead_closed cb alloc hs]
    | false =>
      by_cases hd : data = []
      · simp [serverRead, hs, hd]
      · rw [serverRead_open cb alloc hs hd]
        exact feedParserOrFail_grows cb alloc s data

theorem clientRead_reads : Reads cb alloc (clientRead cb alloc) where
  feeds := by
    intro s data _ hd
    unfold clientRead
    rw [if_neg hd]
  stays := by
    intro s data hs
    unfold clientRead feedParserOrFail
    split
    · rfl
    · dsimp only
      split
      · rfl
      · exact hs
  grows := by
    intro s data
    unfold clientRead
    split
    · exact le_refl _
    · exact feedParserOrFail_grows cb alloc s data

theorem feed_wait {s : Peer σ} (hp : s.p.live) {data rest : Bytes}
    (h : settled cb alloc (s.p, s.u) data = .wait t rest) : feedParserOrFail cb alloc s data =
      { s with p := t.1, u := t.2, dropped := s.dropped + rest.length } := by
  have hle := (settle_wait (pass_incremental cb alloc) hp h).2.length_le
  have hcount : data.length - (data.length - rest.length) = rest.length := by omega
  unfold feedParserOrFail
  rw [execute_eq cb alloc hp, h]
  simp only [Executed.ofFlow, hcount]

theorem feed_fail {s : Peer σ} (hp : s.p.live) {data : Bytes}
    (h : settled cb alloc (s.p, s.u) data = .fail t) :
    feedParserOrFail cb alloc s data = { s with p := t.1, u := t.2, failed := true } := by
  unfold feedParserOrFail
  rw [execute_eq cb alloc hp, h]
  simp only [Executed.ofFlow]

def Peer.after (s : Peer σ) : Flow (Parser × σ) UInt8 → Peer σ
  | .wait t _ => { s with p := t.1, u := t.2 }
  | .go t _ => { s with p := t.1, u := t.2 }
  | .fail t => { s with p := t.1, u := t.2, failed := true }

theorem Peer.after_at (s : Peer σ) (q : Parser) (v : σ) (f : Flow (Parser × σ) UInt8) :
    ({ s with p := q, u := v } : Peer σ).after f = s.after f := by
  cases f with
  | wait t rest => rfl
  | go t rest => rfl
  | fail t => rfl

variable {cb alloc} {read : Peer σ → Bytes → Peer σ}

section
variable (hr : Reads cb alloc read)
include hr

/-- Reads none of which leaves bytes do what all the data does. `front` has been read already. -/
theorem Reads.foldl_clean {o : Parser × σ} (ho : o.1.live) {s : Peer σ} {front : Bytes}
    (hs : s.failed = false) (hf : settled cb alloc o front = .wait (s.p, s.u) [])
    {reads : List Bytes} (hne : ∀ d ∈ reads, d ≠ []) (hleft : ∀ a t rest, a <+: reads →
      settled cb alloc o (front ++ a.flatten) = .wait t rest → rest = [])
    (hstop : (∀ {s data}, s.failed = true → read s data = s) ∨
      ∃ t rest, settled cb alloc o (front ++ reads.flatten) = .wait t rest) :
    reads.foldl read s = s.after (settled cb alloc o (front ++ reads.flatten)) := by
  have hinc := pass_incremental cb alloc
  induction reads generalizing s front with
  | nil =>
    rw [flatten_nil, append_nil, hf]
    rfl
  | cons d reads ih =>
    have hlive : s.p.live := (settle_wait hinc ho hf).1
    have hd : d ≠ [] := hne d mem_cons_self
    have hcall := settle_wait_append hinc ho hf d
    rw [nil_append] at hcall
    rw [flatten_cons, ← append_assoc] at hstop ⊢
    rw [foldl_cons, hr.feeds hs hd]
    cases hc : settled cb alloc o (front ++ d) with
    | go t rest => exact absurd hc (settle_ne_go hinc.falling ho _ t rest)
    | fail t =>
      have hend := settle_fail_append hinc ho hc reads.flatten
      rw [feed_fail cb alloc hlive (hcall.trans hc), settled, hend]
      have hstays : ∀ {s data}, s.failed = true → read s data = s := by
        refine hstop.resolve_right ?_
        rintro ⟨t', rest, hw⟩
        rw [settled, hend] at hw
        simp at hw
      exact foldl_fixed' (fun x => hstays rfl) reads
    | wait t rest =>
      obtain rfl := hleft [d] t rest ⟨reads, rfl⟩ (by simpa using hc)
      rw [feed_wait cb alloc hlive (hcall.trans hc), length_nil, Nat.add_zero,
        ← s.after_at t.1 t.2]
      refine ih (s := { s with p := t.1, u := t.2 }) hs hc
        (fun x hx => hne x (mem_cons_of_mem d hx)) (fun a t' rest' ha hw => ?_) hstop
      refine hleft (d :: a) t' rest' (cons_prefix_cons.mpr ⟨rfl, ha⟩) ?_
      rw [flatten_cons, ← append_assoc]
      exact hw

theorem Reads.foldl_stays {s : Peer σ} (hs : s.failed = true) (reads : List Bytes) :
    (reads.foldl read s).failed = true := by
  induction reads generalizing s with
  | nil => exact hs
  | cons d reads ih => exact ih (hr.stays hs)

theorem Reads.foldl_grows (s : Peer σ) (reads : List Bytes) :
    s.dropped ≤ (reads.foldl read s).dropped := by
  induction reads generalizing s with
  | nil => exact le_refl _
  | cons d reads ih => exact hr.grows.trans (ih _)

/-- Without a failure and with nothing dropped, every read was taken whole. -/
theorem Reads.foldl_taken {o : Parser × σ} (ho : o.1.live) {s : Peer σ} {front : Bytes}
    (hs : s.failed = false) (hf : settled cb alloc o front = .wait (s.p, s.u) [])
    {reads : List Bytes} (hne : ∀ d ∈ reads, d ≠ []) (hok : (reads.foldl read s).failed = false)
    (hdrop : (reads.foldl read s).dropped = s.dropped) {a : List Bytes} (ha : a <+: reads) :
    ∃ t, settled cb alloc o (front ++ a.flatten) = .wait t [] := by
  have hinc := pass_incremental cb alloc
  induction reads generalizing s front a with
  | nil =>
    obtain rfl := prefix_nil.mp ha
    exact ⟨(s.p, s.u), by simpa using hf⟩
  | cons d reads ih =>
    have hlive : s.p.live := (settle_wait hinc ho hf).1
    have hd : d ≠ [] := hne d mem_cons_self
    have hcall := settle_wait_append hinc ho hf d
    rw [nil_append] at hcall
    rw [foldl_cons, hr.feeds hs hd] at hok hdrop
    cases a with
    | nil => exact ⟨(s.p, s.u), by simpa using hf⟩
    | cons d' a =>
      obtain ⟨hhead, htail⟩ := cons_prefix_cons.mp ha
      subst d'
      rw [flatten_cons, ← append_assoc]
      cases hc : settled cb alloc o (front ++ d) with
      | go t rest => exact absurd hc (settle_ne_go hinc.falling ho _ t rest)
      | fail t =>
        rw [feed_fail cb alloc hlive (hcall.trans hc), hr.foldl_stays rfl] at hok
        simp at hok
      | wait t rest =>
        rw [feed_wait cb alloc hlive (hcall.trans hc)] at hok hdrop
        have hgrow := hr.foldl_grows
          { s with p := t.1, u := t.2, dropped := s.dropped + rest.length } reads
        rw [hdrop] at hgrow
        dsimp only at hgrow
        obtain rfl : rest = [] := length_eq_zero_iff.mp (by omega)
        exact ih (s := { s with p := t.1, u := t.2 }) hs hc
          (fun x hx => hne x (mem_cons_of_mem d hx)) hok hdrop htail

end

def Accepted (read : Peer σ → Bytes → Peer σ) (s : Peer σ) (data : Bytes) : Prop :=
  ((oneRead data).foldl read s).failed = false

/- The callbacks called, what they did and the outcome are those of one read, and no byte is
   dropped. -/
def Undisturbed (read : Peer σ → Bytes → Peer σ) (s : Peer σ) (data : Bytes)
    (reads : List Bytes) : Prop :=
  (reads.foldl read s).u = ((oneRead data).foldl read s).u ∧
  (reads.foldl read s).failed = ((oneRead data).foldl read s).failed ∧
  (reads.foldl read s).dropped = s.dropped

theorem not_inLength_stream (ks : List Packet) : ¬ inLength ks (stream ks).length := by
  induction ks with
  | nil => exact id
  | cons k ks ih =>
    have hlen := k.bytes_length
    rw [stream_cons, length_append]
    rintro (⟨-, hlt⟩ | ⟨-, hin⟩)
    · omega
    · rw [Nat.add_sub_cancel_left] at hin
      exact ih hin

theorem not_inLength_zero (ks : List Packet) : ¬ inLength ks 0 := by
  cases ks with
  | nil => exact id
  | cons k ks =>
    have hlen := k.bytes_length
    rintro (⟨h, -⟩ | ⟨h, -⟩)
    · omega
    · omega

theorem oneRead_flatten (data : Bytes) : (oneRead data).flatten = data := by
  unfold oneRead
  split
  · next h => rw [h, flatten_nil]
  · rw [flatten_singleton]

theorem oneRead_ne (data : Bytes) : ∀ d ∈ oneRead data, d ≠ [] := by
  unfold oneRead
  split
  · simp
  · next h => simpa using h

theorem oneRead_cleanCuts (ks : List Packet) : CleanCuts ks (oneRead (stream ks)) := by
  intro front h
  unfold oneRead at h
  split at h
  · obtain rfl : front = [] := by simpa using h
    exact not_inLength_zero ks
  · obtain rfl | rfl : front = [] ∨ front = [stream ks] := by simpa using h
    · exact not_inLength_zero ks
    · rw [flatten_singleton]
      exact not_inLength_stream ks

theorem flatten_prefix {a reads : List Bytes} (ha : a <+: reads) :
    a.flatten = reads.flatten.take a.flatten.length := by
  obtain ⟨b, rfl⟩ := ha
  rw [flatten_append, take_left]

section
variable {s : Peer σ} (hs : s.p.state = .fixedHeader) (ho : s.failed = false) {ks : List Packet}
include hs ho

variable {reads : List Bytes}

section
variable (hr : Reads cb alloc read)
include hr

theorem Reads.foldl_stream (hne : ∀ d ∈ reads, d ≠ []) (hd : reads.flatten = stream ks)
    (hclean : CleanCuts ks reads) (hstop : (∀ {s data}, s.failed = true → read s data = s) ∨
      ∃ t rest, settled cb alloc (s.p, s.u) (stream ks) = .wait t rest) :
    reads.foldl read s = s.after (settled cb alloc (s.p, s.u) (stream ks)) := by
  have hready := Parser.ready_of_header hs
  rw [← hd] at hstop ⊢
  refine hr.foldl_clean hready.1 ho (settled_nil cb alloc hready s.u) hne
    (fun a t rest ha hw => ?_) hstop
  rw [nil_append, flatten_prefix ha, hd] at hw
  by_contra hrest
  exact hclean a ((mem_inits a reads).mpr ha) ((settled_left cb alloc hs hw).mp hrest)

theorem Reads.accepted (h : Accepted read s (stream ks)) :
    ∃ t rest, settled cb alloc (s.p, s.u) (stream ks) = .wait t rest := by
  have hready := Parser.ready_of_header hs
  unfold Accepted oneRead at h
  by_cases hnil : stream ks = []
  · rw [hnil]
    exact ⟨_, _, settled_nil cb alloc hready s.u⟩
  · rw [if_neg hnil, foldl_cons, foldl_nil, hr.feeds ho hnil] at h
    have hfall := (pass_incremental cb alloc).falling
    cases hc : settled cb alloc (s.p, s.u) (stream ks) with
    | go t rest => exact absurd hc (settle_ne_go hfall hready.1 _ t rest)
    | wait t rest => exact ⟨t, rest, rfl⟩
    | fail t =>
      rw [feed_fail cb alloc hready.1 hc] at h
      simp at h

theorem Reads.undisturbed (hne : ∀ d ∈ reads, d ≠ []) (hd : reads.flatten = stream ks)
    (hclean : CleanCuts ks reads) (hstop : (∀ {s data}, s.failed = true → read s data = s) ∨
      ∃ t rest, settled cb alloc (s.p, s.u) (stream ks) = .wait t rest) :
    Undisturbed read s (stream ks) reads := by
  have hreads := hr.foldl_stream hs ho hne hd hclean hstop
  have hone := hr.foldl_stream hs ho (oneRead_ne _) (oneRead_flatten _) (oneRead_cleanCuts ks) hstop
  unfold Undisturbed
  rw [hreads, hone]
  refine ⟨rfl, rfl, ?_⟩
  cases settled cb alloc (s.p, s.u) (stream ks) with
  | wait t rest => rfl
  | go t rest => rfl
  | fail t => rfl

theorem Reads.undisturbed_iff (hne : ∀ d ∈ reads, d ≠ []) (hd : reads.flatten = stream ks)
    (hok : Accepted read s (stream ks)) :
    Undisturbed read s (stream ks) reads ↔ CleanCuts ks reads := by
  have hready := Parser.ready_of_header hs
  constructor
  · rintro ⟨-, hfailed, hdrop⟩ a hmem hin
    have ha := (mem_inits a reads).mp hmem
    rw [hok] at hfailed
    obtain ⟨t, ht⟩ := hr.foldl_taken hready.1 ho (settled_nil cb alloc hready s.u) hne hfailed
      hdrop ha
    rw [nil_append, flatten_prefix ha, hd] at ht
    exact (settled_left cb alloc hs ht).mpr hin rfl
  · intro hclean
    exact hr.undisturbed hs ho hne hd hclean (Or.inr (hr.accepted hs ho hok))

end

end

end

/-- The server and the client make the calls of a single read, and drop no byte, exactly when no
read ends within a remaining length. The server does so then also where a packet is refused. -/
theorem reception_same_iff {σ : Type*} (cb : Callbacks σ) (alloc : ℕ → Bool)
    {s : Peer (σ × List Call)} (hs : s.p.state = .fixedHeader) (ho : s.failed = false)
    {ks : List Packet} {reads : List Bytes} (hne : ∀ d ∈ reads, d ≠ [])
    (hd : reads.flatten = stream ks) :
    (CleanCuts ks reads → Undisturbed (serverRead cb.logged alloc) s (stream ks) reads) ∧
    (Accepted (serverRead cb.logged alloc) s (stream ks) →
      (Undisturbed (serverRead cb.logged alloc) s (stream ks) reads ↔ CleanCuts ks reads)) ∧
    (Accepted (clientRead cb.logged alloc) s (stream ks) →
      (Undisturbed (clientRead cb.logged alloc) s (stream ks) reads ↔ CleanCuts ks reads)) := by
  have hserver := serverRead_reads cb.logged alloc
  have hclient := clientRead_reads cb.logged alloc
  refine ⟨fun hclean => ?_, fun hok => ?_, fun hok => ?_⟩
  · exact hserver.undisturbed hs ho hne hd hclean (Or.inl fun h => serverRead_closed _ _ h _)
  · exact hserver.undisturbed_iff hs ho hne hd hok
  · exact hclient.undisturbed_iff hs ho hne hd hok

def longPublish : Packet where
  type := .publish
  flags := 0
  rl := [0x82, 1]
  body := [0, 1, 97] ++ List.replicate 127 0
  notAuth := by decide
  nibble := Packet.noFlags
  length := by decide +kernel

def fresh : Peer (Unit × List Call) := { p := create (fun _ => true) 0 4, u := ((), []) }

def cutAt (n : ℕ) : List Bytes := [longPublish.bytes.take n, longPublish.bytes.drop n]

/-- A cut between the type and the length does no harm. -/
theorem cut_behind_type_undisturbed :
    Undisturbed (serverRead willing.logged fun _ => true) fresh (stream [longPublish]) (cutAt 1) ∧
      Undisturbed (clientRead willing.logged fun _ => true) fresh (stream [longPublish])
        (cutAt 1) := by
  have hne : ∀ d ∈ cutAt 1, d ≠ [] := by decide +kernel
  have hd : (cutAt 1).flatten = stream [longPublish] := by decide +kernel
  have hclean : CleanCuts [longPublish] (cutAt 1) := by decide +kernel
  have hs : fresh.p.state = .fixedHeader := rfl
  obtain ⟨-, hserver, hclient⟩ := reception_same_iff willing (fun _ => true) hs rfl hne hd
  refine ⟨(hserver ?_).mpr hclean, (hclient ?_).mpr hclean⟩
  · unfold Accepted
    decide +kernel
  · unfold Accepted
    decide +kernel

def Peer.observed (s : Peer (Unit × List Call)) : List Call × Bool × ℕ :=
  (s.u.2, s.failed, s.dropped)

/-- A cut within the length: the first byte of the length is dropped, the second is read as the
length 1, and the PUBLISH that a single read hands on is never seen. -/
theorem cut_in_length_loses_publish :
    (∀ d ∈ cutAt 2, d ≠ []) ∧ (cutAt 2).flatten = stream [longPublish] ∧
    (serverRead willing.logged (fun _ => true) fresh (stream [longPublish])).observed =
      ([.publish ⟨0, false, 0, [97], List.replicate 127 0⟩], false, 0) ∧
    ((cutAt 2).foldl (serverRead willing.logged fun _ => true) fresh).observed = ([], true, 1) ∧
    (clientRead willing.logged (fun _ => true) fresh (stream [longPublish])).observed =
      ([.publish ⟨0, false, 0, [97], List.replicate 127 0⟩], false, 0) ∧
    ((cutAt 2).foldl (clientRead willing.logged fun _ => true) fresh).observed = ([], true, 1) := by
  decide +kernel

end Voxlib.Mqtt
