import Voxlib.Lib.Run
import Voxlib.Mqtt.Client
import Voxlib.Mqtt.Offsets

/-!
# Packet bodies in the buffer (vox_mqtt_parser_execute)

While a body is collected the buffer has room for what is missing of it.
-/

namespace Voxlib.Mqtt
open CStr Stream Voxlib.Reads Run

section
variable {σ : Type*} (cb : Callbacks σ) (maxPayload version : ℕ)

/-- The states of a parser from its creation on. The blocks of the loop are taken with any input and
any allocations, in any order; between them the parser may be reset and get another version, and
what user_data points to may change. -/
inductive Visited : Parser × σ → Prop
  | created (alloc : ℕ → Bool) (u : σ) : Visited (create alloc maxPayload version, u)
  | header {s : Parser × σ} (cur : Bytes) (h : Visited s) : Visited (fixedHeader cb s cur).state
  | length {s : Parser × σ} (alloc : ℕ → Bool) (cur : Bytes) (h : Visited s) :
    Visited (remainingLen cb alloc s cur).state
  | taken {s : Parser × σ} (cur : Bytes) (h : Visited s) (hs : s.1.state = .varheaderPayload) :
    Visited (collect s.1 (cur.take (min cur.length s.1.need)), s.2)
  | body {s : Parser × σ} (alloc : ℕ → Bool) (cur : Bytes) (h : Visited s) :
    Visited (varheaderPayload cb alloc s cur).state
  | reset {s : Parser × σ} (h : Visited s) : Visited (s.1.reset, s.2)
  | protocol {s : Parser × σ} (v : ℕ) (h : Visited s) :
    Visited ({ s.1 with protocolVersion := v }, s.2)
  | user {s : Parser × σ} (u : σ) (h : Visited s) : Visited (s.1, u)

def call (s : Parser × σ) (x : (ℕ → Bool) × Bytes) : Option (Parser × σ) :=
  let r := execute cb x.1 s.1 s.2 x.2
  some (r.p, r.u)

end

def Parser.Roomy (p : Parser) : Prop :=
  p.state = .varheaderPayload → p.buf.length + p.need ≤ p.bufCap

section
variable {σ : Type*} {cb : Callbacks σ} {alloc : ℕ → Bool}

def SameBuffer (p : Parser) (r : Reply σ) : Prop :=
  r.p.buf = p.buf ∧ r.p.need = p.need ∧ r.p.bufCap = p.bufCap

theorem parsePacketId_buffer (p : Parser) (u : σ) (c : ℕ → Call) :
    SameBuffer p (parsePacketId cb p u c) := by
  unfold parsePacketId
  split
  · exact ⟨rfl, rfl, rfl⟩
  · exact ⟨rfl, rfl, rfl⟩

theorem parseConnectPayload_buffer (p : Parser) (u : σ) :
    SameBuffer p (parseConnectPayload cb p u) := by
  unfold parseConnectPayload
  dsimp only
  split
  · exact ⟨rfl, rfl, rfl⟩
  split
  · exact ⟨rfl, rfl, rfl⟩
  split
  · exact ⟨rfl, rfl, rfl⟩
  split
  · exact ⟨rfl, rfl, rfl⟩
  split
  · exact ⟨rfl, rfl, rfl⟩
  · exact ⟨rfl, rfl, rfl⟩

theorem dispatch_buffer (cb : Callbacks σ) (alloc : ℕ → Bool) (p : Parser) (u : σ) :
    SameBuffer p (dispatch cb alloc p u) := by
  unfold dispatch
  split
  · exact parseConnectPayload_buffer p u
  · unfold parseConnack
    split
    · exact ⟨rfl, rfl, rfl⟩
    · dsimp only
      split
      · exact ⟨rfl, rfl, rfl⟩
      · exact ⟨rfl, rfl, rfl⟩
  · unfold parsePublishPayload
    split
    · exact ⟨rfl, rfl, rfl⟩
    · exact ⟨rfl, rfl, rfl⟩
  · exact parsePacketId_buffer p u _
  · exact parsePacketId_buffer p u _
  · exact parsePacketId_buffer p u _
  · exact parsePacketId_buffer p u _
  · unfold parseSubscribePayload
    split
    · exact ⟨rfl, rfl, rfl⟩
    · dsimp only
      split
      · exact ⟨rfl, rfl, rfl⟩
      · exact ⟨rfl, rfl, rfl⟩
  · unfold parseSubackPayload
    split
    · exact ⟨rfl, rfl, rfl⟩
    · exact ⟨rfl, rfl, rfl⟩
  · unfold parseUnsubscribePayload
    split
    · exact ⟨rfl, rfl, rfl⟩
    · exact ⟨rfl, rfl, rfl⟩
  · unfold parseUnsuback
    split
    · exact ⟨rfl, rfl, rfl⟩
    · split
      · exact ⟨rfl, rfl, rfl⟩
      · exact ⟨rfl, rfl, rfl⟩
  all_goals exact ⟨rfl, rfl, rfl⟩

theorem setError_roomy (p : Parser) (u : σ) (msg : String) : (setError cb p u msg).1.Roomy :=
  fun h => by cases h

theorem startPacket_roomy (s : Parser × σ) (val : ℕ) (rest : Bytes) :
    ((startPacket cb alloc s val).flow rest).state.1.Roomy := by
  intro hcollects
  cases hstart : startPacket cb alloc s val with
  | error t =>
    rw [hstart] at hcollects
    have hstate : t.1.state = .varheaderPayload := hcollects
    rw [startPacket_error cb alloc hstart] at hstate
    cases hstate
  | ok t =>
    rw [hstart] at hcollects
    rcases startPacket_cases cb alloc hstart with ⟨-, u, rfl⟩ | ⟨-, c, hfits, rfl⟩
    · cases hcollects
    · show 0 + val ≤ c
      omega

theorem collect_roomy {p : Parser} (h : p.Roomy) (hs : p.state = .varheaderPayload) (cur : Bytes) :
    (collect p (cur.take (min cur.length p.need))).Roomy := by
  intro _
  have hroom := h hs
  unfold collect
  dsimp only
  rw [List.length_append, List.length_take]
  omega

theorem finishPacket_roomy {p : Parser} (h : p.Roomy) (hs : p.state = .varheaderPayload) (u : σ)
    (rest : Bytes) : ((finishPacket cb alloc p u).flow rest).state.1.Roomy := by
  obtain ⟨hbuf, hneed, hcap⟩ := dispatch_buffer cb alloc p u
  unfold finishPacket
  dsimp only
  split
  · exact fun h => by cases h
  · intro _
    show (dispatch cb alloc p u).p.buf.length + (dispatch cb alloc p u).p.need ≤
      (dispatch cb alloc p u).p.bufCap
    rw [hbuf, hneed, hcap]
    exact h hs

variable {s : Parser × σ}

theorem fixedHeader_roomy (h : s.1.Roomy) (cur : Bytes) : (fixedHeader cb s cur).state.1.Roomy := by
  unfold fixedHeader
  split
  · split
    · exact h
    · next b rest =>
      unfold readType
      split
      · exact setError_roomy _ _ _
      · dsimp only
        split
        · exact setError_roomy _ _ _
        · exact fun h => by cases h
  · exact h

theorem remainingLen_roomy (h : s.1.Roomy) (cur : Bytes) :
    (remainingLen cb alloc s cur).state.1.Roomy := by
  unfold remainingLen
  split
  · split
    · exact setError_roomy _ _ _
    · exact h
    · exact startPacket_roomy s _ _
  · exact h

theorem varheaderPayload_roomy (h : s.1.Roomy) (cur : Bytes) :
    (varheaderPayload cb alloc s cur).state.1.Roomy := by
  unfold varheaderPayload
  split
  · next hs =>
    have hroomy := collect_roomy h hs cur
    dsimp only
    split
    · exact hroomy
    · exact finishPacket_roomy hroomy hs s.2 _
  · exact h

variable {maxPayload version : ℕ}

theorem Visited.roomy (h : Visited cb maxPayload version s) : s.1.Roomy := by
  induction h with
  | created alloc u => exact fun h => by cases h
  | header cur _ ih => exact fixedHeader_roomy ih cur
  | length alloc cur _ ih => exact remainingLen_roomy ih cur
  | taken cur _ hs ih => exact collect_roomy ih hs cur
  | body alloc cur _ ih => exact varheaderPayload_roomy ih cur
  | reset _ _ => exact fun h => by cases h
  | protocol v _ ih => exact ih
  | user u _ ih => exact ih

theorem pass_visited (cur : Bytes) (h : Visited cb maxPayload version s) :
    Visited cb maxPayload version (pass cb alloc s cur).state :=
  Flow.andThen_state (Flow.andThen_state (.header cur h) fun _ cur h => .length alloc cur h)
    fun _ cur h => .body alloc cur h

def Passes (cb : Callbacks σ) (maxPayload version : ℕ) (s : Parser × σ) (x : (ℕ → Bool) × Bytes) :
    Prop :=
  Fronts (pass cb x.1) (fun s _ => Visited cb maxPayload version s) (x.2.length + 2) s x.2

theorem call_visited (x : (ℕ → Bool) × Bytes) (h : Visited cb maxPayload version s) :
    ∃ t, call cb s x = some t ∧ Visited cb maxPayload version t ∧
      Passes cb maxPayload version s x := by
  obtain ⟨hfronts, hend⟩ := passes_state (pass cb x.1) (fun _ cur h => pass_visited cur h)
    (x.2.length + 2) h x.2
  refine ⟨_, rfl, ?_, hfronts⟩
  unfold execute
  split
  · exact h
  · revert hend
    cases passes (pass cb x.1) (x.2.length + 2) (s.1, s.2) x.2 with
    | go t rest => exact id
    | wait t rest => exact id
    | fail t => exact id

/-- Every run of calls with pieces goes through visited states. In these, buf has room for what is
missing of the body that is collected, and the parser of the body, on any memory that has buf in
front, reads below buf_len only and does what it does on the bytes of buf. -/
theorem bodies_in_buffer (cb : Callbacks σ) (maxPayload version : ℕ) :
    (∀ (alloc : ℕ → Bool) (u : σ) (xs : List ((ℕ → Bool) × Bytes)),
      Along (call cb) (Visited cb maxPayload version) (create alloc maxPayload version, u) xs ∧
      Guarded (call cb) (Passes cb maxPayload version) (create alloc maxPayload version, u) xs) ∧
    ∀ s, Visited cb maxPayload version s →
      (s.1.state = .varheaderPayload → s.1.buf.length + s.1.need ≤ s.1.bufCap) ∧
      ∀ (alloc : ℕ → Bool) (mem : ℕ → UInt8), Held mem 0 s.1.buf →
        (∀ i ∈ (dispatchAt cb alloc s.1 s.2 s.1.buf.length mem).2, i < s.1.buf.length) ∧
        (dispatchAt cb alloc s.1 s.2 s.1.buf.length mem).1 = dispatch cb alloc s.1 s.2 := by
  refine ⟨fun alloc u xs => ?_, fun s hs => ⟨hs.roomy, fun alloc mem hmem => ?_⟩⟩
  · exact guarded_of_meets (fun s x hs _ => call_visited x hs) (.created alloc u)
      (meets_true (create alloc maxPayload version, u) xs)
  · exact dispatchAt_agrees s.1 s.2 ⟨hmem, Nat.zero_add _⟩

end

def firstHalf : (ℕ → Bool) × Bytes := (fun _ => true, [0x30, 5, 0, 1, 97])

theorem firstHalf_in_buffer : ∃ s,
    call willing (create (fun _ => true) 0 5, ()) firstHalf = some s ∧
      s.1.state = .varheaderPayload ∧ s.1.buf.length + s.1.need ≤ s.1.bufCap := by
  obtain ⟨⟨-, s, hs, halong⟩, -⟩ :=
    (bodies_in_buffer willing 0 5).1 (fun _ => true) () [firstHalf]
  have hstate : s.1.state = .varheaderPayload := by
    obtain rfl := Option.some.inj hs
    decide
  exact ⟨s, hs, hstate, ((bodies_in_buffer willing 0 5).2 s halong).1 hstate⟩

end Voxlib.Mqtt
