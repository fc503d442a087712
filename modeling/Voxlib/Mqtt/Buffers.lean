import Voxlib.Lib.Run
import Voxlib.Mqtt.Client
import Voxlib.Mqtt.Effects

/-!
# The packet buffers of the MQTT client (vox_mqtt_client.c)

`Accounted` says of every buffer where it is: a PUBLISH to be acknowledged is in the write queue
and in the pending list, and both free it.
-/

namespace Voxlib.Mqtt
open CStr Wire Run List Option

def BufOp.buf : BufOp → BufId
  | .alloc b => b
  | .free b => b
  | .send b => b
  | .setDup b => b

def BufOp.uses : BufOp → Option BufId
  | .alloc _ => none
  | .free b => some b
  | .send b => some b
  | .setDup b => some b

def Disciplined (ops : List BufOp) : Prop :=
  ops.Pairwise fun o o' => ∀ b, o = .free b → o'.uses ≠ some b

theorem disciplined_append {ops : List BufOp} (h : Disciplined ops) {o : BufOp}
    (ho : ∀ b, o.uses = some b → .free b ∉ ops) : Disciplined (ops ++ [o]) := by
  refine pairwise_append.mpr ⟨h, pairwise_singleton _ _, ?_⟩
  intro o₁ h₁ o₂ h₂ b hfree huses
  rw [mem_singleton] at h₂
  subst h₂ hfree
  exact ho b huses h₁

def buffers1 (l : List PendingQos1) : List BufId := l.map PendingQos1.packetBuf

def buffers2 (l : List PendingQos2Out) : List BufId := l.map PendingQos2Out.packetBuf

def Client.held (c : Client) : List BufId := buffers1 c.pendingQos1 ++ buffers2 c.pendingQos2Out

/-- No buffer is used after it was freed, so none is freed twice; no pending message keeps a freed
buffer; and a buffer that was not freed is still to be written or pending. -/
structure Client.Kept (c : Client) : Prop where
  disciplined : Disciplined c.ops
  held : ∀ b ∈ c.held, .free b ∉ c.ops
  owned : ∀ b, .alloc b ∈ c.ops → .free b ∈ c.ops ∨ b ∈ c.writeQueue ∨ b ∈ c.held

inductive Activity where
  | publish (topic payload : Bytes) (qos : ℕ) (retain : Bool)
  | writeDone
  | puback (packetId : ℕ)
  | pubrec (packetId : ℕ)
  | pubcomp (packetId : ℕ)
  | retry
  | wait (ms : ℕ)
  deriving DecidableEq

section
variable (env : ClientEnv)

def Client.after (c : Client) : Activity → Client
  | .publish topic payload qos retain => (c.publish env topic payload qos retain).2
  | .writeDone => c.writeDone
  | .puback packetId => (c.onPuback packetId).2
  | .pubrec packetId => (c.onPubrec env packetId).2
  | .pubcomp packetId => (c.onPubcomp packetId).2
  | .retry => c.qosRetryTimerCb env
  | .wait ms => { c with now := c.now + ms }

/- A write is done when there is one, and the retry timer fires when it is active. -/
def Activity.possible (c : Client) : Activity → Prop
  | .writeDone => c.writeQueue ≠ []
  | .retry => c.qosRetryTimer = true
  | _ => True

instance Activity.decidablePossible (c : Client) : ∀ a, Decidable (Activity.possible c a)
  | .writeDone => inferInstanceAs (Decidable (c.writeQueue ≠ []))
  | .retry => inferInstanceAs (Decidable (c.qosRetryTimer = true))
  | .publish .. => .isTrue trivial
  | .puback _ => .isTrue trivial
  | .pubrec _ => .isTrue trivial
  | .pubcomp _ => .isTrue trivial
  | .wait _ => .isTrue trivial

def Client.step (c : Client) (a : Activity) : Option Client :=
  if a.possible c then some (c.after env a) else none

end

def awaitsAck : Bytes → Bool
  | [] => false
  | h :: _ => h &&& 0xF0 = 0x30 ∧ h &&& 0x06 ≠ 0

theorem and_dup (h : UInt8) {mask : UInt8} (hmask : (0x08 : UInt8) &&& mask = 0) :
    (h ||| 0x08) &&& mask = h &&& mask := by
  have hbits := congrArg UInt8.toBitVec hmask
  rw [UInt8.toBitVec_and] at hbits
  apply UInt8.toBitVec_inj.mp
  rw [UInt8.toBitVec_and, UInt8.toBitVec_or, BitVec.and_or_distrib_right, hbits, UInt8.toBitVec_and]
  exact BitVec.or_zero

theorem awaitsAck_dup (h : UInt8) (rest : Bytes) :
    awaitsAck ((h ||| 0x08) :: rest) = awaitsAck (h :: rest) := by
  have htype := and_dup h (show (0x08 : UInt8) &&& 0xF0 = 0 by decide)
  have hqos := and_dup h (show (0x08 : UInt8) &&& 0x06 = 0 by decide)
  simp only [awaitsAck, htype, hqos]

theorem awaitsAck_firstByte {qos : UInt8} (h : qos ≤ 2) (retain : Bool) (rest : Bytes) :
    awaitsAck (firstByte .publish (publishFlags qos retain) :: rest) = decide (qos ≠ 0) := by
  rcases qos_cases h with rfl | rfl | rfl
  · cases retain <;> rfl
  · cases retain <;> rfl
  · cases retain <;> rfl

theorem awaitsAck_publish (v : Version) {qos : ℕ} (hq : qos ≤ 2) (retain : Bool) (id : UInt16)
    (topic payload : Bytes)
    (hsize : (encodePublishIn v [] (UInt8.ofNat qos) retain id topic payload).1 ≠ 0) :
    awaitsAck (encoded (encodePublishIn v · (UInt8.ofNat qos) retain id topic payload)) =
      decide (qos ≠ 0) := by
  have hqos : UInt8.ofNat qos ≤ 2 := by
    rw [UInt8.le_iff_toNat_le, UInt8.toNat_ofNat', Nat.mod_eq_of_lt (by omega)]
    exact hq
  have hzero : (UInt8.ofNat qos ≠ 0) = (qos ≠ 0) := by
    rw [ne_eq, ← UInt8.toNat_inj, UInt8.toNat_ofNat', Nat.mod_eq_of_lt (by omega)]
    rfl
  have ht : topic.length ≤ 65535 := by
    by_contra hlong
    refine hsize ?_
    rw [encodePublishIn_with]
    unfold encodePublishWith
    rw [if_pos (by omega)]
  simp only [encodePublishIn_eq v ht] at hsize ⊢
  have hlen := publishBody_length v (UInt8.ofNat qos) id topic payload
  have hneed : publishNeed v (UInt8.ofNat qos) topic payload < 2 ^ 28 := by
    by_contra hbig
    refine hsize ?_
    unfold encodePacket
    cases hrl : encodeRemainingLength (publishNeed v (UInt8.ofNat qos) topic payload) with
    | none => rfl
    | some rl => exact absurd (encodeRemainingLength_lt hrl) hbig
  rw [encoded_packet _ _ hlen, if_pos hneed]
  unfold frame
  rw [awaitsAck_firstByte hqos]
  exact decide_eq_decide.mpr (iff_of_eq hzero)

theorem awaitsAck_pubrel (id : UInt16) : awaitsAck (encoded (encodePubrel · id)) = false := by
  show awaitsAck (encoded (encodePacket .pubrel 2 2 (putting (u16 id.toNat)))) = false
  rw [encoded_packet .pubrel 2 (u16_length _), if_pos (by norm_num)]
  rfl

/-- `held` are the buffers in the hands of the client. The packets to be written that are not
acknowledged are there once and live; the others are held or were freed. -/
structure Accounted (held : List BufId) (c : Client) : Prop where
  disciplined : Disciplined c.ops
  live : ∀ b ∈ held, .free b ∉ c.ops
  owned : ∀ b, .alloc b ∈ c.ops → .free b ∈ c.ops ∨ b ∈ c.writeQueue ∨ b ∈ held
  born : ∀ o ∈ c.ops, o.buf < c.nextBuf
  heldBorn : ∀ b ∈ held, b < c.nextBuf
  queueBorn : ∀ b ∈ c.writeQueue, b < c.nextBuf
  nodup : held.Nodup
  plain : ∀ b ∈ c.writeQueue, awaitsAck (c.contents b) = false →
    .free b ∉ c.ops ∧ c.writeQueue.count b = 1
  settled : ∀ b ∈ c.writeQueue, awaitsAck (c.contents b) = true → b ∈ held ∨ .free b ∈ c.ops

variable {env : ClientEnv} {held held' : List BufId} {c d : Client} {b : BufId}

theorem Accounted.perm (h : Accounted held c) (hp : held.Perm held') : Accounted held' c where
  disciplined := h.disciplined
  live b hb := h.live b (hp.mem_iff.mpr hb)
  owned b hb := (h.owned b hb).imp_right fun h => h.imp_right hp.mem_iff.mp
  born := h.born
  heldBorn b hb := h.heldBorn b (hp.mem_iff.mpr hb)
  queueBorn := h.queueBorn
  nodup := hp.nodup_iff.mp h.nodup
  plain := h.plain
  settled b hb ha := (h.settled b hb ha).imp_left hp.mem_iff.mp

theorem Accounted.congr (h : Accounted held c) (hops : d.ops = c.ops)
    (hqueue : d.writeQueue = c.writeQueue) (hnext : d.nextBuf = c.nextBuf)
    (hcontents : d.contents = c.contents) : Accounted held d where
  disciplined := hops ▸ h.disciplined
  live := hops ▸ h.live
  owned := hops ▸ hqueue ▸ h.owned
  born := hops ▸ hnext ▸ h.born
  heldBorn := hnext ▸ h.heldBorn
  queueBorn := hqueue ▸ hnext ▸ h.queueBorn
  nodup := h.nodup
  plain := hqueue ▸ hcontents ▸ hops ▸ h.plain
  settled := hqueue ▸ hcontents ▸ hops ▸ h.settled

theorem mem_op {o o' : BufOp} : o' ∈ (c.op o).ops ↔ o' ∈ c.ops ∨ o' = o := by
  show o' ∈ c.ops ++ [o] ↔ _
  rw [mem_append, mem_singleton]

theorem Accounted.op (h : Accounted held c) {o : BufOp} (ho : ∀ b, o ≠ .free b ∧ o ≠ .alloc b)
    (hb : o.buf ∈ held) : Accounted held (c.op o) := by
  have hfree (b : BufId) : .free b ∈ (c.op o).ops ↔ .free b ∈ c.ops :=
    mem_op.trans (or_iff_left (ho b).1.symm)
  refine {
    disciplined := disciplined_append h.disciplined ?_
    live := fun b hb => fun hin => h.live b hb ((hfree b).mp hin)
    owned := ?_
    born := ?_
    heldBorn := h.heldBorn
    queueBorn := h.queueBorn
    nodup := h.nodup
    plain := fun b hb ha => ⟨fun hin => (h.plain b hb ha).1 ((hfree b).mp hin), (h.plain b hb ha).2⟩
    settled := fun b hb ha => (h.settled b hb ha).imp_right (hfree b).mpr }
  · intro b huses
    have hbuf : o.buf = b := by
      cases o with
      | alloc b' => simp [BufOp.uses] at huses
      | free b' => exact some.inj huses
      | send b' => exact some.inj huses
      | setDup b' => exact some.inj huses
    exact h.live b (hbuf ▸ hb)
  · intro b hb
    rw [hfree]
    exact h.owned b ((mem_op.mp hb).resolve_right (ho b).2.symm)
  · intro o' ho'
    rcases mem_op.mp ho' with hold | rfl
    · exact h.born o' hold
    · exact h.heldBorn _ hb

theorem Accounted.free (h : Accounted (b :: held) c)
    (hb : b ∈ c.writeQueue → awaitsAck (c.contents b) = true) : Accounted held (c.freeBuf b) := by
  obtain ⟨hout, hnodup⟩ := nodup_cons.mp h.nodup
  have hfree (b' : BufId) : .free b' ∈ (c.freeBuf b).ops ↔ .free b' ∈ c.ops ∨ b' = b :=
    mem_op.trans (or_congr_right ⟨BufOp.free.inj, fun h => by rw [h]⟩)
  refine {
    disciplined := disciplined_append h.disciplined ?_
    live := ?_
    owned := ?_
    born := ?_
    heldBorn := fun b' hb' => h.heldBorn b' (mem_cons_of_mem _ hb')
    queueBorn := h.queueBorn
    nodup := hnodup
    plain := ?_
    settled := ?_ }
  · intro b' hb'
    obtain rfl := some.inj hb'
    exact h.live _ mem_cons_self
  · intro b' hb'
    rw [hfree, not_or]
    refine ⟨h.live b' (mem_cons_of_mem _ hb'), ?_⟩
    rintro rfl
    exact hout hb'
  · intro b' hb'
    rw [hfree]
    rcases h.owned b' ((mem_op.mp hb').resolve_right (by simp)) with hfreed | hqueue | hheld
    · exact Or.inl (Or.inl hfreed)
    · exact Or.inr (Or.inl hqueue)
    · rcases mem_cons.mp hheld with rfl | hheld
      · exact Or.inl (Or.inr rfl)
      · exact Or.inr (Or.inr hheld)
  · intro o ho
    rcases mem_op.mp ho with hold | rfl
    · exact h.born o hold
    · exact h.heldBorn b mem_cons_self
  · intro b' hb' ha
    obtain ⟨hlive, hcount⟩ := h.plain b' hb' ha
    refine ⟨?_, hcount⟩
    rw [hfree, not_or]
    refine ⟨hlive, ?_⟩
    rintro rfl
    exact Bool.false_ne_true (ha.symm.trans (hb hb'))
  · intro b' hb' ha
    rw [hfree]
    rcases h.settled b' hb' ha with hheld | hfreed
    · rcases mem_cons.mp hheld with rfl | hheld
      · exact Or.inr (Or.inr rfl)
      · exact Or.inl hheld
    · exact Or.inr (Or.inl hfreed)

theorem contents_newBuf (hb : b < c.nextBuf) (bytes : Bytes) :
    (c.newBuf bytes).2.contents b = c.contents b :=
  Function.update_of_ne (Nat.ne_of_lt hb) _ _

theorem contents_newBuf_self (c : Client) (bytes : Bytes) :
    (c.newBuf bytes).2.contents c.nextBuf = bytes := Function.update_self _ _ _

theorem Accounted.newBuf (h : Accounted held c) (bytes : Bytes) :
    Accounted (c.nextBuf :: held) (c.newBuf bytes).2 := by
  have hfree (b : BufId) : .free b ∈ (c.newBuf bytes).2.ops ↔ .free b ∈ c.ops :=
    mem_op.trans (or_iff_left (by simp))
  have hfresh : .free c.nextBuf ∉ c.ops := fun hin => Nat.lt_irrefl _ (h.born _ hin)
  have hnext : (c.newBuf bytes).2.nextBuf = c.nextBuf + 1 := rfl
  refine {
    disciplined := disciplined_append h.disciplined (by simp [BufOp.uses])
    live := ?_
    owned := ?_
    born := ?_
    heldBorn := ?_
    queueBorn := fun b hb => Nat.lt_succ_of_lt (h.queueBorn b hb)
    nodup := nodup_cons.mpr ⟨fun hin => Nat.lt_irrefl _ (h.heldBorn _ hin), h.nodup⟩
    plain := ?_
    settled := ?_ }
  · intro b hb
    rw [hfree]
    rcases mem_cons.mp hb with rfl | hb
    · exact hfresh
    · exact h.live b hb
  · intro b hb
    rw [hfree]
    rcases mem_op.mp hb with hold | hnew
    · exact (h.owned b hold).imp_right fun h => h.imp_right (mem_cons_of_mem _)
    · exact Or.inr (Or.inr (BufOp.alloc.inj hnew ▸ mem_cons_self))
  · intro o ho
    rw [hnext]
    rcases mem_op.mp ho with hold | rfl
    · exact Nat.lt_succ_of_lt (h.born o hold)
    · exact Nat.lt_succ_self _
  · intro b hb
    rw [hnext]
    rcases mem_cons.mp hb with rfl | hb
    · exact Nat.lt_succ_self _
    · exact Nat.lt_succ_of_lt (h.heldBorn b hb)
  · intro b hb ha
    rw [contents_newBuf (h.queueBorn b hb)] at ha
    rw [hfree]
    exact h.plain b hb ha
  · intro b hb ha
    rw [contents_newBuf (h.queueBorn b hb)] at ha
    rw [hfree]
    exact (h.settled b hb ha).imp_left (mem_cons_of_mem _)

theorem count_queue {q : List BufId} {b' : BufId} (hne : b' ≠ b) :
    (q ++ [b]).count b' = q.count b' := by
  have hnone : [b].count b' = 0 := count_eq_zero_of_not_mem (by simpa using hne)
  rw [count_append, hnone, Nat.add_zero]

theorem Accounted.queueHeld (h : Accounted held c) (hb : b ∈ held)
    (ha : awaitsAck (c.contents b) = true) (sent : List Bytes) :
    Accounted held { c with writeQueue := c.writeQueue ++ [b], sent := sent } := by
  refine {
    disciplined := h.disciplined
    live := h.live
    owned := fun b' hb' => (h.owned b' hb').imp_right fun h => h.imp_left (mem_append_left _)
    born := h.born
    heldBorn := h.heldBorn
    queueBorn := ?_
    nodup := h.nodup
    plain := ?_
    settled := ?_ }
  · intro b' hb'
    rcases mem_append.mp hb' with hold | hnew
    · exact h.queueBorn b' hold
    · exact h.heldBorn b' (mem_singleton.mp hnew ▸ hb)
  · intro b' hb' hplain
    have hne : b' ≠ b := by
      rintro rfl
      exact Bool.false_ne_true (hplain.symm.trans ha)
    show _ ∧ (c.writeQueue ++ [b]).count b' = 1
    rw [count_queue hne]
    exact h.plain b' ((mem_append.mp hb').resolve_right (by simpa using hne)) hplain
  · intro b' hb' hacked
    rcases mem_append.mp hb' with hold | hnew
    · exact h.settled b' hold hacked
    · exact Or.inl (mem_singleton.mp hnew ▸ hb)

theorem Accounted.queuePlain (h : Accounted (b :: held) c)
    (ha : awaitsAck (c.contents b) = false) (hb : b ∉ c.writeQueue) (sent : List Bytes) :
    Accounted held { c with writeQueue := c.writeQueue ++ [b], sent := sent } := by
  refine {
    disciplined := h.disciplined
    live := fun b' hb' => h.live b' (mem_cons_of_mem _ hb')
    owned := ?_
    born := h.born
    heldBorn := fun b' hb' => h.heldBorn b' (mem_cons_of_mem _ hb')
    queueBorn := ?_
    nodup := (nodup_cons.mp h.nodup).2
    plain := ?_
    settled := ?_ }
  · intro b' hb'
    rcases h.owned b' hb' with hfreed | hqueue | hheld
    · exact Or.inl hfreed
    · exact Or.inr (Or.inl (mem_append_left _ hqueue))
    · rcases mem_cons.mp hheld with rfl | hheld
      · exact Or.inr (Or.inl (mem_append_right _ (mem_singleton_self _)))
      · exact Or.inr (Or.inr hheld)
  · intro b' hb'
    rcases mem_append.mp hb' with hold | hnew
    · exact h.queueBorn b' hold
    · exact h.heldBorn b' (mem_singleton.mp hnew ▸ mem_cons_self)
  · intro b' hb' hplain
    show _ ∧ (c.writeQueue ++ [b]).count b' = 1
    by_cases hne : b' = b
    · subst hne
      refine ⟨h.live b' mem_cons_self, ?_⟩
      rw [count_append, count_eq_zero_of_not_mem hb, count_singleton_self]
    · rw [count_queue hne]
      exact h.plain b' ((mem_append.mp hb').resolve_right (by simpa using hne)) hplain
  · intro b' hb' hacked
    have hne : b' ≠ b := by
      rintro rfl
      exact Bool.false_ne_true (ha.symm.trans hacked)
    have hold := (mem_append.mp hb').resolve_right (by simpa using hne)
    rcases h.settled b' hold hacked with hheld | hfreed
    · exact Or.inl ((mem_cons.mp hheld).resolve_left hne)
    · exact Or.inr hfreed

/-- All the buffers are accounted for, and those that are held have messages that are to be
acknowledged. -/
structure Tracked (held : List BufId) (c : Client) : Prop extends Accounted held c where
  acked : ∀ b ∈ held, awaitsAck (c.contents b) = true

theorem Tracked.perm (h : Tracked held c) (hp : held.Perm held') : Tracked held' c :=
  ⟨h.toAccounted.perm hp, fun b hb => h.acked b (hp.mem_iff.mpr hb)⟩

theorem Tracked.congr (h : Tracked held c) (hops : d.ops = c.ops)
    (hqueue : d.writeQueue = c.writeQueue) (hnext : d.nextBuf = c.nextBuf)
    (hcontents : d.contents = c.contents) : Tracked held d :=
  ⟨h.toAccounted.congr hops hqueue hnext hcontents, fun b hb => by
    rw [hcontents]
    exact h.acked b hb⟩

theorem Tracked.free (h : Tracked (b :: held) c) : Tracked held (c.freeBuf b) :=
  ⟨h.toAccounted.free fun _ => h.acked b mem_cons_self,
    fun b' hb' => h.acked b' (mem_cons_of_mem _ hb')⟩

theorem Tracked.newBuf (h : Tracked held c) {bytes : Bytes} (ha : awaitsAck bytes = true) :
    Tracked (c.nextBuf :: held) (c.newBuf bytes).2 := by
  refine ⟨h.toAccounted.newBuf bytes, fun b hb => ?_⟩
  rcases mem_cons.mp hb with rfl | hb
  · rw [contents_newBuf_self]
    exact ha
  · rw [contents_newBuf (h.heldBorn b hb)]
    exact h.acked b hb

theorem Tracked.send (h : Tracked held c) (hb : b ∈ held) : Tracked held (c.sendBuf env b).2 := by
  unfold Client.sendBuf
  split
  · have hop := h.toAccounted.op (o := .send b) (fun b' => by simp) hb
    exact ⟨hop.queueHeld hb (h.acked b hb) _, h.acked⟩
  · exact h

theorem awaitsAck_setDup (c : Client) (b b' : BufId) :
    awaitsAck ((c.setDup b).contents b') = awaitsAck (c.contents b') := by
  show awaitsAck (Function.update c.contents b _ b') = _
  by_cases hb : b' = b
  · subst hb
    rw [Function.update_self]
    cases c.contents b' with
    | nil => rfl
    | cons h rest => exact awaitsAck_dup h rest
  · rw [Function.update_of_ne hb]

theorem Tracked.setDup (h : Tracked held c) (hb : b ∈ held) : Tracked held (c.setDup b) := by
  have hop := h.toAccounted.op (o := .setDup b) (fun b' => by simp) hb
  refine ⟨{ hop with plain := ?_, settled := ?_ }, fun b' hb' => ?_⟩
  · intro b' hb' ha
    rw [awaitsAck_setDup] at ha
    exact hop.plain b' hb' ha
  · intro b' hb' ha
    rw [awaitsAck_setDup] at ha
    exact hop.settled b' hb' ha
  · rw [awaitsAck_setDup]
    exact h.acked b' hb'

/-- A packet that nobody acknowledges, in a buffer of its own: it is sent or freed. -/
theorem Tracked.sendNew (h : Tracked held c) {bytes : Bytes} (ha : awaitsAck bytes = false) :
    Tracked held (let r := c.newBuf bytes
      let s := r.2.sendBuf env r.1
      if s.1 then s.2 else s.2.freeBuf r.1) := by
  have hnew := h.toAccounted.newBuf bytes
  have hplain : awaitsAck ((c.newBuf bytes).2.contents c.nextBuf) = false := by
    rw [contents_newBuf_self]
    exact ha
  have hout : c.nextBuf ∉ c.writeQueue := fun hin => Nat.lt_irrefl _ (h.queueBorn _ hin)
  have hacked : ∀ b ∈ held, awaitsAck ((c.newBuf bytes).2.contents b) = true := by
    intro b hb
    rw [contents_newBuf (h.heldBorn b hb)]
    exact h.acked b hb
  dsimp only
  unfold Client.sendBuf
  split
  · have hop := hnew.op (o := .send c.nextBuf) (fun b' => by simp) mem_cons_self
    exact ⟨hop.queuePlain hplain hout _, hacked⟩
  · exact ⟨hnew.free fun hin => absurd hin hout, hacked⟩

variable {enc : Bytes → ℕ × Bytes}

theorem Tracked.sendPacket (h : Tracked held c) (ha : awaitsAck (encoded enc) = false)
    {s : Bool × Client} (hs : c.sendPacket env enc = some s) : Tracked held s.2 := by
  unfold Client.sendPacket at hs
  split at hs
  · obtain rfl := some.inj hs
    exact h.sendNew ha
  · simp at hs

theorem Tracked.trySend (h : Tracked held c) (ha : awaitsAck (encoded enc) = false) :
    Tracked held (c.trySend env enc) := by
  unfold Client.trySend
  cases hs : c.sendPacket env enc with
  | none => exact h
  | some s => exact h.sendPacket ha hs

theorem Tracked.writeDone (h : Tracked held c)
    (hplain : ∀ b ∈ c.writeQueue.head?, awaitsAck (c.contents b) = false) :
    Tracked held c.writeDone := by
  unfold Client.writeDone
  cases hq : c.writeQueue with
  | nil => exact h
  | cons b rest =>
    have ha : awaitsAck (c.contents b) = false := hplain b (by rw [hq]; exact rfl)
    have hin : b ∈ c.writeQueue := by simp [hq]
    obtain ⟨hlive, hcount⟩ := h.plain b hin ha
    have hrest : b ∉ rest := by
      rw [hq, count_cons_self] at hcount
      exact count_eq_zero.mp (by omega)
    have hout : b ∉ held := by
      intro hheld
      rw [h.acked b hheld] at ha
      exact Bool.false_ne_true ha.symm
    have hfree (b' : BufId) : .free b' ∈ (c.freeBuf b).ops ↔ .free b' ∈ c.ops ∨ b' = b :=
      mem_op.trans (or_congr_right ⟨BufOp.free.inj, fun h => by rw [h]⟩)
    have hmem {b' : BufId} (hb' : b' ∈ rest) : b' ∈ c.writeQueue := by simp [hq, hb']
    refine ⟨{
      disciplined := disciplined_append h.disciplined ?_
      live := ?_
      owned := ?_
      born := ?_
      heldBorn := h.heldBorn
      queueBorn := fun b' hb' => h.queueBorn b' (hmem hb')
      nodup := h.nodup
      plain := ?_
      settled := ?_ }, h.acked⟩
    · intro b' hb'
      obtain rfl := some.inj hb'
      exact hlive
    · intro b' hb'
      rw [hfree, not_or]
      exact ⟨h.live b' hb', ne_of_mem_of_not_mem hb' hout⟩
    · intro b' hb'
      rw [hfree]
      rcases h.owned b' ((mem_op.mp hb').resolve_right (by simp)) with hfreed | hqueue | hheld
      · exact Or.inl (Or.inl hfreed)
      · rw [hq] at hqueue
        rcases mem_cons.mp hqueue with rfl | hqueue
        · exact Or.inl (Or.inr rfl)
        · exact Or.inr (Or.inl hqueue)
      · exact Or.inr (Or.inr hheld)
    · intro o ho
      rcases mem_op.mp ho with hold | rfl
      · exact h.born o hold
      · exact h.queueBorn b hin
    · intro b' hb' ha'
      obtain ⟨hlive', hcount'⟩ := h.plain b' (hmem hb') ha'
      have hne : b' ≠ b := ne_of_mem_of_not_mem hb' hrest
      rw [hq, count_cons_of_ne hne.symm] at hcount'
      rw [hfree, not_or]
      exact ⟨⟨hlive', hne⟩, hcount'⟩
    · intro b' hb' ha'
      rw [hfree]
      exact (h.settled b' (hmem hb') ha').imp_right Or.inl

/- The lists of pending messages and their timer stay as they are. -/
structure Client.SameLists (c d : Client) : Prop where
  qos1 : d.pendingQos1 = c.pendingQos1
  qos2 : d.pendingQos2Out = c.pendingQos2Out
  timer : d.qosRetryTimer = c.qosRetryTimer

theorem Client.SameLists.refl (c : Client) : c.SameLists c := ⟨rfl, rfl, rfl⟩

theorem Client.SameLists.trans {e : Client} (h : c.SameLists d) (h' : d.SameLists e) :
    c.SameLists e :=
  ⟨h'.qos1.trans h.qos1, h'.qos2.trans h.qos2, h'.timer.trans h.timer⟩

theorem Client.SameLists.held_eq (h : c.SameLists d) : d.held = c.held := by
  unfold Client.held
  rw [h.qos1, h.qos2]

theorem sendBuf_sameLists (c : Client) (b : BufId) : c.SameLists (c.sendBuf env b).2 := by
  unfold Client.sendBuf
  split
  · exact ⟨rfl, rfl, rfl⟩
  · exact ⟨rfl, rfl, rfl⟩

theorem resend_sameLists (c : Client) (b : BufId) : c.SameLists (c.resend env b).2 := by
  have hdup : c.SameLists (c.setDup b) := ⟨rfl, rfl, rfl⟩
  exact hdup.trans (sendBuf_sameLists (c.setDup b) b)

theorem giveUp_sameLists (c : Client) (b : BufId) (msg : String) :
    c.SameLists (c.giveUp b msg) := by
  unfold Client.giveUp
  cases c.errorCb with
  | true => exact ⟨rfl, rfl, rfl⟩
  | false => exact ⟨rfl, rfl, rfl⟩

theorem sendPacket_sameLists {s : Bool × Client} (hs : c.sendPacket env enc = some s) :
    c.SameLists s.2 := by
  unfold Client.sendPacket at hs
  split at hs
  · obtain rfl := some.inj hs
    have hnew : c.SameLists (c.newBuf (encoded enc)).2 := ⟨rfl, rfl, rfl⟩
    have hsend : c.SameLists ((c.newBuf (encoded enc)).2.sendBuf env c.nextBuf).2 :=
      hnew.trans (sendBuf_sameLists _ _)
    dsimp only
    split
    · exact hsend
    · exact hsend.trans ⟨rfl, rfl, rfl⟩
  · simp at hs

theorem trySend_sameLists (c : Client) (enc : Bytes → ℕ × Bytes) :
    c.SameLists (c.trySend env enc) := by
  unfold Client.trySend
  cases hs : c.sendPacket env enc with
  | none => exact Client.SameLists.refl c
  | some s => exact sendPacket_sameLists hs

theorem retryQos1_sameLists (ps : List PendingQos1) (c : Client) :
    c.SameLists (Client.retryQos1 env ps c).2 := by
  induction ps generalizing c with
  | nil => exact Client.SameLists.refl c
  | cons p ps ih =>
    unfold Client.retryQos1
    split
    · exact ih c
    · split
      · exact (giveUp_sameLists c _ _).trans (ih _)
      · split
        · exact (resend_sameLists c _).trans (ih _)
        · exact ih c

theorem retryEntry_sameLists (c : Client) (p : PendingQos2Out) :
    c.SameLists (c.retryEntry env p).2 := by
  unfold Client.retryEntry
  cases p.state with
  | waitPubrec =>
    dsimp only
    split
    · exact resend_sameLists c _
    · exact Client.SameLists.refl c
  | waitPubcomp =>
    cases hs : c.sendPacket env (encodePubrel · (UInt16.ofNat p.packetId)) with
    | none => exact Client.SameLists.refl c
    | some s => exact sendPacket_sameLists hs

theorem retryQos2_sameLists (ps : List PendingQos2Out) (c : Client) :
    c.SameLists (Client.retryQos2 env ps c).2 := by
  induction ps generalizing c with
  | nil => exact Client.SameLists.refl c
  | cons p ps ih =>
    unfold Client.retryQos2
    split
    · exact ih c
    · split
      · exact (giveUp_sameLists c _ _).trans (ih _)
      · exact (retryEntry_sameLists c p).trans (ih _)

theorem Tracked.resend (h : Tracked held c) (hb : b ∈ held) : Tracked held (c.resend env b).2 :=
  (h.setDup hb).send hb

theorem Tracked.giveUp (h : Tracked (b :: held) c) (msg : String) :
    Tracked held (c.giveUp b msg) := by
  have hfree := h.free
  unfold Client.giveUp
  cases c.errorCb with
  | true => exact hfree.congr rfl rfl rfl rfl
  | false => exact hfree

theorem retryQos1_tracked (ps : List PendingQos1) : ∀ {held : List BufId} {c : Client},
    Tracked (buffers1 ps ++ held) c → Tracked (buffers1 (Client.retryQos1 env ps c).1 ++ held)
        (Client.retryQos1 env ps c).2 := by
  induction ps with
  | nil => exact fun {_ _} h => h
  | cons p ps ih =>
    intro held c h
    have hkept {d : Client} (hd : Tracked (p.packetBuf :: (buffers1 ps ++ held)) d) :
        Tracked (p.packetBuf :: (buffers1 (Client.retryQos1 env ps d).1 ++ held))
          (Client.retryQos1 env ps d).2 :=
      (ih (hd.perm perm_middle.symm)).perm perm_middle
    unfold Client.retryQos1
    split
    · exact hkept h
    · split
      · exact ih (h.giveUp "QoS 1 publish timeout")
      · split
        · have hsent : Tracked (p.packetBuf :: (buffers1 ps ++ held)) (c.resend env p.packetBuf).2 :=
            h.resend mem_cons_self
          have hrest := hkept hsent
          dsimp only
          split
          · exact hrest
          · exact hrest
        · exact hkept h

theorem retryEntry_tracked (h : Tracked held c) {p : PendingQos2Out} (hp : p.packetBuf ∈ held) :
    Tracked held (c.retryEntry env p).2 := by
  unfold Client.retryEntry
  cases p.state with
  | waitPubrec =>
    dsimp only
    split
    · exact h.resend hp
    · exact h
  | waitPubcomp =>
    cases hs : c.sendPacket env (encodePubrel · (UInt16.ofNat p.packetId)) with
    | none => exact h
    | some s => exact h.sendPacket (awaitsAck_pubrel _) hs

theorem retryQos2_tracked (ps : List PendingQos2Out) : ∀ {held : List BufId} {c : Client},
    Tracked (buffers2 ps ++ held) c → Tracked (buffers2 (Client.retryQos2 env ps c).1 ++ held)
        (Client.retryQos2 env ps c).2 := by
  induction ps with
  | nil => exact fun {_ _} h => h
  | cons p ps ih =>
    intro held c h
    have hkept {d : Client} (hd : Tracked (p.packetBuf :: (buffers2 ps ++ held)) d) :
        Tracked (p.packetBuf :: (buffers2 (Client.retryQos2 env ps d).1 ++ held))
          (Client.retryQos2 env ps d).2 :=
      (ih (hd.perm perm_middle.symm)).perm perm_middle
    unfold Client.retryQos2
    split
    · exact hkept h
    · split
      · exact ih (h.giveUp "QoS 2 publish timeout")
      · have hentry : Tracked (p.packetBuf :: (buffers2 ps ++ held)) (c.retryEntry env p).2 :=
          retryEntry_tracked h mem_cons_self
        have hrest := hkept hentry
        dsimp only
        split
        · exact hrest
        · exact hrest

def Client.Sound (c : Client) : Prop := Tracked c.held c

theorem Client.Sound.kept (h : c.Sound) : c.Kept := ⟨h.disciplined, h.live, h.owned⟩

theorem Tracked.sound (h : Tracked c.held d) (hsame : c.SameLists d) : d.Sound := by
  unfold Client.Sound
  rw [hsame.held_eq]
  exact h

theorem stopIfIdle_sound (h : c.Sound) : c.stopIfIdle.Sound := by
  unfold Client.stopIfIdle
  split
  · exact h.congr rfl rfl rfl rfl
  · exact h

theorem qosRetryTimerCb_sound (h : c.Sound) : (c.qosRetryTimerCb env).Sound := by
  unfold Client.qosRetryTimerCb
  split
  · exact h
  · have h1 : Tracked _ (Client.retryQos1 env c.pendingQos1 c).2 := retryQos1_tracked _ h
    have hsame1 : c.SameLists (Client.retryQos1 env c.pendingQos1 c).2 := retryQos1_sameLists _ c
    dsimp only
    generalize Client.retryQos1 env c.pendingQos1 c = r1 at h1 hsame1 ⊢
    let d : Client := { r1.2 with pendingQos1 := r1.1 }
    have hd : Tracked (buffers2 d.pendingQos2Out ++ buffers1 r1.1) d := by
      have hperm := h1.perm perm_append_comm
      rw [← hsame1.qos2] at hperm
      exact hperm.congr rfl rfl rfl rfl
    have h2 : Tracked _ (Client.retryQos2 env d.pendingQos2Out d).2 := retryQos2_tracked _ hd
    have hsame2 : d.SameLists (Client.retryQos2 env d.pendingQos2Out d).2 := retryQos2_sameLists _ d
    generalize Client.retryQos2 env d.pendingQos2Out d = r2 at h2 hsame2 ⊢
    refine stopIfIdle_sound ?_
    unfold Client.Sound Client.held
    have hqos1 : r2.2.pendingQos1 = r1.1 := hsame2.qos1
    dsimp only
    rw [hqos1]
    exact (h2.perm perm_append_comm).congr rfl rfl rfl rfl

theorem perm_eraseP {α : Type*} {f : α → Bool} {l : List α} {p : α} (h : l.find? f = some p) :
    l.Perm (p :: l.eraseP f) := by
  induction l with
  | nil => simp at h
  | cons q l ih =>
    by_cases hq : f q = true
    · rw [List.find?_cons_of_pos hq] at h
      rw [some.inj h, eraseP_cons_of_pos (some.inj h ▸ hq)]
    · rw [List.find?_cons_of_neg hq] at h
      rw [eraseP_cons_of_neg hq]
      exact ((ih h).cons q).trans (List.Perm.swap p q _)

theorem onPuback_sound (h : c.Sound) (packetId : ℕ) : (c.onPuback packetId).2.Sound := by
  unfold Client.onPuback
  dsimp only
  have hstop {d : Client} (hd : d.Sound) :
      (if d.pendingQos1 = [] then { d with qosRetryTimer := false } else d).Sound := by
    split
    · exact hd.congr rfl rfl rfl rfl
    · exact hd
  cases hp : c.pendingQos1.find? fun p => p.packetId = packetId with
  | none => exact hstop h
  | some p =>
    have hperm : c.held.Perm (p.packetBuf :: (buffers1 (c.pendingQos1.eraseP fun p =>
        p.packetId = packetId) ++ buffers2 c.pendingQos2Out)) :=
      ((perm_eraseP hp).map PendingQos1.packetBuf).append_right _
    exact hstop ((h.perm hperm).free.congr rfl rfl rfl rfl)

theorem onPubcomp_sound (h : c.Sound) (packetId : ℕ) : (c.onPubcomp packetId).2.Sound := by
  unfold Client.onPubcomp
  dsimp only
  cases hp : c.pendingQos2Out.find? fun p => p.packetId = packetId with
  | none => exact stopIfIdle_sound h
  | some p =>
    have hperm : c.held.Perm (p.packetBuf :: (buffers1 c.pendingQos1 ++
        buffers2 (c.pendingQos2Out.eraseP fun p => p.packetId = packetId))) :=
      (((perm_eraseP hp).map PendingQos2Out.packetBuf).append_left _).trans perm_middle
    exact stopIfIdle_sound ((h.perm hperm).free.congr rfl rfl rfl rfl)

theorem buffers2_receivePubrec (packetId now : ℕ) (ps : List PendingQos2Out) :
    buffers2 (receivePubrec packetId now ps) = buffers2 ps := by
  induction ps with
  | nil => rfl
  | cons p ps ih =>
    unfold receivePubrec
    split
    · rfl
    · exact congrArg (p.packetBuf :: ·) ih

theorem onPubrec_sound (h : c.Sound) (packetId : ℕ) : (c.onPubrec env packetId).2.Sound := by
  unfold Client.onPubrec
  split
  · let d : Client := { c with pendingQos2Out := receivePubrec packetId c.now c.pendingQos2Out }
    have hd : d.Sound := by
      have hheld : d.held = c.held := by
        unfold Client.held
        rw [buffers2_receivePubrec]
      unfold Client.Sound
      rw [hheld]
      exact h.congr rfl rfl rfl rfl
    exact Tracked.sound (Tracked.trySend hd (awaitsAck_pubrel _)) (trySend_sameLists d _)
  · exact h

/- Memory for every size, and a transport that takes every buffer. -/
structure ClientEnv.willing (env : ClientEnv) : Prop where
  alloc : ∀ n, env.alloc n
  write : ∀ b, env.write b

theorem sendBuf_willing (he : env.willing) (c : Client) (b : BufId) :
    (c.sendBuf env b).1 = true := by
  unfold Client.sendBuf
  rw [if_pos ⟨he.alloc _, he.write _⟩]

theorem keep_sound (he : env.willing) (h : c.Sound) {bytes : Bytes} {qos : ℕ}
    (hq : qos = 1 ∨ qos = 2) (ha : awaitsAck bytes = true) (packetId : ℕ) :
    ∃ d, (c.newBuf bytes).2.keep env c.nextBuf qos packetId = some d ∧
      (d.sendBuf env c.nextBuf).2.Sound := by
  have hnew : Tracked (c.nextBuf :: c.held) (c.newBuf bytes).2 := Tracked.newBuf h ha
  have hsent {d : Client} (hd : (c.nextBuf :: c.held).Perm d.held)
      (hsame : Tracked (c.nextBuf :: c.held) d) : (d.sendBuf env c.nextBuf).2.Sound := by
    have hmem : c.nextBuf ∈ d.held := hd.mem_iff.mp mem_cons_self
    exact Tracked.sound ((hsame.perm hd).send hmem) (sendBuf_sameLists d _)
  unfold Client.keep
  rcases hq with rfl | rfl
  · rw [if_pos rfl, if_pos (he.alloc _)]
    refine ⟨_, rfl, hsent ?_ (hnew.congr rfl rfl rfl rfl)⟩
    show (c.nextBuf :: (buffers1 c.pendingQos1 ++ buffers2 c.pendingQos2Out)).Perm
      ((c.pendingQos1 ++ [_]).map PendingQos1.packetBuf ++ buffers2 c.pendingQos2Out)
    rw [map_append, append_assoc]
    exact perm_middle.symm
  · rw [if_neg (by norm_num), if_pos rfl, if_pos (he.alloc _)]
    refine ⟨_, rfl, hsent ?_ (hnew.congr rfl rfl rfl rfl)⟩
    show (c.nextBuf :: (buffers1 c.pendingQos1 ++ buffers2 c.pendingQos2Out)).Perm
      (buffers1 c.pendingQos1 ++ (c.pendingQos2Out ++ [_]).map PendingQos2Out.packetBuf)
    rw [map_append, ← append_assoc]
    exact perm_append_singleton _ _ |>.symm

theorem publish_sound (he : env.willing) (h : c.Sound) (topic payload : Bytes) (qos : ℕ)
    (retain : Bool) : (c.publish env topic payload qos retain).2.Sound := by
  unfold Client.publish
  split
  · exact h
  · split
    · exact h
    · next hqos =>
      have hid : (if qos > 0 then c.takeId else c).Sound := by
        split
        · exact h.congr rfl rfl rfl rfl
        · exact h
      dsimp only
      generalize (if qos > 0 then c.takeId else c) = c at hid ⊢
      generalize (if qos > 0 then c.nextPacketId else 0 : UInt16) = id
      split
      · exact hid
      · next hsize =>
        rw [if_neg (not_not.mpr (he.alloc _))]
        have ha := awaitsAck_publish c.version (not_lt.mp hqos) retain id topic payload hsize
        generalize encoded (encodePublishIn c.version · (UInt8.ofNat qos) retain id topic payload) =
          bytes at ha ⊢
        by_cases hzero : qos = 0
        · subst hzero
          have hsent : Tracked c.held (let r := c.newBuf bytes
              let s := r.2.sendBuf env r.1
              if s.1 then s.2 else s.2.freeBuf r.1) := Tracked.sendNew hid (ha.trans (by simp))
          have hnew : c.SameLists (c.newBuf bytes).2 := ⟨rfl, rfl, rfl⟩
          have hsame : c.SameLists ((c.newBuf bytes).2.sendBuf env c.nextBuf).2 :=
            hnew.trans (sendBuf_sameLists _ _)
          have htaken := sendBuf_willing he (c.newBuf bytes).2 c.nextBuf
          have hs : (c.newBuf bytes).1 = c.nextBuf := rfl
          simp only [Client.keep, hs, htaken, if_true, Nat.zero_ne_one, if_false,
            OfNat.zero_ne_ofNat] at hsent ⊢
          exact hsent.sound hsame
        · have hq : qos = 1 ∨ qos = 2 := by omega
          obtain ⟨d, hd, hsound⟩ := keep_sound he hid hq (ha.trans (by simpa using hzero)) id.toNat
          have htaken := sendBuf_willing he d c.nextBuf
          have hs : (c.newBuf bytes).1 = c.nextBuf := rfl
          rw [hs, hd]
          simp only [htaken, if_true]
          exact hsound

/-- Nothing is pending yet, and what is to be written is live, there once and no PUBLISH that is
acknowledged. -/
structure Client.Clear (c : Client) : Prop where
  qos1 : c.pendingQos1 = []
  qos2 : c.pendingQos2Out = []
  kept : c.Kept
  born : ∀ o ∈ c.ops, o.buf < c.nextBuf
  queueBorn : ∀ b ∈ c.writeQueue, b < c.nextBuf
  queue : c.writeQueue.Nodup
  plain : ∀ b ∈ c.writeQueue, awaitsAck (c.contents b) = false ∧ .free b ∉ c.ops

theorem Client.Clear.sound (h : c.Clear) : c.Sound := by
  have hheld : c.held = [] := by
    unfold Client.held
    rw [h.qos1, h.qos2]
    rfl
  have hnone {b : BufId} : b ∉ c.held := by simp [hheld]
  exact {
    disciplined := h.kept.disciplined
    live := h.kept.held
    owned := h.kept.owned
    born := h.born
    heldBorn := fun b hb => absurd hb hnone
    queueBorn := h.queueBorn
    nodup := by simp [hheld]
    acked := fun b hb => absurd hb hnone
    plain := fun b hb _ => ⟨(h.plain b hb).2, count_eq_one_of_mem h.queue hb⟩
    settled := fun b hb ha => absurd ((h.plain b hb).1.symm.trans ha) Bool.false_ne_true }

/-- The write that is done is of a packet that nobody acknowledges: no PUBLISH with QoS 1 or 2. -/
def Activity.spares (c : Client) : Activity → Prop
  | .writeDone => ∀ b ∈ c.writeQueue.head?, awaitsAck (c.contents b) = false
  | _ => True

instance (c : Client) : ∀ a, Decidable (Activity.spares c a)
  | .writeDone =>
    inferInstanceAs (Decidable (∀ b ∈ c.writeQueue.head?, awaitsAck (c.contents b) = false))
  | .retry => .isTrue trivial
  | .publish .. => .isTrue trivial
  | .puback _ => .isTrue trivial
  | .pubrec _ => .isTrue trivial
  | .pubcomp _ => .isTrue trivial
  | .wait _ => .isTrue trivial

theorem step_cases {a : Activity} (h : c.step env a = some d) :
    a.possible c ∧ d = c.after env a := by
  unfold Client.step at h
  split at h
  · next hp => exact ⟨hp, (some.inj h).symm⟩
  · simp at h

theorem step_sound (he : env.willing) (h : c.Sound) {a : Activity} (ha : a.spares c)
    (hd : c.step env a = some d) : d.Sound := by
  obtain ⟨-, rfl⟩ := step_cases hd
  cases a with
  | publish topic payload qos retain => exact publish_sound he h topic payload qos retain
  | writeDone =>
    have hsame : c.SameLists c.writeDone := by
      unfold Client.writeDone
      split
      · exact Client.SameLists.refl c
      · exact ⟨rfl, rfl, rfl⟩
    exact Tracked.sound (Tracked.writeDone h ha) hsame
  | puback packetId => exact onPuback_sound h packetId
  | pubrec packetId => exact onPubrec_sound h packetId
  | pubcomp packetId => exact onPubcomp_sound h packetId
  | retry => exact qosRetryTimerCb_sound h
  | wait ms => exact h.congr rfl rfl rfl rfl

theorem spares_of_kept (h : c.Sound) {a : Activity} (hd : c.step env a = some d) (hkept : d.Kept) :
    a.spares c := by
  obtain ⟨-, rfl⟩ := step_cases hd
  cases a with
  | writeDone =>
    intro b hb
    by_contra hacked
    obtain ⟨rest, hq⟩ := List.head?_eq_some_iff.mp hb
    have hdone : c.writeDone = { c.freeBuf b with writeQueue := rest } := by
      unfold Client.writeDone
      rw [hq]
    have hops : c.writeDone.ops = c.ops ++ [BufOp.free b] := by
      rw [hdone]
      rfl
    have hkept : c.writeDone.Kept := hkept
    rcases h.settled b (by simp [hq]) (by simpa using hacked) with hheld | hfreed
    · refine hkept.held b ?_ (by simp [hops])
      rw [hdone]
      exact hheld
    · have hdisc := hkept.disciplined
      rw [hops] at hdisc
      exact (pairwise_append.mp hdisc).2.2 _ hfreed _ (mem_singleton_self _) b rfl rfl
  | _ => trivial

/-- From a client without pending messages, the buffers are kept in order all along a run if and
only if no write of a QoS 1 or QoS 2 PUBLISH is done in it. -/
theorem buffers_freed_once (he : env.willing) (h : c.Clear) (as : List Activity) :
    Along (Client.step env) Client.Kept c as ↔ Guarded (Client.step env) Activity.spares c as :=
  along_iff_guarded (P := Client.Sound) (fun _ h => h.kept)
    (fun _ _ _ h ha hd => step_sound he h ha hd) (fun _ _ _ h hd hkept => spares_of_kept h hd hkept)
    h.sound

def greeting : Client where
  connected := true
  nextBuf := 1
  contents _ := [0x10, 0x00]
  ops := [.alloc 0, .send 0]
  writeQueue := [0]

theorem greeting_clear : greeting.Clear where
  qos1 := rfl
  qos2 := rfl
  kept := ⟨by simp [Disciplined, greeting], by simp [Client.held, greeting, buffers1, buffers2],
    by simp [greeting]⟩
  born := by decide
  queueBorn := by decide
  queue := by decide
  plain := by decide

def sampleActivities : List Activity :=
  [.publish (lit "a") [] 0 false, .writeDone, .writeDone, .publish (lit "a") [1] 1 false,
    .wait 5000, .retry, .puback 1, .publish (lit "a") [2] 2 true, .pubrec 2, .pubcomp 2]

theorem sample_freed_once : Along (Client.step ample) Client.Kept greeting sampleActivities :=
  (buffers_freed_once ⟨fun _ => rfl, fun _ => rfl⟩ greeting_clear sampleActivities).mpr
    (by decide +kernel)

/-- The buffer of a QoS 1 message is freed when it was written, and again when it is
acknowledged. -/
theorem acknowledged_buffer_freed_twice :
    ¬ ∀ (env : ClientEnv) (c d : Client) (as : List Activity), env.willing → c.Clear →
      exec (Client.step env) c as = some d → d.Kept := by
  intro hall
  have hrun : ((exec (Client.step ample) greeting [.writeDone, .publish (lit "a") [1] 1 false,
      .writeDone, .puback 1]).map fun d => d.ops) =
      some [.alloc 0, .send 0, .free 0, .alloc 1, .send 1, .free 1, .free 1] := by decide +kernel
  obtain ⟨d, hd, hops⟩ := map_eq_some_iff.mp hrun
  have hkept := hall ample greeting d _ ⟨fun _ => rfl, fun _ => rfl⟩ greeting_clear hd
  have hdisc := hkept.disciplined
  rw [hops] at hdisc
  simp [Disciplined, BufOp.uses] at hdisc

end Voxlib.Mqtt
