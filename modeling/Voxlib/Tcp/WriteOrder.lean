import Voxlib.Tcp.WriteInterest

/-!
# The socket gets the buffers in the order of the calls
-/

namespace Voxlib.Tcp
open Run List Option

abbrev WriteCall := List UInt8 × Bool

def bytes (calls : List WriteCall) : List UInt8 := (calls.map Prod.fst).flatten

def callbacks (calls : List WriteCall) : List (ℕ × ℤ) :=
  (calls.zipIdx.filter (fun c => c.1.2)).map (fun c => (c.2, 0))

/- The accepted bytes are a prefix of the bytes of the calls, and with the first
   `n` calls complete and the next one not, exactly the callbacks of these have
   been started. -/
def Delivered (s : State) : Prop :=
  s.accepted <+: bytes s.calls ∧
  ∃ n ≤ s.calls.length, (bytes (s.calls.take n)).length ≤ s.accepted.length ∧
    (n < s.calls.length → s.accepted.length < (bytes (s.calls.take (n + 1))).length) ∧
    s.started = callbacks (s.calls.take n)

@[simp] theorem bytes_append (a b : List WriteCall) : bytes (a ++ b) = bytes a ++ bytes b := by
  simp [bytes]

@[simp] theorem bytes_singleton (c : WriteCall) : bytes [c] = c.1 := by
  simp [bytes]

theorem callbacks_concat (calls : List WriteCall) (c : WriteCall) :
    callbacks (calls ++ [c]) = callbacks calls ++ if c.2 then [(calls.length, 0)] else [] := by
  unfold callbacks
  rw [zipIdx_append]
  cases hc : c.2 with
  | false => simp [hc]
  | true => simp [hc]

/- The requests of the calls from number `n` on, the first one sent up to `k`. -/
def requests (n k : ℕ) : List WriteCall → List WriteReq
  | [] => []
  | c :: rest => ⟨n, c.1, k, c.2⟩ :: requests (n + 1) 0 rest

theorem requests_concat (n k : ℕ) (calls : List WriteCall) (c : WriteCall) (hne : calls ≠ []) :
    requests n k (calls ++ [c]) = requests n k calls ++ [⟨n + calls.length, c.1, 0, c.2⟩] := by
  induction calls generalizing n k with
  | nil => exact absurd rfl hne
  | cons d rest ih =>
    cases rest with
    | nil => rfl
    | cons e rest =>
      have hrest := ih (n + 1) 0 (by simp)
      simp only [cons_append] at hrest
      have hlen : n + 1 + (e :: rest).length = n + (d :: e :: rest).length := by
        simp only [length_cons]
        omega
      rw [hlen] at hrest
      simp only [cons_append, requests] at hrest ⊢
      rw [hrest]

theorem requests_eq_nil {n k : ℕ} {calls : List WriteCall} :
    requests n k calls = [] ↔ calls = [] := by
  cases calls with
  | nil => simp [requests]
  | cons c rest => simp [requests]

/- `pending` are the calls that are not complete. -/
structure Books (s : State) (done pending : List WriteCall) (k : ℕ) : Prop where
  calls : s.calls = done ++ pending
  queue : s.tcp.writeQueue = requests done.length k pending
  nonempty : ∀ c ∈ pending, 0 < c.1.length
  offset : ∀ c rest, pending = c :: rest → k < c.1.length
  accepted : s.accepted = bytes done ++ (bytes pending).take k
  started : s.started = callbacks done

/- The loop variable of tcp_process_write_queue points at the head of the queue. -/
def LoopOk (s : State) : Prop :=
  ∀ id hangup, s.cont = .queue (some id) hangup → ∃ req rest,
    s.tcp.writeQueue = req :: rest ∧ req.id = id

structure WriteInv (s : State) : Prop where
  books : ∃ done pending k, Books s done pending k
  loop : LoopOk s

variable {s : State}

theorem Books.delivered {done pending : List WriteCall} {k : ℕ} (h : Books s done pending k) :
    Delivered s := by
  have hdelivered : s.accepted <+: bytes s.calls := by
    rw [h.accepted, h.calls, bytes_append]
    exact (prefix_append_right_inj _).mpr (List.take_prefix k _)
  refine ⟨hdelivered, done.length, ?_, ?_, ?_, ?_⟩
  · rw [h.calls]
    simp
  · rw [h.calls, take_left, h.accepted]
    simp
  · intro hlt
    cases hp : pending with
    | nil =>
      rw [h.calls, hp] at hlt
      simp at hlt
    | cons c rest =>
      have hk := h.offset c rest hp
      have htake : s.calls.take (done.length + 1) = done ++ [c] := by
        rw [h.calls, hp, take_length_add_append]
        rfl
      rw [htake, h.accepted, bytes_append, bytes_singleton, length_append,
        length_append, length_take]
      omega
  · rw [h.calls, take_left]
    exact h.started

structure Same (s t : State) : Prop where
  calls : t.calls = s.calls
  queue : t.tcp.writeQueue = s.tcp.writeQueue
  accepted : t.accepted = s.accepted
  started : t.started = s.started

theorem Same.trans {t u : State} (h : Same s t) (h' : Same t u) : Same s u := by
  constructor
  · rw [h'.calls, h.calls]
  · rw [h'.queue, h.queue]
  · rw [h'.accepted, h.accepted]
  · rw [h'.started, h.started]

theorem Books.same {t : State} {done pending : List WriteCall} {k : ℕ} (h : Books s done pending k)
    (hst : Same s t) : Books t done pending k := by
  constructor
  · rw [hst.calls, h.calls]
  · rw [hst.queue, h.queue]
  · exact h.nonempty
  · exact h.offset
  · rw [hst.accepted, h.accepted]
  · rw [hst.started, h.started]

theorem call_same (s : State) (cb : Bool) : Same s (s.call cb) := by
  unfold State.call
  split
  · exact ⟨rfl, rfl, rfl, rfl⟩
  · exact ⟨rfl, rfl, rfl, rfl⟩

@[simp] theorem call_cont (s : State) (cb : Bool) : (s.call cb).cont = s.cont := by
  unfold State.call
  split
  · rfl
  · rfl

@[simp] theorem readStop_queue (t : VoxTcp) : (readStop t).writeQueue = t.writeQueue := by
  unfold readStop
  split
  · rfl
  · rw [setEvents_queue]

@[simp] theorem readStart_queue (t : VoxTcp) (cb : Bool) :
    (readStart t cb).2.writeQueue = t.writeQueue := by
  unfold readStart
  split
  · rfl
  · split
    · rfl
    · rw [updateBackend_queue]

theorem loopOk_of_not_queue (h : ∀ id hangup, s.cont ≠ .queue (some id) hangup) : LoopOk s := by
  intro id hangup hcont
  exact absurd hcont (h id hangup)

theorem WriteInv.same {t : State} (h : WriteInv s) (hst : Same s t ∧ LoopOk t) : WriteInv t := by
  obtain ⟨done, pending, k, hbooks⟩ := h.books
  exact ⟨⟨done, pending, k, hbooks.same hst.1⟩, hst.2⟩

theorem WriteInv.user {t : State} (h : WriteInv s) (hst : Same s t) (hcont : t.cont = s.cont) :
    WriteInv t := by
  apply h.same
  refine ⟨hst, ?_⟩
  intro id hangup hq
  rw [hcont] at hq
  rw [hst.queue]
  exact h.loop id hangup hq

theorem hangupPart_same (s : State) (hangup : Bool) :
    Same s (hangupPart s hangup) ∧ LoopOk (hangupPart s hangup) := by
  unfold hangupPart
  split
  · split
    · have hcall := call_same { s with cont := .hangupDone } true
      refine ⟨⟨hcall.calls, hcall.queue, hcall.accepted, hcall.started⟩, ?_⟩
      apply loopOk_of_not_queue
      intro id h
      rw [call_cont]
      simp
    · refine ⟨⟨rfl, readStop_queue s.tcp, rfl, rfl⟩, ?_⟩
      apply loopOk_of_not_queue
      simp
  · refine ⟨⟨rfl, rfl, rfl, rfl⟩, ?_⟩
    apply loopOk_of_not_queue
    simp

theorem endQueue_same (s : State) (hangup : Bool) :
    Same s (endQueue s hangup) ∧ LoopOk (endQueue s hangup) := by
  unfold endQueue
  dsimp only
  obtain ⟨hsame, hloop⟩ := hangupPart_same { s with
    tcp := if s.tcp.writeQueue = [] then
        if { s.tcp.backendEvents with write := false } ≠ s.tcp.backendEvents then
          setEvents s.tcp { s.tcp.backendEvents with write := false } else s.tcp
      else s.tcp } hangup
  refine ⟨Same.trans ?_ hsame, hloop⟩
  refine ⟨rfl, ?_, rfl, rfl⟩
  dsimp only
  split
  · split
    · rw [setEvents_queue]
    · rfl
  · rfl

theorem startQueue_same (s : State) (hangup : Bool) :
    Same s (startQueue s hangup) ∧ LoopOk (startQueue s hangup) := by
  unfold startQueue
  split
  · exact hangupPart_same s hangup
  · rename_i req rest hq
    refine ⟨⟨rfl, rfl, rfl, rfl⟩, ?_⟩
    intro id h hcont
    simp only [Cont.queue.injEq, Option.some.injEq] at hcont
    exact ⟨req, rest, hq, hcont.1⟩

theorem writePart_same (s : State) (ev : Events) :
    Same s (writePart s ev) ∧ LoopOk (writePart s ev) := by
  unfold writePart
  split
  · exact startQueue_same s ev.hangup
  · exact hangupPart_same s ev.hangup

theorem call_from_event {cont : Cont} (h : ∀ id hangup, cont ≠ .queue (some id) hangup) (t : VoxTcp)
    (hq : t.writeQueue = s.tcp.writeQueue) :
    Same s (State.call { s with tcp := t, cont := cont } true) ∧
      LoopOk (State.call { s with tcp := t, cont := cont } true) := by
  have hcall := call_same { s with tcp := t, cont := cont } true
  refine ⟨⟨hcall.calls, hcall.queue.trans hq, hcall.accepted, hcall.started⟩, ?_⟩
  apply loopOk_of_not_queue
  intro id hangup
  rw [call_cont]
  exact h id hangup

theorem readPart_same (s : State) (ev : Events) (r : Recv) :
    Same s (readPart s ev r) ∧ LoopOk (readPart s ev r) := by
  unfold readPart
  split
  · cases r with
    | noBuffer => exact writePart_same s ev
    | data => exact call_from_event (by simp) s.tcp rfl
    | eof => exact call_from_event (by simp) s.tcp rfl
    | error => exact call_from_event (by simp) s.tcp rfl
    | wouldBlock =>
      refine ⟨⟨rfl, rfl, rfl, rfl⟩, ?_⟩
      apply loopOk_of_not_queue
      simp
  · exact writePart_same s ev

theorem eventCb_same (hidle : s.cont = .idle) (ev : Events) (soError : Bool) (r : Recv) :
    Same s (eventCb s ev soError r) ∧ LoopOk (eventCb s ev soError r) := by
  unfold eventCb
  split
  · split
    · exact call_from_event (by simp) s.tcp rfl
    · refine ⟨⟨rfl, rfl, rfl, rfl⟩, ?_⟩
      apply loopOk_of_not_queue
      rw [hidle]
      simp
  · split
    · split
      · exact call_from_event (by rw [hidle]; simp)
          { s.tcp with connected := false, connectCb := false } rfl
      · exact call_from_event (by simp) { s.tcp with connected := true, connectCb := false } rfl
    · exact readPart_same s ev r

theorem continueCb_same {t : State} (h : continueCb s = some t) : Same s t ∧ LoopOk t := by
  unfold continueCb at h
  split at h
  · cases h
  · rw [← some.inj h]
    refine ⟨⟨rfl, connectDone_queue s.tcp, rfl, rfl⟩, ?_⟩
    apply loopOk_of_not_queue
    simp
  · rw [← some.inj h]
    refine ⟨⟨rfl, rfl, rfl, rfl⟩, ?_⟩
    apply loopOk_of_not_queue
    simp
  · rename_i eof ev _
    rw [← some.inj h]
    obtain ⟨hsame, hloop⟩ := writePart_same
      { s with tcp := if eof then readStop s.tcp else s.tcp } ev
    refine ⟨Same.trans ?_ hsame, hloop⟩
    refine ⟨rfl, ?_, rfl, rfl⟩
    dsimp only
    split
    · exact readStop_queue s.tcp
    · rfl
  · rw [← some.inj h]
    exact endQueue_same s _
  · cases h
  · rw [← some.inj h]
    refine ⟨⟨rfl, readStop_queue s.tcp, rfl, rfl⟩, ?_⟩
    apply loopOk_of_not_queue
    simp

theorem connect_same (s : State) (cb : Bool) (r : Connect) :
    Same s (connect s cb r).2 ∧ (connect s cb r).2.cont = s.cont := by
  have hrefl : Same s s := ⟨rfl, rfl, rfl, rfl⟩
  have hreg : ∀ (t : VoxTcp) (ev : Events), (registerBackend t ev).writeQueue = t.writeQueue := by
    intro t ev
    unfold registerBackend
    split
    · rfl
    · rfl
  unfold connect
  split
  · exact ⟨hrefl, rfl⟩
  · split
    · exact ⟨hrefl, rfl⟩
    · cases r with
      | noSocket => exact ⟨hrefl, rfl⟩
      | refused => exact ⟨⟨rfl, rfl, rfl, rfl⟩, rfl⟩
      | inProgress => exact ⟨⟨rfl, hreg _ _, rfl, rfl⟩, rfl⟩
      | immediate =>
        dsimp only
        rw [call_cont]
        refine ⟨Same.trans ?_ (call_same _ cb), rfl⟩
        exact ⟨rfl, hreg _ _, rfl, rfl⟩

variable {buf : List UInt8}

theorem writeQueued_inv (cb : Bool) (hinv : WriteInv s) (hq : s.tcp.writeQueue ≠ [])
    (hbuf : buf.length ≠ 0) : WriteInv (writeQueued s buf cb) := by
  obtain ⟨done, pending, k, hb⟩ := hinv.books
  have hne : pending ≠ [] := by
    intro hnil
    rw [hb.queue, hnil] at hq
    exact hq rfl
  have hqueue : (writeQueued s buf cb).tcp.writeQueue =
      s.tcp.writeQueue ++ [⟨s.calls.length, buf, 0, cb⟩] := by
    unfold writeQueued
    dsimp only
    split
    · rw [updateBackend_queue]
    · rfl
  constructor
  · refine ⟨done, pending ++ [(buf, cb)], k, ?_, ?_, ?_, ?_, ?_, ?_⟩
    · show s.calls ++ [(buf, cb)] = _
      rw [hb.calls, append_assoc]
    · rw [hqueue, requests_concat _ _ _ _ hne, hb.queue, hb.calls, length_append]
    · intro c hc
      rcases mem_append.mp hc with hold | hnew
      · exact hb.nonempty c hold
      · rw [mem_singleton.mp hnew]
        exact Nat.pos_of_ne_zero hbuf
    · intro c rest hcons
      cases pending with
      | nil => exact absurd rfl hne
      | cons d rest' =>
        have hcd := (List.cons.inj hcons).1
        rw [← hcd]
        exact hb.offset d rest' rfl
    · show s.accepted = _
      cases pending with
      | nil => exact absurd rfl hne
      | cons d rest' =>
        have hk := hb.offset d rest' rfl
        have hlen : k ≤ (bytes (d :: rest')).length := by
          simp [bytes]
          omega
        rw [bytes_append, take_append_of_le_length hlen]
        exact hb.accepted
    · exact hb.started
  · intro id hangup hcont
    obtain ⟨req, rest, hr, hid⟩ := hinv.loop id hangup hcont
    exact ⟨req, rest ++ [⟨s.calls.length, buf, 0, cb⟩], by rw [hqueue, hr]; rfl, hid⟩

theorem callWrite_started (s : State) (id : ℕ) (cb : Bool) (status : ℤ) :
    (s.callWrite id cb status).started = s.started ++ if cb then [(id, status)] else [] := by
  unfold State.callWrite
  split
  · rfl
  · simp

theorem callWrite_other (s : State) (id : ℕ) (cb : Bool) (status : ℤ) :
    (s.callWrite id cb status).calls = s.calls ∧ (s.callWrite id cb status).accepted = s.accepted ∧
      (s.callWrite id cb status).cont = s.cont := by
  unfold State.callWrite
  split
  · exact ⟨rfl, rfl, rfl⟩
  · exact ⟨rfl, rfl, rfl⟩

/- All earlier calls are complete; the new one is complete too, or its request
   is the whole queue. -/
theorem writeDirect_inv {r : Send} (cb : Bool) (hinv : WriteInv s) (hq : s.tcp.writeQueue = [])
    (hr : r.valid buf.length = true) (hbuf : buf.length ≠ 0) :
    WriteInv (writeDirect s buf cb r) := by
  obtain ⟨done, pending, k, hb⟩ := hinv.books
  have hnil : pending = [] := by
    rw [hb.queue] at hq
    exact requests_eq_nil.mp hq
  subst hnil
  have hcount : r.count ≤ buf.length := by
    cases r with
    | accepts n => exact of_decide_eq_true hr
    | wouldBlock => exact Nat.zero_le _
    | error => exact Nat.zero_le _
  have hcalls : s.calls = done := by
    rw [hb.calls, append_nil]
  have hacc : s.accepted = bytes done := by
    rw [hb.accepted]
    simp [bytes]
  have hloop : ∀ id hangup, s.cont ≠ .queue (some id) hangup := by
    intro id hangup hcont
    obtain ⟨req, rest, hcons, _⟩ := hinv.loop id hangup hcont
    rw [hq] at hcons
    cases hcons
  unfold writeDirect
  dsimp only
  split
  · rename_i hall
    obtain ⟨hc, ha, ht⟩ := callWrite_other { s with
      calls := s.calls ++ [(buf, cb)], accepted := s.accepted ++ buf.take r.count } s.calls.length
      cb 0
    constructor
    · refine ⟨done ++ [(buf, cb)], [], 0, ?_, ?_, by simp, ?_, ?_, ?_⟩
      · rw [hc, hcalls, append_nil]
      · rw [callWrite_tcp]
        exact hq
      · intro c rest hcons
        cases hcons
      · rw [ha, hall, take_length, hacc]
        simp [bytes]
      · rw [callWrite_started, callbacks_concat, hcalls, hb.started]
    · apply loopOk_of_not_queue
      rw [ht]
      exact hloop
  · rename_i hpart
    have hlt : r.count < buf.length := by omega
    constructor
    · refine ⟨done, [(buf, cb)], r.count, ?_, ?_, ?_, ?_, ?_, ?_⟩
      · rw [← hcalls]
      · rw [updateBackend_queue, ← hcalls]
        rfl
      · intro c hc
        rw [mem_singleton.mp hc]
        exact Nat.pos_of_ne_zero hbuf
      · intro c rest hcons
        rw [← (List.cons.inj hcons).1]
        exact hlt
      · rw [hacc, bytes_singleton]
      · exact hb.started
    · exact loopOk_of_not_queue hloop

theorem write_order {r : Send} (cb : Bool) (hinv : WriteInv s) (hr : r.valid buf.length = true) :
    WriteInv (write s buf cb r).2 := by
  unfold write
  split
  · exact hinv
  · rename_i hbuf
    split
    · exact hinv
    · split
      · exact hinv
      · split
        · rename_i hq
          exact writeQueued_inv cb hinv hq hbuf
        · rename_i hq
          exact writeDirect_inv cb hinv (not_not.mp hq) hr hbuf

theorem completeReq_inv {done rest : List WriteCall} {c : WriteCall} {k : ℕ} (hangup : Bool)
    (hb : Books s done (c :: rest) k) (last : List UInt8)
    (hlast : s.accepted ++ last = bytes done ++ c.1) :
    WriteInv (completeReq { s with accepted := s.accepted ++ last } hangup
      ⟨done.length, c.1, k, c.2⟩ (requests (done.length + 1) 0 rest) 0) := by
  unfold completeReq
  obtain ⟨hcalls, haccepted, hcont⟩ := callWrite_other { s with
    accepted := s.accepted ++ last
    tcp := { s.tcp with writeQueue := requests (done.length + 1) 0 rest }
    cont := .queue ((requests (done.length + 1) 0 rest).head?.map WriteReq.id) hangup }
    done.length c.2 0
  constructor
  · refine ⟨done ++ [c], rest, 0, ?_, ?_, ?_, ?_, ?_, ?_⟩
    · rw [hcalls, append_assoc]
      exact hb.calls
    · rw [callWrite_tcp, length_append]
      rfl
    · intro d hd
      exact hb.nonempty d (mem_cons_of_mem c hd)
    · intro d more hcons
      apply hb.nonempty
      rw [hcons]
      exact mem_cons_of_mem c mem_cons_self
    · rw [haccepted]
      dsimp only
      rw [hlast]
      simp
    · rw [callWrite_started, callbacks_concat, ← hb.started]
  · intro id h hq
    rw [hcont] at hq
    rw [callWrite_tcp]
    dsimp only at hq ⊢
    cases hr : requests (done.length + 1) 0 rest with
    | nil => simp [hr] at hq
    | cons req more =>
      rw [hr] at hq
      simp only [List.head?_cons, map_some, Cont.queue.injEq, Option.some.injEq] at hq
      exact ⟨req, more, rfl, hq.1⟩

theorem queueRound_head {hangup : Bool} {id : ℕ} (hinv : WriteInv s)
    (hcont : s.cont = .queue (some id) hangup) :
    ∃ done c rest k, Books s done (c :: rest) k ∧ id = done.length ∧
      s.tcp.writeQueue.takeWhile (fun q => q.id ≠ id) = [] ∧
      s.tcp.writeQueue.dropWhile (fun q => q.id ≠ id) =
        ⟨done.length, c.1, k, c.2⟩ :: requests (done.length + 1) 0 rest := by
  obtain ⟨done, pending, k, hb⟩ := hinv.books
  obtain ⟨req, more, hq, hid⟩ := hinv.loop id hangup hcont
  cases pending with
  | nil =>
    rw [hb.queue] at hq
    cases hq
  | cons c rest =>
    have hqueue := hb.queue
    simp only [requests] at hqueue
    rw [hqueue] at hq
    have hdone : id = done.length := by
      rw [← hid, ← (List.cons.inj hq).1]
    refine ⟨done, c, rest, k, hb, hdone, ?_, ?_⟩
    · rw [hqueue, hdone]
      simp
    · rw [hqueue, hdone]
      simp

theorem queueRound_order {t : State} {hangup : Bool} {id : ℕ} {r : Send} (hinv : WriteInv s)
    (hcont : s.cont = .queue (some id) hangup) (hr : r ≠ .error)
    (h : queueRound s hangup id r = some t) : WriteInv t := by
  obtain ⟨done, c, rest, k, hb, hid, hbefore, hfrom⟩ := queueRound_head hinv hcont
  have hk := hb.offset c rest rfl
  have htake : (bytes (c :: rest)).take k = c.1.take k := by
    simp only [bytes, map_cons, flatten_cons]
    rw [take_append_of_le_length (by omega)]
  have hacc := hb.accepted
  rw [htake] at hacc
  unfold queueRound at h
  dsimp only at h
  rw [hfrom, hbefore] at h
  dsimp only at h
  rw [if_neg (by omega)] at h
  cases r with
  | wouldBlock =>
    rw [← some.inj h]
    exact hinv.same (endQueue_same s hangup)
  | error => exact absurd rfl hr
  | accepts n =>
    dsimp only at h
    split at h
    · rename_i hn
      split at h
      · rename_i hend
        rw [← some.inj h]
        apply completeReq_inv hangup hb
        have hrest : (c.1.drop k).take n = c.1.drop k := by
          apply take_of_length_le
          rw [length_drop]
          omega
        rw [hacc, hrest, append_assoc, take_append_drop]
      · rename_i hpart
        rw [← some.inj h]
        obtain ⟨hsame, hloop⟩ := endQueue_same { s with
          accepted := s.accepted ++ (c.1.drop k).take n
          tcp := { s.tcp with
            writeQueue := [] ++ ⟨done.length, c.1, k + n, c.2⟩ :: (requests (done.length + 1) 0 rest) } }
          hangup
        refine ⟨⟨done, c :: rest, k + n, ?_⟩, hloop⟩
        apply Books.same _ hsame
        refine ⟨hb.calls, rfl, hb.nonempty, ?_, ?_, hb.started⟩
        · intro d more hcons
          rw [← (List.cons.inj hcons).1]
          omega
        · have htake' : (bytes (c :: rest)).take (k + n) = c.1.take (k + n) := by
            simp only [bytes, map_cons, flatten_cons]
            rw [take_append_of_le_length (by omega)]
          rw [htake', take_add, ← append_assoc, ← hacc]
    · cases h

def NoHardError (_ : State) (a : Action) : Prop := a ≠ .send .error

theorem step_writeInv (s : State) (a : Action) (t : State) (hinv : WriteInv s)
    (hok : NoHardError s a) (h : step s a = some t) : WriteInv t := by
  cases a with
  | connect cb r =>
    obtain ⟨_, ht⟩ := ite_none_right_eq_some.mp h
    rw [← some.inj ht]
    exact hinv.user (connect_same s cb r).1 (connect_same s cb r).2
  | readStart cb =>
    obtain ⟨_, ht⟩ := ite_none_right_eq_some.mp h
    rw [← some.inj ht]
    exact hinv.user ⟨rfl, readStart_queue s.tcp cb, rfl, rfl⟩ rfl
  | readStop =>
    obtain ⟨_, ht⟩ := ite_none_right_eq_some.mp h
    rw [← some.inj ht]
    exact hinv.user ⟨rfl, readStop_queue s.tcp, rfl, rfl⟩ rfl
  | write buf cb r =>
    obtain ⟨hr, ht⟩ := ite_none_right_eq_some.mp h
    rw [← some.inj ht]
    exact write_order cb hinv hr.2
  | event ev soError r =>
    obtain ⟨hbetween, ht⟩ := ite_none_right_eq_some.mp h
    rw [← some.inj ht]
    simp only [State.between, decide_eq_true_eq] at hbetween
    exact hinv.same (eventCb_same hbetween.2 ev soError r)
  | ret =>
    obtain ⟨_, ht⟩ := ite_none_right_eq_some.mp h
    rw [← some.inj ht]
    exact hinv.user ⟨rfl, rfl, rfl, rfl⟩ rfl
  | cont =>
    obtain ⟨_, ht⟩ := ite_none_right_eq_some.mp h
    exact hinv.same (continueCb_same ht)
  | send r =>
    simp only [step] at h
    split at h
    · rename_i id hangup hcont
      obtain ⟨_, hround⟩ := ite_none_right_eq_some.mp h
      have hr : r ≠ .error := by
        intro he
        exact hok (by rw [he])
      exact queueRound_order hinv hcont hr hround
    · cases h

def State.fresh (t : VoxTcp) : State := { tcp := { t with writeQueue := [] } }

theorem fresh_writeInv (t : VoxTcp) : WriteInv (State.fresh t) := by
  constructor
  · exact ⟨[], [], 0, rfl, rfl, by simp, by simp, rfl, rfl⟩
  · apply loopOk_of_not_queue
    simp [State.fresh]

theorem writes_delivered_in_order (tcp : VoxTcp) (as : List Action)
    (hg : Guarded step NoHardError (State.fresh tcp) as) :
    Along step Delivered (State.fresh tcp) as := by
  apply along_mono _ (along_of_guarded step_writeInv (fresh_writeInv tcp) hg)
  intro s hinv
  obtain ⟨done, pending, k, hb⟩ := hinv.books
  exact hb.delivered

/- A write is sent in part, its rest goes out with the next event, and its
   callback writes again. -/
theorem writes_delivered_partial :
    ∃ s, exec step (State.fresh { fdValid := true, connected := true })
        [.write [1, 2, 3] true (.accepts 1), .event { write := true } false .noBuffer,
          .send (.accepts 2), .write [4, 5] true (.accepts 1), .ret, .cont] = some s ∧
      s.accepted = [1, 2, 3, 4] ∧ s.started = [(0, 0)] ∧ Delivered s := by
  have hg : Guarded step NoHardError (State.fresh { fdValid := true, connected := true })
      [.write [1, 2, 3] true (.accepts 1), .event { write := true } false .noBuffer,
        .send (.accepts 2), .write [4, 5] true (.accepts 1), .ret, .cont] :=
    ⟨by simp [NoHardError], _, rfl, by simp [NoHardError], _, rfl, by simp [NoHardError], _, rfl,
      by simp [NoHardError], _, rfl, by simp [NoHardError], _, rfl, by simp [NoHardError], _, rfl,
      trivial⟩
  exact ⟨_, rfl, rfl, rfl, along_last (writes_delivered_in_order _ _ hg) rfl⟩

end Voxlib.Tcp
