import Voxlib.Lib.Run
import Voxlib.Mqtt.Client

/-!
# Automatic reconnection of the MQTT client (vox_mqtt_client.c)
-/

namespace Voxlib.Mqtt
open CStr Run Option

/-- The arguments of vox_mqtt_client_connect. -/
structure Request where
  host : Bytes
  port : ℕ
  options : ConnectOptions
  cb : Option ℕ
  deriving DecidableEq

def Request.initialDelay (req : Request) : ℕ :=
  if req.options.initialReconnectDelayMs > 0 then req.options.initialReconnectDelayMs else 1000

def Request.maxDelay (req : Request) : ℕ :=
  if req.options.maxReconnectDelayMs > 0 then req.options.maxReconnectDelayMs else 60000

def Request.Spent (req : Request) (k : ℕ) : Prop :=
  req.options.maxReconnectAttempts ≠ 0 ∧ req.options.maxReconnectAttempts < k

instance (req : Request) (k : ℕ) : Decidable (req.Spent k) :=
  inferInstanceAs (Decidable (_ ∧ _))

/-- The timer after `k` consecutive failures. -/
def Request.due (req : Request) (k : ℕ) : Option ℕ :=
  if req.Spent k then none else some (min (req.initialDelay * 2 ^ (k - 1)) req.maxDelay)

/-- An attempt with the host, the port, the options and the callback of the request; the options
may be a copy. -/
def Request.Repeated (env : ClientEnv) (req a : Request) : Prop :=
  a.host = req.host ∧ a.port = req.port ∧ a.cb = req.cb ∧
    (a.options = req.options ∨ req.options.clone env = some a.options)

def Client.alive (c : Client) : Prop := c.connecting = true ∨ c.connected = true

instance (c : Client) : Decidable c.alive := inferInstanceAs (Decidable (_ ∨ _))

/- The client with the number of failures since the last connection that was accepted, and the
   attempts to connect. -/
structure Life where
  s : Session
  failures : ℕ
  attempts : List Request

inductive Happening where
  | dns (found : Bool)
  | tcp (established : Bool)
  | connack (sessionPresent returnCode : UInt8)
  | closed (failed : Bool)
  | badPacket (reported : Bool) (msg : String)
  | timer (stale : ConnectOptions)
  deriving DecidableEq

def Happening.possible (c : Client) : Happening → Prop
  | .dns _ => c.transport = .resolving
  | .tcp _ => c.transport = .connecting
  | .connack _ _ => c.transport = .reading
  | .closed _ => c.transport = .reading
  | .badPacket _ _ => c.transport = .reading
  | .timer _ => c.reconnectTimer ≠ none

instance Happening.decidablePossible (c : Client) : ∀ e, Decidable (Happening.possible c e)
  | .dns _ => inferInstanceAs (Decidable (c.transport = .resolving))
  | .tcp _ => inferInstanceAs (Decidable (c.transport = .connecting))
  | .connack _ _ => inferInstanceAs (Decidable (c.transport = .reading))
  | .closed _ => inferInstanceAs (Decidable (c.transport = .reading))
  | .badPacket _ _ => inferInstanceAs (Decidable (c.transport = .reading))
  | .timer _ => inferInstanceAs (Decidable (c.reconnectTimer ≠ none))

section
variable (env : ClientEnv)

def Life.after (y : Life) (c : Client) : Life :=
  { y with
    s := { y.s with c := c }
    failures :=
      if c.connected then 0 else if y.s.c.alive ∧ ¬ c.alive then y.failures + 1 else y.failures }

/- A malformed packet: the parser calls on_error unless the fault is one that it does not report,
   and feed_parser_or_fail fails. -/
def Client.badPacket (c : Client) (reported : Bool) (msg : String) : Client :=
  (if reported then (c.onError env msg).2 else c).fail env msg

def Life.retry (y : Life) (stale : ConnectOptions) : Life where
  s := (y.s.reconnectTimerCb env stale).2
  failures := if (y.s.reconnectTimerCb env stale).1 then y.failures else y.failures + 1
  attempts := y.attempts ++ [⟨y.s.c.host.getD [], y.s.c.port, stale, y.s.c.connectCb⟩]

def Life.next (y : Life) : Happening → Life
  | .dns found => y.after (y.s.c.dnsCb env found)
  | .tcp established => y.after (y.s.c.tcpConnectCb env established)
  | .connack present code => y.after (y.s.c.onConnack env present code).2
  | .closed failed => y.after (y.s.closed env failed).c
  | .badPacket reported msg => y.after (y.s.c.badPacket env reported msg)
  | .timer stale => y.retry env stale

def Life.step (y : Life) (e : Happening) : Option Life :=
  if e.possible y.s.c then some (y.next env e) else none

def Life.start (s : Session) (req : Request) : Life where
  s := (s.connect env req.host req.port req.options req.options req.cb).2
  failures := 0
  attempts := [req]

/-- Every attempt repeats the request, and the timer of a client whose connection failed is the
one that is due. -/
structure Life.Follows (req : Request) (y : Life) : Prop where
  attempts : ∀ a ∈ y.attempts, req.Repeated env a
  timer : ¬ y.s.c.alive → y.s.c.reconnectTimer = req.due y.failures

/- A connection can be begun: `o` is what is read of the options before the saved ones are freed,
   `o'` what is read after that. -/
def packetOf (o o' : ConnectOptions) : Bytes → ℕ × Bytes :=
  o'.encode (if o.clientId.len = 0 then o.clientId.chars.length else o.clientId.len)
    (if o.keepalive > 0 then o.keepalive else 60)

def Startable (host : Bytes) (o o' : ConnectOptions) : Prop :=
  host ≠ [] ∧ (o'.clone env).isSome = true ∧ env.alloc (host.length + 1) = true ∧
    (packetOf o o' []).1 ≠ 0 ∧ env.alloc (packetOf o o' []).1 = true ∧
    (if env.isAddress host then env.tcpConnect else env.dnsStart) = true

instance (host : Bytes) (o o' : ConnectOptions) : Decidable (Startable env host o o') :=
  inferInstanceAs (Decidable (_ ∧ _))

def Request.Flat (req : Request) (k : ℕ) : Prop :=
  req.initialDelay ≤ req.maxDelay ∧ (k = 1 ∨ req.initialDelay = req.maxDelay)

instance (req : Request) (k : ℕ) : Decidable (req.Flat k) := inferInstanceAs (Decidable (_ ∧ _))

def Request.MayEnd (req : Request) (k : ℕ) : Prop :=
  env.timerStart = true ∧ ¬ req.Spent k ∧ req.Flat k

instance (req : Request) (k : ℕ) : Decidable (req.MayEnd env k) :=
  inferInstanceAs (Decidable (_ ∧ _))

def Request.MayRepeat (req : Request) (attempts : ℕ) : Prop :=
  (req.options.maxReconnectAttempts ≠ 0 ∧ req.options.maxReconnectAttempts ≤ attempts) ∨
    (env.timerStart = true ∧ req.initialDelay = req.maxDelay ∧ 2 * req.initialDelay < 2 ^ 32)

instance (req : Request) (k : ℕ) : Decidable (req.MayRepeat env k) :=
  inferInstanceAs (Decidable (_ ∨ _))

/- The client may fail: not while it connects, unless no attempt is left; not a second time,
   unless that changes nothing. -/
def Life.MayFail (req : Request) (y : Life) : Prop :=
  (y.s.c.connecting = true → req.Spent (y.failures + 1)) ∧
    (y.s.c.connected = true → req.MayEnd env (y.failures + 1)) ∧
    (¬ y.s.c.alive → y.s.c.host ≠ none → req.MayRepeat env y.s.c.reconnectAttempts)

instance (req : Request) (y : Life) : Decidable (y.MayFail env req) :=
  inferInstanceAs (Decidable (_ ∧ _))

/-- The steps that go as the request says. -/
def Life.Fair (req : Request) (y : Life) : Happening → Prop
  | .dns found => y.s.c.connecting = true →
      (found = true ∧ env.tcpConnect = true) ∨ req.Spent (y.failures + 1)
  | .tcp established => y.s.c.connecting = true →
      (established = true ∧ env.readStart = true) ∨ req.Spent (y.failures + 1)
  | .connack _ code => y.s.c.connecting = true → code = 0 ∨ req.MayEnd env (y.failures + 1)
  | .closed _ => y.MayFail env req
  | .badPacket reported _ => y.MayFail env req ∧
      (reported = true → y.s.c.connected = true → req.MayRepeat env 1)
  | .timer stale => req.cb = none ∧
      (stale = req.options ∨ req.options.clone env = some stale) ∧
      ∀ o ∈ y.s.c.savedOptions, Startable env req.host o stale

instance (req : Request) (y : Life) : ∀ e, Decidable (y.Fair env req e)
  | .dns _ => inferInstanceAs (Decidable (_ → _))
  | .tcp _ => inferInstanceAs (Decidable (_ → _))
  | .connack _ _ => inferInstanceAs (Decidable (_ → _))
  | .closed _ => inferInstanceAs (Decidable (y.MayFail env req))
  | .badPacket _ _ => inferInstanceAs (Decidable (_ ∧ _))
  | .timer _ => inferInstanceAs (Decidable (_ ∧ _))

end

variable {env : ClientEnv} {req : Request} {c d : Client} {k : ℕ}

/- Besides the reports, the two flags and the callback, a failure is what it does to the timer. -/
structure Client.Failed (c d : Client) : Prop where
  connecting : d.connecting = false
  connected : d.connected = false
  connectCb : d.connectCb = none
  port : d.port = c.port
  auto : d.autoReconnectEnabled = c.autoReconnectEnabled
  maxAttempts : d.maxReconnectAttempts = c.maxReconnectAttempts
  initial : d.initialReconnectDelayMs = c.initialReconnectDelayMs
  maxDelay : d.maxReconnectDelayMs = c.maxReconnectDelayMs
  saved : d.savedOptions = c.savedOptions
  sent : d.sent = c.sent

theorem report_if (p : Prop) [Decidable p] (c : Client) (r : ClientReport) :
    ∃ new, (if p then c.report r else c) = { c with reported := c.reported ++ new } := by
  split
  · exact ⟨[r], rfl⟩
  · exact ⟨[], by rw [List.append_nil]⟩

theorem tellFailure_eq (c : Client) (cb : Option ℕ) (msg : String) :
    ∃ r, c.tellFailure cb msg = { c with reported := r } := by
  have htold (e : Client) : ∃ r, (let e' := if e.errorCb then e.report (.error msg) else e
      if e'.disconnectCb then e'.report .disconnect else e') = { e with reported := r } := by
    obtain ⟨new, herror⟩ := report_if (e.errorCb = true) e (.error msg)
    dsimp only
    rw [herror]
    obtain ⟨new', hend⟩ := report_if (e.disconnectCb = true)
      { e with reported := e.reported ++ new } .disconnect
    exact ⟨_, hend⟩
  cases cb with
  | none => exact htold c
  | some cb => exact htold (c.report (.connectFailed cb))

theorem scheduleReconnect_failed (env : ClientEnv) (c : Client) (hc : c.connecting = false)
    (hd : c.connected = false) (hcb : c.connectCb = none) : c.Failed (c.scheduleReconnect env) := by
  unfold Client.scheduleReconnect
  split
  · split
    · exact ⟨hc, hd, hcb, rfl, rfl, rfl, rfl, rfl, rfl, rfl⟩
    · exact ⟨hc, hd, hcb, rfl, rfl, rfl, rfl, rfl, rfl, rfl⟩
  · exact ⟨hc, hd, hcb, rfl, rfl, rfl, rfl, rfl, rfl, rfl⟩

structure Client.Cleaned (c d : Client) : Prop where
  port : d.port = c.port
  auto : d.autoReconnectEnabled = c.autoReconnectEnabled
  maxAttempts : d.maxReconnectAttempts = c.maxReconnectAttempts
  initial : d.initialReconnectDelayMs = c.initialReconnectDelayMs
  maxDelay : d.maxReconnectDelayMs = c.maxReconnectDelayMs
  saved : d.savedOptions = c.savedOptions
  timer : d.reconnectTimer = c.reconnectTimer
  attempts : d.reconnectAttempts = c.reconnectAttempts
  delay : d.currentReconnectDelayMs = c.currentReconnectDelayMs

theorem connectCleanupOnFail_cleaned (c : Client) : c.Cleaned c.connectCleanupOnFail := by
  unfold Client.connectCleanupOnFail
  cases c.pendingConnectBuf with
  | none => exact ⟨rfl, rfl, rfl, rfl, rfl, rfl, rfl, rfl, rfl⟩
  | some b => exact ⟨rfl, rfl, rfl, rfl, rfl, rfl, rfl, rfl, rfl⟩

/- client_fail as the decision on the timer, made by a client that has no connection. -/
theorem fail_schedules (env : ClientEnv) (c : Client) (msg : String) :
    ∃ (e : Client) (r : List ClientReport), c.Failed e ∧
      c.fail env msg = { e.scheduleReconnect env with reported := r } ∧
      e.reconnectTimer = c.reconnectTimer ∧ e.reconnectAttempts = c.reconnectAttempts ∧
      e.currentReconnectDelayMs = c.currentReconnectDelayMs ∧
      e.host = if c.connecting then none else c.host := by
  have hclean : c.Cleaned (if (c.report (.failed msg)).connecting then
      (c.report (.failed msg)).connectCleanupOnFail else c.report (.failed msg)) := by
    split
    · have h := connectCleanupOnFail_cleaned (c.report (.failed msg))
      exact ⟨h.port, h.auto, h.maxAttempts, h.initial, h.maxDelay, h.saved, h.timer, h.attempts,
        h.delay⟩
    · exact ⟨rfl, rfl, rfl, rfl, rfl, rfl, rfl, rfl, rfl⟩
  have hsent : (if (c.report (.failed msg)).connecting then
      (c.report (.failed msg)).connectCleanupOnFail else c.report (.failed msg)).sent = c.sent := by
    split
    · unfold Client.connectCleanupOnFail
      dsimp only
      split
      · rfl
      · rfl
    · rfl
  have hhost : (if (c.report (.failed msg)).connecting then
      (c.report (.failed msg)).connectCleanupOnFail else c.report (.failed msg)).host =
      if c.connecting then none else c.host := by
    show _ = if (c.report (.failed msg)).connecting then none else c.host
    split
    · unfold Client.connectCleanupOnFail
      rfl
    · rfl
  unfold Client.fail
  dsimp only
  generalize (if (c.report (.failed msg)).connecting then
    (c.report (.failed msg)).connectCleanupOnFail else c.report (.failed msg)) = b
    at hclean hsent hhost ⊢
  let e : Client := { b with connected := false, connecting := false, connectCb := none }
  obtain ⟨r, hr⟩ := tellFailure_eq (e.scheduleReconnect env) b.connectCb msg
  exact ⟨e, r, ⟨rfl, rfl, rfl, hclean.port, hclean.auto, hclean.maxAttempts, hclean.initial,
    hclean.maxDelay, hclean.saved, hsent⟩, hr, hclean.timer, hclean.attempts, hclean.delay, hhost⟩

theorem fail_failed (env : ClientEnv) (c : Client) (msg : String) : c.Failed (c.fail env msg) := by
  obtain ⟨e, r, he, hfail, -⟩ := fail_schedules env c msg
  have hs := scheduleReconnect_failed env e he.connecting he.connected he.connectCb
  rw [hfail]
  exact ⟨hs.connecting, hs.connected, hs.connectCb, hs.port.trans he.port, hs.auto.trans he.auto,
    hs.maxAttempts.trans he.maxAttempts, hs.initial.trans he.initial,
    hs.maxDelay.trans he.maxDelay, hs.saved.trans he.saved, hs.sent.trans he.sent⟩

structure Client.Holds (env : ClientEnv) (req : Request) (c : Client) : Prop where
  port : c.port = req.port
  auto : c.autoReconnectEnabled = true
  maxAttempts : c.maxReconnectAttempts = req.options.maxReconnectAttempts
  initial : c.initialReconnectDelayMs = req.initialDelay
  maxDelay : c.maxReconnectDelayMs = req.maxDelay
  saved : c.savedOptions = req.options.clone env
  some_saved : c.savedOptions.isSome = true

structure Client.Ready (req : Request) (c : Client) : Prop where
  host : c.host = some req.host
  attempts : c.reconnectAttempts = 0
  delay : c.currentReconnectDelayMs = req.initialDelay
  timer : c.reconnectTimer = none

structure Client.Armed (req : Request) (c : Client) : Prop where
  host : c.host = some req.host
  delay : c.currentReconnectDelayMs = req.initialDelay
  connectCb : c.connectCb = none
  timer : c.reconnectTimer = some req.initialDelay

structure Client.Over (c : Client) : Prop where
  host : c.host = none
  timer : c.reconnectTimer = none

theorem Client.Failed.holds (hf : c.Failed d) (h : c.Holds env req) : d.Holds env req :=
  ⟨hf.port.trans h.port, hf.auto.trans h.auto, hf.maxAttempts.trans h.maxAttempts,
    hf.initial.trans h.initial, hf.maxDelay.trans h.maxDelay, hf.saved.trans h.saved,
    hf.saved ▸ h.some_saved⟩

theorem schedule_armed (h : c.Holds env req) (hhost : c.host = some req.host)
    (hleft : req.options.maxReconnectAttempts = 0 ∨
      c.reconnectAttempts < req.options.maxReconnectAttempts) :
    c.scheduleReconnect env = { c.backOff with
      reconnectTimer := if env.timerStart then some c.backOff.currentReconnectDelayMs else none } := by
  unfold Client.scheduleReconnect
  rw [if_pos ⟨h.auto, h.some_saved, by rw [hhost]; rfl⟩, if_pos (by rw [h.maxAttempts]; exact hleft)]

theorem schedule_done (h : c.Holds env req)
    (hdone : c.host = none ∨ (req.options.maxReconnectAttempts ≠ 0 ∧
      req.options.maxReconnectAttempts ≤ c.reconnectAttempts)) : c.scheduleReconnect env = c := by
  unfold Client.scheduleReconnect
  rcases hdone with hhost | ⟨hne, hle⟩
  · rw [if_neg (by rw [hhost]; simp)]
  · rw [if_neg (show ¬ (c.maxReconnectAttempts = 0 ∨ c.reconnectAttempts < c.maxReconnectAttempts) by
      rw [h.maxAttempts]
      omega)]
    split
    · rfl
    · rfl

theorem initialDelay_pos (req : Request) : 0 < req.initialDelay := by
  unfold Request.initialDelay
  split
  · assumption
  · norm_num

theorem fail_ready (h : c.Holds env req) (hr : c.Ready req) (hc : c.connecting = false)
    (ht : env.timerStart = true) (msg : String) :
    (c.fail env msg).Armed req ∧ (c.fail env msg).reconnectAttempts = 1 := by
  have hf := fail_failed env c msg
  obtain ⟨e, r, he, hfail, -, hattempts, hdelay, hhost⟩ := fail_schedules env c msg
  rw [hc, if_neg Bool.false_ne_true, hr.host] at hhost
  rw [hr.attempts] at hattempts
  rw [hr.delay] at hdelay
  have hback : e.backOff.currentReconnectDelayMs = req.initialDelay := by
    simp [Client.backOff, hattempts, hdelay]
  have harmed := schedule_armed (he.holds h) hhost (by rw [hattempts]; omega)
  rw [ht, if_pos rfl, hback] at harmed
  rw [harmed] at hfail
  refine ⟨⟨?_, ?_, hf.connectCb, ?_⟩, ?_⟩
  · rw [hfail]
    exact hhost
  · rw [hfail]
    exact hback
  · rw [hfail]
  · rw [hfail]
    show (e.reconnectAttempts + 1) % 2 ^ 32 = 1
    rw [hattempts]
    rfl

theorem fail_over (h : c.Holds env req) (hhost : c.connecting = true ∨ c.host = none)
    (ht : c.reconnectTimer = none) (msg : String) : (c.fail env msg).Over := by
  obtain ⟨e, r, he, hfail, htimer, -, -, hhost'⟩ := fail_schedules env c msg
  have hnone : e.host = none := by
    rw [hhost']
    rcases hhost with hc | hn
    · rw [if_pos hc]
    · rw [hn, ite_self]
  rw [schedule_done (he.holds h) (Or.inl hnone)] at hfail
  refine ⟨?_, ?_⟩
  · rw [hfail]
    exact hnone
  · rw [hfail]
    exact htimer.trans ht

/-- It fails once more while its timer is armed. -/
theorem fail_armed (h : c.Holds env req) (ha : c.Armed req) (hc : c.connecting = false)
    (hrep : req.MayRepeat env c.reconnectAttempts) (msg : String) :
    (c.fail env msg).Armed req ∧ req.MayRepeat env (c.fail env msg).reconnectAttempts := by
  have hf := fail_failed env c msg
  obtain ⟨e, r, he, hfail, htimer, hattempts, hdelay, hhost⟩ := fail_schedules env c msg
  rw [hc, if_neg Bool.false_ne_true, ha.host] at hhost
  rw [ha.delay] at hdelay
  by_cases hdone : req.options.maxReconnectAttempts ≠ 0 ∧
      req.options.maxReconnectAttempts ≤ c.reconnectAttempts
  · rw [schedule_done (he.holds h) (Or.inr (hattempts ▸ hdone))] at hfail
    refine ⟨⟨?_, ?_, hf.connectCb, ?_⟩, ?_⟩
    · rw [hfail]
      exact hhost
    · rw [hfail]
      exact hdelay
    · rw [hfail]
      exact htimer.trans ha.timer
    · rw [hfail]
      exact Or.inl (hattempts ▸ hdone)
  · obtain ⟨ht, hflat, hsmall⟩ := hrep.resolve_left hdone
    have hback : e.backOff.currentReconnectDelayMs = req.initialDelay := by
      have hmax : e.maxReconnectDelayMs = req.initialDelay :=
        ((he.holds h).maxDelay).trans hflat.symm
      have hpos := initialDelay_pos req
      have hmod : req.initialDelay * 2 % 2 ^ 32 = req.initialDelay * 2 :=
        Nat.mod_eq_of_lt (by omega)
      unfold Client.backOff
      dsimp only
      rw [hdelay, hmax, hmod]
      split
      · split
        · rfl
        · omega
      · rfl
    have harmed := schedule_armed (he.holds h) hhost (by rw [hattempts]; omega)
    rw [ht, if_pos rfl, hback] at harmed
    rw [harmed] at hfail
    refine ⟨⟨?_, ?_, hf.connectCb, ?_⟩, Or.inr ⟨ht, hflat, hsmall⟩⟩
    · rw [hfail]
      exact hhost
    · rw [hfail]
      exact hback
    · rw [hfail]

theorem due_of_mayEnd (hk : req.MayEnd env k) : req.due k = some req.initialDelay := by
  obtain ⟨-, hspent, hle, hflat⟩ := hk
  unfold Request.due
  rw [if_neg hspent]
  rcases hflat with rfl | heq
  · rw [Nat.sub_self, pow_zero, Nat.mul_one, Nat.min_eq_left hle]
  · have hpos : 1 ≤ 2 ^ (k - 1) := Nat.one_le_two_pow
    rw [← heq, Nat.min_eq_right (Nat.le_mul_of_pos_right _ hpos)]

theorem due_of_spent (hk : req.Spent k) : req.due k = none := if_pos hk

structure Client.Undisturbed (c d : Client) : Prop extends c.Cleaned d where
  connecting : d.connecting = c.connecting
  connected : d.connected = c.connected
  host : d.host = c.host
  connectCb : d.connectCb = c.connectCb

theorem Client.Undisturbed.refl (c : Client) : c.Undisturbed c :=
  ⟨⟨rfl, rfl, rfl, rfl, rfl, rfl, rfl, rfl, rfl⟩, rfl, rfl, rfl, rfl⟩

theorem Client.Undisturbed.trans {e : Client} (h : c.Undisturbed d) (h' : d.Undisturbed e) :
    c.Undisturbed e where
  port := h'.port.trans h.port
  auto := h'.auto.trans h.auto
  maxAttempts := h'.maxAttempts.trans h.maxAttempts
  initial := h'.initial.trans h.initial
  maxDelay := h'.maxDelay.trans h.maxDelay
  saved := h'.saved.trans h.saved
  timer := h'.timer.trans h.timer
  attempts := h'.attempts.trans h.attempts
  delay := h'.delay.trans h.delay
  connecting := h'.connecting.trans h.connecting
  connected := h'.connected.trans h.connected
  host := h'.host.trans h.host
  connectCb := h'.connectCb.trans h.connectCb

theorem Client.Cleaned.holds (hc : c.Cleaned d) (h : c.Holds env req) : d.Holds env req :=
  ⟨hc.port.trans h.port, hc.auto.trans h.auto, hc.maxAttempts.trans h.maxAttempts,
    hc.initial.trans h.initial, hc.maxDelay.trans h.maxDelay, hc.saved.trans h.saved,
    hc.saved ▸ h.some_saved⟩

theorem sendBuf_undisturbed (c : Client) (b : BufId) : c.Undisturbed (c.sendBuf env b).2 := by
  unfold Client.sendBuf
  split
  · exact ⟨⟨rfl, rfl, rfl, rfl, rfl, rfl, rfl, rfl, rfl⟩, rfl, rfl, rfl, rfl⟩
  · exact ⟨⟨rfl, rfl, rfl, rfl, rfl, rfl, rfl, rfl, rfl⟩, rfl, rfl, rfl, rfl⟩

theorem freeBuf_undisturbed (c : Client) (b : BufId) : c.Undisturbed (c.freeBuf b) :=
  ⟨⟨rfl, rfl, rfl, rfl, rfl, rfl, rfl, rfl, rfl⟩, rfl, rfl, rfl, rfl⟩

theorem newBuf_undisturbed (c : Client) (bytes : Bytes) : c.Undisturbed (c.newBuf bytes).2 :=
  ⟨⟨rfl, rfl, rfl, rfl, rfl, rfl, rfl, rfl, rfl⟩, rfl, rfl, rfl, rfl⟩

theorem takeId_undisturbed (c : Client) : c.Undisturbed c.takeId :=
  ⟨⟨rfl, rfl, rfl, rfl, rfl, rfl, rfl, rfl, rfl⟩, rfl, rfl, rfl, rfl⟩

theorem trySend_undisturbed (c : Client) (enc : Bytes → ℕ × Bytes) :
    c.Undisturbed (c.trySend env enc) := by
  have hsend : c.Undisturbed ((c.newBuf (encoded enc)).2.sendBuf env c.nextBuf).2 :=
    (newBuf_undisturbed c _).trans (sendBuf_undisturbed _ _)
  unfold Client.trySend Client.sendPacket
  split
  · dsimp only [map_some, getD_some]
    split
    · exact hsend
    · exact hsend.trans (freeBuf_undisturbed _ _)
  · exact Client.Undisturbed.refl c

theorem resubscribe_undisturbed (c : Client) (sub : Subscription) :
    c.Undisturbed (c.resubscribe env sub) := by
  unfold Client.resubscribe
  dsimp only
  split
  · exact (takeId_undisturbed c).trans (trySend_undisturbed c.takeId _)
  · exact takeId_undisturbed c

theorem resubscribeAll_undisturbed (env : ClientEnv) (subs : List Subscription) (c : Client) :
    c.Undisturbed (subs.foldl (Client.resubscribe env) c) := by
  induction subs generalizing c with
  | nil => exact Client.Undisturbed.refl c
  | cons sub subs ih => exact (resubscribe_undisturbed c sub).trans (ih _)

theorem sendConnect_undisturbed (c : Client) : c.Undisturbed (match c.pendingConnectBuf with
      | some b =>
        let s := c.sendBuf env b
        { (if s.1 then s.2 else s.2.freeBuf b) with pendingConnectBuf := none }
      | none => c) := by
  cases c.pendingConnectBuf with
  | none => exact Client.Undisturbed.refl c
  | some b =>
    have hsend : c.Undisturbed (if (c.sendBuf env b).1 then (c.sendBuf env b).2 else
        (c.sendBuf env b).2.freeBuf b) := by
      split
      · exact sendBuf_undisturbed c b
      · exact (sendBuf_undisturbed c b).trans (freeBuf_undisturbed _ _)
    exact hsend.trans ⟨⟨rfl, rfl, rfl, rfl, rfl, rfl, rfl, rfl, rfl⟩, rfl, rfl, rfl, rfl⟩

structure Life.Steady (env : ClientEnv) (req : Request) (y : Life) : Prop where
  attempts : ∀ a ∈ y.attempts, req.Repeated env a
  holds : y.s.c.Holds env req
  one : y.s.c.connecting = true → y.s.c.connected = false
  ready : y.s.c.alive → y.s.c.Ready req
  accepted : y.s.c.connected = true → y.failures = 0
  timer : ¬ y.s.c.alive → y.s.c.reconnectTimer = req.due y.failures
  waits : ¬ y.s.c.alive → y.s.c.Armed req ∨ y.s.c.Over

variable {y : Life}

theorem Life.Steady.follows (h : y.Steady env req) : y.Follows env req :=
  ⟨h.attempts, h.timer⟩

theorem Client.Undisturbed.alive_iff (h : c.Undisturbed d) : d.alive ↔ c.alive := by
  unfold Client.alive
  rw [h.connecting, h.connected]

theorem Client.Undisturbed.ready (h : c.Undisturbed d) (hr : c.Ready req) : d.Ready req :=
  ⟨h.host.trans hr.host, h.attempts.trans hr.attempts, h.delay.trans hr.delay,
    h.timer.trans hr.timer⟩

theorem not_alive (hc : c.connecting = false) (hd : c.connected = false) : ¬ c.alive := by
  unfold Client.alive
  rw [hc, hd]
  simp

theorem Life.Steady.undisturbed (h : y.Steady env req) (hd : y.s.c.Undisturbed d) :
    (y.after d).Steady env req := by
  have hfailures : (y.after d).failures = y.failures := by
    unfold Life.after
    dsimp only
    rw [hd.connected]
    split
    · next hconn => exact (h.accepted hconn).symm
    · rw [if_neg (by rw [hd.alive_iff]; tauto)]
  refine ⟨h.attempts, hd.holds h.holds, ?_, ?_, ?_, ?_, ?_⟩
  · intro hc
    exact hd.connected.trans (h.one (hd.connecting.symm.trans hc))
  · intro ha
    exact hd.ready (h.ready (hd.alive_iff.mp ha))
  · intro hc
    exact hfailures.trans (h.accepted (hd.connected.symm.trans hc))
  · intro ha
    rw [hfailures]
    exact hd.timer.trans (h.timer (mt hd.alive_iff.mpr ha))
  · intro ha
    rcases h.waits (mt hd.alive_iff.mpr ha) with harmed | hover
    · exact Or.inl ⟨hd.host.trans harmed.host, hd.delay.trans harmed.delay,
        hd.connectCb.trans harmed.connectCb, hd.timer.trans harmed.timer⟩
    · exact Or.inr ⟨hd.host.trans hover.host, hd.timer.trans hover.timer⟩

theorem Life.Steady.ended (h : y.Steady env req) (ha : y.s.c.alive) (hholds : d.Holds env req)
    (hc : d.connecting = false) (hd : d.connected = false) (hwaits : d.Armed req ∨ d.Over)
    (ht : d.reconnectTimer = req.due (y.failures + 1)) : (y.after d).Steady env req := by
  have hdead := not_alive hc hd
  have hfailures : (y.after d).failures = y.failures + 1 := by
    unfold Life.after
    dsimp only
    rw [hd, if_neg Bool.false_ne_true, if_pos ⟨ha, hdead⟩]
  refine ⟨h.attempts, hholds, fun _ => hd, fun halive => absurd halive hdead, ?_, ?_, ?_⟩
  · intro hconn
    exact absurd (hd.symm.trans hconn) Bool.false_ne_true
  · intro _
    rw [hfailures]
    exact ht
  · exact fun _ => hwaits

theorem Life.Steady.idle (h : y.Steady env req) (ha : ¬ y.s.c.alive) (hholds : d.Holds env req)
    (hc : d.connecting = false) (hd : d.connected = false) (hwaits : d.Armed req ∨ d.Over)
    (ht : d.reconnectTimer = y.s.c.reconnectTimer) : (y.after d).Steady env req := by
  have hdead := not_alive hc hd
  have hfailures : (y.after d).failures = y.failures := by
    unfold Life.after
    dsimp only
    rw [hd, if_neg Bool.false_ne_true, if_neg (by tauto)]
  refine ⟨h.attempts, hholds, fun _ => hd, fun halive => absurd halive hdead, ?_, ?_, ?_⟩
  · intro hconn
    exact absurd (hd.symm.trans hconn) Bool.false_ne_true
  · intro _
    rw [hfailures]
    exact ht.trans (h.timer ha)
  · exact fun _ => hwaits

def Client.Rests (env : ClientEnv) (req : Request) (c : Client) : Prop :=
  c.Armed req ∧ req.MayRepeat env c.reconnectAttempts ∨ c.Over

theorem Client.Rests.waits (h : c.Rests env req) : c.Armed req ∨ c.Over := h.imp_left And.left

theorem fail_rests (h : c.Holds env req) (hc : c.connecting = false) (hr : c.Rests env req)
    (msg : String) :
    (c.fail env msg).Rests env req ∧ (c.fail env msg).reconnectTimer = c.reconnectTimer := by
  rcases hr with ⟨harmed, hrep⟩ | hover
  · have hagain := fail_armed h harmed hc hrep msg
    exact ⟨Or.inl hagain, hagain.1.timer.trans harmed.timer.symm⟩
  · have hstill := fail_over h (Or.inr hover.host) hover.timer msg
    exact ⟨Or.inr hstill, hstill.timer.trans hover.timer.symm⟩

theorem fail_alive (h : y.Steady env req) (hm : y.MayFail env req) (ha : y.s.c.alive)
    (msg : String) :
    let d := y.s.c.fail env msg
    (d.Armed req ∧ d.reconnectAttempts = 1 ∧ y.s.c.connected = true ∨ d.Over) ∧
      d.reconnectTimer = req.due (y.failures + 1) := by
  have hready := h.ready ha
  by_cases hc : y.s.c.connecting = true
  · have hover := fail_over h.holds (Or.inl hc) hready.timer msg
    exact ⟨Or.inr hover, hover.timer.trans (due_of_spent (hm.1 hc)).symm⟩
  · have hconn : y.s.c.connected = true := ha.resolve_left hc
    have hend := hm.2.1 hconn
    obtain ⟨harmed, hone⟩ := fail_ready h.holds hready (by simpa using hc) hend.1 msg
    exact ⟨Or.inl ⟨harmed, hone, hconn⟩, harmed.timer.trans (due_of_mayEnd hend).symm⟩

theorem rests_of_mayFail (h : y.Steady env req) (hm : y.MayFail env req) (ha : ¬ y.s.c.alive) :
    y.s.c.Rests env req := by
  rcases h.waits ha with harmed | hover
  · exact Or.inl ⟨harmed, hm.2.2 ha (by rw [harmed.host]; simp)⟩
  · exact Or.inr hover

theorem connecting_of_dead (ha : ¬ c.alive) : c.connecting = false := by
  unfold Client.alive at ha
  simpa using (not_or.mp ha).1

theorem closed_steady (h : y.Steady env req) (hm : y.MayFail env req) (msg : String) :
    (y.after (y.s.c.fail env msg)).Steady env req := by
  have hf := fail_failed env y.s.c msg
  by_cases ha : y.s.c.alive
  · obtain ⟨hends, htimer⟩ := fail_alive h hm ha msg
    exact h.ended ha (hf.holds h.holds) hf.connecting hf.connected
      (hends.imp_left And.left) htimer
  · obtain ⟨hrests, htimer⟩ := fail_rests h.holds (connecting_of_dead ha)
      (rests_of_mayFail h hm ha) msg
    exact h.idle ha (hf.holds h.holds) hf.connecting hf.connected hrests.waits htimer

theorem badPacket_steady (h : y.Steady env req) (hm : y.MayFail env req) {reported : Bool}
    (hrep : reported = true → y.s.c.connected = true → req.MayRepeat env 1) (msg : String) :
    (y.after (y.s.c.badPacket env reported msg)).Steady env req := by
  cases reported with
  | false => exact closed_steady h hm msg
  | true =>
    show (y.after ((y.s.c.fail env msg).fail env msg)).Steady env req
    have hf := fail_failed env y.s.c msg
    have hf' := fail_failed env (y.s.c.fail env msg) msg
    have hholds := hf.holds h.holds
    by_cases ha : y.s.c.alive
    · obtain ⟨hends, htimer⟩ := fail_alive h hm ha msg
      have hrests : (y.s.c.fail env msg).Rests env req := by
        rcases hends with ⟨harmed, hone, hconn⟩ | hover
        · exact Or.inl ⟨harmed, hone ▸ hrep rfl hconn⟩
        · exact Or.inr hover
      obtain ⟨hrests', htimer'⟩ := fail_rests hholds hf.connecting hrests msg
      exact h.ended ha (hf'.holds hholds) hf'.connecting hf'.connected hrests'.waits
        (htimer'.trans htimer)
    · obtain ⟨hrests, htimer⟩ := fail_rests h.holds (connecting_of_dead ha)
        (rests_of_mayFail h hm ha) msg
      obtain ⟨hrests', htimer'⟩ := fail_rests hholds hf.connecting hrests msg
      exact h.idle ha (hf'.holds hholds) hf'.connecting hf'.connected hrests'.waits
        (htimer'.trans htimer)

theorem broken_steady (h : y.Steady env req) (hc : y.s.c.connecting = true)
    (hspent : req.Spent (y.failures + 1)) (hd : y.s.c.Cleaned d)
    (hhost : d.connecting = true ∨ d.host = none) (msg : String) :
    (y.after (d.fail env msg)).Steady env req := by
  have hready := h.ready (Or.inl hc)
  have hholds := hd.holds h.holds
  have hf := fail_failed env d msg
  have hover := fail_over hholds hhost (hd.timer.trans hready.timer) msg
  exact h.ended (Or.inl hc) (hf.holds hholds) hf.connecting hf.connected (Or.inr hover)
    (hover.timer.trans (due_of_spent hspent).symm)

theorem transport_undisturbed (c : Client) (t : Transport) :
    c.Undisturbed { c with transport := t } :=
  ⟨⟨rfl, rfl, rfl, rfl, rfl, rfl, rfl, rfl, rfl⟩, rfl, rfl, rfl, rfl⟩

theorem dns_steady (h : y.Steady env req) {found : Bool} (hfair : y.Fair env req (.dns found)) :
    (y.after (y.s.c.dnsCb env found)).Steady env req := by
  have hidle := transport_undisturbed y.s.c .idle
  unfold Client.dnsCb
  dsimp only
  split
  · exact h.undisturbed hidle
  · next hc =>
    have hc : y.s.c.connecting = true := not_not.mp hc
    split
    · next hfound =>
      have hspent := (hfair hc).resolve_left fun hgood => hfound hgood.1
      exact broken_steady h hc hspent hidle.toCleaned (Or.inl hc) _
    · split
      · exact h.undisturbed (hidle.trans (transport_undisturbed _ _))
      · next hconnect =>
        have hspent := (hfair hc).resolve_left fun hgood => hconnect hgood.2
        exact broken_steady h hc hspent hidle.toCleaned (Or.inl hc) _

theorem Client.Cleaned.trans {e : Client} (h : c.Cleaned d) (h' : d.Cleaned e) : c.Cleaned e where
  port := h'.port.trans h.port
  auto := h'.auto.trans h.auto
  maxAttempts := h'.maxAttempts.trans h.maxAttempts
  initial := h'.initial.trans h.initial
  maxDelay := h'.maxDelay.trans h.maxDelay
  saved := h'.saved.trans h.saved
  timer := h'.timer.trans h.timer
  attempts := h'.attempts.trans h.attempts
  delay := h'.delay.trans h.delay

theorem tcp_steady (h : y.Steady env req) {established : Bool}
    (hfair : y.Fair env req (.tcp established)) :
    (y.after (y.s.c.tcpConnectCb env established)).Steady env req := by
  have hidle := transport_undisturbed y.s.c .idle
  unfold Client.tcpConnectCb
  dsimp only
  split
  · exact h.undisturbed hidle
  · next hc =>
    have hc : y.s.c.connecting = true := not_not.mp hc
    split
    · next hdown =>
      have hspent := (hfair hc).resolve_left fun hgood => hdown hgood.1
      exact broken_steady h hc hspent
        (hidle.toCleaned.trans (connectCleanupOnFail_cleaned _)) (Or.inr rfl) _
    · have hread (e : Client) (he : y.s.c.Undisturbed e) :
          (y.after (if env.readStart then { e with transport := .reading }
            else e.connectCleanupOnFail.fail env "tcp read_start failed")).Steady env req := by
        split
        · exact h.undisturbed (he.trans (transport_undisturbed e .reading))
        · next hread =>
          have hspent := (hfair hc).resolve_left fun hgood => hread hgood.2
          exact broken_steady h hc hspent (he.toCleaned.trans (connectCleanupOnFail_cleaned e))
            (Or.inr rfl) _
      exact hread _ (hidle.trans (sendConnect_undisturbed { y.s.c with transport := .idle }))

theorem Life.Steady.welcomed (h : y.Steady env req) (hholds : d.Holds env req)
    (hc : d.connecting = false) (hd : d.connected = true) (hready : d.Ready req) :
    (y.after d).Steady env req := by
  have halive : d.alive := Or.inr hd
  have hfailures : (y.after d).failures = 0 := if_pos hd
  refine ⟨h.attempts, hholds, ?_, fun _ => hready, fun _ => hfailures,
    fun hdead => absurd halive hdead, fun hdead => absurd halive hdead⟩
  intro hconn
  exact absurd (hc.symm.trans hconn) Bool.false_ne_true

theorem connack_steady (h : y.Steady env req) {present code : UInt8}
    (hfair : y.Fair env req (.connack present code)) :
    (y.after (y.s.c.onConnack env present code).2).Steady env req := by
  unfold Client.onConnack
  split
  · exact h.undisturbed (Client.Undisturbed.refl _)
  · next hc =>
    have hc : y.s.c.connecting = true := not_not.mp hc
    have hready := h.ready (Or.inl hc)
    -- `e` is the client once the callback was told: the policy is as before.
    have hgo (e : Client) (hclean : y.s.c.Cleaned e) (hhost : e.host = y.s.c.host)
        (hec : e.connecting = false) (hed : e.connected = decide (code = 0)) :
        (y.after (if code ≠ 0 then ((0 : ℤ), e.fail env "connack refused")
          else
            let g := { e with
              pingTimer := if e.keepaliveSec > 0 then env.timerStart else e.pingTimer
              reconnectAttempts := 0
              currentReconnectDelayMs := e.initialReconnectDelayMs }
            (0, if present = 0 then g.subscriptions.foldl (Client.resubscribe env) g
              else g)).2).Steady env req := by
      have hholds := hclean.holds h.holds
      have heready : e.Ready req := ⟨hhost.trans hready.host,
        hclean.attempts.trans hready.attempts, hclean.delay.trans hready.delay,
        hclean.timer.trans hready.timer⟩
      split
      · next hcode =>
        have hend := (hfair hc).resolve_left hcode
        obtain ⟨harmed, -⟩ := fail_ready hholds heready hec hend.1 "connack refused"
        have hf := fail_failed env e "connack refused"
        exact h.ended (Or.inl hc) (hf.holds hholds) hf.connecting hf.connected (Or.inl harmed)
          (harmed.timer.trans (due_of_mayEnd hend).symm)
      · next hcode =>
        have hed : e.connected = true := hed.trans (decide_eq_true (not_not.mp hcode))
        let g : Client := { e with
          pingTimer := if e.keepaliveSec > 0 then env.timerStart else e.pingTimer
          reconnectAttempts := 0
          currentReconnectDelayMs := e.initialReconnectDelayMs }
        have hgholds : g.Holds env req := ⟨hholds.port, hholds.auto, hholds.maxAttempts,
          hholds.initial, hholds.maxDelay, hholds.saved, hholds.some_saved⟩
        have hgready : g.Ready req := ⟨heready.host, rfl, hholds.initial, heready.timer⟩
        dsimp only
        split
        · have hsame := resubscribeAll_undisturbed env g.subscriptions g
          exact h.welcomed (hsame.holds hgholds) (hsame.connecting.trans hec)
            (hsame.connected.trans hed) (hsame.ready hgready)
        · exact h.welcomed hgholds hec hed hgready
    cases hcb : y.s.c.connectCb with
    | none => exact hgo _ ⟨rfl, rfl, rfl, rfl, rfl, rfl, rfl, rfl, rfl⟩ rfl rfl rfl
    | some cb => exact hgo _ ⟨rfl, rfl, rfl, rfl, rfl, rfl, rfl, rfl, rfl⟩ rfl rfl rfl

/- The client that connects, as the call has it. -/
structure Client.Begins (env : ClientEnv) (host : Bytes) (port : ℕ) (o o' : ConnectOptions)
    (timer : Option ℕ) (c : Client) : Prop where
  connecting : c.connecting = true
  connected : c.connected = false
  host : c.host = some host
  port : c.port = port
  auto : c.autoReconnectEnabled = true
  maxAttempts : c.maxReconnectAttempts = o.maxReconnectAttempts
  initial : c.initialReconnectDelayMs =
    if o.initialReconnectDelayMs > 0 then o.initialReconnectDelayMs else 1000
  maxDelay : c.maxReconnectDelayMs =
    if o.maxReconnectDelayMs > 0 then o.maxReconnectDelayMs else 60000
  saved : c.savedOptions = o'.clone env
  some_saved : c.savedOptions.isSome = true
  attempts : c.reconnectAttempts = 0
  delay : c.currentReconnectDelayMs = c.initialReconnectDelayMs
  timer : c.reconnectTimer = timer

theorem beginConnect_begins (env : ClientEnv) (c : Client) (host : Bytes) (port : ℕ)
    (o o' : ConnectOptions) (cb : Option ℕ) (hauto : o.enableAutoReconnect = true) :
    match c.beginConnect env host port o o' cb with
    | .error _ => ¬ (¬ c.alive ∧ host ≠ [] ∧ (o'.clone env).isSome = true ∧
        env.alloc (host.length + 1) = true ∧ (packetOf o o' []).1 ≠ 0 ∧
        env.alloc (packetOf o o' []).1 = true)
    | .ok d => (¬ c.alive ∧ host ≠ [] ∧ (o'.clone env).isSome = true ∧
        env.alloc (host.length + 1) = true ∧ (packetOf o o' []).1 ≠ 0 ∧
        env.alloc (packetOf o o' []).1 = true) ∧
      d.Begins env host port o o' c.reconnectTimer := by
  unfold Client.beginConnect
  by_cases ha : c.connected = true ∨ c.connecting = true
  · rw [if_pos ha]
    exact fun h => h.1 ha.symm
  · rw [if_neg ha]
    have hconn : c.connected = false := by simpa using (not_or.mp ha).1
    by_cases hhost : host = []
    · rw [if_pos hhost]
      exact fun h => h.2.1 hhost
    · rw [if_neg hhost]
      simp only [Client.configure, hauto, if_true, true_and]
      cases hclone : o'.clone env with
      | none => simp
      | some saved =>
        rw [if_neg (some_ne_none saved)]
        by_cases halloc : env.alloc (host.length + 1) = true
        · rw [if_neg (not_not.mpr halloc)]
          unfold Client.prepareConnect packetOf
          dsimp only
          generalize o'.encode _ _ = enc
          by_cases henc : (enc []).1 = 0 ∨ ¬ env.alloc (enc []).1 = true
          · rw [if_pos henc]
            rintro ⟨-, -, -, -, hsize, hmem⟩
            exact henc.elim hsize (fun h => h hmem)
          · rw [if_neg henc]
            obtain ⟨hsize, hmem⟩ := not_or.mp henc
            exact ⟨⟨fun h => ha h.symm, hhost, rfl, halloc, hsize, not_not.mp hmem⟩,
              rfl, hconn, rfl, rfl, rfl, rfl, rfl, rfl, hclone.symm, rfl,
              rfl, rfl, rfl⟩
        · rw [if_pos halloc]
          exact fun h => halloc h.2.2.2.1

/-- An attempt is made exactly when the client has no connection and can start one. -/
theorem connect_begins (env : ClientEnv) (s : Session) (host : Bytes) (port : ℕ)
    (o o' : ConnectOptions) (cb : Option ℕ) (hauto : o.enableAutoReconnect = true) :
    ((s.connect env host port o o' cb).1 = true ↔ ¬ s.c.alive ∧ Startable env host o o') ∧
    ((s.connect env host port o o' cb).1 = true →
      (s.connect env host port o o' cb).2.c.Begins env host port o o' s.c.reconnectTimer) := by
  have hbegin := beginConnect_begins env s.c host port o o' cb hauto
  unfold Session.connect
  cases hb : s.c.beginConnect env host port o o' cb with
  | error d =>
    rw [hb] at hbegin
    refine ⟨⟨fun h => absurd h Bool.false_ne_true, ?_⟩, fun h => absurd h Bool.false_ne_true⟩
    rintro ⟨ha, hhost, hclone, hmem, hsize, hpacket, -⟩
    exact absurd ⟨ha, hhost, hclone, hmem, hsize, hpacket⟩ hbegin
  | ok d =>
    rw [hb] at hbegin
    obtain ⟨⟨ha, hhost, hclone, hmem, hsize, hpacket⟩, hd⟩ := hbegin
    have hstart : ((d.startTransport env host).1 = true ↔
        (if env.isAddress host then env.tcpConnect else env.dnsStart) = true) ∧
        ((d.startTransport env host).1 = true → ∃ t,
          (d.startTransport env host).2 = { d with transport := t }) := by
      unfold Client.startTransport
      cases env.isAddress host with
      | true =>
        cases env.tcpConnect with
        | true => simp
        | false => simp
      | false =>
        cases env.dnsStart with
        | true => simp
        | false => simp
    refine ⟨⟨fun h => ⟨ha, hhost, hclone, hmem, hsize, hpacket, hstart.1.mp h⟩,
      fun h => hstart.1.mpr h.2.2.2.2.2.2⟩, fun h => ?_⟩
    obtain ⟨t, ht⟩ := hstart.2 h
    dsimp only
    rw [ht]
    exact ⟨hd.connecting, hd.connected, hd.host, hd.port, hd.auto, hd.maxAttempts, hd.initial,
      hd.maxDelay, hd.saved, hd.some_saved, hd.attempts, hd.delay, hd.timer⟩

theorem clone_text (t : Text) : t.clone.clone = t.clone := by
  have hlen : t.clone.len = t.clone.chars.length := rfl
  have hsame : (if t.clone.len ≠ 0 then t.clone.chars.take t.clone.len else t.clone.chars) =
      t.clone.chars := by
    rw [hlen, List.take_length, ite_self]
  show (⟨if t.clone.len ≠ 0 then t.clone.chars.take t.clone.len else t.clone.chars, _⟩ : Text) = _
  rw [hsame]
  rfl

theorem clone_clone {o o' : ConnectOptions} (h : o.clone env = some o') :
    o'.clone env = some o' := by
  unfold ConnectOptions.clone at h
  split at h
  · next hall =>
    obtain rfl := some.inj h
    have htexts (t : Option Text) : (t.map Text.clone).map Text.clone = t.map Text.clone := by
      cases t with
      | none => rfl
      | some t => simp [clone_text]
    have hlens (t : Option Text) :
        (t.map Text.clone).map (fun t => t.clone.len + 1) = t.map fun t => t.clone.len + 1 := by
      cases t with
      | none => rfl
      | some t => simp [clone_text]
    have hsizes : ({ o with
        clientId := o.clientId.clone
        username := o.username.map Text.clone
        password := o.password.map Text.clone
        willTopic := o.willTopic.map Text.clone } : ConnectOptions).cloneSizes = o.cloneSizes := by
      simp only [ConnectOptions.cloneSizes, clone_text, List.filterMap_cons, hlens,
        List.filterMap_nil]
    unfold ConnectOptions.clone
    rw [hsizes, if_pos hall]
    simp only [clone_text, htexts]
  · simp at h

theorem Client.Begins.steady {o o' : ConnectOptions} (h : c.Begins env req.host req.port o o' none)
    (ho : o.maxReconnectAttempts = req.options.maxReconnectAttempts ∧ o.initialReconnectDelayMs =
      req.options.initialReconnectDelayMs ∧ o.maxReconnectDelayMs =
      req.options.maxReconnectDelayMs) (ho' : o'.clone env = req.options.clone env) (hy : y.s.c = c)
    (hattempts : ∀ a ∈ y.attempts, req.Repeated env a) : y.Steady env req := by
  obtain ⟨hmax, hinitial, hdelay⟩ := ho
  subst hy
  have halive : y.s.c.alive := Or.inl h.connecting
  have hfirst : y.s.c.initialReconnectDelayMs = req.initialDelay := by
    rw [h.initial, hinitial]
    rfl
  refine ⟨hattempts, ⟨h.port, h.auto, h.maxAttempts.trans hmax, hfirst, ?_, h.saved.trans ho',
    h.some_saved⟩, fun _ => h.connected, fun _ => ⟨h.host, h.attempts, h.delay.trans hfirst,
    h.timer⟩, ?_, fun hdead => absurd halive hdead, fun hdead => absurd halive hdead⟩
  · rw [h.maxDelay, hdelay]
    rfl
  · intro hconn
    exact absurd (h.connected.symm.trans hconn) Bool.false_ne_true

theorem clone_numbers {o o' : ConnectOptions} (h : o.clone env = some o') :
    o'.enableAutoReconnect = o.enableAutoReconnect ∧
      o'.maxReconnectAttempts = o.maxReconnectAttempts ∧
      o'.initialReconnectDelayMs = o.initialReconnectDelayMs ∧
      o'.maxReconnectDelayMs = o.maxReconnectDelayMs := by
  unfold ConnectOptions.clone at h
  split at h
  · obtain rfl := some.inj h
    exact ⟨rfl, rfl, rfl, rfl⟩
  · simp at h

theorem timer_steady (hauto : req.options.enableAutoReconnect = true) (h : y.Steady env req)
    {stale : ConnectOptions} (hp : y.s.c.reconnectTimer ≠ none)
    (hfair : y.Fair env req (.timer stale)) : (y.retry env stale).Steady env req := by
  obtain ⟨hcb, hstale, hstart⟩ := hfair
  have hdead : ¬ y.s.c.alive := fun halive => hp (h.ready halive).timer
  have harmed := (h.waits hdead).resolve_right fun hover => hp hover.timer
  obtain ⟨o, ho⟩ := isSome_iff_exists.mp h.holds.some_saved
  have hclone : req.options.clone env = some o := h.holds.saved.symm.trans ho
  obtain ⟨hoauto, honumbers⟩ := clone_numbers hclone
  have hstale' : stale.clone env = req.options.clone env := by
    rcases hstale with rfl | hcopy
    · rfl
    · rw [hcopy]
      exact clone_clone hcopy
  let s : Session := { y.s with c := { y.s.c with reconnectTimer := none } }
  have hretry : y.s.reconnectTimerCb env stale =
      s.connect env req.host req.port o stale y.s.c.connectCb := by
    unfold Session.reconnectTimerCb
    rw [ho]
    dsimp only
    rw [if_pos h.holds.auto]
    show s.connect env (y.s.c.host.getD []) y.s.c.port o stale y.s.c.connectCb = _
    rw [harmed.host, h.holds.port, getD_some]
  have hbegins := connect_begins env s req.host req.port o stale y.s.c.connectCb
    (hoauto.trans hauto)
  have hconnect := hbegins.1.mpr ⟨hdead, hstart o ho⟩
  refine Client.Begins.steady (hbegins.2 hconnect) honumbers hstale' ?_ ?_
  · show (y.s.reconnectTimerCb env stale).2.c = _
    rw [hretry]
  · intro a ha
    rcases List.mem_append.mp ha with hold | hnew
    · exact h.attempts a hold
    · rw [List.mem_singleton.mp hnew, harmed.host, h.holds.port, harmed.connectCb]
      exact ⟨rfl, rfl, hcb.symm, hstale⟩

theorem step_steady (hauto : req.options.enableAutoReconnect = true) {z : Life} {e : Happening}
    (h : y.Steady env req) (hfair : y.Fair env req e) (hz : y.step env e = some z) :
    z.Steady env req := by
  unfold Life.step at hz
  split at hz
  · next hpossible =>
    obtain rfl := some.inj hz
    cases e with
    | dns found => exact dns_steady h hfair
    | tcp established => exact tcp_steady h hfair
    | connack present code => exact connack_steady h hfair
    | closed failed => exact closed_steady h hfair _
    | badPacket reported msg => exact badPacket_steady h hfair.1 hfair.2 msg
    | timer stale => exact timer_steady hauto h hpossible hfair
  · simp at hz

def sampleRequest : Request where
  host := lit "h"
  port := 1883
  options := { clientId := ⟨lit "c", 0⟩, enableAutoReconnect := true }
  cb := none

def sampleCopy : ConnectOptions := { sampleRequest.options with clientId := ⟨lit "c", 1⟩ }

def sampleLife : List Happening :=
  [.tcp true, .connack 0 0, .closed false, .timer sampleCopy, .tcp true, .connack 1 0,
    .closed true]

end Voxlib.Mqtt
