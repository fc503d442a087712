import Voxlib.Crypto.Base64
import Voxlib.Http.Chain

/-!
# The middleware that may reject a request (vox_http_middleware.c)
-/

namespace Voxlib.Http
open CStr Crypto

inductive Method where
  | get | post | put | delete | patch | head | options | connect | trace | other
  deriving DecidableEq, Repr

/- struct vox_http_rate_limit_record_t: a ring of 100 time stamps. -/
structure RateRecord where
  timestamps : ℕ → ℤ := fun _ => 0
  count : ℕ := 0
  head : ℕ := 0

/- What the middleware sees besides the position in the chain: the request, the
   response, the client's address, the clock, whether the pool has memory, and
   the records of the rate limiter. -/
structure Web where
  method : Method := .get
  headers : List (Bytes × Bytes) := []
  body : Option Bytes := none
  resStatus : ℕ := 0
  resHeaders : List (Bytes × Bytes) := []
  resBody : Bytes := []
  clientIp : Option Bytes := none
  nowMs : ℤ := 0
  mpoolOk : Bool := true
  ipRecords : Bytes → Option RateRecord := fun _ => none

-- vox_http_strieq (vox_http_internal.h:84-87)
def strieq (a b : Bytes) : Bool := a.length = b.length && strncasecmp a b a.length

-- vox_http_context_get_header (vox_http_context.c:147-163)
def getHeader (w : Web) (name : Bytes) : Option Bytes :=
  (w.headers.find? (fun kv => strieq kv.1 name)).map Prod.snd

-- vox_http_context_status, _header and _write_cstr (vox_http_context.c:203-262)
def Web.status (w : Web) (status : ℕ) : Web := { w with resStatus := status }
def Web.header (w : Web) (name value : Bytes) : Web :=
  { w with resHeaders := w.resHeaders ++ [(name, value)] }
def Web.writeCstr (w : Web) (text : Bytes) : Web := { w with resBody := w.resBody ++ text }

/- A header that is set when the configuration has a value for it. -/
def Web.headerOpt (w : Web) (name : Bytes) : Option Bytes → Web
  | some value => w.header name value
  | none => w

/- `vox_http_context_next(ctx)` as the last thing a middleware does. -/
def passOn (w : Web) : Body Web := .next w (fun c => .ret c.world)

structure CorsConfig where
  allowOrigin : Option Bytes
  allowMethods : Option Bytes
  allowHeaders : Option Bytes
  allowCredentials : Bool

def Web.corsHeaders (w : Web) (cfg : CorsConfig) : Web :=
  let w₁ := w.headerOpt (lit "Access-Control-Allow-Origin") cfg.allowOrigin
  let w₂ := w₁.headerOpt (lit "Access-Control-Allow-Methods") cfg.allowMethods
  let w₃ := w₂.headerOpt (lit "Access-Control-Allow-Headers") cfg.allowHeaders
  if cfg.allowCredentials then w₃.header (lit "Access-Control-Allow-Credentials") (lit "true")
  else w₃

-- vox_http_middleware_cors_impl (vox_http_middleware.c:154-201)
def corsImpl (cfg : CorsConfig) : Handler Web := fun c =>
  if c.world.method = .options then
    .ret (((c.world.status 204).corsHeaders cfg).header (lit "Access-Control-Max-Age") (lit "86400"))
  else passOn (c.world.corsHeaders cfg)

-- vox_http_cors_default (vox_http_middleware.c:204-209)
def corsDefault : CorsConfig where
  allowOrigin := some (lit "*")
  allowMethods := some (lit "GET, POST, PUT, DELETE, PATCH, OPTIONS")
  allowHeaders := some (lit "Content-Type, Authorization")
  allowCredentials := false

def middlewareCors : Handler Web := corsImpl corsDefault

inductive Auth where
  | accepted
  | noHeader
  | refused
  | noMemory
  deriving DecidableEq, Repr

def Web.unauthorized (w : Web) : Web := (w.status 401).writeCstr (lit "Unauthorized")

/- The challenge is built in a buffer of 256 bytes. -/
def Web.challenge (w : Web) (scheme : Bytes) (realm : Option Bytes) : Web :=
  let text := scheme ++ lit " realm=\"" ++ realm.getD (lit "Restricted") ++ lit "\""
  ((w.status 401).header (lit "WWW-Authenticate") (text.take 255)).writeCstr (lit "Unauthorized")

def Web.internalError (w : Web) : Web :=
  (w.status 500).writeCstr (lit "Internal Server Error")

/- The part of the two authentication middlewares that differs in the scheme
   only: `check` decides about what follows the scheme in the header. -/
def authFinds (w : Web) (scheme : Bytes) (check : Bytes → Bool) : Auth :=
  match getHeader w (lit "Authorization") with
  | none => .noHeader
  | some auth =>
    if auth.length = 0 then .noHeader
    else if auth.length < scheme.length + 1 ∨
        strncmp auth (scheme ++ lit " ") (scheme.length + 1) = false then .refused
    else if w.mpoolOk = false then .noMemory
    else if check (auth.drop (scheme.length + 1)) then .accepted
    else .refused

def authImpl (w : Web) (scheme : Bytes) (realm : Option Bytes) : Auth → Body Web
  | .accepted => passOn w
  | .noHeader => .ret (w.challenge scheme realm)
  | .refused => .ret w.unauthorized
  | .noMemory => .ret w.internalError

structure BasicAuthConfig where
  username : Bytes
  password : Bytes
  realm : Option Bytes

/- Decoding, splitting at the first colon and the comparison
   (vox_http_middleware.c:262-296). -/
def basicAccepts (cfg : BasicAuthConfig) (encoded : Bytes) : Bool :=
  match base64Decode (cstr encoded) 256 with
  | none => false
  | some decoded =>
    if decoded.length = 0 then false
    else
      let usernameLen := decoded.findIdx (fun c => c = 58)
      if usernameLen ≥ decoded.length then false
      else
        let passwordLen := decoded.length - usernameLen - 1
        usernameLen = cfg.username.length && passwordLen = cfg.password.length &&
          strncmp decoded cfg.username usernameLen &&
          strncmp (decoded.drop (usernameLen + 1)) cfg.password passwordLen

def basicAuthFinds (cfg : BasicAuthConfig) (w : Web) : Auth :=
  authFinds w (lit "Basic") (basicAccepts cfg)

-- vox_http_middleware_basic_auth_impl (vox_http_middleware.c:218-295)
def basicAuthImpl (cfg : BasicAuthConfig) : Handler Web := fun c =>
  authImpl c.world (lit "Basic") cfg.realm (basicAuthFinds cfg c.world)

structure BearerAuthConfig where
  validator : Bytes → Bool
  realm : Option Bytes

def bearerAuthFinds (cfg : BearerAuthConfig) (w : Web) : Auth :=
  authFinds w (lit "Bearer") (fun token => cfg.validator (cstr token))

-- vox_http_middleware_bearer_auth_impl (vox_http_middleware.c:306-355)
def bearerAuthImpl (cfg : BearerAuthConfig) : Handler Web := fun c =>
  authImpl c.world (lit "Bearer") cfg.realm (bearerAuthFinds cfg c.world)

/- A `max_size` of 0 switches the limit off. -/
def bodyTooLarge (maxSize : ℕ) (w : Web) : Bool :=
  match w.body with
  | some b => maxSize ≠ 0 && b.length > maxSize
  | none => false

-- vox_http_middleware_body_limit_impl (vox_http_middleware.c:404-424)
def bodyLimitImpl (maxSize : ℕ) : Handler Web := fun c =>
  if bodyTooLarge maxSize c.world then
    .ret ((c.world.status 413).writeCstr (lit "Request Entity Too Large"))
  else passOn c.world

structure RateLimitConfig where
  maxRequests : ℕ
  windowMs : ℤ
  message : Option Bytes

def maxTimestamps : ℕ := 100

def RateRecord.at (r : RateRecord) (i : ℕ) : ℤ := r.timestamps ((r.head + i) % maxTimestamps)

/- sliding_window_update (vox_http_middleware.c:655-699): the record and the
   count it returns. -/
def slidingWindowUpdate (r : RateRecord) (now windowMs : ℤ) : RateRecord × ℕ :=
  let valid := (List.range r.count).filter (fun i => r.at i ≥ now - windowMs)
  let head := match valid with
    | [] => 0
    | first :: _ => (r.head + first) % maxTimestamps
  if valid.length < maxTimestamps then
    ({ timestamps := Function.update r.timestamps ((head + valid.length) % maxTimestamps) now
       count := valid.length + 1
       head := head }, valid.length + 1)
  else
    ({ timestamps := Function.update r.timestamps head now
       count := valid.length
       head := (head + 1) % maxTimestamps }, valid.length)

/- get_or_create_record (vox_http_middleware.c:618-648). -/
def getOrCreateRecord (w : Web) (ip : Bytes) : Option RateRecord :=
  match w.ipRecords ip with
  | some r => some r
  | none => if w.mpoolOk then some {} else none

/- The update the middleware makes and what it counts; `none` when the request
   is let through unseen. -/
def rateCount (cfg : RateLimitConfig) (w : Web) : Option (Bytes × RateRecord × ℕ) :=
  if cfg.maxRequests = 0 ∨ cfg.windowMs ≤ 0 then none
  else
    match w.clientIp with
    | none => none
    | some ip => (getOrCreateRecord w ip).map fun r => (ip, slidingWindowUpdate r w.nowMs cfg.windowMs)

def rateExceeded (cfg : RateLimitConfig) (w : Web) : Bool :=
  match rateCount cfg w with
  | some (_, _, count) => count > cfg.maxRequests
  | none => false

def Web.tooManyRequests (w : Web) (cfg : RateLimitConfig) (r : RateRecord) : Web :=
  let w₁ := (w.status 429).writeCstr (cfg.message.getD (lit "Too Many Requests"))
  let retry := if 0 < r.count
    then max 1 ((r.at 0 + cfg.windowMs - w.nowMs + 999).tdiv 1000) else 1
  w₁.header (lit "Retry-After") (lit (toString retry))

-- vox_http_middleware_rate_limit_impl (vox_http_middleware.c:703-758)
def rateLimitImpl (cfg : RateLimitConfig) : Handler Web := fun c =>
  match rateCount cfg c.world with
  | none => passOn c.world
  | some (ip, r, count) =>
    let w := { c.world with ipRecords := Function.update c.world.ipRecords ip (some r) }
    if count > cfg.maxRequests then .ret (w.tooManyRequests cfg r) else passOn w

inductive Middleware where
  | cors (cfg : CorsConfig)
  | basicAuth (cfg : BasicAuthConfig)
  | bearerAuth (cfg : BearerAuthConfig)
  | bodyLimit (maxSize : ℕ)
  | rateLimit (cfg : RateLimitConfig)

def Middleware.handler : Middleware → Handler Web
  | .cors cfg => corsImpl cfg
  | .basicAuth cfg => basicAuthImpl cfg
  | .bearerAuth cfg => bearerAuthImpl cfg
  | .bodyLimit maxSize => bodyLimitImpl maxSize
  | .rateLimit cfg => rateLimitImpl cfg

/- The requests that a middleware is there to stop. -/
def Middleware.rejects : Middleware → Web → Bool
  | .cors _, w => w.method = .options
  | .basicAuth cfg, w => basicAuthFinds cfg w ≠ .accepted
  | .bearerAuth cfg, w => bearerAuthFinds cfg w ≠ .accepted
  | .bodyLimit maxSize, w => bodyTooLarge maxSize w
  | .rateLimit cfg, w => rateExceeded cfg w

theorem authImpl_returns {w : Web} {scheme : Bytes} {realm : Option Bytes} {found : Auth}
    (h : found ≠ .accepted) : ∃ w', authImpl w scheme realm found = .ret w' := by
  cases found with
  | accepted => exact absurd rfl h
  | noHeader => exact ⟨_, rfl⟩
  | refused => exact ⟨_, rfl⟩
  | noMemory => exact ⟨_, rfl⟩

theorem rejects_returns (m : Middleware) (c : Ctx Web) (h : m.rejects c.world = true) :
    ∃ w, m.handler c = .ret w := by
  cases m with
  | cors cfg =>
    simp only [Middleware.rejects, decide_eq_true_eq] at h
    simp only [Middleware.handler, corsImpl, if_pos h]
    exact ⟨_, rfl⟩
  | basicAuth cfg =>
    simp only [Middleware.rejects, decide_eq_true_eq] at h
    exact authImpl_returns h
  | bearerAuth cfg =>
    simp only [Middleware.rejects, decide_eq_true_eq] at h
    exact authImpl_returns h
  | bodyLimit maxSize =>
    simp only [Middleware.rejects] at h
    simp only [Middleware.handler, bodyLimitImpl, if_pos h]
    exact ⟨_, rfl⟩
  | rateLimit cfg =>
    simp only [Middleware.rejects, rateExceeded] at h
    simp only [Middleware.handler, rateLimitImpl]
    cases hc : rateCount cfg c.world with
    | none => simp [hc] at h
    | some found =>
      simp only [hc, decide_eq_true_eq] at h
      simp only [if_pos h]
      exact ⟨_, rfl⟩

/- Somewhere in the run the middleware at `k` was called, and rejected the
   request it saw; `after` is what happened from then on. -/
def Rejected (handlers : List (Option (Handler Web))) (events : List (Event Web)) (k : ℕ)
    (after : List (Event Web)) : Prop :=
  ∃ m d before, handlerAt handlers k = some (Middleware.handler m) ∧
    events = before ++ .call k d :: after ∧ m.rejects d.world = true

theorem chain_gated_iff_last (handlers : List (Option (Handler Web))) (deferred : Bool) (w : Web) :
    (∀ k after, Rejected handlers (contextDispatch handlers deferred w).2 k after →
      ((∀ p d, k < p → Event.call p d ∉ after) ↔ ∀ j, k < j → handlerAt handlers j = none)) ∧
    ((∀ k after, ¬ Rejected handlers (contextDispatch handlers deferred w).2 k after) →
      (∀ e ∈ (contextDispatch handlers deferred w).2, e.isCall = true) →
      positions (contextDispatch handlers deferred w).2 = entries handlers 0 handlers.length) := by
  constructor
  · intro k after hrej
    obtain ⟨m, d, before, hcb, hevents, hm⟩ := hrej
    obtain ⟨w', hret⟩ := rejects_returns m d hm
    rw [← dispatch_plain_return handlers deferred w hcb hret hevents]
    unfold PassedOn
    constructor
    · intro hnone hpass
      obtain ⟨p, e, hp, hk⟩ := hpass
      exact hnone p e hk hp
    · intro hnot p e hk hp
      exact hnot ⟨p, e, hp, hk⟩
  · intro _ hquiet
    exact dispatch_complete handlers deferred w hquiet

/- The default CORS middleware answers a preflight request, and the handler
   behind it runs all the same. -/
theorem preflight_reaches_next_handler :
    ∃ after, Rejected [some middlewareCors, some (fun c => .ret c.world)]
      (contextDispatch [some middlewareCors, some (fun c => .ret c.world)] false
        { method := .options }).2 0 after ∧ positions after = [1] := by
  exact ⟨_, ⟨.cors corsDefault, _, [], rfl, rfl, rfl⟩, rfl⟩

end Voxlib.Http
