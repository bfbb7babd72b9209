/-
  Kairyu/Tenancy.lean
  ===================
  **Tenant admission.**

  `TenantLimiter` keeps for each tenant a bucket of requests, a bucket of tokens, a count
  of leases in flight and a total of reserved tokens; a `TenantAdmission` is the lease it
  gives out, which reserves, dispatches, settles and releases.  Clocks and token counts
  are exact rationals, and every reading of the clock is one entry of a sequence, so that
  a clock that moves backwards is one of them.
-/
import Kairyu.Dict
import Kairyu.Text
import Kairyu.TokenBucket

namespace Kairyu

/-! ### Limits -/

/-- `TenantLimits`, without the priorities the limiter never reads. -/
structure TenantLimits where
  requestsPerMinute : Nat := 600
  tokensPerMinute : Nat := 200000
  requestBurst : Option Nat := none
  tokenBurst : Option Nat := none
  maxInFlight : Option Nat := none
  requests_pos : 1 ≤ requestsPerMinute := by decide
  tokens_pos : 1 ≤ tokensPerMinute := by decide
  requestBurst_pos : ∀ n ∈ requestBurst, 1 ≤ n := by simp
  tokenBurst_pos : ∀ n ∈ tokenBurst, 1 ≤ n := by simp
  maxInFlight_pos : ∀ n ∈ maxInFlight, 1 ≤ n := by simp

/-- The limits of a tenant that the configuration does not name. -/
def TenantLimits.standard : TenantLimits := {}

structure TenantConfig where
  limits : Dict Text TenantLimits := ∅

def TenantConfig.limitsFor (config : TenantConfig) (tenant : Text) : TenantLimits :=
  (config.limits.lookup tenant).getD TenantLimits.standard

/-! ### Buckets -/

/-- `_Bucket`: its methods are those of a token bucket over the rationals. -/
abbrev Bucket := TokenBucket ℚ

namespace Bucket

/-- A refill boundary that a float clock represents a few ulps too low still counts. -/
def slack : ℚ := 1 / 1000000000

def new (perMinute : Nat) (capacity : Option Nat) (now : ℚ) : Bucket where
  capacity := (capacity.getD perMinute : Nat)
  tokens := (capacity.getD perMinute : Nat)
  rate := perMinute / 60
  updated := now

def take (b : Bucket) (amount now : ℚ) : Bool × Bucket := TokenBucket.take slack b amount now

end Bucket

/-! ### The limiter -/

/-- What happened to a tenant's tokens: a successful `take`, a refund, or a charge. -/
inductive TokenEntry where
  | took (amount : ℚ)
  | refunded (amount : ℚ)
  | charged (amount : ℚ)
deriving DecidableEq

/-- What the limiter and its admissions raise. -/
inductive TenantError where
  | reservationNotPositive
  | quotaChanged
  | noLease (tenant : Text)
  | reservationsExceeded
  | reserveReleased
  | alreadyReserved
  | dispatchReleased
  | notReserved
  | actualNegative
  | inexactRefund
  | settleReleased
  | nothingReserved
deriving DecidableEq, Repr

namespace TenantError

/-- The text of the exception; `repr` is Python's. -/
def message (repr : Text → Text) : TenantError → Text
  | .reservationNotPositive => Text.of "token reservation must be a positive integer"
  | .quotaChanged => Text.of "tenant quota changed during atomic reservation"
  | .noLease tenant =>
    Text.of "tenant " ++ repr tenant ++ Text.of " has no in-flight lease to release"
  | .reservationsExceeded => Text.of "released tenant tokens exceed reservations"
  | .reserveReleased => Text.of "cannot reserve tokens on a released admission"
  | .alreadyReserved => Text.of "tenant admission already has a token reservation"
  | .dispatchReleased => Text.of "cannot dispatch a released admission"
  | .notReserved => Text.of "tenant tokens must be reserved before dispatch"
  | .actualNegative => Text.of "actual token count must be a non-negative integer"
  | .inexactRefund => Text.of "surplus refund requires exact token usage"
  | .settleReleased => Text.of "cannot settle a released admission"
  | .nothingReserved => Text.of "tenant admission has no token reservation"

/-- The errors that report broken bookkeeping and not a misuse. -/
def internal : TenantError → Bool
  | .quotaChanged | .noLease _ | .reservationsExceeded => true
  | _ => false

end TenantError

structure TenantLimiter where
  config : TenantConfig
  /-- The readings of the clock, and how many of them were made. -/
  clock : Nat → ℚ
  readings : Nat := 0
  buckets : Dict Text Bucket := ∅
  tokenBuckets : Dict Text Bucket := ∅
  inFlight : Dict Text Nat := ∅
  reservedTokens : Dict Text Nat := ∅
  boundViolations : Dict Text Nat := ∅
  /-- A history of the token buckets that no decision reads. -/
  log : List (Text × TokenEntry) := []

inductive AdmissionOutcome where
  | quotaAvailable
  | tokenQuota
  | inFlight
  | requestQuota
  | tokenRequestTooLarge
deriving DecidableEq, Repr

structure TenantAdmission where
  tenant : Text
  reason : AdmissionOutcome
  /-- Whether it has a limiter. -/
  admitted : Bool
  retryAfter : Option ℚ := none
  released : Bool := false
  reservedTokens : Nat := 0
  dispatched : Bool := false
  settled : Bool := false
  refundableOnExactUsage : Bool := true
deriving DecidableEq

namespace TenantAdmission

def acquired (tenant : Text) : TenantAdmission := { tenant, reason := .quotaAvailable, admitted := true }

def rejected (tenant : Text) (reason : AdmissionOutcome) (retryAfter : Option ℚ) : TenantAdmission :=
  { tenant, reason, admitted := false, retryAfter }

end TenantAdmission

namespace TenantLimiter

/-- `self._now()` -/
def now (l : TenantLimiter) : ℚ × TenantLimiter := (l.clock l.readings, { l with readings := l.readings + 1 })

/-- `_request_bucket`: made at its first use, with a reading of its own. -/
def requestBucket (l : TenantLimiter) (tenant : Text) : Bucket × TenantLimiter :=
  match l.buckets.lookup tenant with
  | some bucket => (bucket, l)
  | none =>
    let limits := l.config.limitsFor tenant
    let (now, l) := l.now
    let bucket := Bucket.new limits.requestsPerMinute limits.requestBurst now
    (bucket, { l with buckets := l.buckets.insert tenant bucket })

/-- `_token_bucket` -/
def tokenBucket (l : TenantLimiter) (tenant : Text) : Bucket × TenantLimiter :=
  match l.tokenBuckets.lookup tenant with
  | some bucket => (bucket, l)
  | none =>
    let limits := l.config.limitsFor tenant
    let (now, l) := l.now
    let bucket := Bucket.new limits.tokensPerMinute limits.tokenBurst now
    (bucket, { l with tokenBuckets := l.tokenBuckets.insert tenant bucket })

/-- `take` on the tenant's token bucket. -/
def takeTokens (l : TenantLimiter) (tenant : Text) (bucket : Bucket) (amount now : ℚ) :
    Bool × Bucket × TenantLimiter :=
  let (taken, bucket) := bucket.take amount now
  (taken, bucket,
    { l with
      tokenBuckets := l.tokenBuckets.insert tenant bucket
      log := if taken then l.log ++ [(tenant, .took amount)] else l.log })

/-- `refund` on the tenant's token bucket. -/
def refundTokens (l : TenantLimiter) (tenant : Text) (bucket : Bucket) (amount now : ℚ) :
    TenantLimiter :=
  { l with
    tokenBuckets := l.tokenBuckets.insert tenant (bucket.refund amount now)
    log := l.log ++ [(tenant, .refunded amount)] }

/-- `take` on the tenant's request bucket. -/
def takeRequest (l : TenantLimiter) (tenant : Text) (bucket : Bucket) (amount now : ℚ) :
    Bool × Bucket × TenantLimiter :=
  let (taken, bucket) := bucket.take amount now
  (taken, bucket, { l with buckets := l.buckets.insert tenant bucket })

def active (l : TenantLimiter) (tenant : Text) : Nat := (l.inFlight.lookup tenant).getD 0

def reserved (l : TenantLimiter) (tenant : Text) : Nat := (l.reservedTokens.lookup tenant).getD 0

/-- `max_in_flight` is configured and reached. -/
def full (l : TenantLimiter) (tenant : Text) : Bool :=
  match (l.config.limitsFor tenant).maxInFlight with
  | some maxInFlight => decide (maxInFlight ≤ l.active tenant)
  | none => false

def acquire (l : TenantLimiter) (tenant : Text) : TenantAdmission × TenantLimiter :=
  let (now, l) := l.now
  let (bucket, l) := l.tokenBucket tenant
  let (_, bucket, l) := l.takeTokens tenant bucket 0 now
  if bucket.tokens < 1 then (.rejected tenant .tokenQuota none, l)
  else if l.full tenant then (.rejected tenant .inFlight none, l)
  else
    let active := l.active tenant
    let (request, l) := l.requestBucket tenant
    let (taken, _, l) := l.takeRequest tenant request 1 now
    if taken then
      (.acquired tenant, { l with inFlight := l.inFlight.insert tenant (active + 1) })
    else (.rejected tenant .requestQuota none, l)

def acquireReserved (l : TenantLimiter) (tenant : Text) (tokens : Int) (refundable : Bool) :
    Except TenantError (TenantAdmission × TenantLimiter) :=
  if tokens < 1 then .error .reservationNotPositive
  else
    let (now, l) := l.now
    let (bucket, l) := l.tokenBucket tenant
    let (_, bucket, l) := l.takeTokens tenant bucket 0 now
    if bucket.capacity < tokens then .ok (.rejected tenant .tokenRequestTooLarge none, l)
    else if bucket.tokens + Bucket.slack < tokens then
      .ok (.rejected tenant .tokenQuota (some ((tokens - bucket.tokens) / bucket.rate)), l)
    else if l.full tenant then .ok (.rejected tenant .inFlight (some 1), l)
    else
      let active := l.active tenant
      let (request, l) := l.requestBucket tenant
      let (_, request, l) := l.takeRequest tenant request 0 now
      if request.tokens + Bucket.slack < 1 then
        .ok (.rejected tenant .requestQuota (some ((1 - request.tokens) / request.rate)), l)
      else
        let (requestTaken, _, l) := l.takeRequest tenant request 1 now
        let (tokenTaken, _, l) := l.takeTokens tenant bucket tokens now
        if requestTaken = false ∨ tokenTaken = false then .error .quotaChanged
        else
          let l := { l with
            inFlight := l.inFlight.insert tenant (active + 1)
            reservedTokens := l.reservedTokens.insert tenant (l.reserved tenant + tokens.toNat) }
          .ok ({ TenantAdmission.acquired tenant with
                 reservedTokens := tokens.toNat, refundableOnExactUsage := refundable }, l)

/-- `_release` -/
def releaseLease (l : TenantLimiter) (tenant : Text) : Except TenantError TenantLimiter :=
  let active := l.active tenant
  if active < 1 then .error (.noLease tenant)
  else if active = 1 then .ok { l with inFlight := l.inFlight.erase tenant }
  else .ok { l with inFlight := l.inFlight.insert tenant (active - 1) }

def chargeTokens (l : TenantLimiter) (tenant : Text) (tokens : Int) : TenantLimiter :=
  let (bucket, l) := l.tokenBucket tenant
  let (now, l) := l.now
  { l with
    tokenBuckets := l.tokenBuckets.insert tenant (bucket.debit tokens now)
    log := l.log ++ [(tenant, .charged tokens)] }

/-- `_reserve_tokens` -/
def reserveTokens (l : TenantLimiter) (tenant : Text) (tokens : Nat) : Bool × TenantLimiter :=
  let (bucket, l) := l.tokenBucket tenant
  let (now, l) := l.now
  let (taken, _, l) := l.takeTokens tenant bucket tokens now
  if taken then
    (true, { l with reservedTokens := l.reservedTokens.insert tenant (l.reserved tenant + tokens) })
  else (false, l)

/-- `_finish_reservation` -/
def finishReservation (l : TenantLimiter) (tenant : Text) (reserved : Nat) :
    Except TenantError TenantLimiter :=
  let outstanding := l.reserved tenant
  if outstanding < reserved then .error .reservationsExceeded
  else if outstanding - reserved ≠ 0 then
    .ok { l with reservedTokens := l.reservedTokens.insert tenant (outstanding - reserved) }
  else .ok { l with reservedTokens := l.reservedTokens.erase tenant }

/-- `_settle_tokens` -/
def settleTokens (l : TenantLimiter) (tenant : Text) (reserved actual : Nat) (refundSurplus : Bool) :
    Except TenantError TenantLimiter :=
  let (bucket, l) := l.tokenBucket tenant
  if reserved < actual then
    let l := { l with
      boundViolations := l.boundViolations.insert tenant ((l.boundViolations.lookup tenant).getD 0 + 1) }
    let (now, l) := l.now
    { l with
      tokenBuckets := l.tokenBuckets.insert tenant (bucket.debit (actual - reserved : Nat) now) }.finishReservation
      tenant reserved
  else if actual < reserved ∧ refundSurplus = true then
    let (now, l) := l.now
    (l.refundTokens tenant bucket (reserved - actual : Nat) now).finishReservation tenant reserved
  else l.finishReservation tenant reserved

/-- `_refund_tokens` -/
def refundReservation (l : TenantLimiter) (tenant : Text) (tokens : Nat) :
    Except TenantError TenantLimiter :=
  let (bucket, l) := l.tokenBucket tenant
  let (now, l) := l.now
  (l.refundTokens tenant bucket tokens now).finishReservation tenant tokens

end TenantLimiter

/-! ### Admissions -/

namespace TenantAdmission

def reserveTokens (a : TenantAdmission) (l : TenantLimiter) (tokens : Int) (refundable : Bool) :
    Except TenantError (Bool × TenantAdmission × TenantLimiter) :=
  if tokens < 1 then .error .reservationNotPositive
  else if a.released then .error .reserveReleased
  else if a.admitted = false then .ok (false, a, l)
  else if a.reservedTokens ≠ 0 then .error .alreadyReserved
  else
    match l.reserveTokens a.tenant tokens.toNat with
    | (false, l) => .ok (false, { a with reason := .tokenQuota }, l)
    | (true, l) =>
      .ok (true, { a with
        reservedTokens := tokens.toNat, refundableOnExactUsage := refundable
        reason := .quotaAvailable }, l)

def markDispatched (a : TenantAdmission) : Except TenantError TenantAdmission :=
  if a.released then .error .dispatchReleased
  else if a.admitted = false then .ok a
  else if a.reservedTokens < 1 then .error .notReserved
  else .ok { a with dispatched := true }

def settleTokens (a : TenantAdmission) (l : TenantLimiter) (actual : Int)
    (exact forceRefundSurplus : Bool) : Except TenantError (TenantAdmission × TenantLimiter) :=
  if actual < 0 then .error .actualNegative
  else if forceRefundSurplus = true ∧ exact = false then .error .inexactRefund
  else if a.released then .error .settleReleased
  else if a.admitted = false then .ok (a, l)
  else if a.reservedTokens < 1 then .error .nothingReserved
  else if a.settled then .ok (a, l)
  else
    match l.settleTokens a.tenant a.reservedTokens actual.toNat
        (exact && (a.refundableOnExactUsage || forceRefundSurplus)) with
    | .error error => .error error
    | .ok l => .ok ({ a with settled := true }, l)

def release (a : TenantAdmission) (l : TenantLimiter) :
    Except TenantError (TenantAdmission × TenantLimiter) :=
  if a.released = true ∨ a.admitted = false then .ok (a, l)
  else do
    let l ←
      if a.reservedTokens ≠ 0 ∧ a.settled = false then
        -- Before dispatch nothing was consumed; afterwards missing usage keeps the debit.
        if a.dispatched then l.finishReservation a.tenant a.reservedTokens
        else l.refundReservation a.tenant a.reservedTokens
      else .ok l
    let l ← l.releaseLease a.tenant
    return ({ a with released := true }, l)

end TenantAdmission

/-! ### Runs -/

/-- A limiter and the admissions it returned, in order. -/
structure TenantGateway where
  limiter : TenantLimiter
  admissions : List TenantAdmission := []

/-- A call; admissions are named by their position. -/
inductive TenantCall where
  | acquire (tenant : Text)
  | acquireReserved (tenant : Text) (tokens : Int) (refundable : Bool)
  | reserveTokens (admission : Nat) (tokens : Int) (refundable : Bool)
  | markDispatched (admission : Nat)
  | settleTokens (admission : Nat) (actual : Int) (exact forceRefundSurplus : Bool)
  | release (admission : Nat)
  | chargeTokens (tenant : Text) (tokens : Int)

namespace TenantGateway

/-- A call of an admission. -/
def onAdmission (g : TenantGateway) (i : Nat)
    (f : TenantAdmission → Except TenantError (TenantAdmission × TenantLimiter)) :
    Except TenantError TenantGateway :=
  match g.admissions[i]? with
  | none => .ok g
  | some a =>
    match f a with
    | .error error => .error error
    | .ok (a, limiter) => .ok ⟨limiter, g.admissions.set i a⟩

def call (g : TenantGateway) : TenantCall → Except TenantError TenantGateway
  | .acquire tenant =>
    let (a, limiter) := g.limiter.acquire tenant
    .ok ⟨limiter, g.admissions ++ [a]⟩
  | .acquireReserved tenant tokens refundable =>
    match g.limiter.acquireReserved tenant tokens refundable with
    | .error error => .error error
    | .ok (a, limiter) => .ok ⟨limiter, g.admissions ++ [a]⟩
  | .reserveTokens i tokens refundable =>
    g.onAdmission i fun a =>
      match a.reserveTokens g.limiter tokens refundable with
      | .error error => .error error
      | .ok (_, a, limiter) => .ok (a, limiter)
  | .markDispatched i =>
    g.onAdmission i fun a =>
      match a.markDispatched with
      | .error error => .error error
      | .ok a => .ok (a, g.limiter)
  | .settleTokens i actual exact forceRefundSurplus =>
    g.onAdmission i (·.settleTokens g.limiter actual exact forceRefundSurplus)
  | .release i => g.onAdmission i (·.release g.limiter)
  | .chargeTokens tenant tokens => .ok { g with limiter := g.limiter.chargeTokens tenant tokens }

/-- The state after a call; one that raises changes nothing. -/
def step (g : TenantGateway) (c : TenantCall) : TenantGateway :=
  match g.call c with
  | .error _ => g
  | .ok g => g

end TenantGateway

end Kairyu
