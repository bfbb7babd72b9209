/-
  Kairyu/AsyncRequests.lean
  =========================
  **Durable asynchronous requests** (`async_requests/models.py`, `async_requests/store.py`).

  A request waits in a queue until a worker claims it.  A claim is a lease with a fencing
  token; what a worker writes goes through its claim, and is refused once the lease has
  passed or the token is no longer that of the lease.  A lease that expires puts the request
  back among the candidates, a bounded number of times.

  Reading guide.

    * What a call reads from outside is an argument of it: the clock (`none` when it returns
      a naive `datetime`) and the identifier the factory makes.
    * A number of seconds is a rational, `none` when it is not finite.
    * `self._fencing_tokens[id]` and `self._leases[id]` are read with a default here; that the
      keys are there is part of what is proved about every reachable state.
    * The counters of `metrics_snapshot` are left out, and so are the fields of a record that
      no function reads.
-/
import Kairyu.Clock
import Kairyu.Dict
import Kairyu.Effect
import Kairyu.Json

namespace Kairyu

open Effect

/-! ### Records -/

inductive AsyncRequestState where
  | queued
  | claimed
  | running
  | succeeded
  | failed
  | cancelled
  | expired
deriving DecidableEq

namespace AsyncRequestState

/-- `TERMINAL_REQUEST_STATES` -/
def terminal : AsyncRequestState → Bool
  | succeeded | failed | cancelled | expired => true
  | queued | claimed | running => false

/-- The states of a request that a worker has. -/
def held : AsyncRequestState → Bool
  | claimed | running => true
  | _ => false

end AsyncRequestState

structure AsyncRequestError where
  code : String
  message : String
  retryable : Bool := false
deriving DecidableEq

structure AsyncRequestSubmission where
  owner : Text
  endpoint : Text
  body : JsonFields
  priority : Int := 0
  idempotencyKey : Option Text := none
  metadata : Option (List (Text × Text)) := none
  deadlineAt : Option Instant := none

structure AsyncRequest where
  id : Text
  owner : Text
  endpoint : Text
  body : JsonFields
  priority : Int
  idempotencyKey : Option Text
  metadata : Option (List (Text × Text))
  state : AsyncRequestState
  attempt : Nat := 0
  createdAt : Instant
  updatedAt : Instant
  deadlineAt : Option Instant
  completedAt : Option Instant
  result : Option JsonFields := none
  error : Option AsyncRequestError := none

inductive StoreError where
  | value (message : String)
  | overflow
  | keyError (id : Text)
  | idempotencyConflict
  | capacity (owner : Text)
  | collision (id : Text)
  | stale (id : Text)
  | invalidTransition (message : String)
  /-- The loop of `claim_next` ran out of fuel: no error of the source. -/
  | unfinished
deriving DecidableEq

/-- `_non_empty` -/
def nonEmpty (value : Text) : Bool := !value.blank && !value.contains 0

namespace AsyncRequest

/-- `validate_terminal_payload` -/
def terminalPayload (r : AsyncRequest) : Except StoreError Unit :=
  if r.state = .succeeded then
    if r.result = none ∨ r.error ≠ none then .error (.value "succeeded requests require result and forbid error")
    else .ok ()
  else if r.state = .failed then
    if r.error = none ∨ r.result ≠ none then .error (.value "failed requests require error and forbid result")
    else .ok ()
  else if r.result ≠ none ∨ r.error ≠ none then
    .error (.value "only succeeded or failed requests can carry terminal payloads")
  else .ok ()

/-- The checks of a record: those of its own fields, then the terminal payload. -/
def validate (r : AsyncRequest) : Except StoreError Unit := do
  if nonEmpty r.id = false then throw (.value "id must be a non-empty string")
  if (r.result.map Json.isFiniteFields).getD true = false then throw (.value "result cannot contain non-finite numbers")
  r.terminalPayload
  if r.state.terminal = true then
    if r.completedAt = none then throw (.value "terminal requests require completed_at")
  else if r.completedAt ≠ none then throw (.value "non-terminal requests cannot set completed_at")

/-- What candidates are ordered by. -/
def rank (r : AsyncRequest) : Int ×ₗ Int ×ₗ Text := toLex (r.priority, toLex (r.createdAt, r.id))

-- the order of the integers that can be computed
instance : Preorder (Int ×ₗ Int ×ₗ Text) :=
  @Prod.Lex.instPreorder Int (Int ×ₗ Text) Int.instLinearOrder.toPreorder
    (@Prod.Lex.instPreorder Int Text Int.instLinearOrder.toPreorder List.instLinearOrder.toPreorder)

end AsyncRequest

structure Lease where
  workerId : Text
  fencingToken : Nat
  claimedAt : Instant
  leaseUntil : Instant
deriving DecidableEq

structure RequestClaim where
  storeId : Text
  request : AsyncRequest
  workerId : Text
  fencingToken : Nat
  claimedAt : Instant
  leaseUntil : Instant

namespace RequestClaim

def requestId (claim : RequestClaim) : Text := claim.request.id

/-- `validate_lease_window` -/
def validate (claim : RequestClaim) : Except StoreError Unit :=
  if claim.leaseUntil ≤ claim.claimedAt then .error (.value "lease_until must be later than claimed_at")
  else if claim.request.state.held = false then
    .error (.value "claims require a claimed or running request snapshot")
  else .ok ()

end RequestClaim

/-- `_lease_expired_error` -/
def leaseExpiredError (expirations : Nat) : AsyncRequestError where
  code := "lease_expired"
  message := s!"the request lost its worker lease {expirations} times without completing"
  retryable := true

/-! ### The store -/

structure RequestStore where
  storeId : Text
  /-- The SHA-256 of the canonical JSON of a submission. -/
  digest : AsyncRequestSubmission → Text
  maxRecordsPerOwner : Nat
  maxLeaseExpirations : Nat
  requests : Dict Text AsyncRequest := ∅
  leases : Dict Text Lease := ∅
  fencingTokens : Dict Text Nat := ∅
  leaseExpirations : Dict Text Nat := ∅
  ownerNotBefore : Dict Text Instant := ∅
  idempotency : Dict (Text × Text) (Text × Text) := ∅

namespace RequestStore

abbrev Op (α : Type) := Effect RequestStore StoreError α

/-- `InMemoryRequestStore(…)` -/
def create (storeId : Text) (digest : AsyncRequestSubmission → Text) (maxRecordsPerOwner maxLeaseExpirations : Int) :
    Except StoreError RequestStore := do
  if nonEmpty storeId = false then throw (.value "store_id must be a non-empty string without NUL")
  if maxRecordsPerOwner ≤ 0 then throw (.value "max_records_per_owner must be positive")
  if maxLeaseExpirations ≤ 0 then throw (.value "max_lease_expirations must be a positive integer")
  return { storeId, digest, maxRecordsPerOwner := maxRecordsPerOwner.toNat, maxLeaseExpirations := maxLeaseExpirations.toNat }

def ofExcept {α : Type} (e : Except StoreError α) : Op α := fun s => (e, s)

def orRaise {α : Type} (error : StoreError) : Option α → Op α
  | some a => pure a
  | none => raise error

/-- `_now` -/
def now (clock : Option Instant) : Op Instant := orRaise (.value "clock must return a timezone-aware datetime") clock

def token (s : RequestStore) (id : Text) : Nat := (s.fencingTokens.lookup id).getD 0

def expirations (s : RequestStore) (id : Text) : Nat := (s.leaseExpirations.lookup id).getD 0

/-- A record takes its place; its lease is dropped and its claims are fenced off. -/
def conclude (s : RequestStore) (r : AsyncRequest) : RequestStore :=
  { s with
    requests := s.requests.insert r.id r
    leases := s.leases.erase r.id
    fencingTokens := s.fencingTokens.modify r.id (· + 1) }

/-- `_expire_request` -/
def expireRequest (now : Instant) (s : RequestStore) (r : AsyncRequest) : RequestStore :=
  s.conclude { r with state := .expired, updatedAt := now, completedAt := some now }

/-- The deadline of a request that is not over has passed. -/
def due (now : Instant) (r : AsyncRequest) : Bool :=
  !r.state.terminal && (r.deadlineAt.any fun deadline => decide (deadline ≤ now))

def records (s : RequestStore) : List AsyncRequest := s.requests.entries.map (·.2)

/-- `_expire_due` -/
def expireDue (now : Instant) (s : RequestStore) : RequestStore :=
  s.records.foldl (fun s r => if due now r = true then s.expireRequest now r else s) s

/-- `_fail_abandoned` -/
def failAbandoned (now : Instant) (expirations : Nat) (s : RequestStore) (r : AsyncRequest) : RequestStore :=
  s.conclude { r with
    state := .failed, updatedAt := now, completedAt := some now, error := some (leaseExpiredError expirations) }

/-- `_load` -/
def load (id : Text) (owner : Option Text) : Op AsyncRequest := do
  let s ← get
  match s.requests.lookup id with
  | none => raise (.keyError id)
  | some r => if owner.any (· ≠ r.owner) = true then raise (.keyError id) else return r

/-- `_lease_until` -/
def leaseUntil (r : AsyncRequest) (now : Instant) (leaseSeconds : ℚ) : Op Instant := do
  let span ← orRaise .overflow (timedelta leaseSeconds)
  let later ← orRaise .overflow (addSpan now span)
  return match r.deadlineAt with
    | some deadline => min later deadline
    | none => later

/-- `_claim` -/
def claim (r : AsyncRequest) (lease : Lease) : Op RequestClaim := do
  let s ← get
  let claim : RequestClaim :=
    { storeId := s.storeId
      request := r
      workerId := lease.workerId
      fencingToken := lease.fencingToken
      claimedAt := lease.claimedAt
      leaseUntil := lease.leaseUntil }
  ofExcept claim.validate
  return claim

/-- `_validate_claim` -/
def validateClaim (claim : RequestClaim) (now : Instant) : Op (AsyncRequest × Lease) := do
  let s ← get
  if claim.storeId ≠ s.storeId then raise (.value "claim belongs to another store_id")
  else
    match s.requests.lookup claim.requestId, s.leases.lookup claim.requestId with
    | some r, some lease =>
      if lease.workerId ≠ claim.workerId ∨ lease.fencingToken ≠ claim.fencingToken ∨ lease.leaseUntil ≤ now ∨
          r.state.held = false then
        raise (.stale claim.requestId)
      else if (r.deadlineAt.any fun deadline => decide (deadline ≤ now)) = true then do
        modify (·.expireRequest now r)
        raise (.stale claim.requestId)
      else return (r, lease)
    | _, _ => raise (.stale claim.requestId)

/-- `_validate_lease_seconds` -/
def validateLeaseSeconds : Option ℚ → Op ℚ
  | none => raise (.value "lease_seconds must be finite and greater than zero")
  | some seconds =>
    if seconds ≤ 0 then raise (.value "lease_seconds must be finite and greater than zero") else pure seconds

/-- `_validate_defer_seconds` -/
def validateDeferSeconds : Option ℚ → Op ℚ
  | none => raise (.value "delay_seconds must be finite and non-negative")
  | some seconds =>
    if seconds < 0 then raise (.value "delay_seconds must be finite and non-negative") else pure seconds

/-- `_fingerprint` -/
def fingerprint (s : RequestStore) (submission : AsyncRequestSubmission) : Text :=
  s.digest { submission with idempotencyKey := none }

/-! ### Submitting -/

/-- The record of a new submission. -/
def AsyncRequestSubmission.request (submission : AsyncRequestSubmission) (id : Text) (now : Instant) : AsyncRequest :=
  let expired := submission.deadlineAt.any fun deadline => decide (deadline ≤ now)
  { id
    owner := submission.owner
    endpoint := submission.endpoint
    body := submission.body
    priority := submission.priority
    idempotencyKey := submission.idempotencyKey
    metadata := submission.metadata
    state := if expired = true then .expired else .queued
    createdAt := now
    updatedAt := now
    deadlineAt := submission.deadlineAt
    completedAt := if expired = true then some now else none }

/-- A submission whose key is not in use. -/
def accept (submission : AsyncRequestSubmission) (id : Text) (now : Instant) : Op AsyncRequest := do
  let s ← get
  if s.maxRecordsPerOwner ≤ (s.records.filter (·.owner = submission.owner)).length then
    raise (.capacity submission.owner)
  else if id ∈ s.requests then raise (.collision id)
  else do
    let request := AsyncRequestSubmission.request submission id now
    ofExcept request.validate
    modify fun s => { s with
      requests := s.requests.insert id request
      fencingTokens := s.fencingTokens.insert id 0
      idempotency :=
        match submission.idempotencyKey with
        | none => s.idempotency
        | some key => s.idempotency.insert (submission.owner, key) (s.fingerprint submission, id) }
    return request

def submit (submission : AsyncRequestSubmission) (id : Text) (clock : Option Instant) : Op AsyncRequest := do
  let now ← now clock
  modify (expireDue now)
  let s ← get
  match submission.idempotencyKey.bind fun key => s.idempotency.lookup (submission.owner, key) with
  | some (fingerprint, existing) =>
    if fingerprint ≠ s.fingerprint submission then raise .idempotencyConflict
    else orRaise (.keyError existing) (s.requests.lookup existing)
  | none => accept submission id now

/-! ### Reading -/

def get (id : Text) (owner : Option Text) (clock : Option Instant) : Op AsyncRequest := do
  let now ← now clock
  modify (expireDue now)
  load id owner

def list (owner : Option Text) (state : Option AsyncRequestState) (limit : Int) (clock : Option Instant) :
    Op (List AsyncRequest) := do
  if limit ≤ 0 then Effect.raise (.value "limit must be greater than zero")
  else do
    let now ← now clock
    Effect.modify (expireDue now)
    let s ← Effect.get
    let requests := s.records.filter fun r => !owner.any (· ≠ r.owner) && !state.any (· ≠ r.state)
    let ordered := requests.mergeSort fun a b => decide (toLex (b.createdAt, b.id) ≤ toLex (a.createdAt, a.id))
    return ordered.take limit.toNat

/-! ### Claiming -/

/-- The requests that a worker may be given, not counting how often they were lost. -/
def candidates (s : RequestStore) (now : Instant) : List AsyncRequest :=
  s.records.filter fun r =>
    decide ((s.ownerNotBefore.lookup r.owner).getD now ≤ now) &&
      (decide (r.state = .queued) ||
        r.state.held && ((s.leases.lookup r.id).any fun lease => decide (lease.leaseUntil ≤ now)))

/-- The loop of `claim_next`: a request that lost its lease too often is failed on the way. -/
def claimLoop (now : Instant) : Nat → Op (Option AsyncRequest)
  | 0 => Effect.raise .unfinished
  | fuel + 1 => do
    let s ← Effect.get
    match (s.candidates now).argmin AsyncRequest.rank with
    | none => return none
    | some r =>
      if r.state = .queued then return some r
      else do
        let expirations := s.expirations r.id + 1
        Effect.modify fun s => { s with leaseExpirations := s.leaseExpirations.insert r.id expirations }
        if expirations < s.maxLeaseExpirations then return some r
        else do
          Effect.modify (·.failAbandoned now expirations r)
          claimLoop now fuel

/-- The request goes to the worker under a new token. -/
def issue (workerId : Text) (leaseSeconds : ℚ) (now : Instant) (r : AsyncRequest) : Op RequestClaim := do
  let s ← Effect.get
  let token := s.token r.id + 1
  let claimed := { r with state := .claimed, attempt := r.attempt + 1, updatedAt := now }
  let leaseUntil ← leaseUntil r now leaseSeconds
  let lease : Lease := { workerId, fencingToken := token, claimedAt := now, leaseUntil }
  Effect.modify fun s => { s with
    requests := s.requests.insert r.id claimed
    leases := s.leases.insert r.id lease
    fencingTokens := s.fencingTokens.insert r.id token }
  claim claimed lease

def claimNext (workerId : Text) (leaseSeconds : Option ℚ) (clock : Option Instant) : Op (Option RequestClaim) := do
  if nonEmpty workerId = false then Effect.raise (.value "worker_id must be a non-empty string without NUL")
  else do
    let leaseSeconds ← validateLeaseSeconds leaseSeconds
    let now ← now clock
    Effect.modify (expireDue now)
    let s ← Effect.get
    let chosen ← claimLoop now (s.records.length + 1)
    match chosen with
    | none => return none
    | some r => do
      let claim ← issue workerId leaseSeconds now r
      return some claim

/-! ### Writing through a claim -/

def renewClaim (c : RequestClaim) (leaseSeconds : Option ℚ) (clock : Option Instant) : Op RequestClaim := do
  let leaseSeconds ← validateLeaseSeconds leaseSeconds
  let now ← now clock
  let (r, lease) ← validateClaim c now
  let leaseUntil ← leaseUntil r now leaseSeconds
  let renewed := { lease with leaseUntil }
  modify fun s => { s with leases := s.leases.insert r.id renewed }
  claim r renewed

/-- The owner's requests wait until a delay has passed. -/
def coolDown (s : RequestStore) (owner : Text) (now later : Instant) : RequestStore :=
  { s with ownerNotBefore := s.ownerNotBefore.insert owner (max ((s.ownerNotBefore.lookup owner).getD now) later) }

/-- The store has changed before the delay of the owner is computed. -/
def defer (c : RequestClaim) (delaySeconds : Option ℚ) (clock : Option Instant) : Op AsyncRequest := do
  let delaySeconds ← validateDeferSeconds delaySeconds
  let now ← now clock
  let (r, _) ← validateClaim c now
  let deferred := { r with state := .queued, updatedAt := now }
  modify (·.conclude deferred)
  if 0 < delaySeconds then do
    let span ← orRaise .overflow (timedelta delaySeconds)
    let later ← orRaise .overflow (addSpan now span)
    modify (·.coolDown r.owner now later)
    return deferred
  else return deferred

def stateText : AsyncRequestState → String
  | .queued => "queued"
  | .claimed => "claimed"
  | .running => "running"
  | .succeeded => "succeeded"
  | .failed => "failed"
  | .cancelled => "cancelled"
  | .expired => "expired"

def markRunning (c : RequestClaim) (clock : Option Instant) : Op AsyncRequest := do
  let now ← now clock
  let (r, _) ← validateClaim c now
  if r.state ≠ .claimed then
    let state := stateText r.state
    raise (.invalidTransition s!"cannot mark {state} request as running")
  else do
    let running := { r with state := .running, updatedAt := now }
    modify fun s => { s with requests := s.requests.insert r.id running }
    return running

/-- `_finish` -/
def finish (c : RequestClaim) (state : AsyncRequestState) (result : Option JsonFields) (error : Option AsyncRequestError)
    (clock : Option Instant) : Op AsyncRequest := do
  let now ← now clock
  let (r, _) ← validateClaim c now
  if r.state ≠ .running then
    let state := stateText r.state
    raise (.invalidTransition s!"cannot finish {state} request; mark it running first")
  else do
    let finished := { r with state, updatedAt := now, completedAt := some now, result, error }
    ofExcept finished.validate
    modify fun s => { s with requests := s.requests.insert r.id finished, leases := s.leases.erase r.id }
    return finished

def succeed (c : RequestClaim) (result : JsonFields) (clock : Option Instant) : Op AsyncRequest :=
  finish c .succeeded (some result) none clock

def fail (c : RequestClaim) (error : AsyncRequestError) (clock : Option Instant) : Op AsyncRequest :=
  finish c .failed none (some error) clock

def cancel (id : Text) (owner : Option Text) (clock : Option Instant) : Op AsyncRequest := do
  let now ← now clock
  modify (expireDue now)
  let r ← load id owner
  if r.state.terminal = true then return r
  else do
    let cancelled := { r with state := .cancelled, updatedAt := now, completedAt := some now }
    modify (·.conclude cancelled)
    return cancelled

/-! ### Retention -/

/-- Forget one record, with the idempotency key that still points to it. -/
def forget (s : RequestStore) (r : AsyncRequest) : RequestStore :=
  { s with
    requests := s.requests.erase r.id
    leases := s.leases.erase r.id
    fencingTokens := s.fencingTokens.erase r.id
    leaseExpirations := s.leaseExpirations.erase r.id
    idempotency :=
      match r.idempotencyKey with
      | none => s.idempotency
      | some key =>
        if (s.idempotency.lookup (r.owner, key)).any (·.2 = r.id) = true then s.idempotency.erase (r.owner, key)
        else s.idempotency }

/-- `_validate_optional_retention_seconds`; the outer `none` is no retention. -/
def validateRetention (name : String) : Option (Option ℚ) → Op (Option ℚ)
  | none => pure none
  | some none => raise (.value s!"{name} must be finite and greater than zero")
  | some (some seconds) =>
    if seconds ≤ 0 then raise (.value s!"{name} must be finite and greater than zero") else pure (some seconds)

/-- `now - timedelta(seconds=retention)` -/
def cutoff (now : Instant) : Option ℚ → Op (Option Instant)
  | none => pure none
  | some seconds => do
    let span ← orRaise .overflow (timedelta seconds)
    let earlier ← orRaise .overflow (addSpan now (-span))
    return some earlier

/-- The oldest records that are over since before the cutoff. -/
def retired (s : RequestStore) (batchSize : Nat) : Option Instant → List AsyncRequest
  | none => []
  | some cutoff =>
    let ended := s.records.filter fun r => r.state.terminal && (r.completedAt.any fun completed => decide (completed ≤ cutoff))
    let ordered := ended.mergeSort fun a b =>
      decide (toLex (a.completedAt.getD 0, a.id) ≤ toLex (b.completedAt.getD 0, b.id))
    ordered.take batchSize

/-- The owners whose delay has passed. -/
def passedDeferrals (s : RequestStore) (batchSize : Nat) (now : Instant) : List Text :=
  let owners := (s.ownerNotBefore.entries.filter fun entry => decide (entry.2 ≤ now)).map (·.1)
  (owners.mergeSort fun a b => decide (a ≤ b)).take batchSize

/-- The batch is forgotten. -/
def retire (s : RequestStore) (retired : List AsyncRequest) (passed : List Text) : RequestStore :=
  let s := retired.foldl forget s
  { s with ownerNotBefore := passed.foldl (fun d owner => d.erase owner) s.ownerNotBefore }

/-- How many requests and deferrals one retention batch removed. -/
structure RetentionResult where
  terminalRequestsDeleted : Nat
  ownerDeferralsDeleted : Nat
  hasMore : Bool
  applied : Bool

def purgeRetainedData (requestRetention auditRetention : Option (Option ℚ)) (batchSize : Int) (dryRun : Bool)
    (clock : Option Instant) : Op RetentionResult := do
  let requestRetention ← validateRetention "request_retention_seconds" requestRetention
  let auditRetention ← validateRetention "audit_retention_seconds" auditRetention
  if batchSize ≤ 0 ∨ 10000 < batchSize then
    Effect.raise (.value "batch_size must be an integer between 1 and 10000")
  else do
    let now ← now clock
    if requestRetention = none ∧ auditRetention = none then
      return { terminalRequestsDeleted := 0, ownerDeferralsDeleted := 0, hasMore := false, applied := !dryRun }
    else do
      let requestCutoff ← cutoff now requestRetention
      let _ ← cutoff now auditRetention
      let s ← Effect.get
      let size := batchSize.toNat
      let retired := s.retired size requestCutoff
      let passed := s.passedDeferrals size now
      let result : RetentionResult :=
        { terminalRequestsDeleted := retired.length
          ownerDeferralsDeleted := passed.length
          hasMore := decide (retired.length = size ∨ passed.length = size)
          applied := !dryRun }
      if dryRun = true then return result
      else do
        Effect.modify (·.retire retired passed)
        return result

/-! ### Runs -/

/-- A call with what it reads from outside. -/
inductive Call where
  | submit (submission : AsyncRequestSubmission) (id : Text)
  | get (id : Text) (owner : Option Text)
  | list (owner : Option Text) (state : Option AsyncRequestState) (limit : Int)
  | claimNext (workerId : Text) (leaseSeconds : Option ℚ)
  | renewClaim (c : RequestClaim) (leaseSeconds : Option ℚ)
  | defer (c : RequestClaim) (delaySeconds : Option ℚ)
  | markRunning (c : RequestClaim)
  | succeed (c : RequestClaim) (result : JsonFields)
  | fail (c : RequestClaim) (error : AsyncRequestError)
  | cancel (id : Text) (owner : Option Text)
  | purgeRetainedData (requestRetention auditRetention : Option (Option ℚ)) (batchSize : Int) (dryRun : Bool)

/-- What a call returned, as far as workers hold on to it. -/
inductive Answer where
  | request (r : AsyncRequest)
  | claim (c : Option RequestClaim)
  | other

def answering {α : Type} (answer : α → Answer) (m : Op α) : Op Answer := do
  let a ← m
  return answer a

def perform (clock : Option Instant) : Call → Op Answer
  | .submit submission id => answering .request (submit submission id clock)
  | .get id owner => answering .request (get id owner clock)
  | .list owner state limit => answering (fun _ => .other) (list owner state limit clock)
  | .claimNext workerId leaseSeconds => answering .claim (claimNext workerId leaseSeconds clock)
  | .renewClaim c leaseSeconds => answering (fun c => .claim (some c)) (renewClaim c leaseSeconds clock)
  | .defer c delaySeconds => answering .request (defer c delaySeconds clock)
  | .markRunning c => answering .request (markRunning c clock)
  | .succeed c result => answering .request (succeed c result clock)
  | .fail c error => answering .request (fail c error clock)
  | .cancel id owner => answering .request (cancel id owner clock)
  | .purgeRetainedData requestRetention auditRetention batchSize dryRun =>
    answering (fun _ => .other) (purgeRetainedData requestRetention auditRetention batchSize dryRun clock)

end RequestStore

end Kairyu
