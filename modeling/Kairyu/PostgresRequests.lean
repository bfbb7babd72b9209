/-
  Kairyu/PostgresRequests.lean
  ============================
  **The durable store in PostgreSQL** (`async_requests/postgres_store.py`).

  The rows are those of the in-memory store.  How often a request lost its lease is not a
  column: it is the number of `reclaim` rows in the audit table, which retention empties.

  Reading guide.

    * A call is one transaction.  What it raises inside is rolled back; a stale claim whose
      deadline has passed commits the expiry first and is raised afterwards.
    * `clock_timestamp()` is the next reading of the clock of the call, one for each time a
      statement writes it.
    * The columns of the audit that no statement reads, the metric tables, and the rows of
      other stores are left out.  A database error is a call that is not made.
-/
import Kairyu.AsyncRequests

namespace Kairyu

open Effect

inductive AuditEvent where
  | claim
  | reclaim
  | renew
  | defer
  | running
  | succeed
  | fail
  | cancel
  | expire
deriving DecidableEq

/-- A row of `async_request_claim_audit`, or of its archive. -/
structure AuditRow where
  sequence : Nat
  requestId : Text
  event : AuditEvent
  recordedAt : Instant
deriving DecidableEq

/-- A row of `async_requests`. -/
structure PgRequest where
  request : AsyncRequest
  intentFingerprint : Text
  claimWorker : Option Text := none
  fencingToken : Nat := 0
  claimedAt : Option Instant := none
  leaseUntil : Option Instant := none

structure PgStore where
  storeId : Text
  /-- The SHA-256 of the canonical JSON of a submission. -/
  digest : AsyncRequestSubmission → Text
  maxRecordsPerOwner : Nat
  maxLeaseExpirations : Nat
  requests : Dict Text PgRequest := ∅
  /-- `async_request_owner_deferrals` -/
  deferrals : Dict Text Instant := ∅
  audit : List AuditRow := []
  archive : List AuditRow := []
  nextSequence : Nat := 0

namespace PgStore

/-- A transaction: the store, and how often it has read the clock. -/
structure Tx where
  store : PgStore
  reads : Nat := 0

abbrev Op (α : Type) := Effect Tx StoreError α

/-- What a transaction reads from the clock. -/
abbrev Clock := Nat → Instant

def clockTimestamp (clock : Clock) : Op Instant := do
  let tx ← get
  modify fun tx => { tx with reads := tx.reads + 1 }
  return clock tx.reads

/-- `with connection.transaction(): …` -/
def transaction {α : Type} (m : Op α) : Effect PgStore StoreError α := fun s =>
  match m { store := s } with
  | (.ok a, tx) => (.ok a, tx.store)
  | (.error e, _) => (.error e, s)

def store : Op PgStore := do
  let tx ← get
  return tx.store

def update (f : PgStore → PgStore) : Op Unit := modify fun tx => { tx with store := f tx.store }

def records (s : PgStore) : List PgRequest := s.requests.entries.map (·.2)

/-- `_audit` -/
def record (s : PgStore) (requestId : Text) (event : AuditEvent) (recordedAt : Instant) : PgStore :=
  { s with
    audit := s.audit ++ [{ sequence := s.nextSequence, requestId, event, recordedAt }]
    nextSequence := s.nextSequence + 1 }

/-- `UPDATE async_requests SET …` of one row, with its audit. -/
def write (s : PgStore) (row : PgRequest) (event : AuditEvent) (recordedAt : Instant) : PgStore :=
  { s with requests := s.requests.insert row.request.id row }.record row.request.id event recordedAt

/-- The row without its claim. -/
def released (row : PgRequest) (request : AsyncRequest) (fencingToken : Nat) : PgRequest :=
  { row with request, claimWorker := none, fencingToken, claimedAt := none, leaseUntil := none }

/-! ### Expiry -/

def overdue (now : Instant) (r : AsyncRequest) : Bool :=
  !r.state.terminal && (r.deadlineAt.any fun deadline => decide (deadline ≤ now))

/-- `_commit_expiry`, and `_expire_locked` before it -/
def expireLocked (now : Instant) (row : PgRequest) : Op AsyncRequest :=
  if overdue now row.request = true then do
    let expired := { row.request with state := .expired, updatedAt := now, completedAt := some now }
    update (·.write (released row expired (row.fencingToken + 1)) .expire now)
    return expired
  else return row.request

/-- `_expire_request_by_id` -/
def expireRequestById (clock : Clock) (requestId : Text) : Op AsyncRequest := do
  let now ← clockTimestamp clock
  let s ← store
  match s.requests.lookup requestId with
  | none => raise (.keyError requestId)
  | some row => expireLocked now row

/-- `_EXPIRY_SWEEP_LIMIT` -/
def expirySweepLimit : Nat := 100

/-- `_sweep_expired` -/
def sweepExpired (clock : Clock) : Op Unit := do
  let seen ← clockTimestamp clock
  let now ← clockTimestamp clock
  let s ← store
  let overdueRows := s.records.filter fun row => overdue seen row.request
  let ordered := overdueRows.insertionSort fun a b =>
    toLex (a.request.deadlineAt.getD 0, a.request.id) ≤ toLex (b.request.deadlineAt.getD 0, b.request.id)
  each (fun row => do let _ ← expireLocked now row) (ordered.take expirySweepLimit)

/-! ### Submitting -/

/-- An accepted submission of a new request. -/
def insertRequest (submission : AsyncRequestSubmission) (request : AsyncRequest) (clock : Clock) : Op AsyncRequest := do
  update fun s => { s with
    requests := s.requests.insert request.id
      { request, intentFingerprint := s.digest { submission with idempotencyKey := none } } }
  if request.state = .expired then do
    let recordedAt ← clockTimestamp clock
    update (·.record request.id .expire recordedAt)
    return request
  else return request

/-- The request that has the key of a submission. -/
def replayOf (s : PgStore) (submission : AsyncRequestSubmission) : Option PgRequest :=
  submission.idempotencyKey.bind fun key =>
    s.records.find? fun row => decide (row.request.owner = submission.owner ∧ row.request.idempotencyKey = some key)

/-- Inside the transaction; `none` is a conflict that is raised after the commit. -/
def submitOnce (submission : AsyncRequestSubmission) (id : Text) (clock : Clock) : Op (Option AsyncRequest) := do
  let now ← clockTimestamp clock
  let s ← store
  match s.replayOf submission with
  | some row => do
    let now ← clockTimestamp clock
    let existing ← expireLocked now row
    return if row.intentFingerprint ≠ s.digest { submission with idempotencyKey := none } then none else some existing
  | none =>
    if s.maxRecordsPerOwner ≤ (s.records.filter (·.request.owner = submission.owner)).length then
      raise (.capacity submission.owner)
    else if id ∈ s.requests then raise (.collision id)
    else do
      let request ← insertRequest submission (RequestStore.AsyncRequestSubmission.request submission id now) clock
      return some request

/-! ### Claiming -/

/-- How often the audit says that the lease of a request was lost. -/
def reclaims (s : PgStore) (requestId : Text) : Nat :=
  s.audit.countP fun row => decide (row.requestId = requestId ∧ row.event = .reclaim)

/-- The `WHERE` clause of `claim_next`. -/
def claimable (s : PgStore) (now : Instant) (row : PgRequest) : Bool :=
  (row.request.deadlineAt.all fun deadline => decide (now < deadline)) &&
    ((s.deferrals.lookup row.request.owner).all fun notBefore => decide (notBefore ≤ now)) &&
    (decide (row.request.state = .queued) ||
      row.request.state.held && (row.leaseUntil.any fun leaseUntil => decide (leaseUntil ≤ now)))

/-- `_fail_if_abandoned` -/
def failIfAbandoned (clock : Clock) (row : PgRequest) : Op Bool := do
  let s ← store
  let expirations := s.reclaims row.request.id + 1
  if expirations < s.maxLeaseExpirations then return false
  else do
    let now ← clockTimestamp clock
    if (row.leaseUntil.any fun leaseUntil => decide (leaseUntil ≤ now)) = false then
      raise (.value "PostgreSQL abandoned-claim failure produced no result")
    else do
      let failed := { row.request with
        state := .failed, updatedAt := now, completedAt := some now, error := some (leaseExpiredError expirations) }
      update (·.write (released row failed (row.fencingToken + 1)) .fail now)
      return true

/-- A row that a worker held, and is failed instead of claimed again. -/
def abandoned (clock : Clock) (row : PgRequest) : Op Bool :=
  if row.request.state.held = true then failIfAbandoned clock row else pure false

/-- `LEAST(now + seconds * interval '1 second', COALESCE(deadline_at, 'infinity'))` -/
def leaseEnd (now : Instant) (seconds : ℚ) (deadlineAt : Option Instant) : Instant :=
  let later := now + roundHalfEven (seconds * 10 ^ 6)
  match deadlineAt with
  | some deadline => min later deadline
  | none => later

/-- The `UPDATE` that claims a row; `none` when the row is no longer claimable. -/
def claimRow (workerId : Text) (leaseSeconds : ℚ) (clock : Clock) (row : PgRequest) : Op (Option RequestClaim) := do
  let claimedAt ← clockTimestamp clock
  let now ← clockTimestamp clock
  let s ← store
  if s.claimable now row = false then return none
  else
    let leaseUntil := leaseEnd claimedAt leaseSeconds row.request.deadlineAt
    -- the table refuses a lease that ends where it begins
    if leaseUntil ≤ claimedAt then raise (.value "lease_until > claimed_at")
    else do
      let request := { row.request with state := .claimed, attempt := row.request.attempt + 1, updatedAt := claimedAt }
      let claimed : PgRequest := { row with
        request, claimWorker := some workerId, fencingToken := row.fencingToken + 1,
        claimedAt := some claimedAt, leaseUntil := some leaseUntil }
      update (·.write claimed (if row.request.state = .queued then .claim else .reclaim) claimedAt)
      return some
        { storeId := s.storeId, request, workerId, fencingToken := row.fencingToken + 1, claimedAt, leaseUntil }

/-- The loop of `claim_next`. -/
def claimLoop (workerId : Text) (leaseSeconds : ℚ) (clock : Clock) : Nat → Op (Option RequestClaim)
  | 0 => raise .unfinished
  | fuel + 1 => do
    let now ← clockTimestamp clock
    let s ← store
    match (s.records.filter fun row => s.claimable now row).argmin (·.request.rank) with
    | none => return none
    | some row => do
      let abandoned ← abandoned clock row
      if abandoned = true then claimLoop workerId leaseSeconds clock fuel
      else do
        let claim ← claimRow workerId leaseSeconds clock row
        match claim with
        | some claim => return some claim
        | none => do
          let _ ← expireRequestById clock row.request.id
          claimLoop workerId leaseSeconds clock fuel

def claimNext (workerId : Text) (leaseSeconds : Option ℚ) (clock : Clock) (fuel : Nat) :
    Effect PgStore StoreError (Option RequestClaim) :=
  if nonEmpty workerId = false then raise (.value "worker_id must be a non-empty string")
  else
    match leaseSeconds with
    | none => raise (.value "lease_seconds must be finite and greater than zero")
    | some seconds =>
      if seconds ≤ 0 then raise (.value "lease_seconds must be finite and greater than zero")
      else transaction do
        sweepExpired clock
        claimLoop workerId seconds clock fuel

/-! ### Writing through a claim -/

/-- `_load_claim`; `none` when the request has just expired. -/
def loadClaim (clock : Clock) (claim : RequestClaim) : Op (Option (PgRequest × Instant)) := do
  let now ← clockTimestamp clock
  let s ← store
  match s.requests.lookup claim.requestId with
  | none => raise (.stale claim.requestId)
  | some row =>
    if overdue now row.request = true then do
      let _ ← expireLocked now row
      return none
    else if row.request.state = .expired then return none
    else if row.request.state.held = false ∨ row.claimWorker ≠ some claim.workerId ∨
        row.fencingToken ≠ claim.fencingToken ∨ row.claimedAt = none ∨
        (row.leaseUntil.all fun leaseUntil => decide (leaseUntil ≤ now)) = true then
      raise (.stale claim.requestId)
    else return some (row, now)

/-- The claim is still good when the row is written. -/
def stillHeld (now : Instant) (row : PgRequest) : Bool :=
  (row.leaseUntil.any fun leaseUntil => decide (now < leaseUntil)) &&
    (row.request.deadlineAt.all fun deadline => decide (now < deadline))

/-- What a write through a claim does inside its transaction; `none` is stale after the commit. -/
abbrev Written := Op (Option AsyncRequest)

/-- The `UPDATE` finds no row: the deadline may have passed in between. -/
def lateExpiry (clock : Clock) (claim : RequestClaim) : Written := do
  let _ ← expireRequestById clock claim.requestId
  return none

/-- The rest of a write, once its claim is loaded. -/
def throughClaim (clock : Clock) (claim : RequestClaim) (rest : PgRequest → Instant → Written) : Written := do
  let loaded ← loadClaim clock claim
  match loaded with
  | none => return none
  | some (row, now) => rest row now

def renewOnce (claim : RequestClaim) (leaseSeconds : ℚ) (clock : Clock) : Written :=
  throughClaim clock claim fun row _ => do
    let now ← clockTimestamp clock
    if stillHeld now row = false then lateExpiry clock claim
    else
      let leaseUntil := leaseEnd now leaseSeconds row.request.deadlineAt
      if (row.claimedAt.all fun claimedAt => decide (leaseUntil ≤ claimedAt)) = true then
        raise (.value "lease_until > claimed_at")
      else do
        let request := { row.request with updatedAt := now }
        update (·.write { row with request, leaseUntil := some leaseUntil } .renew now)
        return some request

def markRunningOnce (claim : RequestClaim) (clock : Clock) : Written :=
  throughClaim clock claim fun row _ =>
    if row.request.state ≠ .claimed then
      let state := RequestStore.stateText row.request.state
      raise (.invalidTransition s!"cannot mark {state} request as running")
    else do
      let now ← clockTimestamp clock
      if stillHeld now row = false then lateExpiry clock claim
      else do
        let request := { row.request with state := .running, updatedAt := now }
        update (·.write { row with request } .running now)
        return some request

/-- `GREATEST(not_before, now + delay)` -/
def coolDown (s : PgStore) (owner : Text) (notBefore : Instant) : PgStore :=
  { s with deferrals := s.deferrals.insert owner (((s.deferrals.lookup owner).map (max · notBefore)).getD notBefore) }

def deferOnce (claim : RequestClaim) (delaySeconds : ℚ) (clock : Clock) : Written :=
  throughClaim clock claim fun row now => do
    let request := { row.request with state := .queued, updatedAt := now }
    let notBefore := now + roundHalfEven (delaySeconds * 10 ^ 6)
    update fun s => (if 0 < delaySeconds then s.coolDown row.request.owner notBefore else s)
    update (·.write (released row request (row.fencingToken + 1)) .defer now)
    return some request

def finishOnce (claim : RequestClaim) (state : AsyncRequestState) (result : Option JsonFields)
    (error : Option AsyncRequestError) (clock : Clock) : Written :=
  throughClaim clock claim fun row now =>
    if row.request.state ≠ .running then
      let state := RequestStore.stateText row.request.state
      raise (.invalidTransition s!"cannot finish {state} request; mark it running first")
    else
      match AsyncRequest.validate
        { row.request with state, updatedAt := now, completedAt := some now, result, error } with
      | .error e => raise e
      | .ok () => do
        let now ← clockTimestamp clock
        if stillHeld now row = false then lateExpiry clock claim
        else do
          let request := { row.request with state, updatedAt := now, completedAt := some now, result, error }
          update (·.write (released row request row.fencingToken) (if state = .succeeded then .succeed else .fail) now)
          return some request

def cancelOnce (requestId : Text) (owner : Option Text) (clock : Clock) : Op AsyncRequest := do
  let now ← clockTimestamp clock
  let s ← store
  match s.requests.lookup requestId with
  | none => raise (.keyError requestId)
  | some row =>
    if owner.any (· ≠ row.request.owner) = true then raise (.keyError requestId)
    else if overdue now row.request = true then expireLocked now row
    else if row.request.state.terminal = true then return row.request
    else do
      let cancelled := { row.request with state := .cancelled, updatedAt := now, completedAt := some now }
      update (·.write (released row cancelled (row.fencingToken + 1)) .cancel now)
      return cancelled

/-! ### Retention -/

/-- The oldest rows of an audit table up to a cutoff. -/
def expiredAudit (rows : List AuditRow) (cutoff : Instant) (count : Nat) : List Nat :=
  let old := rows.filter fun row => decide (row.recordedAt ≤ cutoff)
  let ordered := old.insertionSort fun a b => toLex (a.recordedAt, a.sequence) ≤ toLex (b.recordedAt, b.sequence)
  (ordered.take count).map (·.sequence)

/-- The audit retention of `_apply_retention_batch`: the archive first. -/
def dropAudit (s : PgStore) (cutoff : Instant) (batchSize : Nat) : PgStore :=
  let archived := expiredAudit s.archive cutoff batchSize
  let live := expiredAudit s.audit cutoff (batchSize - archived.length)
  { s with
    archive := s.archive.filter (·.sequence ∉ archived)
    audit := s.audit.filter (·.sequence ∉ live) }

/-- The requests that are over since before a cutoff. -/
def retired (s : PgStore) (batchSize : Nat) (cutoff : Instant) : List Text :=
  let ended := s.records.filter fun row =>
    row.request.state.terminal && (row.request.completedAt.any fun completed => decide (completed ≤ cutoff))
  let ordered := ended.insertionSort fun a b =>
    toLex (a.request.completedAt.getD 0, a.request.id) ≤ toLex (b.request.completedAt.getD 0, b.request.id)
  (ordered.take batchSize).map (·.request.id)

/-- The audit of retired requests goes to the archive. -/
def archiveAudit (s : PgStore) (retired : List Text) (auditCutoff : Option Instant) (batchSize : Nat) : PgStore :=
  let chosen := s.audit.filter fun row =>
    decide (row.requestId ∈ retired) && (auditCutoff.all fun cutoff => decide (cutoff < row.recordedAt))
  let ordered := (chosen.insertionSort fun a b => a.sequence ≤ b.sequence).take batchSize
  { s with
    archive := s.archive ++ ordered
    audit := s.audit.filter fun row => row.sequence ∉ ordered.map (·.sequence) }

/-- `DELETE FROM async_requests` of retired rows without audit. -/
def deleteRetired (s : PgStore) (retired : List Text) : PgStore :=
  let gone := retired.filter fun id => decide (∀ row ∈ s.audit, row.requestId ≠ id)
  { s with requests := gone.foldl (fun d id => d.erase id) s.requests }

/-- `_apply_retention_batch` -/
def applyRetention (s : PgStore) (now : Instant) (requestCutoff auditCutoff : Option Instant) (batchSize : Nat) : PgStore :=
  let retired := (requestCutoff.map (s.retired batchSize)).getD []
  let s := (auditCutoff.map fun cutoff => s.dropAudit cutoff batchSize).getD s
  let s := (s.archiveAudit retired auditCutoff batchSize).deleteRetired retired
  let passed := (s.deferrals.entries.filter fun entry => decide (entry.2 ≤ now)).insertionSort fun a b =>
    toLex (a.2, a.1) ≤ toLex (b.2, b.1)
  { s with deferrals := (passed.take batchSize).foldl (fun d entry => d.erase entry.1) s.deferrals }

/-- `now - seconds * interval '1 second'` -/
def cutoff (now : Instant) (retention : Option ℚ) : Option Instant :=
  retention.map fun seconds => now - roundHalfEven (seconds * 10 ^ 6)

/-- `purge_retained_data`, with arguments that pass its checks. -/
def purgeRetainedData (requestRetention auditRetention : Option ℚ) (batchSize : Nat) (dryRun : Bool) (now : Instant)
    (s : PgStore) : PgStore :=
  if dryRun = true ∨ requestRetention = none ∧ auditRetention = none then s
  else s.applyRetention now (cutoff now requestRetention) (cutoff now auditRetention) batchSize

/-! ### Runs -/

/-- A call that the database carries out. -/
inductive Call where
  | submit (submission : AsyncRequestSubmission) (id : Text)
  | claimNext (workerId : Text) (leaseSeconds : Option ℚ) (fuel : Nat)
  | renewClaim (claim : RequestClaim) (leaseSeconds : ℚ)
  | defer (claim : RequestClaim) (delaySeconds : ℚ)
  | markRunning (claim : RequestClaim)
  | succeed (claim : RequestClaim) (result : JsonFields)
  | fail (claim : RequestClaim) (error : AsyncRequestError)
  | cancel (requestId : Text) (owner : Option Text)
  | purgeRetainedData (requestRetention auditRetention : Option ℚ) (batchSize : Nat) (dryRun : Bool)

/-- What a caller learns: a claim, or that a write was stored. -/
inductive Answer where
  | claimed (claim : Option RequestClaim)
  | written (stored : Bool)

/-- A write through a claim: `None` from the transaction is a stale claim. -/
def answerWrite (m : Written) : Effect PgStore StoreError Answer := do
  let stored ← transaction m
  return .written stored.isSome

def perform (clock : Clock) : Call → Effect PgStore StoreError Answer
  | .submit submission id => answerWrite (submitOnce submission id clock)
  | .claimNext workerId leaseSeconds fuel => do
    let claim ← claimNext workerId leaseSeconds clock fuel
    return .claimed claim
  | .renewClaim claim leaseSeconds => answerWrite (renewOnce claim leaseSeconds clock)
  | .defer claim delaySeconds => answerWrite (deferOnce claim delaySeconds clock)
  | .markRunning claim => answerWrite (markRunningOnce claim clock)
  | .succeed claim result => answerWrite (finishOnce claim .succeeded (some result) none clock)
  | .fail claim error => answerWrite (finishOnce claim .failed none (some error) clock)
  | .cancel requestId owner => answerWrite do
    let request ← cancelOnce requestId owner clock
    return some request
  | .purgeRetainedData requestRetention auditRetention batchSize dryRun => do
    modify (purgeRetainedData requestRetention auditRetention batchSize dryRun (clock 0))
    return .written true

end PgStore

end Kairyu
