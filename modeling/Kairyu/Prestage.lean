/-
  Kairyu/Prestage.lean
  ====================
  **Pre-staging of models on a node** (`runners/prestage.py`): the placement records, the pins
  of the cache index and the executor that ties them together.

  A call of the executor is a sequence of calls of the store and the index, the ones about
  pins under one lock.  A step of the model is one such call; calls of other threads that do not
  take the lock come in between, and any call may fail, before or after it took effect.  The
  compaction of released records is not among the calls, so there are no high-water marks; a
  command id is any digest; and what the store checks again of the executor's checks is left out.
-/
import Kairyu.JsonRoundTrip
import Kairyu.Dict
import Kairyu.Clock

namespace Kairyu

/-! ### Pin owners -/

/-- `_pin_owner_prefix` -/
def pinOwnerStem (deploymentId placementId : Text) : Text :=
  Text.of "prestage/" ++ deploymentId ++ [cp '/'] ++ placementId ++ [cp '/']

def prestagePinOwner (deploymentId placementId : Text) (commandGeneration : Nat) : Text :=
  pinOwnerStem deploymentId placementId ++ Json.writeNatural commandGeneration

/-- The decimal digits of Unicode, as `str.isdecimal` and `int` know them. -/
structure DecimalDigits where
  value : CodePoint → Option Nat
  ascii : ∀ c, Json.isDigit c = true → value c = some (c.val - 48)
  slash : value (cp '/') = none

namespace DecimalDigits

variable (digits : DecimalDigits)

def isdecimal (t : Text) : Bool := decide (t ≠ []) && t.all fun c => (digits.value c).isSome

def int (t : Text) : Nat := t.foldl (fun n c => n * 10 + (digits.value c).getD 0) 0

/-- An owner that `_unpin_superseded_generations` removes. -/
def supersedes (stem : Text) (generation : Nat) (owner : Text) : Bool :=
  decide (stem <+: owner) && digits.isdecimal (owner.drop stem.length) &&
    decide (digits.int (owner.drop stem.length) < generation)

end DecimalDigits

/-! ### Commands -/

/-- `_text` -/
def validText (maxLength : Nat) (t : Text) : Bool := !t.blank && !t.contains 0 && decide (t.length ≤ maxLength)

/-- `_digest` -/
def validDigest (t : Text) : Bool :=
  decide (t.length = 64) && t.all fun c => Json.isDigit c || decide (97 ≤ c.val ∧ c.val ≤ 102)

structure RunnerWriterAuthority where
  electionId : Text
  holderId : Text
  fencingToken : Nat
  validatedAt : Instant
  leaseUntil : Instant
deriving DecidableEq

inductive PrestageAction where
  | ensure
  | release
deriving DecidableEq

structure NodeModelPrestageCommand where
  action : PrestageAction
  commandId : Text
  commandGeneration : Nat
  decisionId : Text
  decisionFingerprint : Text
  targetId : Text
  targetRevision : Nat
  deploymentId : Text
  placementBindingId : Text
  snapshotId : Text
  cacheRevision : Nat
  placementId : Text
  nodeId : Text
  resourceFlavor : Text
  profileId : Text
  compatibilityApprovalId : Text
  modelId : Text
  modelRevision : Text
  manifestDigest : Text
  pinOwner : Text
  authority : RunnerWriterAuthority
  issuedAt : Instant
  expiresAt : Instant
deriving DecidableEq

namespace NodeModelPrestageCommand

/-- The validators of a command. -/
def Valid (c : NodeModelPrestageCommand) : Prop :=
  (∀ t ∈ [c.decisionId, c.targetId, c.deploymentId, c.placementBindingId, c.snapshotId, c.placementId, c.profileId,
      c.compatibilityApprovalId, c.modelId, c.modelRevision, c.pinOwner], validText 255 t = true) ∧
    (∀ t ∈ [c.nodeId, c.resourceFlavor], validText 253 t = true) ∧
    (∀ t ∈ [c.commandId, c.decisionFingerprint, c.manifestDigest], validDigest t = true) ∧
    (∀ n ∈ [c.commandGeneration, c.targetRevision, c.cacheRevision], 1 ≤ n ∧ n < 2 ^ 63) ∧
    c.authority.validatedAt ≤ c.issuedAt ∧ c.issuedAt < c.authority.leaseUntil ∧
    c.issuedAt < c.expiresAt ∧ c.expiresAt ≤ c.authority.leaseUntil

instance (c : NodeModelPrestageCommand) : Decidable c.Valid := inferInstanceAs (Decidable (_ ∧ _))

/-- `_RELEASE_IDENTITY_FIELDS` -/
def releaseIdentity (c : NodeModelPrestageCommand) : List Text :=
  [c.targetId, c.deploymentId, c.placementBindingId, c.placementId, c.nodeId, c.resourceFlavor, c.profileId,
    c.compatibilityApprovalId, c.modelId, c.modelRevision, c.manifestDigest, c.pinOwner]

/-- In its execution window. -/
def active (c : NodeModelPrestageCommand) (now : Instant) : Bool := decide (c.issuedAt ≤ now ∧ now < c.expiresAt)

def stem (c : NodeModelPrestageCommand) : Text := pinOwnerStem c.deploymentId c.placementId

end NodeModelPrestageCommand

inductive PrestageError where
  | conflict (message : String)
  | expired
  | capacity
  | invalid (message : String)
  | index (message : String)
deriving DecidableEq

/-! ### Placement records -/

inductive ModelCachePlacementState where
  | absent
  | filling
  | ready
  | failed
deriving DecidableEq

structure NodeModelCacheFillResult where
  deploymentId : Text
  manifestDigest : Text
  artifactPath : Text
deriving DecidableEq

structure NodeModelPrestageRecord where
  command : NodeModelPrestageCommand
  state : ModelCachePlacementState
  attempt : Nat
  claimId : Option Text := none
  failure : Option Text := none
  fillResult : Option NodeModelCacheFillResult := none
  pinRecordGeneration : Option Nat := none
  updatedAt : Instant
deriving DecidableEq

namespace PrestageTransitions

/-- `_validate_successor` -/
def validateSuccessor (previous command : NodeModelPrestageCommand) : Except PrestageError Unit :=
  if command.commandGeneration ≤ previous.commandGeneration then .error (.conflict "command generation did not advance")
  else if command.authority.electionId ≠ previous.authority.electionId then
    .error (.conflict "leader election identity changed")
  else if command.authority.fencingToken < previous.authority.fencingToken then
    .error (.conflict "leader fencing token regressed")
  else if command.authority.fencingToken = previous.authority.fencingToken ∧
      command.authority.holderId ≠ previous.authority.holderId then
    .error (.conflict "leader holder changed without a new fence")
  else if command.targetId = previous.targetId ∧ command.targetRevision < previous.targetRevision then
    .error (.conflict "target revision regressed")
  else .ok ()

def requireMonotonicTime (existing : NodeModelPrestageRecord) (now : Instant) : Except PrestageError Unit :=
  if now < existing.updatedAt then .error (.conflict "pre-stage record time regressed") else .ok ()

def requireActive (c : NodeModelPrestageCommand) (now : Instant) : Except PrestageError Unit :=
  if c.active now = true then .ok () else .error .expired

/-- A claim of a placement. -/
def filling (c : NodeModelPrestageCommand) (attempt : Nat) (claimId : Text) (now : Instant) : NodeModelPrestageRecord :=
  { command := c, state := .filling, attempt, claimId := some claimId, updatedAt := now }

/-- `claim`, when the placement has a record of the same command -/
def reclaim (existing : NodeModelPrestageRecord) (c : NodeModelPrestageCommand) (claimId : Text) (now : Instant) :
    Except PrestageError NodeModelPrestageRecord :=
  if existing.command ≠ c then .error (.conflict "command ID payload conflict")
  else
    match existing.state with
    | .ready => .ok existing
    | .filling =>
      if existing.claimId ≠ some claimId then .error (.conflict "placement is claimed by another attempt") else .ok existing
    | .absent => .error (.conflict "released command cannot be reactivated")
    | .failed => do
      requireActive c now
      requireMonotonicTime existing now
      return filling c (existing.attempt + 1) claimId now

/-- `claim`, when the placement has a record of another command -/
def replace (existing : NodeModelPrestageRecord) (c : NodeModelPrestageCommand) (claimId : Text) (now : Instant) :
    Except PrestageError NodeModelPrestageRecord := do
  requireActive c now
  if existing.state ≠ .absent then .error (.conflict "replacement ensure requires a released absent placement")
  else do
    validateSuccessor existing.command c
    requireMonotonicTime existing now
    return filling c 1 claimId now

def claim (existing : Option NodeModelPrestageRecord) (recordCount maxPlacements : Nat) (c : NodeModelPrestageCommand)
    (claimId : Text) (now : Instant) : Except PrestageError NodeModelPrestageRecord :=
  if c.action ≠ .ensure then .error (.conflict "release command cannot claim a cache fill")
  else if validDigest claimId = false then .error (.invalid "claim_id must be a lowercase SHA-256 digest")
  else
    match existing with
    | none =>
      if maxPlacements ≤ recordCount then .error .capacity
      else do
        requireActive c now
        return filling c 1 claimId now
    | some existing =>
      if existing.command.commandId = c.commandId then reclaim existing c claimId now else replace existing c claimId now

/-- `_require_claim`, and `_require_current_claim` of the executor -/
def claimed (existing : Option NodeModelPrestageRecord) (c : NodeModelPrestageCommand) (claimId : Text) :
    Except PrestageError NodeModelPrestageRecord :=
  match existing with
  | none => .error (.conflict "pre-stage completion claim is stale")
  | some existing =>
    if existing.command ≠ c ∨ existing.state ≠ .filling ∨ existing.claimId ≠ some claimId then
      .error (.conflict "pre-stage completion claim is stale")
    else .ok existing

def complete (existing : Option NodeModelPrestageRecord) (c : NodeModelPrestageCommand) (claimId : Text)
    (fill : NodeModelCacheFillResult) (generation : Nat) (now : Instant) : Except PrestageError NodeModelPrestageRecord := do
  let existing ← claimed existing c claimId
  requireMonotonicTime existing now
  if fill.manifestDigest ≠ c.manifestDigest ∨ fill.deploymentId ≠ c.deploymentId then
    .error (.invalid "fill evidence must match the command artifact")
  else
    return { command := c, state := .ready, attempt := existing.attempt, fillResult := some fill,
             pinRecordGeneration := some generation, updatedAt := now }

def fail (existing : Option NodeModelPrestageRecord) (c : NodeModelPrestageCommand) (claimId failure : Text)
    (now : Instant) : Except PrestageError NodeModelPrestageRecord := do
  if validText 1024 failure = false then .error (.invalid "failure must be a non-empty string without NUL")
  else do
    let existing ← claimed existing c claimId
    requireMonotonicTime existing now
    return { command := c, state := .failed, attempt := existing.attempt, failure := some failure, updatedAt := now }

def release (existing : Option NodeModelPrestageRecord) (c : NodeModelPrestageCommand) (now : Instant) :
    Except PrestageError NodeModelPrestageRecord := do
  requireActive c now
  match existing with
  | none => .error (.conflict "release has no accepted placement")
  | some existing =>
    if existing.command.commandId = c.commandId then
      if existing.command ≠ c then .error (.conflict "release command ID payload conflict")
      else if existing.state ≠ .absent then .error (.conflict "release replay has inconsistent state")
      else .ok existing
    else if existing.state = .filling then .error (.conflict "cannot release an active fill claim")
    else do
      validateSuccessor existing.command c
      if existing.command.releaseIdentity ≠ c.releaseIdentity then
        .error (.conflict "release identity does not match pinned placement")
      else do
        requireMonotonicTime existing now
        return { command := c, state := .absent, attempt := existing.attempt, updatedAt := now }

end PrestageTransitions

open PrestageTransitions

/-! ### The cache index -/

/-- A row of the index with its pins, by owner. -/
structure CacheEntry where
  modelId : Text
  modelRevision : Text
  artifactPath : Text
  verified : Bool
  generation : Nat
  pins : Dict Text Text
deriving DecidableEq

abbrev CacheIndex := Dict Text CacheEntry

namespace CacheIndex

def pin (index : CacheIndex) (digest owner reason : Text) : Except PrestageError (CacheEntry × CacheIndex) :=
  if validText 255 owner = false then .error (.invalid "pin owner")
  else
    match index.lookup digest with
    | none => .error (.index "cache index entry does not exist")
    | some entry =>
      if entry.verified = false then .error (.index "unverified residency cannot be pinned")
      else
        let pinned := if entry.pins.lookup owner = some reason then entry
          else { entry with pins := entry.pins.insert owner reason, generation := entry.generation + 1 }
        .ok (pinned, index.insert digest pinned)

def unpin (index : CacheIndex) (digest owner : Text) : Except PrestageError CacheIndex :=
  if validText 255 owner = false then .error (.invalid "pin owner")
  else
    match index.lookup digest with
    | none => .error (.index "cache index entry does not exist")
    | some entry =>
      if (entry.pins.lookup owner).isSome = true then
        .ok (index.insert digest { entry with pins := entry.pins.erase owner, generation := entry.generation + 1 })
      else .ok index

/-- The artifact is pinned by the owner. -/
def Pinned (index : CacheIndex) (digest owner : Text) : Prop := ∃ entry, index.lookup digest = some entry ∧ owner ∈ entry.pins

end CacheIndex

/-! ### The executor -/

/-- `ModelArtifactAdmissionRequest`, as far as it is compared with a command -/
structure ArtifactRequest where
  deploymentId : Text
  manifestDigest : Text
  modelId : Text
  modelRevision : Text
  gpuProfile : Text

/-- `_validate_artifact_binding` -/
def ArtifactRequest.bound (r : ArtifactRequest) (c : NodeModelPrestageCommand) : Bool :=
  decide ((r.deploymentId, r.manifestDigest, r.modelId, r.modelRevision, r.gpuProfile) =
    (c.deploymentId, c.manifestDigest, c.modelId, c.modelRevision, c.profileId))

/-- A call fails without its effect, or after it. -/
inductive Fault where
  | before
  | after

/-- What a call leaves and what its caller learns. -/
def attempt {α σ : Type} (fault : Option Fault) (s : σ) (result : Except PrestageError (α × σ)) : Option α × σ :=
  match fault, result with
  | none, .ok (a, s') => (some a, s')
  | some .after, .ok (_, s') => (none, s')
  | _, _ => (none, s)

/-- An `execute` that does not hold the pin lock. -/
inductive PendingExecute where
  | filling (c : NodeModelPrestageCommand) (claimId : Text)
  | filled (c : NodeModelPrestageCommand) (claimId : Text) (fill : NodeModelCacheFillResult)
  | failing (c : NodeModelPrestageCommand) (claimId : Text)

def PendingExecute.command : PendingExecute → NodeModelPrestageCommand
  | .filling c _ | .filled c _ _ | .failing c _ => c

/-- Where the holder of the pin lock is. -/
inductive PinSection where
  | checking (c : NodeModelPrestageCommand) (claimId : Text) (fill : NodeModelCacheFillResult)
  | superseding (c : NodeModelPrestageCommand) (claimId : Text) (fill : NodeModelCacheFillResult) (owners : List Text)
  | completing (c : NodeModelPrestageCommand) (claimId : Text) (fill : NodeModelCacheFillResult) (generation : Nat)
  | releasing (c : NodeModelPrestageCommand) (cached : Bool)
  | unpinning (c : NodeModelPrestageCommand)

def PinSection.command : PinSection → NodeModelPrestageCommand
  | .checking c _ _ | .superseding c _ _ _ | .completing c _ _ _ | .releasing c _ | .unpinning c => c

structure PrestageState where
  records : Dict Text NodeModelPrestageRecord := ∅
  index : CacheIndex
  pending : List PendingExecute := []
  holder : Option PinSection := none
  /-- the releases that returned -/
  released : List NodeModelPrestageCommand := []

structure NodeModelPrestageExecutor where
  nodeId : Text
  maxPlacements : Nat
  digits : DecimalDigits

inductive PrestageEvent where
  /-- `execute` until its claim -/
  | execute (c : NodeModelPrestageCommand) (claimId : Text) (request : ArtifactRequest) (now : Instant) (fault : Option Fault)
  /-- a fill returns, or raises -/
  | fill (i : Nat) (result : Option NodeModelCacheFillResult)
  /-- an `execute` takes the pin lock -/
  | enter (i : Nat)
  /-- `release` until it has the pin lock and has read the index -/
  | release (c : NodeModelPrestageCommand)
  /-- the next call of the holder of the pin lock -/
  | advance (now : Instant) (fault : Option Fault)
  /-- `store.fail` of an `execute` that raises -/
  | fail (i : Nat) (failure : Text) (now : Instant) (fault : Option Fault)
  /-- the index changes, its pins apart -/
  | residency (digest : Text) (entry : Option CacheEntry)

/-- The command that an event brings. -/
def PrestageEvent.command : PrestageEvent → Option NodeModelPrestageCommand
  | .execute c _ _ _ _ | .release c => some c
  | _ => none

namespace PrestageState

/-- The section ends with an exception of `execute`. -/
def raise (s : PrestageState) (c : NodeModelPrestageCommand) (claimId : Text) : PrestageState :=
  { s with holder := none, pending := .failing c claimId :: s.pending }

/-- `release` returns. -/
def finish (s : PrestageState) (c : NodeModelPrestageCommand) : PrestageState :=
  { s with holder := none, released := c :: s.released }

/-- A store call that writes the record of a placement. -/
def write (s : PrestageState) (placementId : Text) (record : Except PrestageError NodeModelPrestageRecord) :
    Except PrestageError (NodeModelPrestageRecord × PrestageState) :=
  record.map fun record => (record, { s with records := s.records.insert placementId record })

def unpin (s : PrestageState) (digest owner : Text) : Except PrestageError (Unit × PrestageState) :=
  (s.index.unpin digest owner).map fun index => ((), { s with index })

def pin (s : PrestageState) (digest owner reason : Text) : Except PrestageError (CacheEntry × PrestageState) :=
  (s.index.pin digest owner reason).map fun pinned => (pinned.1, { s with index := pinned.2 })

end PrestageState

namespace NodeModelPrestageExecutor

variable (x : NodeModelPrestageExecutor)

/-- The owners that `_unpin_superseded_generations` goes through. -/
def superseded (index : CacheIndex) (c : NodeModelPrestageCommand) : List Text :=
  match index.lookup c.manifestDigest with
  | none => []
  | some entry => entry.pins.keys.filter (x.digits.supersedes c.stem c.commandGeneration)

/-- `_validate_pinned` -/
def validatePinned (c : NodeModelPrestageCommand) (entry : CacheEntry) (fill : NodeModelCacheFillResult) : Bool :=
  entry.verified && decide (entry.modelId = c.modelId) && decide (entry.modelRevision = c.modelRevision) &&
    decide (entry.artifactPath = fill.artifactPath) && (entry.pins.lookup c.pinOwner).isSome

/-- The next call under the pin lock. -/
def advance (section' : PinSection) (now : Instant) (fault : Option Fault) (s : PrestageState) : PrestageState :=
  match section' with
  | .checking c claimId fill =>
    match fault, claimed (s.records.lookup c.placementId) c claimId with
    | none, .ok _ => { s with holder := some (.superseding c claimId fill (x.superseded s.index c)) }
    | _, _ => s.raise c claimId
  | .superseding c claimId fill (owner :: owners) =>
    match attempt fault s (s.unpin c.manifestDigest owner) with
    | (some _, s) => { s with holder := some (.superseding c claimId fill owners) }
    | (none, s) => s.raise c claimId
  | .superseding c claimId fill [] =>
    match attempt fault s (s.pin c.manifestDigest c.pinOwner (Text.of "prestage:" ++ c.commandId)) with
    | (some entry, s) =>
      if validatePinned c entry fill = true then { s with holder := some (.completing c claimId fill entry.generation) }
      else s.raise c claimId
    | (none, s) => s.raise c claimId
  | .completing c claimId fill generation =>
    match attempt fault s (s.write c.placementId
        (complete (s.records.lookup c.placementId) c claimId fill generation now)) with
    | (some _, s) => { s with holder := none }
    | (none, s) => s.raise c claimId
  | .releasing c cached =>
    match attempt fault s (s.write c.placementId (release (s.records.lookup c.placementId) c now)) with
    | (some _, s) => if cached = true then { s with holder := some (.unpinning c) } else s.finish c
    | (none, s) => { s with holder := none }
  | .unpinning c =>
    match attempt fault s (s.unpin c.manifestDigest c.pinOwner) with
    | (some _, s) => s.finish c
    | (none, s) => { s with holder := none }

/-- A fill has returned. -/
def filled (c : NodeModelPrestageCommand) (claimId : Text) (result : Option NodeModelCacheFillResult) : PendingExecute :=
  match result with
  | some fill => if fill.manifestDigest = c.manifestDigest then .filled c claimId fill else .failing c claimId
  | none => .failing c claimId

/-- `none`: the event cannot happen now. -/
def step (event : PrestageEvent) (s : PrestageState) : Option PrestageState :=
  match event with
  | .execute c claimId request now fault =>
    if ¬ c.Valid ∨ c.action ≠ .ensure ∨ c.nodeId ≠ x.nodeId ∨ request.bound c = false then some s
    else
      match attempt fault s (s.write c.placementId (claim (s.records.lookup c.placementId)
          s.records.entries.length x.maxPlacements c claimId now)) with
      | (some record, s) =>
        if record.state = .ready then some s else some { s with pending := .filling c claimId :: s.pending }
      | (none, s) => some s
  | .fill i result =>
    match s.pending[i]? with
    | some (.filling c claimId) => some { s with pending := s.pending.set i (filled c claimId result) }
    | _ => none
  | .enter i =>
    match s.pending[i]?, s.holder with
    | some (.filled c claimId fill), none =>
      some { s with pending := s.pending.eraseIdx i, holder := some (.checking c claimId fill) }
    | _, _ => none
  | .release c =>
    if ¬ c.Valid ∨ c.action ≠ .release ∨ c.nodeId ≠ x.nodeId then some s
    else
      match s.holder with
      | none => some { s with holder := some (.releasing c (s.index.lookup c.manifestDigest).isSome) }
      | some _ => none
  | .advance now fault => s.holder.map fun section' => x.advance section' now fault s
  | .fail i failure now fault =>
    match s.pending[i]? with
    | some (.failing c claimId) =>
      some { (attempt fault s (s.write c.placementId
        (fail (s.records.lookup c.placementId) c claimId failure now))).2 with
        pending := s.pending.eraseIdx i }
    | _ => none
  | .residency digest entry =>
    if (entry.map (·.pins)).getD ∅ ≠ ((s.index.lookup digest).map (·.pins)).getD ∅ then none
    else some { s with index := entry.elim (s.index.erase digest) (s.index.insert digest) }

/-- A run of events. -/
def run : List PrestageEvent → PrestageState → Option PrestageState
  | [], s => some s
  | event :: events, s => (x.step event s).bind (run events)

end NodeModelPrestageExecutor

end Kairyu
