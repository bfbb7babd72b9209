/-
  Kairyu/RunnerFailureGuard.lean
  ==============================
  **Crash backoff and failure-domain quarantine** (`runners/backoff.py`).

  A guard keeps one observation for each failed transition of a Runner, and for each failure
  domain a ledger of the newest events in it.  Enough events quarantine the domain; while it
  is in quarantine its ledger, and the observations in it, outlive the failure window.  A
  snapshot is checked by deriving every ledger again from the observations.

  Reading guide.

    * The two dictionaries are `Keyed`: nothing reads the order in which they were filled.
    * A policy is in seconds; `timedelta` rounds them to microseconds.  Date arithmetic that
      leaves the range of `datetime` raises.
    * The shape of a domain is its constructor.  Of a `RunnerStatus` only what the guard reads
      is here; it has a failure exactly when it is unhealthy.
    * A `RunnerBackoffDecision` is built as its validator demands, so that check is left out.
-/
import Kairyu.Clock
import Kairyu.Keyed
import Kairyu.Text

namespace Kairyu

/-! ### Records -/

inductive RunnerFailureDomainKind where
  | revision
  | node
  | gpu
deriving DecidableEq

inductive RunnerFailureDomain where
  | revision (releaseId modelId modelRevision : Text)
  | node (nodeName : Text)
  | gpu (gpuUuid : Text)
deriving DecidableEq

def RunnerFailureDomain.identity : RunnerFailureDomain → List Text
  | .revision releaseId modelId modelRevision => [Text.of "revision", releaseId, modelId, modelRevision]
  | .node nodeName => [Text.of "node", nodeName]
  | .gpu gpuUuid => [Text.of "gpu", gpuUuid]

structure RunnerFailure where
  code : Text
  message : Text
  retryable : Bool := false
  domain : Option RunnerFailureDomainKind := none
deriving DecidableEq

structure RunnerStatus where
  runnerId : Text
  releaseId : Text
  modelId : Text
  modelRevision : Text
  stateVersion : Nat
  stateChangedAt : Instant
  nodeName : Option Text
  gpuUuids : List Text
  gpuUuids_nodup : gpuUuids.Nodup
  /-- The failure in the startup report, if there is a report. -/
  startup : Option (Option RunnerFailure)
  failure : Option RunnerFailure

structure RunnerBackoffPolicy where
  baseDelaySeconds : ℚ := 5
  backoffFactor : Nat := 2
  maxDelaySeconds : ℚ := 300
  failureWindowSeconds : ℚ := 600
  quarantineThreshold : Nat := 3
  quarantineSeconds : ℚ := 900
  maxEventsPerDomain : Nat := 32
  maxDomains : Nat := 4096
  maxObservations : Nat := 131072
deriving DecidableEq

/-- The bounds of the fields, and `validate_bounds` -/
structure RunnerBackoffPolicy.Accepted (p : RunnerBackoffPolicy) : Prop where
  base : 0 < p.baseDelaySeconds ∧ p.baseDelaySeconds ≤ 3600
  factor : 1 ≤ p.backoffFactor ∧ p.backoffFactor ≤ 16
  maximum : 0 < p.maxDelaySeconds ∧ p.maxDelaySeconds ≤ 86400
  window : 0 < p.failureWindowSeconds ∧ p.failureWindowSeconds ≤ 604800
  threshold : 2 ≤ p.quarantineThreshold ∧ p.quarantineThreshold ≤ 100
  quarantine : 0 < p.quarantineSeconds ∧ p.quarantineSeconds ≤ 604800
  events : 2 ≤ p.maxEventsPerDomain ∧ p.maxEventsPerDomain ≤ 10000
  domains : 1 ≤ p.maxDomains ∧ p.maxDomains ≤ 100000
  observations : 1 ≤ p.maxObservations ∧ p.maxObservations ≤ 1000000
  delays : p.baseDelaySeconds ≤ p.maxDelaySeconds
  quarantineEvents : p.quarantineThreshold ≤ p.maxEventsPerDomain

/-- `timedelta(seconds=…)` of a bounded number of seconds -/
def spanOf (seconds : ℚ) : Int := roundHalfEven (seconds * 10 ^ 6)

namespace RunnerBackoffPolicy

def window (p : RunnerBackoffPolicy) : Int := spanOf p.failureWindowSeconds

def quarantine (p : RunnerBackoffPolicy) : Int := spanOf p.quarantineSeconds

/-- The delay after a number of failures. -/
def delay (p : RunnerBackoffPolicy) (count : Nat) : Int :=
  spanOf (min p.maxDelaySeconds (p.baseDelaySeconds * (p.backoffFactor : ℚ) ^ min (count - 1) 63))

end RunnerBackoffPolicy

structure RunnerFailureEvent where
  domain : RunnerFailureDomain
  runnerId : Text
  stateVersion : Nat
  failureCode : Text
  failedAt : Instant
deriving DecidableEq

namespace RunnerFailureEvent

def observationIdentity (e : RunnerFailureEvent) : Text ×ₗ Nat := toLex (e.runnerId, e.stateVersion)

/-- The order of a ledger. -/
def rank (e : RunnerFailureEvent) : Int ×ₗ Text ×ₗ Nat := toLex (e.failedAt, toLex (e.runnerId, e.stateVersion))

/-- `sorted(events, key=…)` -/
def sorted (events : List RunnerFailureEvent) : List RunnerFailureEvent :=
  events.insertionSort fun a b => a.rank ≤ b.rank

end RunnerFailureEvent

structure RunnerFailureObservation where
  runnerId : Text
  stateVersion : Nat
  failureCode : Text
  failedAt : Instant
  domains : List RunnerFailureDomain
deriving DecidableEq

namespace RunnerFailureObservation

def identity (o : RunnerFailureObservation) : Text ×ₗ Nat := toLex (o.runnerId, o.stateVersion)

/-- The event of an observation in one of its domains. -/
def event (o : RunnerFailureObservation) (domain : RunnerFailureDomain) : RunnerFailureEvent :=
  { domain, runnerId := o.runnerId, stateVersion := o.stateVersion, failureCode := o.failureCode, failedAt := o.failedAt }

/-- `validate_domains` -/
def Valid (o : RunnerFailureObservation) : Prop :=
  (o.domains.map (·.identity)).insertionSort (· ≤ ·) = o.domains.map (·.identity) ∧ (o.domains.map (·.identity)).Nodup

instance (o : RunnerFailureObservation) : Decidable o.Valid := inferInstanceAs (Decidable (_ ∧ _))

end RunnerFailureObservation

structure RunnerFailureDomainState where
  domain : RunnerFailureDomain
  events : List RunnerFailureEvent
  quarantineUntil : Option Instant
deriving DecidableEq

namespace RunnerFailureDomainState

def identity (state : RunnerFailureDomainState) : List Text := state.domain.identity

/-- `validate_events` -/
def Valid (state : RunnerFailureDomainState) : Prop :=
  RunnerFailureEvent.sorted state.events = state.events ∧ (∀ e ∈ state.events, e.domain = state.domain) ∧
    (state.events.map (·.observationIdentity)).Nodup

instance (state : RunnerFailureDomainState) : Decidable state.Valid := inferInstanceAs (Decidable (_ ∧ _ ∧ _))

end RunnerFailureDomainState

structure RunnerBackoffDecision where
  domain : RunnerFailureDomain
  evaluatedAt : Instant
  failureCount : Nat
  lastFailureAt : Option Instant
  backoffUntil : Option Instant
  quarantineUntil : Option Instant
  eligibleAt : Instant
  blocked : Bool
  quarantined : Bool
deriving DecidableEq

inductive RunnerGuardError where
  /-- `InvalidRunnerFailureEvidenceError` -/
  | evidence (message : String)
  /-- `RunnerFailureCapacityError` -/
  | capacity (message : String)
  /-- A record that a validator refuses. -/
  | invalid (message : String)
  /-- `OverflowError` -/
  | overflow
deriving DecidableEq

/-- A `datetime` some time later. -/
def instantAfter (t : Instant) (span : Int) : Except RunnerGuardError Instant :=
  match addSpan t span with
  | some later => .ok later
  | none => .error .overflow

/-! ### Domains of a status -/

def failureDomainsForStatus (status : RunnerStatus) : Except RunnerGuardError (List RunnerFailureDomain) :=
  match status.failure with
  | none => .error (.evidence "failure domains require an unhealthy Runner status")
  | some failure =>
    let kind := failure.domain.or (if status.startup = some (some failure) then some .revision else none)
    match kind with
    | none => .ok []
    | some .revision => .ok [.revision status.releaseId status.modelId status.modelRevision]
    | some .node =>
      match status.nodeName with
      | none => .error (.evidence "node-scoped failure lacks node identity")
      | some nodeName => .ok [.node nodeName]
    | some .gpu =>
      if status.gpuUuids = [] then .error (.evidence "GPU-scoped failure lacks GPU identity")
      else if status.gpuUuids.any (255 < ·.length) then .error (.invalid "gpu_uuid")
      else .ok ((status.gpuUuids.insertionSort (· ≤ ·)).map .gpu)

/-! ### Compaction -/

def inWindow (cutoff : Instant) (events : List RunnerFailureEvent) : List RunnerFailureEvent :=
  events.filter fun event => decide (cutoff ≤ event.failedAt)

/-- A quarantine keeps its evidence. -/
def keptEvents (cutoff : Instant) (quarantineUntil : Option Instant) (events : List RunnerFailureEvent) :
    List RunnerFailureEvent :=
  if quarantineUntil.isSome = true then events else inWindow cutoff events

/-- The loop body of `_compact` -/
def compactState (cutoff at' : Instant) (state : RunnerFailureDomainState) : Option RunnerFailureDomainState :=
  let quarantineUntil := state.quarantineUntil.filter (at' < ·)
  let events := keptEvents cutoff quarantineUntil state.events
  if events = [] ∧ quarantineUntil = none then none
  else some { domain := state.domain, events, quarantineUntil }

theorem compactState_some {cutoff at' : Instant} {a b : RunnerFailureDomainState} (h : compactState cutoff at' a = some b) :
    b = ⟨a.domain, keptEvents cutoff (a.quarantineUntil.filter (at' < ·)) a.events, a.quarantineUntil.filter (at' < ·)⟩ := by
  unfold compactState at h
  simp only at h
  split at h
  · cases h
  · exact (Option.some.inj h).symm

theorem identity_compactState (cutoff at' : Instant) (a b : RunnerFailureDomainState)
    (h : compactState cutoff at' a = some b) : b.identity = a.identity := by
  obtain rfl := compactState_some h
  rfl

abbrev States := Keyed RunnerFailureDomainState.identity

abbrev Observations := Keyed RunnerFailureObservation.identity

/-- An observation stays in the window, or as evidence of a quarantine. -/
def Retained (cutoff : Instant) (states : List RunnerFailureDomainState) (o : RunnerFailureObservation) : Prop :=
  cutoff ≤ o.failedAt ∨
    ∃ state ∈ states, state.quarantineUntil.isSome = true ∧ ∃ e ∈ state.events, e.observationIdentity = o.identity

instance (cutoff : Instant) (states : List RunnerFailureDomainState) (o : RunnerFailureObservation) :
    Decidable (Retained cutoff states o) := inferInstanceAs (Decidable (_ ∨ _))

def compactStates (cutoff at' : Instant) (states : States) : States :=
  states.filterMap (compactState cutoff at') (identity_compactState cutoff at')

def compactObservations (cutoff : Instant) (states : States) (observations : Observations) : Observations :=
  observations.filter fun o => decide (Retained cutoff states.values o)

structure RunnerFailureGuard where
  policy : RunnerBackoffPolicy
  lastObservedAt : Option Instant := none
  states : States := ∅
  observations : Observations := ∅

/-! ### Snapshots -/

structure RunnerFailureGuardSnapshot where
  observedAt : Instant
  policy : RunnerBackoffPolicy
  observations : List RunnerFailureObservation
  domains : List RunnerFailureDomainState
deriving DecidableEq

/-- A validator: the first condition that holds is raised. -/
def firstError : List (Bool × String) → Except RunnerGuardError Unit
  | [] => .ok ()
  | (wrong, message) :: rest => if wrong = true then .error (.invalid message) else firstError rest

namespace RunnerFailureGuardSnapshot

/-- When the evidence of a ledger puts its domain in quarantine. -/
def expectedUntil (s : RunnerFailureGuardSnapshot) (events : List RunnerFailureEvent) :
    Except RunnerGuardError (Option Instant) :=
  match events.getLast? with
  | none => .ok none
  | some last =>
    if s.policy.quarantineThreshold ≤ events.length then do
      let candidate ← instantAfter last.failedAt s.policy.quarantine
      return if s.observedAt < candidate then some candidate else none
    else .ok none

def checkDeadline (s : RunnerFailureGuardSnapshot) (state : RunnerFailureDomainState) : Except RunnerGuardError Unit := do
  let expected ← s.expectedUntil state.events
  if state.quarantineUntil ≠ expected then .error (.invalid "quarantine deadline does not match its evidence")
  else .ok ()

def stateOf (s : RunnerFailureGuardSnapshot) (domain : RunnerFailureDomain) : Option RunnerFailureDomainState :=
  s.domains.find? fun state => decide (state.identity = domain.identity)

/-- The event has an observation, which says the same. -/
def Covered (s : RunnerFailureGuardSnapshot) (event : RunnerFailureEvent) : Prop :=
  ∃ o ∈ s.observations, o.identity = event.observationIdentity ∧ event.failureCode = o.failureCode ∧
    event.failedAt = o.failedAt ∧ event.domain ∈ o.domains

instance (s : RunnerFailureGuardSnapshot) (event : RunnerFailureEvent) : Decidable (s.Covered event) :=
  inferInstanceAs (Decidable (∃ o ∈ s.observations, _))

/-- The ledger of a domain, from the observations. -/
def expectedEvents (s : RunnerFailureGuardSnapshot) (cutoff : Instant) (domain : RunnerFailureDomain) :
    List RunnerFailureEvent :=
  let quarantined := (s.stateOf domain).any (·.quarantineUntil.isSome)
  let seen := s.observations.filter fun o => decide (domain ∈ o.domains ∧ (cutoff ≤ o.failedAt ∨ quarantined = true))
  (RunnerFailureEvent.sorted (seen.map (·.event domain))).rtake s.policy.maxEventsPerDomain

/-- `validate_domains`, after the validators of the parts -/
def validate (s : RunnerFailureGuardSnapshot) : Except RunnerGuardError Unit := do
  let identities := s.observations.map (·.identity)
  let domainIdentities := s.domains.map (·.identity)
  firstError
    [(decide (∃ o ∈ s.observations, ¬ o.Valid), "observation domains"),
      (decide (∃ state ∈ s.domains, ¬ state.Valid), "failure events"),
      (decide (identities ≠ identities.insertionSort (· ≤ ·)), "failure observations must be ordered deterministically"),
      (decide (¬ identities.Nodup), "failure observations must be unique"),
      (decide (s.policy.maxObservations < s.observations.length), "snapshot exceeds max_observations"),
      (decide (domainIdentities ≠ domainIdentities.insertionSort (· ≤ ·)), "failure domains must be ordered deterministically"),
      (decide (¬ domainIdentities.Nodup), "failure domains must be unique"),
      (decide (s.policy.maxDomains < s.domains.length), "snapshot exceeds max_domains"),
      (decide (∃ state ∈ s.domains, s.policy.maxEventsPerDomain < state.events.length), "snapshot exceeds max_events_per_domain"),
      (decide (∃ state ∈ s.domains, ∃ event ∈ state.events, s.observedAt < event.failedAt),
        "snapshot cannot contain future failure events")]
  let cutoff ← instantAfter s.observedAt (-s.policy.window)
  firstError
    [(decide (∃ o ∈ s.observations, ¬ Retained cutoff s.domains o ∨ s.observedAt < o.failedAt),
        "snapshot contains out-of-window failure observations"),
      (decide (∃ state ∈ s.domains, ∃ event ∈ state.events, ¬ s.Covered event),
        "failure event lacks an observation tombstone, or conflicts with it")]
  s.domains.forM s.checkDeadline
  firstError
    [(decide (∃ domain ∈ s.domains.map (·.domain) ++ s.observations.flatMap (·.domains),
        ((s.stateOf domain).map (·.events)).getD [] ≠ s.expectedEvents cutoff domain),
        "failure domain ledger conflicts with its observations")]

end RunnerFailureGuardSnapshot

/-! ### The guard -/

namespace RunnerFailureGuard

/-- `_at` -/
def checkTime (g : RunnerFailureGuard) (at' : Instant) : Except RunnerGuardError Unit :=
  if g.lastObservedAt.any (at' < ·) = true then .error (.evidence "failure guard time cannot move backwards") else .ok ()

/-- `_compact` and `_compact_observations` -/
def compact (g : RunnerFailureGuard) (at' : Instant) : Except RunnerGuardError (States × Observations) := do
  let cutoff ← instantAfter at' (-g.policy.window)
  let states := compactStates cutoff at' g.states
  if ∃ state ∈ states.values, ¬ state.Valid then .error (.invalid "failure events")
  else .ok (states, compactObservations cutoff states g.observations)

/-- The later of an instant and a boundary. -/
def later (t : Instant) (boundary : Option Instant) : Instant := (boundary.map (max t)).getD t

def decisionOf (domain : RunnerFailureDomain) (at' : Instant) (count : Nat)
    (lastFailureAt backoffUntil quarantineUntil : Option Instant) : RunnerBackoffDecision :=
  let eligibleAt := later (later at' backoffUntil) quarantineUntil
  { domain, evaluatedAt := at', failureCount := count, lastFailureAt, backoffUntil, quarantineUntil, eligibleAt,
    blocked := decide (at' < eligibleAt), quarantined := quarantineUntil.any (at' < ·) }

/-- `_decision` -/
def decisionFor (p : RunnerBackoffPolicy) (state : RunnerFailureDomainState) (at' : Instant) :
    Except RunnerGuardError RunnerBackoffDecision := do
  let cutoff ← instantAfter at' (-p.window)
  let events := inWindow cutoff state.events
  let lastFailureAt := events.getLast?.map (·.failedAt)
  let quarantineUntil := state.quarantineUntil.filter (at' < ·)
  match lastFailureAt with
  | none => return decisionOf state.domain at' events.length none none quarantineUntil
  | some failedAt => do
    let backoffUntil ← instantAfter failedAt (p.delay events.length)
    return decisionOf state.domain at' events.length (some failedAt) (some backoffUntil) quarantineUntil

/-- `_decision_for_domain` -/
def decisionForDomain (p : RunnerBackoffPolicy) (states : States) (at' : Instant) (domain : RunnerFailureDomain) :
    Except RunnerGuardError RunnerBackoffDecision :=
  match states.find domain.identity with
  | some state => decisionFor p state at'
  | none => .ok (decisionOf domain at' 0 none none none)

/-- The quarantine of a domain, once its ledger is `ordered`. -/
def quarantineAfter (p : RunnerBackoffPolicy) (ordered : List RunnerFailureEvent) (before : Option Instant) :
    Except RunnerGuardError (Option Instant) :=
  match ordered.getLast? with
  | none => .ok before
  | some last =>
    if p.quarantineThreshold ≤ ordered.length then do
      let candidate ← instantAfter last.failedAt p.quarantine
      return some ((before.map (max · candidate)).getD candidate)
    else .ok before

/-- An event enters the ledger of its domain. -/
def enterEvent (p : RunnerBackoffPolicy) (states : States) (event : RunnerFailureEvent) : Except RunnerGuardError States := do
  let state := states.find event.domain.identity
  let ordered :=
    (RunnerFailureEvent.sorted ((state.map (·.events)).getD [] ++ [event])).rtake p.maxEventsPerDomain
  let quarantineUntil ← quarantineAfter p ordered (state.bind (·.quarantineUntil))
  let entered : RunnerFailureDomainState := { domain := event.domain, events := ordered, quarantineUntil }
  if ¬ entered.Valid then .error (.invalid "failure events") else .ok (states.insert entered)

/-- What `record` does before it looks at the observations. -/
def observe (g : RunnerFailureGuard) (status : RunnerStatus) (at' : Instant) :
    Except RunnerGuardError (RunnerFailureObservation × States × Observations) := do
  g.checkTime at'
  let domains ← failureDomainsForStatus status
  if at' < status.stateChangedAt then .error (.evidence "failure transition cannot be in the future")
  else do
    let (states, observations) ← g.compact at'
    let seen : RunnerFailureObservation :=
      { runnerId := status.runnerId, stateVersion := status.stateVersion,
        failureCode := (status.failure.map (·.code)).getD [], failedAt := status.stateChangedAt, domains }
    if ¬ seen.Valid then .error (.invalid "observation domains") else .ok (seen, states, observations)

/-- A transition that the guard has not seen. -/
def recordNew (g : RunnerFailureGuard) (seen : RunnerFailureObservation) (states : States) (observations : Observations)
    (at' : Instant) : Except RunnerGuardError (List RunnerBackoffDecision) × RunnerFailureGuard :=
  if seen.failedAt < at' - g.policy.window then
    (.ok [], { g with states, observations, lastObservedAt := some at' })
  else if g.policy.maxObservations ≤ observations.values.length then
    (.error (.capacity "active failure observations exceed the configured capacity"), g)
  else
    let observations := observations.insert seen
    if seen.domains = [] then (.ok [], { g with states, observations, lastObservedAt := some at' })
    else
      match (seen.domains.map seen.event).foldlM (enterEvent g.policy) states with
      | .error e => (.error e, g)
      | .ok states =>
        if g.policy.maxDomains < states.values.length then
          (.error (.capacity "active failure domains exceed the configured capacity"), g)
        else
          -- the ledgers are stored before the decisions are made
          match seen.domains.mapM (decisionForDomain g.policy states at') with
          | .error e => (.error e, { g with states, observations })
          | .ok decisions => (.ok decisions, { g with states, observations, lastObservedAt := some at' })

def record (status : RunnerStatus) (at' : Instant) (g : RunnerFailureGuard) :
    Except RunnerGuardError (List RunnerBackoffDecision) × RunnerFailureGuard :=
  match g.observe status at' with
  | .error e => (.error e, g)
  | .ok (seen, states, observations) =>
    match observations.find seen.identity with
    | some existing =>
      if existing ≠ seen then (.error (.evidence "failure observation replay changed its evidence"), g)
      else
        match seen.domains.mapM (decisionForDomain g.policy states at') with
        | .error e => (.error e, g)
        | .ok decisions => (.ok decisions, { g with states, observations, lastObservedAt := some at' })
    | none => g.recordNew seen states observations at'

/-- The records of `record_many`, on a staged guard. -/
def stage (at' : Instant) : List RunnerStatus → RunnerFailureGuard →
    Except RunnerGuardError (List (Text × List RunnerBackoffDecision) × RunnerFailureGuard)
  | [], g => .ok ([], g)
  | status :: rest, g =>
    match record status at' g with
    | (.error e, _) => .error e
    | (.ok decisions, g) => do
      let (more, g) ← stage at' rest g
      return ((status.runnerId, decisions) :: more, g)

def recordMany (statuses : List RunnerStatus) (at' : Instant) (g : RunnerFailureGuard) :
    Except RunnerGuardError (List (Text × List RunnerBackoffDecision)) × RunnerFailureGuard :=
  match g.checkTime at' with
  | .error e => (.error e, g)
  | .ok () =>
    let selected := statuses.filter fun status => status.failure.isSome
    if ¬ (selected.map (·.runnerId)).Nodup then (.error (.evidence "statuses contain duplicate unhealthy Runner IDs"), g)
    else
      match stage at' (selected.insertionSort fun a b => a.runnerId ≤ b.runnerId) g with
      | .error e => (.error e, g)
      | .ok (decisions, staged) =>
        (.ok decisions, if selected = [] then { staged with lastObservedAt := some at' } else staged)

def decision (domain : RunnerFailureDomain) (at' : Instant) (g : RunnerFailureGuard) :
    Except RunnerGuardError RunnerBackoffDecision × RunnerFailureGuard :=
  match g.checkTime at', decisionForDomain g.policy g.states at' domain with
  | .error e, _ => (.error e, g)
  | .ok (), .error e => (.error e, g)
  | .ok (), .ok decision => (.ok decision, { g with lastObservedAt := some at' })

/-- The snapshot, when it is valid. -/
def capture (g : RunnerFailureGuard) (at' : Instant) : Except RunnerGuardError RunnerFailureGuardSnapshot := do
  g.checkTime at'
  let (states, observations) ← g.compact at'
  let snapshot : RunnerFailureGuardSnapshot :=
    { observedAt := at', policy := g.policy, observations := observations.values, domains := states.values }
  snapshot.validate
  return snapshot

def snapshot (at' : Instant) (g : RunnerFailureGuard) :
    Except RunnerGuardError RunnerFailureGuardSnapshot × RunnerFailureGuard :=
  match g.capture at' with
  | .error e => (.error e, g)
  | .ok snapshot => (.ok snapshot, { g with lastObservedAt := some at' })

/-- `from_snapshot` -/
def fromSnapshot (s : RunnerFailureGuardSnapshot) : Except RunnerGuardError RunnerFailureGuard := do
  s.validate
  return { policy := s.policy, lastObservedAt := some s.observedAt, states := Keyed.ofList _ s.domains,
           observations := Keyed.ofList _ s.observations }

/-! ### Runs -/

inductive Call where
  | record (status : RunnerStatus)
  | recordMany (statuses : List RunnerStatus)
  | decision (domain : RunnerFailureDomain)
  | snapshot

inductive Answer where
  | decisions (decisions : List RunnerBackoffDecision)
  | many (decisions : List (Text × List RunnerBackoffDecision))
  | decision (decision : RunnerBackoffDecision)
  | snapshot (snapshot : RunnerFailureGuardSnapshot)
deriving DecidableEq

def perform (at' : Instant) (call : Call) (g : RunnerFailureGuard) : Except RunnerGuardError Answer × RunnerFailureGuard :=
  match call with
  | .record status => (record status at' g).map (·.map .decisions) id
  | .recordMany statuses => (recordMany statuses at' g).map (·.map .many) id
  | .decision domain => (decision domain at' g).map (·.map .decision) id
  | .snapshot => (snapshot at' g).map (·.map .snapshot) id

/-- A run of calls, with their answers. -/
def run : List (Instant × Call) → RunnerFailureGuard → List (Except RunnerGuardError Answer) × RunnerFailureGuard
  | [], g => ([], g)
  | (at', call) :: rest, g =>
    let (answer, g) := perform at' call g
    let (answers, g) := run rest g
    (answer :: answers, g)

end RunnerFailureGuard

end Kairyu
