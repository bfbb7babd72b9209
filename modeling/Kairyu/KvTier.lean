/-
  Kairyu/KvTier.lean
  ==================
  **The host tier of KV pages** (`engine/core/kv_tier.py`).

  A bounded slab of host slots takes pages that leave the device and gives them back.  A
  transfer owns its slots and its device pages from the call that begins it until it is
  finalized; a transfer that fails or is cancelled leaves both quarantined.

  Reading guide.

    * `_SlotEntry` objects are compared by identity, so they live in a `heap` and are named
      by an `EntryId`; an owner of device pages is an `object()`, here a number.
    * What the copy backend and the bytes of the slab decide is a parameter of the call:
      whether a submission, a query or the final timing raises, and the checksums (`none`
      when computing them raises).
    * An operation is one step.  When the commit of `finalize` raises, the tier's lock is
      taken a second time; what another thread does in between is left out.
    * The `repr` of a key is the key between quotes: an escape is needed only in a key
      that `_keys` rejects.
    * What a quarantine record says about its cause, the metrics of a completed transfer,
      the checksums a transfer shows and the NUMA placement are left out.
-/
import Kairyu.Dict
import Kairyu.Effect
import Mathlib.Data.Finset.Basic
import Mathlib.Data.List.Sort
import Mathlib.Logic.Function.Basic

namespace Kairyu

open Effect

/-! ### Pages and errors -/

abbrev TierKey := String

abbrev Checksum := String

abbrev EntryId := Nat

/-- `[0-9a-f]{64}` -/
def fullSha256 (key : TierKey) : Bool :=
  key.toList.length == 64 && key.toList.all fun c => c.isDigit || ('a' ≤ c && c ≤ 'f')

inductive PageState where
  | reserved | offloading | resident | restoring
deriving DecidableEq, Repr

def PageState.text : PageState → String
  | .reserved => "reserved"
  | .offloading => "offloading"
  | .resident => "resident"
  | .restoring => "restoring"

inductive TransferDirection where
  | offload | restore
deriving DecidableEq, Repr

def TransferDirection.text : TransferDirection → String
  | .offload => "offload"
  | .restore => "restore"

inductive TransferTerminal where
  | active | finalized | cancelled | failed
deriving DecidableEq, Repr

/-- The subclasses of `KVPageTransferError`. -/
inductive TierErrorClass where
  | transfer | capacity | identity | checksum | state
deriving DecidableEq, Repr

/-- A `KVPageTransferError`: what the caller may do with the pages after catching it. -/
structure TierError where
  kind : TierErrorClass
  message : String
  sourceReusable : Bool
  destinationReusable : Bool
  destinationPublishable : Bool := false
deriving DecidableEq, Repr

open TierError

/-- What an operation raises. -/
inductive TierFailure where
  | tier (error : TierError)
  | other (message : String)
deriving DecidableEq, Repr

/-- `getattr(error, "source_reusable", False)` -/
def TierFailure.sourceReusable : TierFailure → Bool
  | .tier error => error.sourceReusable
  | .other _ => false

/-- `getattr(error, "destination_reusable", False)` -/
def TierFailure.destinationReusable : TierFailure → Bool
  | .tier error => error.destinationReusable
  | .other _ => false

/-- A request that is refused before anything is touched. -/
def TierError.refused (kind : TierErrorClass) (message : String) : TierFailure :=
  .tier { kind, message, sourceReusable := true, destinationReusable := true }

/-- A request against pages whose ownership is retained. -/
def TierError.retained (kind : TierErrorClass) (message : String) : TierFailure :=
  .tier { kind, message, sourceReusable := false, destinationReusable := false }

structure SlotEntry where
  key : TierKey
  slot : Nat
  generation : Nat
  state : PageState
  fingerprint : String
  checksum : Option Checksum := none
  lastTouch : Nat := 0
deriving DecidableEq, Repr

/-! ### The tier -/

structure KvTier where
  capacityPages : Nat
  /-- The number of pages of the device pool. -/
  numPages : Nat
  fingerprint : String
  heap : EntryId → SlotEntry
  nextEntry : EntryId := 0
  slots : Nat → Option EntryId := fun _ => none
  generations : Nat → Nat := fun _ => 0
  /-- A stack, its top last. -/
  freeSlots : List Nat
  published : Dict TierKey EntryId := ∅
  inFlight : Finset TierKey := ∅
  quarantined : Finset Nat := ∅
  quarantinedKeys : Finset TierKey := ∅
  pageOwners : Dict Nat Nat := ∅
  nextOwner : Nat := 0
  quarantinedPages : Finset Nat := ∅
  sequence : Nat := 0
  clock : Nat := 0

namespace KvTier

def new (capacityPages numPages : Nat) (fingerprint : String) : KvTier where
  capacityPages
  numPages
  fingerprint
  heap := fun _ => { key := "", slot := 0, generation := 0, state := .reserved, fingerprint }
  freeSlots := (List.range capacityPages).reverse

def slotOf (t : KvTier) (e : EntryId) : Nat := (t.heap e).slot

/-- `self._slots[entry.slot] is entry` -/
def current (t : KvTier) (e : EntryId) : Prop := t.slots (t.slotOf e) = some e

instance (t : KvTier) (e : EntryId) : Decidable (t.current e) := inferInstanceAs (Decidable (_ = _))

/-- Assignments to the fields of an entry. -/
def setEntry (t : KvTier) (e : EntryId) (f : SlotEntry → SlotEntry) : KvTier :=
  { t with heap := Function.update t.heap e (f (t.heap e)) }

def unpublish (t : KvTier) (key : TierKey) : KvTier := { t with published := t.published.erase key }

/-! ### Ownership of slots and device pages -/

abbrev Op (α : Type) := Effect KvTier TierFailure α

def vacate (t : KvTier) (e : EntryId) : KvTier :=
  { t with slots := Function.update t.slots (t.slotOf e) none, freeSlots := t.freeSlots ++ [t.slotOf e] }

def release (e : EntryId) : Op Unit := do
  let t ← get
  if t.current e then modify (·.vacate e)
  else raise (.other "stale KV tier slot release")

/-- Drop a published entry and free its slot. -/
def drop (e : EntryId) : Op Unit := do
  let t ← get
  modify (·.unpublish (t.heap e).key)
  release e

/-- The text of a tuple of page numbers. -/
def tupleText : List Nat → String
  | [page] => s!"({page},)"
  | pages => "(" ++ ", ".intercalate (pages.map toString) ++ ")"

/-- Entries of `_published` that may be evicted, the least recently used first. -/
def victims (t : KvTier) (protectedKeys : List TierKey) : List EntryId :=
  let safe := t.published.entries.filter fun item =>
    item.1 ∉ protectedKeys ∧ item.1 ∉ t.inFlight ∧ item.1 ∉ t.quarantinedKeys ∧ (t.heap item.2).state = .resident
  (safe.map (·.2)).insertionSort fun a b =>
    (t.heap a).lastTouch < (t.heap b).lastTouch ∨
      ((t.heap a).lastTouch = (t.heap b).lastTouch ∧ t.slotOf a ≤ t.slotOf b)

def evictLruFor (count : Nat) (protectedKeys : List TierKey) : Op Unit := do
  let t ← get
  let shortfall := count - t.freeSlots.length
  if shortfall = 0 then pure ()
  else
    let candidates := t.victims protectedKeys
    if candidates.length < shortfall then
      raise (refused .capacity
        s!"KV DRAM tier needs {count} reservable pages but has {t.freeSlots.length} free and {candidates.length} safe LRU victims")
    else each drop (candidates.take shortfall)

/-- A new entry in a slot. -/
def place (t : KvTier) (key : TierKey) (slot : Nat) : KvTier :=
  let generation := t.generations slot + 1
  { t with
    generations := Function.update t.generations slot generation
    heap := Function.update t.heap t.nextEntry
      { key, slot, generation, state := .reserved, fingerprint := t.fingerprint }
    slots := Function.update t.slots slot (some t.nextEntry)
    nextEntry := t.nextEntry + 1 }

def reserve (keys : List TierKey) : Op (List EntryId) := do
  evictLruFor keys.length keys
  let t ← get
  if t.freeSlots.length < keys.length then
    modify fun t => { t with freeSlots := [] }
    raise (.other "pop from empty list")
  else
    let kept := t.freeSlots.length - keys.length
    let slots := (t.freeSlots.drop kept).insertionSort (· ≤ ·)
    modify fun t => { t with freeSlots := t.freeSlots.take kept }
    each (fun item => modify (·.place item.1 item.2)) (keys.zip slots)
    return List.range' t.nextEntry keys.length

def validateDevicePagesAvailable (pages : List Nat) (direction : TransferDirection) : Op Unit := do
  let t ← get
  let retained := pages.filter fun page => (t.pageOwners.lookup page).isSome ∨ page ∈ t.quarantinedPages
  if retained = [] then pure ()
  else
    raise (.tier {
      kind := .state
      message := s!"device KV pages {tupleText retained} already have retained transfer ownership"
      sourceReusable := decide (direction = .restore)
      destinationReusable := decide (direction = .offload) })

/-- The body of the loop of `_reserve_device_pages`. -/
def claimPage (owner page : Nat) : Op Unit := do
  let t ← get
  if (t.pageOwners.lookup page).isSome ∨ page ∈ t.quarantinedPages then
    raise (.other "device KV page reservation raced its validation")
  else modify fun t => { t with pageOwners := t.pageOwners.insert page owner }

def reserveDevicePages (pages : List Nat) : Op Nat := do
  let t ← get
  let owner := t.nextOwner
  modify fun t => { t with nextOwner := t.nextOwner + 1 }
  each (claimPage owner) pages
  return owner

def releaseDevicePages (t : KvTier) (pages : List Nat) (owner : Nat) : KvTier :=
  pages.foldl (fun t page =>
    if t.pageOwners.lookup page = some owner then { t with pageOwners := t.pageOwners.erase page } else t) t

def quarantineDevicePages (t : KvTier) (pages : List Nat) (owner : Nat) : KvTier :=
  pages.foldl (fun t page =>
    if t.pageOwners.lookup page = some owner then
      { t with pageOwners := t.pageOwners.erase page, quarantinedPages := insert page t.quarantinedPages }
    else t) t

/-- The body of the loop of `_quarantine`. -/
def quarantineEntry (retainKeys : Bool) (t : KvTier) (e : EntryId) : KvTier :=
  -- A stale callback must not quarantine a slot that a later transfer acquired.
  if ¬ t.current e then t
  else
    let key := (t.heap e).key
    let published := if t.published.lookup key = some e then t.published.erase key else t.published
    { t with
      published
      quarantined := insert (t.slotOf e) t.quarantined
      quarantinedKeys :=
        if retainKeys = true ∨ published.lookup key = none then insert key t.quarantinedKeys else t.quarantinedKeys
      inFlight := t.inFlight.erase key }

def quarantine (t : KvTier) (entries : List EntryId) (retainKeys : Bool) : KvTier :=
  entries.foldl (quarantineEntry retainKeys) t

end KvTier

/-! ### Transfers -/

structure TierTransfer where
  sequence : Nat
  direction : TransferDirection
  keys : List TierKey
  pageIds : List Nat
  entries : List EntryId
  previous : List (Option EntryId)
  owner : Nat
  physicalComplete : Bool := false
  terminal : TransferTerminal := .active
  failure : Option TierError := none
deriving DecidableEq

namespace KvTier

def duplicateKeys : TierFailure :=
  refused .identity "one KV tier operation cannot contain duplicate keys"

/-- `_keys` -/
def checkKeys (keys : List TierKey) : Op Unit :=
  if keys = [] then raise (refused .identity "a KV tier operation requires at least one key")
  else if ¬ keys.Nodup then raise duplicateKeys
  else
    match keys.find? (fun key => !fullSha256 key) with
    | some key =>
      raise (refused .identity s!"KV page key must be a full lowercase SHA-256, got '{key}'")
    | none => pure ()

/-- `_page_ids` -/
def checkPageIds (pages : List Nat) (count : Nat) : Op Unit := do
  let t ← get
  if pages.length ≠ count then
    raise (refused .identity s!"received {pages.length} page ids for {count} keys")
  else if ¬ pages.Nodup then
    raise (refused .identity "one KV tier operation cannot contain duplicate page ids")
  else
    match pages.find? (fun page => t.numPages ≤ page) with
    | some page => raise (refused .identity s!"device page {page} is outside [0, {t.numPages})")
    | none => pure ()

/-- Whether a key may be offloaded. -/
def checkOffload (key : TierKey) : Op Unit := do
  let t ← get
  if key ∈ t.inFlight ∨ key ∈ t.quarantinedKeys then
    -- An earlier copy may still be reading the same device page.
    raise (retained .state s!"KV page '{key}' already has retained in-flight ownership")
  else
    match t.published.lookup key with
    | some e =>
      if (t.heap e).state ≠ .resident then
        let found := (t.heap e).state.text
        raise (refused .state s!"KV page '{key}' is {found}, not resident")
      else pure ()
    | none => pure ()

/-- The entry of a new copy becomes visible unless it replaces one. -/
def launch (t : KvTier) (key : TierKey) (e : EntryId) (old : Option EntryId) : KvTier :=
  let t := t.setEntry e fun entry => { entry with state := .offloading }
  { t with
    inFlight := insert key t.inFlight
    published := if old = none then t.published.insert key e else t.published }

/-- The submission raised, and the copy may be running. -/
def offloadAmbiguous : TierFailure :=
  retained .transfer "D2H submission failed with ambiguous completion; host slots were quarantined"

def beginOffload (keys : List TierKey) (pages : List Nat) (submits : Bool) : Op TierTransfer := do
  checkKeys keys
  checkPageIds pages keys.length
  each checkOffload keys
  validateDevicePagesAvailable pages .offload
  let t ← get
  let previous := keys.map fun key => t.published.lookup key
  let entries ← reserve keys
  each (fun item => modify (·.launch item.1 item.2.1 item.2.2)) (keys.zip (entries.zip previous))
  let owner ← reserveDevicePages pages
  if submits then
    let t ← get
    modify fun t => { t with sequence := t.sequence + 1 }
    return { sequence := t.sequence + 1, direction := .offload, keys, pageIds := pages, entries, previous, owner }
  else
    modify fun t => (t.quarantine entries true).quarantineDevicePages pages owner
    raise offloadAmbiguous

/-- A restore may name the fingerprint it expects. -/
def validateFingerprint (expected : Option String) : Op Unit := do
  let t ← get
  match expected with
  | none => pure ()
  | some digest =>
    if digest ≠ t.fingerprint then
      raise (refused .identity
        s!"KV page fingerprint mismatch: expected {digest}, local {t.fingerprint}")
    else pure ()

/-- The entry of a key that can be restored. -/
def residentEntry (key : TierKey) : Op EntryId := do
  let t ← get
  match t.published.lookup key with
  | none => raise (refused .state s!"KV page '{key}' is not resident")
  | some e =>
    if (t.heap e).state ≠ .resident then raise (refused .state s!"KV page '{key}' is not resident")
    else if key ∈ t.inFlight then
      raise (refused .state s!"KV page '{key}' already has an in-flight transfer")
    else if (t.heap e).fingerprint ≠ t.fingerprint then
      raise (.tier {
        kind := .identity
        message := s!"resident KV page '{key}' has a different layout fingerprint"
        sourceReusable := false
        destinationReusable := true })
    else return e

def residentEntries : List TierKey → Op (List EntryId)
  | [] => return []
  | key :: keys => do
    let e ← residentEntry key
    let entries ← residentEntries keys
    return e :: entries

def markRestoring (t : KvTier) (e : EntryId) : KvTier :=
  let t := t.setEntry e fun entry => { entry with state := .restoring }
  { t with inFlight := insert (t.heap e).key t.inFlight }

/-- `_host_checksums` -/
def hostChecksums (actual : Option (Nat → Checksum)) (entries : List EntryId) : Op (List Checksum) := do
  let t ← get
  match actual with
  | none => raise (.other "host page checksum failed")
  | some actual => return entries.map fun e => actual (t.slotOf e)

@[inherit_doc offloadAmbiguous]
def restoreAmbiguous : TierFailure :=
  retained .transfer
    "H2D submission failed with ambiguous completion; source and destination ownership were retained"

def beginRestore (keys : List TierKey) (pages : List Nat) (expected : Option String)
    (actual : Option (Nat → Checksum)) (submits : Bool) : Op TierTransfer := do
  checkKeys keys
  checkPageIds pages keys.length
  validateFingerprint expected
  validateDevicePagesAvailable pages .restore
  let entries ← residentEntries keys
  let checksums ← hostChecksums actual entries
  let t ← get
  let mismatches := (entries.zip checksums).filter fun item => (t.heap item.1).checksum ≠ some item.2
  if mismatches ≠ [] then
    modify (·.quarantine (mismatches.map (·.1)) false)
    raise (.tier {
      kind := .checksum
      message := "resident KV page checksum mismatch; corrupted slots were quarantined"
      sourceReusable := false
      destinationReusable := true })
  else
    each (fun e => modify (·.markRestoring e)) entries
    let owner ← reserveDevicePages pages
    if submits then
      let t ← get
      modify fun t => { t with sequence := t.sequence + 1 }
      return {
        sequence := t.sequence + 1, direction := .restore, keys, pageIds := pages, entries
        previous := entries.map fun _ => none, owner }
    else
      modify fun t => (t.quarantine entries false).quarantineDevicePages pages owner
      raise restoreAmbiguous

/-! ### The end of a transfer -/

/-- Ownership of a copy whose completion is unknown is never given back. -/
def retain (x : TierTransfer) (t : KvTier) : KvTier :=
  (t.quarantine x.entries (x.direction = .offload)).quarantineDevicePages x.pageIds x.owner

def failTransfer (x : TierTransfer) : Op TierError := do
  modify (retain x)
  return {
    kind := .transfer
    message := s!"{x.direction.text} completion failed; ownership was quarantined"
    sourceReusable := false
    destinationReusable := false }

def cancelTransfer (x : TierTransfer) (cancels : Bool) : Op TierError := do
  modify (retain x)
  let outcome := if cancels then "retained ownership" else "failed"
  return {
    kind := .transfer
    message := s!"{x.direction.text} transfer {x.sequence} cancellation {outcome}"
    sourceReusable := false
    destinationReusable := false }

/-- The copy is known to be complete, so the device pages are free again. -/
def failFinalization (x : TierTransfer) : Op TierError := do
  modify fun t => (t.quarantine x.entries false).releaseDevicePages x.pageIds x.owner
  return {
    kind := .transfer
    message := s!"{x.direction.text} copy completed but ownership finalization failed"
    sourceReusable := decide (x.direction = .offload)
    destinationReusable := decide (x.direction = .restore) }

def checkCurrent (e : EntryId) : Op Unit := do
  let t ← get
  if t.current e then pure ()
  else raise (refused .state "stale KV tier completion cannot mutate a reused slot")

def checkRestoring (e : EntryId) : Op Unit := do
  let t ← get
  if (t.heap e).state = .restoring then pure ()
  else
    let found := (t.heap e).state.text
    raise (.tier {
      kind := .state
      message := s!"restore completion found page '{(t.heap e).key}' in {found}"
      sourceReusable := false
      destinationReusable := true })

/-- `self._clock += 1`, `entry.checksum = checksum`, `entry.last_touch = self._clock` -/
def stamp (t : KvTier) (e : EntryId) (checksum : Checksum) : KvTier :=
  let t := { t with clock := t.clock + 1 }
  t.setEntry e fun entry => { entry with checksum := some checksum, lastTouch := t.clock }

def publish (t : KvTier) (e : EntryId) : KvTier :=
  let t := t.setEntry e fun entry => { entry with state := .resident }
  { t with published := t.published.insert (t.heap e).key e }

def settle (t : KvTier) (e : EntryId) : KvTier := { t with inFlight := t.inFlight.erase (t.heap e).key }

/-- A page that was offloaded becomes resident, unless the copy it would replace is the same. -/
def commitCopy (e : EntryId) (old : Option EntryId) (checksum : Checksum) : Op Unit := do
  match old with
  | none => modify (·.publish e)
  | some o =>
    let t ← get
    if (t.heap o).checksum = some checksum then
      modify fun t => t.setEntry o fun entry => { entry with lastTouch := t.clock }
      release e
    else
      modify (·.publish e)
      release o

/-- The body of the loop of `_finalize_transfer` over an offload. -/
def commitOffload (e : EntryId) (old : Option EntryId) (checksum : Checksum) : Op Unit := do
  modify (·.stamp e checksum)
  commitCopy e old checksum
  modify (·.settle e)

/-- The body of the loop of `_finalize_transfer` over a restore. -/
def commitRestore (e : EntryId) : Op Unit := do
  modify fun t => if t.published.lookup (t.heap e).key = some e then t.unpublish (t.heap e).key else t
  modify (·.settle e)
  release e

/-- `_record_completed_transfer`: reading the elapsed time may raise. -/
def recordCompleted (records : Bool) : Op Unit :=
  if records then pure () else raise (.other "elapsed time query failed")

def commit (x : TierTransfer) (actual : Option (Nat → Checksum)) : Op Unit :=
  match x.direction with
  | .offload => do
    let checksums ← hostChecksums actual x.entries
    each (fun item => commitOffload item.1 item.2.1 item.2.2) (x.entries.zip (x.previous.zip checksums))
  | .restore => do
    each checkRestoring x.entries
    each commitRestore x.entries

def finalizeTransfer (x : TierTransfer) (actual : Option (Nat → Checksum)) (records : Bool) : Op Unit := do
  each checkCurrent x.entries
  commit x actual
  recordCompleted records
  modify fun t => t.releaseDevicePages x.pageIds x.owner

/-! ### Lookups and discards -/

/-- The leading keys that are resident. -/
def residentRun (t : KvTier) (keys : List TierKey) : List EntryId :=
  (keys.map fun key => t.published.lookup key).takeWhile
    (fun found => found.any fun e => (t.heap e).state = .resident) |>.filterMap id

def touch (t : KvTier) (e : EntryId) : KvTier :=
  let t := { t with clock := t.clock + 1 }
  t.setEntry e fun entry => { entry with lastTouch := t.clock }

def availablePrefix (keys : List TierKey) (minPages : Nat) : Op Nat :=
  if minPages < 1 then raise (.other s!"min_pages must be >= 1, got {minPages}")
  else do
    checkKeys keys
    let t ← get
    let hits := t.residentRun keys
    if minPages ≤ hits.length then
      modify fun t => hits.foldl touch t
      return hits.length
    else return 0

def checkDiscard (key : TierKey) : Op Unit := do
  let t ← get
  if key ∈ t.inFlight then
    raise (retained .state s!"KV page '{key}' cannot be discarded while transfer is in flight")
  else
    match t.published.lookup key with
    | none => pure ()
    | some e =>
      let found := (t.heap e).state
      if found ≠ .resident then
        raise (retained .state s!"KV page '{key}' cannot be discarded from {found.text}")
      else pure ()

def discard (keys : List TierKey) : Op Bool := do
  checkKeys keys
  each checkDiscard keys
  let t ← get
  each drop (keys.filterMap fun key => t.published.lookup key)
  return true

end KvTier

/-! ### The tier and its transfers -/

/-- The tier with every transfer that was begun, in order. -/
structure TierSystem where
  tier : KvTier
  transfers : List TierTransfer := []

namespace TierSystem

abbrev Op (α : Type) := Effect TierSystem TierFailure α

def onTier {α : Type} (m : KvTier.Op α) : Op α :=
  zoom (·.tier) (fun tier sys => { sys with tier }) m

def transfer (i : Nat) : Op TierTransfer := do
  let sys ← get
  match sys.transfers[i]? with
  | some x => return x
  | none => raise (.other "no such transfer")

def put (i : Nat) (x : TierTransfer) : Op Unit :=
  modify fun sys => { sys with transfers := sys.transfers.set i x }

def raiseFailure (x : TierTransfer) : Op Unit :=
  match x.failure with
  | some failure => raise (.tier failure)
  | none =>
    if x.terminal = .cancelled ∨ x.terminal = .failed then
      raise (.other "terminal KV transfer is missing its failure record")
    else pure ()

/-- What follows an error of the backend's completion handle. -/
def failed {α : Type} (i : Nat) (x : TierTransfer) (settleFailure : KvTier.Op TierError) : Op α := do
  let failure ← onTier settleFailure
  put i { x with failure := some failure, terminal := .failed }
  raise (.tier failure)

/-- `ready`: `answer` is what the completion's `query` says, `none` when it raises. -/
def ready (i : Nat) (answer : Option Bool) : Op Bool := do
  let x ← transfer i
  raiseFailure x
  if x.terminal = .finalized ∨ x.physicalComplete then return true
  else
    match answer with
    | some complete =>
      put i { x with physicalComplete := complete }
      return complete
    | none => failed i x (KvTier.failTransfer x)

/-- `wait`: whether the completion's `synchronize` returns. -/
def wait (i : Nat) (completes : Bool) : Op Bool := do
  let x ← transfer i
  raiseFailure x
  if x.terminal = .finalized ∨ x.physicalComplete then return true
  else if completes then
    put i { x with physicalComplete := true }
    return true
  else failed i x (KvTier.failTransfer x)

def finalize (i : Nat) (answer : Option Bool) (actual : Option (Nat → Checksum)) (records : Bool) : Op Bool := do
  let x ← transfer i
  raiseFailure x
  if x.terminal = .finalized then return true
  else
    let complete ← ready i answer
    let x ← transfer i
    if ¬ complete then
      raise (retained .state s!"{x.direction.text} transfer {x.sequence} is still in flight")
    else
      handle (onTier (KvTier.finalizeTransfer x actual records)) fun _ =>
        failed i x (KvTier.failFinalization x)
      put i { x with terminal := .finalized }
      return true

/-- `cancel`: whether the backend's own `cancel`, if it has one, returns. -/
def cancel (i : Nat) (cancels : Bool) : Op Unit := do
  let x ← transfer i
  raiseFailure x
  if x.terminal = .finalized then
    raise (.tier {
      kind := .state
      message := s!"{x.direction.text} transfer {x.sequence} is already finalized"
      sourceReusable := true
      destinationReusable := true
      destinationPublishable := decide (x.direction = .restore) })
  else
    let failure ← onTier (KvTier.cancelTransfer x cancels)
    if cancels then put i { x with terminal := .cancelled, failure := some failure }
    else
      put i { x with terminal := .failed, failure := some failure }
      raise (.tier failure)

def begin (m : KvTier.Op TierTransfer) : Op Unit := do
  let x ← onTier m
  modify fun sys => { sys with transfers := sys.transfers ++ [x] }

/-- `offload`: begin, wait and finalize. -/
def offload (keys : List TierKey) (pages : List Nat) (submits completes : Bool) (actual : Option (Nat → Checksum))
    (records : Bool) : Op Bool := do
  let sys ← get
  begin (KvTier.beginOffload keys pages submits)
  let _ ← wait sys.transfers.length completes
  finalize sys.transfers.length none actual records

/-- `restore`: begin, wait and finalize. -/
def restore (keys : List TierKey) (pages : List Nat) (submits completes : Bool) (actual : Option (Nat → Checksum))
    (records : Bool) : Op Bool := do
  let sys ← get
  begin (KvTier.beginRestore keys pages none actual submits)
  let _ ← wait sys.transfers.length completes
  finalize sys.transfers.length none actual records

/-- A call, with what the backend and the host bytes decide during it. -/
inductive Call where
  | beginOffload (keys : List TierKey) (pages : List Nat) (submits : Bool)
  | beginRestore (keys : List TierKey) (pages : List Nat) (expected : Option String)
      (actual : Option (Nat → Checksum)) (submits : Bool)
  | ready (i : Nat) (answer : Option Bool)
  | wait (i : Nat) (completes : Bool)
  | finalize (i : Nat) (answer : Option Bool) (actual : Option (Nat → Checksum)) (records : Bool)
  | cancel (i : Nat) (cancels : Bool)
  | discard (keys : List TierKey)
  | availablePrefix (keys : List TierKey) (minPages : Nat)

def perform : Call → Op Unit
  | .beginOffload keys pages submits => begin (KvTier.beginOffload keys pages submits)
  | .beginRestore keys pages expected actual submits => begin (KvTier.beginRestore keys pages expected actual submits)
  | .ready i answer => do let _ ← ready i answer
  | .wait i completes => do let _ ← wait i completes
  | .finalize i answer actual records => do let _ ← finalize i answer actual records
  | .cancel i cancels => cancel i cancels
  | .discard keys => do let _ ← onTier (KvTier.discard keys)
  | .availablePrefix keys minPages => do let _ ← onTier (KvTier.availablePrefix keys minPages)

/-- Whether a call returns or raises, the system goes on from the state it leaves. -/
def step (sys : TierSystem) (call : Call) : TierSystem := (perform call sys).2

def run (sys : TierSystem) (calls : List Call) : TierSystem := calls.foldl step sys

def new (capacityPages numPages : Nat) (fingerprint : String) : TierSystem where
  tier := KvTier.new capacityPages numPages fingerprint

end TierSystem

end Kairyu
