/-
  Kairyu/KvIndex.lean
  ===================
  **The gateway's mirror of a replica's KV blocks** (`orchestration/kv_index.py`).

  A publisher numbers the block events of one cache lifetime (an epoch), keeps a bounded
  journal and a set of the stored hashes, and answers recovery requests from them.  The
  subscriber applies frames to the index and asks for recovery when it sees a gap.

  Reading guide.

    * `KvEventIndex` is a dictionary of `_ReplicaBlocks`, and every method touches the
      entry of one replica, so the methods are stated on the entry.  An absent entry is
      the default one; no replica is forgotten here.
    * Frames and recovery answers carry their envelopes as values: what the publisher
      encodes, the subscriber decodes.
    * The publisher's sender thread holds at most one frame between taking it and sending
      it; `sent` is what left the socket, in order.
    * A Python set that is replaced gets a new `object`; one changed in place keeps it.
-/
import Kairyu.RadixKVCache
import Kairyu.Text

namespace Kairyu

abbrev Epoch := Text
abbrev ReplicaId := Text

/-! ### Block events -/

/-- A validated event: its kind and its hashes. -/
inductive BlockEvent where
  | stored (hashes : List BlockHash)
  | removed (hashes : List BlockHash)
  | cleared
deriving DecidableEq, Repr

/-- `_apply_validated` -/
def BlockEvent.applyTo (hashes : Finset BlockHash) : BlockEvent → Finset BlockHash
  | .stored added => hashes ∪ added.toFinset
  | .removed gone => hashes \ gone.toFinset
  | .cleared => ∅

/-- What `_validate_event` keeps of an event of the cache. -/
def KvEvent.block : KvEvent → BlockEvent
  | .blockStored hashes _ _ _ => .stored hashes
  | .blockRemoved hashes => .removed hashes

/-! ### The index -/

inductive FeedState where
  | unknown
  | live
  | gap
  | syncing
deriving DecidableEq, Repr

structure ReplicaBlocks where
  hashes : Finset BlockHash := ∅
  lastEvent : ℚ := 0
  streamEpoch : Option Epoch := none
  lastSequence : Int := -1
  trusted : Bool := false
  synchronized : Bool := false
  state : FeedState := .unknown
  retiredEpochs : Finset Epoch := ∅
  /-- The identity of the set object in `hashes`. -/
  object : Nat := 0

inductive ApplyResult where
  | applied
  | duplicate
  | gap
  | staleEpoch
deriving DecidableEq, Repr

namespace ReplicaBlocks

def adoptEpoch (entry : ReplicaBlocks) (epoch : Epoch) : ReplicaBlocks :=
  { entry with
    retiredEpochs :=
      match entry.streamEpoch with
      | none => entry.retiredEpochs
      | some previous =>
        if previous = epoch then entry.retiredEpochs else insert previous entry.retiredEpochs
    hashes := ∅
    streamEpoch := some epoch
    lastSequence := -1
    trusted := false
    synchronized := false
    state := .syncing }

/-- Adopts an epoch that is not the entry's. -/
def enterEpoch (entry : ReplicaBlocks) (epoch : Epoch) : ReplicaBlocks :=
  if entry.streamEpoch = some epoch then entry else entry.adoptEpoch epoch

/-- No longer usable for exact routing. -/
def gapped (entry : ReplicaBlocks) : ReplicaBlocks :=
  { entry with trusted := false, synchronized := false, state := .gap }

/-- Usable for exact routing as of now. -/
def confirmed (entry : ReplicaBlocks) (now : ℚ) : ReplicaBlocks :=
  { entry with lastEvent := now, trusted := true, synchronized := true, state := .live }

def isLive (entry : ReplicaBlocks) (staleness now : ℚ) : Bool :=
  entry.trusted && entry.state == .live && decide (now - entry.lastEvent < staleness)

/-- Applies only the next contiguous delta. -/
def applySequenced (entry : ReplicaBlocks) (staleness now : ℚ) (epoch : Epoch) (sequence : Nat)
    (event : BlockEvent) : ApplyResult × ReplicaBlocks :=
  if epoch ∈ entry.retiredEpochs then (.staleEpoch, entry)
  else
    let changedEpoch := decide (entry.streamEpoch ≠ some epoch)
    let wasLive := !changedEpoch && entry.isLive staleness now
    let entry := entry.enterEpoch epoch
    if (sequence : Int) ≤ entry.lastSequence then (.duplicate, entry)
    else if (sequence : Int) ≠ entry.lastSequence + 1 then (.gap, entry.gapped)
    else
      -- Sequence zero is a complete baseline only when the epoch is genuinely new.
      let live := wasLive || (changedEpoch && sequence == 0)
      (.applied,
        { entry with
          hashes := event.applyTo entry.hashes
          lastSequence := sequence
          lastEvent := now
          trusted := live
          state := if live then .live else .syncing
          synchronized := wasLive && entry.synchronized })

def markGap (entry : ReplicaBlocks) (epoch : Epoch) : Bool × ReplicaBlocks :=
  if epoch ∈ entry.retiredEpochs then (false, entry) else (true, (entry.enterEpoch epoch).gapped)

def installSnapshot (entry : ReplicaBlocks) (now : ℚ) (epoch : Epoch) (sequence : Int)
    (hashes : Finset BlockHash) : Bool × ReplicaBlocks :=
  if epoch ∈ entry.retiredEpochs then (false, entry)
  else
    let entry := entry.enterEpoch epoch
    (true, { entry with
      hashes, object := entry.object + 1, lastSequence := sequence }.confirmed now)

def markSynchronized (entry : ReplicaBlocks) (now : ℚ) (epoch : Epoch) (high : Int) :
    Bool × ReplicaBlocks :=
  if epoch ∈ entry.retiredEpochs then (false, entry)
  else if entry.streamEpoch ≠ some epoch ∨ entry.lastSequence ≠ high then (false, entry.gapped)
  else (true, entry.confirmed now)

/-- Refreshes only a stream whose high-water mark is already synchronized. -/
def heartbeat (entry : ReplicaBlocks) (now : ℚ) (epoch : Epoch) (high : Int) : Bool × ReplicaBlocks :=
  if epoch ∈ entry.retiredEpochs then (false, entry)
  else if entry.streamEpoch ≠ some epoch then
    -- An empty high-water mark is itself an authoritative baseline for a new epoch.
    if high = -1 then (true, (entry.adoptEpoch epoch).confirmed now)
    else (false, { entry.adoptEpoch epoch with state := .gap })
  else if high ≠ entry.lastSequence ∨ entry.trusted = false ∨ entry.state ≠ .live then
    (false, entry.gapped)
  else (true, { entry with lastEvent := now, synchronized := true, state := .live })

def expectedSequence (entry : ReplicaBlocks) (epoch : Epoch) : Int :=
  if entry.streamEpoch = some epoch then entry.lastSequence + 1 else 0

/-- The entry takes part in exact routing. -/
def routable (entry : ReplicaBlocks) (staleness now : ℚ) : Bool :=
  entry.streamEpoch.isSome && entry.synchronized && entry.isLive staleness now

end ReplicaBlocks

/-! ### The publisher -/

structure Envelope where
  streamEpoch : Epoch
  sequence : Nat
  event : BlockEvent
deriving DecidableEq

inductive FeedFrame where
  | event (envelope : Envelope)
  | heartbeat (epoch : Epoch) (high : Int)
deriving DecidableEq

def FeedFrame.epoch : FeedFrame → Epoch
  | .event envelope => envelope.streamEpoch
  | .heartbeat epoch _ => epoch

structure Publisher where
  streamEpoch : Epoch
  bufferEvents : Nat
  queueSize : Nat
  queue : List FeedFrame := []
  journal : List Envelope := []
  hashes : Finset BlockHash := ∅
  nextSequence : Nat := 0
  droppedLive : Nat := 0
  /-- The cache generation a callback must belong to. -/
  generation : Nat := 0
  buffer_pos : 1 ≤ bufferEvents := by decide

/-- What `_replay_response` answers. -/
inductive ReplayResponse where
  | events (epoch : Epoch) (high : Int) (events : List Envelope)
  | snapshot (epoch : Epoch) (high : Int) (hashes : Finset BlockHash)

inductive PublisherError where
  | retiredSink
  | epochEmpty
  | epochNotNew
deriving DecidableEq, Repr

namespace Publisher

def high (p : Publisher) : Int := (p.nextSequence : Int) - 1

/-- `_publish` -/
def publish (p : Publisher) (event : BlockEvent) (expectedGeneration : Nat) :
    Except PublisherError Publisher :=
  if expectedGeneration ≠ p.generation then .error .retiredSink
  else
    let envelope : Envelope := ⟨p.streamEpoch, p.nextSequence, event⟩
    let journal := p.journal ++ [envelope]
    let full := p.queueSize ≤ p.queue.length
    .ok { p with
      nextSequence := p.nextSequence + 1
      hashes := event.applyTo p.hashes
      -- The deque keeps its newest entries.
      journal := journal.drop (journal.length - p.bufferEvents)
      -- The journal owns a delta the full queue drops.
      queue := if full then p.queue else p.queue ++ [.event envelope]
      droppedLive := if full then p.droppedLive + 1 else p.droppedLive }

def rotateEpoch (p : Publisher) (next : Epoch) : Except PublisherError Publisher :=
  if next = [] then .error .epochEmpty
  else if next = p.streamEpoch then .error .epochNotNew
  else
    .ok { p with
      streamEpoch := next
      generation := p.generation + 1
      nextSequence := 0
      journal := []
      hashes := ∅
      queue := [] }

/-- The oldest sequence the journal can replay from. -/
def firstAvailable (p : Publisher) : Int :=
  match p.journal with
  | envelope :: _ => envelope.sequence
  | [] => p.high + 1

/-- `_replay_response` -/
def replayResponse (p : Publisher) (epoch : Epoch) (after : Nat) : ReplayResponse :=
  if epoch = p.streamEpoch ∧ p.firstAvailable ≤ after then
    .events p.streamEpoch p.high (p.journal.filter fun envelope => after ≤ envelope.sequence)
  else .snapshot p.streamEpoch p.high p.hashes

end Publisher

/-! ### A feed -/

/-- What the subscriber is doing: reading the socket, waiting for the answer to a recovery
    request, or working on one. -/
inductive SubscriberPhase where
  | idle
  | asking (epoch : Epoch) (requestedFrom : Nat)
  | answered (requestedFrom : Nat) (response : ReplayResponse)
  | replaying (epoch : Epoch) (high : Int) (expected : Nat) (events : List Envelope)

/-- A publisher, its sender thread and its subscriber. -/
structure KvFeed where
  publisher : Publisher
  sender : Option FeedFrame := none
  sent : List FeedFrame := []
  /-- How many of the sent frames the socket has moved past. -/
  read : Nat := 0
  phase : SubscriberPhase := .idle
  entry : ReplicaBlocks := {}

namespace KvFeed

/-- `_recover` begins: the request names the sequence the index expects. -/
def recover (f : KvFeed) (epoch : Epoch) : KvFeed :=
  { f with phase := .asking epoch (f.entry.expectedSequence epoch).toNat }

/-- `_handle_sequenced` -/
def handleSequenced (f : KvFeed) (staleness now : ℚ) : FeedFrame → KvFeed
  | .heartbeat epoch high =>
    match f.entry.heartbeat now epoch high with
    | (true, entry) => { f with entry }
    | (false, entry) =>
      match entry.markGap epoch with
      | (false, entry) => { f with entry }
      | (true, entry) => { f with entry }.recover epoch
  | .event envelope =>
    match f.entry.applySequenced staleness now envelope.streamEpoch envelope.sequence envelope.event with
    | (.gap, entry) => { f with entry }.recover envelope.streamEpoch
    | (_, entry) => { f with entry }

/-- The subscriber takes up an answer. -/
def takeAnswer (f : KvFeed) (now : ℚ) (requestedFrom : Nat) : ReplayResponse → KvFeed
  | .snapshot epoch high hashes =>
    { f with entry := (f.entry.installSnapshot now epoch high hashes).2, phase := .idle }
  | .events epoch high events => { f with phase := .replaying epoch high requestedFrom events }

/-- One round of the loop over replayed events, or what follows it. -/
def replayNext (f : KvFeed) (staleness now : ℚ) (epoch : Epoch) (high : Int) (expected : Nat) :
    List Envelope → KvFeed
  | [] =>
    if (expected : Int) ≠ high + 1 then { f with phase := .idle }
    else { f with entry := (f.entry.markSynchronized now epoch high).2, phase := .idle }
  | envelope :: events =>
    if envelope.sequence ≠ expected then { f with phase := .idle }
    else
      match f.entry.applySequenced staleness now envelope.streamEpoch envelope.sequence envelope.event with
      | (.applied, entry) => { f with entry, phase := .replaying epoch high (expected + 1) events }
      | (.duplicate, entry) => { f with entry, phase := .replaying epoch high (expected + 1) events }
      | (_, entry) => { f with entry, phase := .idle }

end KvFeed

/-- What can happen to a feed. -/
inductive FeedStep where
  | publish (event : BlockEvent) (generation : Nat)
  | rotate (epoch : Epoch)
  /-- The sender takes the oldest queued frame, or makes a heartbeat, or sends. -/
  | take
  | beat
  | send
  /-- The socket delivers the frame sent at a position. -/
  | deliver (position : Nat) (now : ℚ)
  /-- The publisher answers the request, or the subscriber gives up waiting. -/
  | answer
  | timeout
  /-- The subscriber goes on with the answer. -/
  | proceed (now : ℚ)

namespace KvFeed

/-- A step that is not enabled, or that raises, changes nothing. -/
def step (staleness : ℚ) (f : KvFeed) : FeedStep → KvFeed
  | .publish event generation =>
    match f.publisher.publish event generation with
    | .ok publisher => { f with publisher }
    | .error _ => f
  | .rotate epoch =>
    match f.publisher.rotateEpoch epoch with
    | .ok publisher => { f with publisher }
    | .error _ => f
  | .take =>
    match f.sender, f.publisher.queue with
    | none, frame :: queue =>
      { f with publisher := { f.publisher with queue }, sender := some frame }
    | _, _ => f
  | .beat =>
    match f.sender with
    | none => { f with sender := some (.heartbeat f.publisher.streamEpoch f.publisher.high) }
    | some _ => f
  | .send =>
    match f.sender with
    | none => f
    | some frame => { f with sent := f.sent ++ [frame], sender := none }
  | .deliver position now =>
    match f.phase, f.sent[position]? with
    | .idle, some frame => { f with read := position + 1 }.handleSequenced staleness now frame
    | _, _ => f
  | .answer =>
    match f.phase with
    | .asking epoch requestedFrom =>
      { f with phase := .answered requestedFrom (f.publisher.replayResponse epoch requestedFrom) }
    | _ => f
  | .timeout =>
    match f.phase with
    | .asking _ _ => { f with phase := .idle }
    | _ => f
  | .proceed now =>
    match f.phase with
    | .answered requestedFrom response => f.takeAnswer now requestedFrom response
    | .replaying epoch high expected events => f.replayNext staleness now epoch high expected events
    | _ => f

end KvFeed

end Kairyu
