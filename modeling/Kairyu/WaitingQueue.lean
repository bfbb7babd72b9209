/-
  Kairyu/WaitingQueue.lean
  ========================
  **The waiting queue** (`_IndexedWaitingQueue` of `engine/core/scheduler.py`).

  Without an aging interval the queue is a FIFO whose preempted requests go back
  to the front.  With one it is a heap of `(key, sequence, request id)` beside the
  dictionary of live entries: a removal only deletes from the dictionary, stale
  heap entries are dropped when they surface, and the heap is rebuilt once it has
  grown too large.  Front insertions take negative sequence numbers.

  `WaitingList` is what the queue is for: a plain list, stably sorted by key.

    * The queue is over any `heapq` that keeps its contract (`Heapq`).
    * `priority_age_s` enters as the whole number of nanoseconds the constructor
      rounds it to, an arrival as its own rounded nanoseconds; `none` is an arrival
      that `round` refuses.
-/
import Kairyu.Dict
import Kairyu.EngineRequest
import Kairyu.Heapq
import Mathlib.Data.String.Basic

namespace Kairyu

/-! ### The queue -/

/-- A heap entry; entries are compared as the tuples they are. -/
structure WaitingEntry where
  key : Int
  sequence : Int
  requestId : RequestId
deriving DecidableEq, Repr

namespace WaitingEntry

def tuple (e : WaitingEntry) : Int ×ₗ Int ×ₗ RequestId := toLex (e.key, toLex (e.sequence, e.requestId))

theorem tuple_injective : Function.Injective tuple := by
  rintro ⟨k, s, r⟩ ⟨k', s', r'⟩ h
  simpa [tuple] using h

instance linearOrder : LinearOrder WaitingEntry := LinearOrder.lift' tuple tuple_injective

theorem le_iff {e e' : WaitingEntry} : e ≤ e' ↔ e.key < e'.key ∨ (e.key = e'.key ∧
    (e.sequence < e'.sequence ∨ (e.sequence = e'.sequence ∧ e.requestId ≤ e'.requestId))) := by
  show e.tuple ≤ e'.tuple ↔ _
  rw [tuple, tuple, Prod.Lex.toLex_le_toLex, Prod.Lex.toLex_le_toLex]

end WaitingEntry

inductive WaitingQueueError where
  | duplicate (requestId : RequestId)
  | peekEmpty
  | popEmpty
  | notWaiting (requestId : RequestId)
  | arrivalNotFinite
  | diverged
deriving DecidableEq, Repr

structure WaitingQueue where
  /-- `none` is FIFO, `0` orders by priority alone. -/
  priorityAgeNs : Option Nat
  fifo : List RequestId := []
  heap : List WaitingEntry := []
  priorityEntries : Dict RequestId (Int × Int) := ∅
  nextBackSequence : Int := 0
  nextFrontSequence : Int := -1

/-- Exact signed-integer rank with nanosecond-resolution aging. -/
def priorityKey (priorityAgeNs : Option Nat) (priority : Int) (arrival : Option Int) : Option Int :=
  match priorityAgeNs with
  | none | some 0 => some priority
  | some age => arrival.map fun arrival => priority * age + arrival

namespace WaitingQueue

def priorityEnabled (q : WaitingQueue) : Bool := q.priorityAgeNs.isSome

/-- The heap entries the dictionary backs. -/
def liveEntries (q : WaitingQueue) : List WaitingEntry :=
  q.priorityEntries.entries.map fun e => { key := e.2.1, sequence := e.2.2, requestId := e.1 }

def length (q : WaitingQueue) : Nat :=
  if q.priorityEnabled then q.priorityEntries.entries.length else q.fifo.length

def iter (q : WaitingQueue) : List RequestId :=
  if q.priorityEnabled then (q.liveEntries.insertionSort (· ≤ ·)).map WaitingEntry.requestId else q.fifo

def isLive (q : WaitingQueue) (e : WaitingEntry) : Prop :=
  q.priorityEntries.lookup e.requestId = some (e.key, e.sequence)

instance isLive_decidable (q : WaitingQueue) (e : WaitingEntry) : Decidable (q.isLive e) :=
  inferInstanceAs (Decidable (_ = _))

variable (H : Heapq WaitingEntry) (F : Heapq (WaitingEntry ×ₗ Nat))

def append (q : WaitingQueue) (requestId : RequestId) (priority : Int) (arrival : Option Int)
    (front : Bool) : Except WaitingQueueError Unit × WaitingQueue :=
  if q.priorityEnabled = false then
    if requestId ∈ q.fifo then (.error (.duplicate requestId), q)
    else (.ok (), { q with fifo := if front then requestId :: q.fifo else q.fifo ++ [requestId] })
  else if requestId ∈ q.priorityEntries then (.error (.duplicate requestId), q)
  else
    let sequence := if front then q.nextFrontSequence else q.nextBackSequence
    let q :=
      if front then { q with nextFrontSequence := q.nextFrontSequence - 1 }
      else { q with nextBackSequence := q.nextBackSequence + 1 }
    match priorityKey q.priorityAgeNs priority arrival with
    | none => (.error .arrivalNotFinite, q)
    | some key => (.ok (), { q with
        priorityEntries := q.priorityEntries.insert requestId (key, sequence)
        heap := H.heappush q.heap { key, sequence, requestId } })

/-- The `while self._heap` loop of `_drop_stale_head`. -/
def dropStaleLoop (q : WaitingQueue) : Nat → List WaitingEntry → List WaitingEntry
  | fuel + 1, e :: heap =>
    if q.isLive e then e :: heap
    else
      match H.heappop (e :: heap) with
      | some (_, heap) => q.dropStaleLoop fuel heap
      | none => e :: heap
  | _, heap => heap

/-- The heap shrinks in every round, so its length bounds the loop. -/
def dropStaleHead (q : WaitingQueue) : WaitingQueue :=
  { q with heap := q.dropStaleLoop H q.heap.length q.heap }

def maybeCompact (q : WaitingQueue) : WaitingQueue :=
  if q.heap.length ≤ 64 ∨ q.heap.length ≤ 2 * q.priorityEntries.entries.length then q
  else { q with heap := H.heapify q.liveEntries }

def peek (q : WaitingQueue) : Except WaitingQueueError RequestId × WaitingQueue :=
  if q.priorityEnabled = false then
    match q.fifo with
    | [] => (.error .peekEmpty, q)
    | requestId :: _ => (.ok requestId, q)
  else
    let q := q.dropStaleHead H
    match q.heap with
    | [] => (.error .peekEmpty, q)
    | e :: _ => (.ok e.requestId, q)

def popleft (q : WaitingQueue) : Except WaitingQueueError RequestId × WaitingQueue :=
  if q.priorityEnabled = false then
    match q.fifo with
    | [] => (.error .popEmpty, q)
    | requestId :: fifo => (.ok requestId, { q with fifo })
  else
    let q := q.dropStaleHead H
    match H.heappop q.heap with
    | none => (.error .popEmpty, q)
    | some (e, heap) =>
      if q.isLive e then
        (.ok e.requestId, { q with heap, priorityEntries := q.priorityEntries.erase e.requestId })
      else (.error .diverged, { q with heap })

def remove (q : WaitingQueue) (requestId : RequestId) : Except WaitingQueueError Unit × WaitingQueue :=
  if q.priorityEnabled = false then
    if requestId ∈ q.fifo then (.ok (), { q with fifo := q.fifo.filter (· ≠ requestId) })
    else (.error (.notWaiting requestId), q)
  else if requestId ∈ q.priorityEntries then
    (.ok (), maybeCompact H { q with priorityEntries := q.priorityEntries.erase requestId })
  else (.error (.notWaiting requestId), q)

/-- The `while frontier and len(prefix) < limit` loop of `peek_prefix`; `none` is a
    loop that has not ended. -/
def peekLoop (q : WaitingQueue) (limit : Nat) :
    Nat → List (WaitingEntry ×ₗ Nat) → List RequestId → Option (List RequestId)
  | 0, _, _ => none
  | fuel + 1, frontier, found =>
    if limit ≤ found.length then some found
    else
      match F.expand q.heap frontier with
      | none => some found
      | some (e, frontier) =>
        q.peekLoop limit fuel frontier (if q.isLive e then found ++ [e.requestId] else found)

def peekPrefix (q : WaitingQueue) (limit : Int) : Option (List RequestId) × WaitingQueue :=
  if limit ≤ 0 then (some [], q)
  else if q.priorityEnabled = false then (some (q.fifo.take limit.toNat), q)
  else
    let q := q.dropStaleHead H
    match q.heap with
    | [] => (some [], q)
    | e :: _ => (q.peekLoop F limit.toNat (q.heap.length + 1) [toLex (e, 0)] [], q)

end WaitingQueue

/-! ### The calls -/

inductive WaitingCall where
  | append (requestId : RequestId) (priority : Int) (arrival : Option Int) (front : Bool)
  | popleft
  | peek
  | peekPrefix (limit : Int)
  | remove (requestId : RequestId)
  | iterate
  | length
  | contains (requestId : RequestId)

inductive WaitingReply where
  | done
  | request (requestId : RequestId)
  | requests (requestIds : List RequestId)
  | count (n : Nat)
  | truth (b : Bool)
  | raised (error : WaitingQueueError)
  /-- A loop that does not end. -/
  | hangs
deriving DecidableEq, Repr

/-- The replies to a list of calls, one after the other. -/
def waitingReplies {σ : Type} (step : σ → WaitingCall → WaitingReply × σ) : σ → List WaitingCall → List WaitingReply
  | _, [] => []
  | s, call :: calls => (step s call).1 :: waitingReplies step (step s call).2 calls

/-- What a call that may raise answers. -/
def WaitingReply.ofExcept {α : Type} (reply : α → WaitingReply) : Except WaitingQueueError α → WaitingReply
  | .ok a => reply a
  | .error e => .raised e

def WaitingQueue.call (H : Heapq WaitingEntry) (F : Heapq (WaitingEntry ×ₗ Nat)) (q : WaitingQueue) :
    WaitingCall → WaitingReply × WaitingQueue
  | .append requestId priority arrival front =>
    (q.append H requestId priority arrival front).map (.ofExcept fun _ => .done) id
  | .popleft => (q.popleft H).map (.ofExcept .request) id
  | .peek => (q.peek H).map (.ofExcept .request) id
  | .peekPrefix limit => (q.peekPrefix H F limit).map (fun found => found.elim .hangs .requests) id
  | .remove requestId => (q.remove H requestId).map (.ofExcept fun _ => .done) id
  | .iterate => (.requests q.iter, q)
  | .length => (.count q.length, q)
  | .contains requestId => (.truth (requestId ∈ q.iter), q)

/-! ### The sorted list -/

/-- The waiting requests with their keys, in the order they are served.  A FIFO
    gives every request the same key. -/
structure WaitingList where
  priorityAgeNs : Option Nat
  items : List (Int × RequestId) := []

namespace WaitingList

def ids (l : WaitingList) : List RequestId := l.items.map Prod.snd

/-- A new request goes behind those with its key, or in front of them. -/
def insert (l : WaitingList) (key : Int) (requestId : RequestId) (front : Bool) : WaitingList :=
  { l with items :=
      if front then l.items.orderedInsert (fun a b => a.1 ≤ b.1) (key, requestId)
      else l.items.orderedInsert (fun a b => a.1 < b.1) (key, requestId) }

def call (l : WaitingList) : WaitingCall → WaitingReply × WaitingList
  | .append requestId priority arrival front =>
    if requestId ∈ l.ids then (.raised (.duplicate requestId), l)
    else if l.priorityAgeNs = none then (.done, l.insert 0 requestId front)
    else
      match priorityKey l.priorityAgeNs priority arrival with
      | none => (.raised .arrivalNotFinite, l)
      | some key => (.done, l.insert key requestId front)
  | .popleft =>
    match l.items with
    | [] => (.raised .popEmpty, l)
    | item :: items => (.request item.2, { l with items })
  | .peek =>
    match l.items with
    | [] => (.raised .peekEmpty, l)
    | item :: _ => (.request item.2, l)
  | .peekPrefix limit => (.requests (l.ids.take limit.toNat), l)
  | .remove requestId =>
    if requestId ∈ l.ids then (.done, { l with items := l.items.filter fun item => item.2 ≠ requestId })
    else (.raised (.notWaiting requestId), l)
  | .iterate => (.requests l.ids, l)
  | .length => (.count l.items.length, l)
  | .contains requestId => (.truth (requestId ∈ l.ids), l)

end WaitingList

end Kairyu
