/-
  Kairyu/ResponseClient.lean
  ==========================
  **What a client reads from a Responses stream.**

  `Client` is a strict reader: it accepts an event only with the next sequence number, an
  added item only with the next index while no item is in progress, a delta only for the
  item in progress and of its kind, a done event only with the concatenation of the
  item's deltas, and a snapshot only when it is what the client accumulated.  Every call
  of the emitter is accepted and leaves the client with the emitter's own snapshot
  (`Emits`), which composes along the frames.
-/
import Kairyu.ResponseEvents

namespace Kairyu

open List Option

open Item (wire text)

namespace WireItem

def id : WireItem → Text
  | .message id .. | .reasoning id .. | .functionCall id .. => id

def status : WireItem → ItemStatus
  | .message _ status _ | .reasoning _ status .. | .functionCall _ status .. => status

/-- In progress, and nothing in it yet. -/
def fresh : WireItem → Bool
  | .message _ status content => status == .inProgress && content == []
  | .reasoning _ status content encrypted =>
    status == .inProgress && content == [] && encrypted == none
  | .functionCall _ status _ _ arguments _ => status == .inProgress && arguments == []

/-- The first part of the item's content, empty and of the item's kind. -/
def addPart (part : ContentPart) : WireItem → Option WireItem
  | .message id status [] =>
    if part = .outputText [] then some (.message id status [part]) else none
  | .reasoning id status [] encrypted =>
    if part = .reasoningText [] then some (.reasoning id status [part] encrypted) else none
  | _ => none

/-- A delta of the item's kind. -/
def addDelta (kind : ItemKind) (delta : Text) : WireItem → Option WireItem
  | .message id status [.outputText t] =>
    if kind = .message then some (.message id status [.outputText (t ++ delta)]) else none
  | .reasoning id status [.reasoningText t] encrypted =>
    if kind = .reasoning then some (.reasoning id status [.reasoningText (t ++ delta)] encrypted)
    else none
  | .functionCall id status callId name arguments nameSpace =>
    if kind = .functionCall then
      some (.functionCall id status callId name (arguments ++ delta) nameSpace)
    else none
  | _ => none

/-- The concatenated deltas of an item of this kind. -/
def deltas (kind : ItemKind) : WireItem → Option Text
  | .message _ _ [.outputText t] => if kind = .message then some t else none
  | .reasoning _ _ [.reasoningText t] _ => if kind = .reasoning then some t else none
  | .functionCall _ _ _ _ arguments _ => if kind = .functionCall then some arguments else none
  | _ => none

def content : WireItem → List ContentPart
  | .message _ _ content | .reasoning _ _ content _ => content
  | .functionCall .. => []

def name : WireItem → Option Text
  | .functionCall _ _ _ name _ _ => name
  | _ => none

/-- The item with another status and, for reasoning, another seal. -/
def settledAs (done : WireItem) : WireItem → WireItem
  | .message id _ content => .message id done.status content
  | .reasoning id _ content encrypted =>
    .reasoning id done.status content (match done with
      | .reasoning _ _ _ sealed => sealed
      | _ => encrypted)
  | .functionCall id _ callId name arguments nameSpace =>
    .functionCall id done.status callId name arguments nameSpace

/-- A half-written item of a failed response. -/
def abandoned : WireItem → WireItem
  | .message id .inProgress content => .message id .incomplete content
  | .reasoning id .inProgress content encrypted => .reasoning id .incomplete content encrypted
  | .functionCall id .inProgress callId name arguments nameSpace =>
    .functionCall id .incomplete callId name arguments nameSpace
  | item => item

end WireItem

/-- How far the item in progress is, if there is one. -/
inductive Stage where
  | idle
  | added
  | streaming
  | textDone
  | partDone
  | failing
  | ended
deriving DecidableEq, Repr

structure Client where
  /-- The number of events received. -/
  received : Nat := 0
  items : List WireItem := []
  stage : Stage := .idle
deriving DecidableEq

open Client

namespace Client

/-- The last item, when it is the one with this index and the client is at this stage. -/
def current (c : Client) (stage : Stage) (index : Nat) : Option WireItem :=
  if c.stage = stage ∧ index + 1 = c.items.length then c.items.getLast? else none

/-- The current item, which must also have this identifier. -/
def named (c : Client) (stage : Stage) (index : Nat) (id : Text) : Option WireItem :=
  (c.current stage index).filter fun item => decide (item.id = id)

/-- The current item replaced, and the next stage. -/
def replace (c : Client) (item : WireItem) (stage : Stage) : Client :=
  { c with items := c.items.dropLast ++ [item], stage }

def delta (c : Client) (kind : ItemKind) (id : Text) (index : Nat) (delta : Text) : Option Client := do
  let item ← c.named .streaming index id
  let item ← item.addDelta kind delta
  return c.replace item .streaming

/-- A done event for the item's text, which must be the concatenation of its deltas. -/
def done (c : Client) (kind : ItemKind) (id : Text) (index : Nat) (text : Text) (next : Stage) :
    Option Client := do
  let item ← c.named .streaming index id
  if item.deltas kind = some text then some { c with stage := next } else none

/-- The snapshot of a lifecycle event. -/
def snapshot (c : Client) (response : ResponseEnvelope) : Option Client :=
  if response.output = c.items ∧ c.stage ≠ .failing ∧ c.stage ≠ .ended then some c else none

/-- One event, its sequence number apart. -/
def receive (c : Client) : ResponseEvent → Option Client
  | .created response | .inProgress response => c.snapshot response
  | .outputItemAdded index item =>
    if c.stage = .idle ∧ index = c.items.length ∧ item.fresh then
      some { c with
        items := c.items ++ [item]
        stage := match item with
          | .functionCall .. => .streaming
          | _ => .added }
    else none
  | .contentPartAdded id index part => do
    let item ← c.named .added index id
    let item ← item.addPart part
    return c.replace item .streaming
  | .outputTextDelta id index text => c.delta .message id index text
  | .reasoningTextDelta id index text => c.delta .reasoning id index text
  | .functionCallArgumentsDelta id index text => c.delta .functionCall id index text
  | .outputTextDone id index text => c.done .message id index text .textDone
  | .reasoningTextDone id index text => c.done .reasoning id index text .textDone
  | .contentPartDone id index part => do
    let item ← c.named .textDone index id
    if item.content = [part] then some { c with stage := .partDone } else none
  | .functionCallArgumentsDone id index arguments name => do
    let item ← c.named .streaming index id
    if item.name = name then c.done .functionCall id index arguments .partDone else none
  | .outputItemDone index item => do
    let last ← c.current .partDone index
    if item.status ≠ .inProgress ∧ item = item.settledAs last then some (c.replace item .idle)
    else none
  | .completed response | .incomplete response =>
    if c.stage = .idle ∧ response.output = c.items then some { c with stage := .ended } else none
  | .error _ _ _ =>
    if c.stage ≠ .failing ∧ c.stage ≠ .ended then some { c with stage := .failing } else none
  | .failed response =>
    if c.stage = .failing ∧ response.output = c.items.map WireItem.abandoned then
      some { c with items := c.items.map WireItem.abandoned, stage := .ended }
    else none

/-- One frame: the next sequence number, and an event the client accepts. -/
def step (c : Client) (frame : Frame) : Option Client :=
  if frame.sequenceNumber = c.received then
    (c.receive frame.event).map fun c => { c with received := c.received + 1 }
  else none

def run (c : Client) : List Frame → Option Client
  | [] => some c
  | frame :: rest => (c.step frame).bind fun c => c.run rest

theorem current_snoc (n : Nat) (items : List WireItem) (item : WireItem) (stage : Stage)
    {index : Nat} (h : index = items.length) :
    (⟨n, items ++ [item], stage⟩ : Client).current stage index = some item := by
  simp [current, h]

theorem named_snoc (n : Nat) (items : List WireItem) (item : WireItem) (stage : Stage)
    {index : Nat} {id : Text} (h : index = items.length) (hid : item.id = id) :
    (⟨n, items ++ [item], stage⟩ : Client).named stage index id = some item := by
  rw [named, current_snoc n items item stage h]
  simp [hid]

theorem run_append (c : Client) (frames more : List Frame) :
    c.run (frames ++ more) = (c.run frames).bind fun c => c.run more := by
  induction frames generalizing c with
  | nil => rfl
  | cons frame rest ih => simp only [cons_append, run, bind_assoc, ih]

variable {c d : Client} {event : ResponseEvent} {frames : List Frame}

/-- Receiving does not count; `step` does. -/
theorem receive_received (h : c.receive event = some d) : d.received = c.received := by
  cases event <;>
    simp only [receive, snapshot, delta, done, replace, Option.bind_eq_bind,
      bind_eq_some_iff] at h <;>
    grind

theorem run_cons {frame : Frame} (h : c.run (frame :: frames) = some d) : frame.sequenceNumber = c.received ∧
    ∃ c0, c.receive frame.event = some c0 ∧ { c0 with received := c0.received + 1 }.run frames = some d := by
  obtain ⟨c1, hstep, hrest⟩ := bind_eq_some_iff.mp h
  obtain ⟨hnumber, hmap⟩ := ite_none_right_eq_some.mp hstep
  obtain ⟨c0, hreceive, rfl⟩ := map_eq_some_iff.mp hmap
  exact ⟨hnumber, c0, hreceive, hrest⟩

/-- **Sequence numbers** are gapless. -/
theorem run_sequence (h : c.run frames = some d) :
    frames.map (·.sequenceNumber) = List.range' c.received frames.length ∧ d.received = c.received + frames.length := by
  induction frames generalizing c with
  | nil =>
    cases h
    simp
  | cons frame rest ih =>
    obtain ⟨hnumber, c0, hreceive, hrest⟩ := run_cons h
    obtain ⟨hnumbers, hcount⟩ := ih hrest
    rw [receive_received hreceive] at hnumbers hcount
    refine ⟨?_, by simp only [hcount, length_cons]; omega⟩
    simp [List.range'_succ, hnumber, hnumbers]

/-- The number of items that are done. -/
def finished (c : Client) : Nat :=
  match c.stage with
  | .idle | .failing | .ended => c.items.length
  | _ => c.items.length - 1

/-- The index of the item an event finishes. -/
def doneIndex : ResponseEvent → Option Nat
  | .outputItemDone index _ => some index
  | _ => none

theorem receive_finished (h : c.receive event = some d) (hfailing : d.stage ≠ .failing) (hended : d.stage ≠ .ended) :
    c.stage ≠ .failing ∧ c.stage ≠ .ended ∧ d.finished = c.finished + (doneIndex event).toList.length ∧
      ∀ index ∈ doneIndex event, index = c.finished := by
  cases event <;>
    simp only [receive, snapshot, delta, done, replace, named, current, bind_eq_bind, Option.bind_eq_some_iff] at h <;>
    grind [finished, doneIndex]

/-- **Every item is done once**, in order. -/
theorem run_finished (h : c.run frames = some d) (hfailing : d.stage ≠ .failing) (hended : d.stage ≠ .ended) :
    c.stage ≠ .failing ∧ c.stage ≠ .ended ∧ c.finished ≤ d.finished ∧
      frames.filterMap (fun frame => doneIndex frame.event) = List.range' c.finished (d.finished - c.finished) := by
  induction frames generalizing c with
  | nil =>
    cases h
    simp [hfailing, hended]
  | cons frame rest ih =>
    obtain ⟨-, c0, hreceive, hrest⟩ := run_cons h
    obtain ⟨hfailing0, hended0, hle, hindices⟩ := ih hrest
    obtain ⟨hfailing', hended', hcount, hindex⟩ := receive_finished hreceive hfailing0 hended0
    have hsame : { c0 with received := c0.received + 1 }.finished = c0.finished := rfl
    rw [hsame, hcount] at hle hindices
    refine ⟨hfailing', hended', by omega, ?_⟩
    cases hdone : doneIndex frame.event with
    | none =>
      simpa [hdone] using hindices
    | some index =>
      rw [hdone] at hindices hle
      simp only [toList_some, length_singleton] at hindices hle
      have hnext : d.finished - c.finished = d.finished - (c.finished + 1) + 1 := by omega
      rw [hnext, List.range'_succ, ← hindices]
      simp [hdone, hindex index hdone]

/-- The events of one call, from the client's next sequence number on. -/
def receiveAll (c : Client) : List ResponseEvent → Option Client
  | [] => some c
  | event :: rest =>
    (c.receive event).bind fun c => receiveAll { c with received := c.received + 1 } rest

theorem run_mapIdx (c : Client) (events : List ResponseEvent) :
    c.run (events.mapIdx fun i event => ⟨c.received + i, event⟩) = c.receiveAll events := by
  induction events generalizing c with
  | nil => rfl
  | cons event rest ih =>
    simp only [mapIdx_cons, run, step, Nat.add_zero, if_true, receiveAll]
    cases hreceive : c.receive event with
    | none => rfl
    | some d =>
      simp only [map_some, bind_some]
      have hshift : ∀ i, c.received + (i + 1) = d.received + 1 + i := by
        intro i
        rw [receive_received hreceive]
        omega
      simp only [← ih, hshift]

/-- Only the last item can be in progress, and none is between items or at the end. -/
structure Settled (c : Client) : Prop where
  before : ∀ item ∈ c.items.dropLast, item.status ≠ .inProgress
  idle : c.stage = .idle ∨ c.stage = .ended → ∀ item ∈ c.items, item.status ≠ .inProgress

theorem status_abandoned (item : WireItem) : item.abandoned.status ≠ .inProgress := by
  rcases item with ⟨id, status, content⟩ | ⟨id, status, content, encrypted⟩ |
    ⟨id, status, callId, name, arguments, nameSpace⟩ <;>
  cases status <;> simp [WireItem.abandoned, WireItem.status]

theorem Settled.replace {c : Client} {item : WireItem} {stage : Stage} (h : c.Settled)
    (hitem : stage = .idle → item.status ≠ .inProgress) (hstage : stage ≠ .ended) : (c.replace item stage).Settled := by
  refine ⟨by simpa [Client.replace] using h.before, fun hidle item' hmem => ?_⟩
  rcases mem_append.mp hmem with hmem | hmem
  · exact h.before item' hmem
  · rw [mem_singleton.mp hmem]
    rcases hidle with hidle | hidle
    · exact hitem hidle
    · exact absurd hidle hstage

theorem Settled.stage {c : Client} {stage : Stage} (h : c.Settled)
    (hstage : stage ≠ .idle ∧ stage ≠ .ended) : { c with stage }.Settled :=
  ⟨h.before, fun hidle => absurd hidle (by simp [hstage])⟩

theorem receive_settled (h : c.Settled) (hreceive : c.receive event = some d) : d.Settled := by
  have hdelta : ∀ kind id index text, c.delta kind id index text = some d → d.Settled := by
    intro kind id index text hdelta
    simp only [delta, Option.bind_eq_bind, Option.bind_eq_some_iff, Option.pure_def, Option.some.injEq] at hdelta
    obtain ⟨item, -, item', -, rfl⟩ := hdelta
    exact h.replace (by simp) (by simp)
  have hdone : ∀ kind id index text next, next ≠ .idle ∧ next ≠ .ended →
      c.done kind id index text next = some d → d.Settled := by
    intro kind id index text next hnext hdone
    simp only [done, Option.bind_eq_bind, Option.bind_eq_some_iff, Option.ite_none_right_eq_some,
      Option.some.injEq] at hdone
    obtain ⟨item, -, -, rfl⟩ := hdone
    exact h.stage hnext
  have hsnapshot : ∀ response, c.snapshot response = some d → d.Settled := by
    intro response hsnapshot
    simp only [snapshot, Option.ite_none_right_eq_some, Option.some.injEq] at hsnapshot
    exact hsnapshot.2 ▸ h
  cases event <;>
    simp only [receive, Option.bind_eq_bind, Option.pure_def, Option.bind_eq_some_iff, Option.ite_none_right_eq_some,
      Option.some.injEq] at hreceive
  case created | inProgress => exact hsnapshot _ hreceive
  case outputTextDelta | reasoningTextDelta | functionCallArgumentsDelta => exact hdelta _ _ _ _ hreceive
  case outputTextDone | reasoningTextDone => exact hdone _ _ _ _ _ (by simp) hreceive
  case outputItemAdded index item =>
    obtain ⟨⟨hidle, -⟩, rfl⟩ := hreceive
    refine ⟨by simpa using h.idle (Or.inl hidle), fun hstage => ?_⟩
    cases item <;> simp at hstage
  case contentPartAdded =>
    obtain ⟨item, -, item', -, rfl⟩ := hreceive
    exact h.replace (by simp) (by simp)
  case contentPartDone =>
    obtain ⟨item, -, -, rfl⟩ := hreceive
    exact h.stage (by simp)
  case functionCallArgumentsDone =>
    obtain ⟨item, -, -, hreceive⟩ := hreceive
    exact hdone _ _ _ _ _ (by simp) hreceive
  case outputItemDone =>
    obtain ⟨last, -, ⟨hstatus, -⟩, rfl⟩ := hreceive
    exact h.replace (fun _ => hstatus) (by simp)
  case completed | incomplete =>
    obtain ⟨⟨hidle, -⟩, rfl⟩ := hreceive
    exact ⟨h.before, fun _ => h.idle (Or.inl hidle)⟩
  case error =>
    obtain ⟨-, rfl⟩ := hreceive
    exact h.stage (by simp)
  case failed =>
    obtain ⟨-, rfl⟩ := hreceive
    have hall : ∀ item ∈ c.items.map WireItem.abandoned, item.status ≠ .inProgress := by
      intro item hmem
      obtain ⟨item', -, rfl⟩ := mem_map.mp hmem
      exact status_abandoned item'
    exact ⟨fun item hmem => hall item (mem_of_mem_dropLast hmem), fun _ => hall⟩

/-- **Every item of a finished stream is done.** -/
theorem run_settled (h : c.Settled) (hrun : c.run frames = some d) : d.Settled := by
  induction frames generalizing c with
  | nil =>
    cases hrun
    exact h
  | cons frame rest ih =>
    obtain ⟨-, c0, hreceive, hrest⟩ := run_cons hrun
    obtain ⟨hbefore, hidle⟩ := receive_settled h hreceive
    refine ih (Settled.mk ?_ ?_) hrest
    · exact hbefore
    · exact hidle

/-! #### The events of one call -/

section Calls

variable {n index : Nat} {items : List WireItem} {item item' : WireItem} {part : ContentPart}
  {text : Text} {kind : ItemKind}

variable (hindex : index = items.length)
include hindex

/-- An item with content is added together with its first part. -/
theorem receiveAll_added (hfresh : item.fresh = true) (hpart : item.addPart part = some item') :
    (⟨n, items, .idle⟩ : Client).receiveAll [.outputItemAdded index item, .contentPartAdded item.id index part] =
        some ⟨n + 2, items ++ [item'], .streaming⟩ := by
  have hreceive : (⟨n, items, .idle⟩ : Client).receive (.outputItemAdded index item) =
      some ⟨n, items ++ [item], .added⟩ := by
    cases item with
    | message | reasoning => simp [receive, hindex, hfresh]
    | functionCall => exact nomatch hpart
  have hpart' : (⟨n + 1, items ++ [item], .added⟩ : Client).receive
      (.contentPartAdded item.id index part) = some ⟨n + 1, items ++ [item'], .streaming⟩ := by
    simp [receive, named_snoc (n + 1) items item .added hindex rfl, hpart, replace]
  simp only [receiveAll, hreceive, bind_some, hpart']

theorem delta_snoc {id delta : Text} (hid : item.id = id) (hdelta : item.addDelta kind delta = some item') :
    (⟨n, items ++ [item], .streaming⟩ : Client).delta kind id index delta = some ⟨n, items ++ [item'], .streaming⟩ := by
  simp [Client.delta, named_snoc n items item .streaming hindex hid, hdelta, replace]

theorem done_snoc {id text : Text} {next : Stage} (hid : item.id = id) (hdeltas : item.deltas kind = some text) :
    (⟨n, items ++ [item], .streaming⟩ : Client).done kind id index text next = some ⟨n, items ++ [item], next⟩ := by
  simp [done, named_snoc n items item .streaming hindex hid, hdeltas]

theorem receive_partDone {id : Text} (hid : item.id = id) (hcontent : item.content = [part]) :
    (⟨n, items ++ [item], .textDone⟩ : Client).receive (.contentPartDone id index part) =
      some ⟨n, items ++ [item], .partDone⟩ := by
  simp [receive, named_snoc n items item .textDone hindex hid, hcontent]

theorem receive_itemDone (hstatus : item'.status ≠ .inProgress) (hsettled : item' = item'.settledAs item) :
    (⟨n, items ++ [item], .partDone⟩ : Client).receive (.outputItemDone index item') =
      some ⟨n, items ++ [item'], .idle⟩ := by
  simp [receive, current_snoc n items item .partDone hindex, hstatus, ← hsettled, replace]

end Calls

end Client

namespace ResponseEmitter

variable {e : ResponseEmitter} {pre : List Item} {item : Item}

/-! ### The emitter and its client -/

/-- The client that received all that was emitted so far. -/
def view (e : ResponseEmitter) : Client where
  received := e.sequence
  items := e.output
  stage := if e.openKind.isSome then .streaming else .idle

/-- The client accepts the frames and is left with the snapshot. -/
def Emits (e : ResponseEmitter) (step : List Frame × ResponseEmitter) : Prop :=
  e.view.run step.1 = some step.2.view

theorem emits_nil (e : ResponseEmitter) : Emits e ([], e) := rfl

theorem Emits.append {frames more : List Frame} {e1 e2 : ResponseEmitter}
    (h : Emits e (frames, e1)) (h' : Emits e1 (more, e2)) : Emits e (frames ++ more, e2) := by
  simp only [Emits] at h h' ⊢
  rw [run_append, h, bind_some, h']

/-- The frames of a call, from an emitter that differs from `e` in what it is about to
    announce. -/
theorem emits_events {e' : ResponseEmitter} {evs : List ResponseEvent} (hsequence : e'.sequence = e.sequence)
    (h : e.view.receiveAll evs =
      some { e'.view with received := e.sequence + evs.length }) : Emits e (e'.events evs) := by
  have hview : (e'.events evs).2.view = { e'.view with received := e.sequence + evs.length } := by
    rw [← hsequence]
    rfl
  have hframes : (e'.events evs).1 = evs.mapIdx fun i event => ⟨e.view.received + i, event⟩ := by
    simp [events, view, hsequence]
  rw [Emits, hview, hframes, run_mapIdx, h]

theorem openKind_of_snoc (h : e.items = pre ++ [item]) :
    e.openKind = if item.status = .inProgress then some item.kind else none := by
  simp [openKind, h]

theorem output_of_snoc (h : e.items = pre ++ [item]) : e.output = pre.map wire ++ [item.wire] := by simp [output, h]

/-- The item in progress. -/
theorem exists_last_of_openKind {kind : ItemKind} (h : e.openKind = some kind) :
    ∃ pre item, e.items = pre ++ [item] ∧ item.status = .inProgress ∧ item.kind = kind := by
  rcases eq_nil_or_concat e.items with hnil | ⟨pre, item, hitems⟩
  · simp [openKind, hnil] at h
  · rw [concat_eq_append] at hitems
    rw [openKind_of_snoc hitems] at h
    split at h
    · next hstatus => exact ⟨pre, item, hitems, hstatus, Option.some.inj h⟩
    · exact nomatch h

theorem view_of_idle (h : e.openKind = none) : e.view = ⟨e.sequence, e.output, .idle⟩ := by
  simp [view, h]

theorem view_of_open (h : e.items = pre ++ [item]) (hstatus : item.status = .inProgress) :
    e.view = ⟨e.sequence, pre.map wire ++ [item.wire], .streaming⟩ := by
  simp [view, output_of_snoc h, openKind_of_snoc h, hstatus]

theorem view_of_closed (h : e.items = pre ++ [item]) (hstatus : item.status ≠ .inProgress) :
    e.view = ⟨e.sequence, pre.map wire ++ [item.wire], .idle⟩ := by
  simp [view, output_of_snoc h, openKind_of_snoc h, hstatus]

theorem heartbeat_emits (e : ResponseEmitter) : Emits e e.heartbeat := by
  refine emits_events rfl ?_
  cases h : e.openKind <;>
    simp [receiveAll, receive, snapshot, envelope, view, h]

theorem start_emits (e : ResponseEmitter) : Emits e e.start := by
  refine emits_events rfl ?_
  cases h : e.openKind <;>
    simp [receiveAll, receive, snapshot, envelope, view, h]

theorem beginMessage_emits (h : e.openKind = none) : Emits e e.beginMessage := by
  refine emits_events rfl ?_
  rw [view_of_idle h, view_of_open rfl rfl]
  exact receiveAll_added (by simp [output]) rfl rfl

theorem beginReasoning_emits (h : e.openKind = none) : Emits e e.beginReasoning := by
  refine emits_events rfl ?_
  rw [view_of_idle h, view_of_open rfl rfl]
  exact receiveAll_added (by simp [output]) rfl rfl

theorem beginCall_emits (h : e.openKind = none) (callId name : Text) (nameSpace : Option Text) :
    Emits e (e.beginCall callId name nameSpace) := by
  refine emits_events rfl ?_
  rw [view_of_idle h, view_of_open rfl rfl]
  simp [receiveAll, receive, output, wire, text, WireItem.fresh]

theorem setLast_items (h : e.items = pre ++ [item]) (new : Item) :
    (e.setLast new).items = pre ++ [new] := by simp [setLast, h]

theorem addDelta_wire (item : Item) (t : Text) :
    item.wire.addDelta item.kind t = some { item with parts := item.parts ++ [t] }.wire := by
  cases hkind : item.kind <;> simp [wire, hkind, WireItem.addDelta, text]

theorem wire_id (item : Item) : item.wire.id = item.id := by
  cases hkind : item.kind <;> simp [wire, hkind, WireItem.id]

/-- The texts of the items of one kind, in order. -/
def textOf (kind : ItemKind) (items : List Item) : Text :=
  (items.map fun item => if item.kind = kind then item.text else []).flatten

theorem textOf_snoc (kind : ItemKind) (pre : List Item) (item : Item) :
    textOf kind (pre ++ [item]) = textOf kind pre ++ if item.kind = kind then item.text else [] := by
  simp [textOf]

/-- An open message is the one the text encoder was built for. -/
def Encodes (e : ResponseEmitter) : Prop :=
  ∀ pre item, e.items = pre ++ [item] → item.status = .inProgress → item.kind = .message →
    e.textEncoder = some (item.id, pre.length)

/-- What a call does: the client accepts its frames, and it leaves an item of this kind
    open, with so much more reasoning and so much more message text. -/
structure Effect (e : ResponseEmitter) (step : List Frame × ResponseEmitter) (kind : Option ItemKind)
    (reasoning prose : Text) (answer : Bool) : Prop where
  emits : Emits e step
  openKind : step.2.openKind = kind
  reasoning : textOf .reasoning step.2.items = textOf .reasoning e.items ++ reasoning
  prose : textOf .message step.2.items = textOf .message e.items ++ prose
  hasAnswer : step.2.hasAnswer = (e.hasAnswer || answer)
  encodes : e.Encodes → step.2.Encodes

theorem Effect.append {frames more : List Frame} {e1 e2 : ResponseEmitter}
    {k1 k2 : Option ItemKind} {r1 r2 p1 p2 : Text} {a1 a2 : Bool}
    (h : Effect e (frames, e1) k1 r1 p1 a1) (h' : Effect e1 (more, e2) k2 r2 p2 a2) :
    Effect e (frames ++ more, e2) k2 (r1 ++ r2) (p1 ++ p2) (a1 || a2) where
  emits := h.emits.append h'.emits
  openKind := h'.openKind
  reasoning := by rw [h'.reasoning, h.reasoning, append_assoc]
  prose := by rw [h'.prose, h.prose, append_assoc]
  hasAnswer := by rw [h'.hasAnswer, h.hasAnswer, Bool.or_assoc]
  encodes hencodes := h'.encodes (h.encodes hencodes)

theorem effect_nil (e : ResponseEmitter) : Effect e ([], e) e.openKind [] [] false :=
  ⟨emits_nil e, rfl, by simp, by simp, by simp, id⟩

theorem heartbeat_effect (e : ResponseEmitter) : Effect e e.heartbeat e.openKind [] [] false :=
  ⟨heartbeat_emits e, rfl, by simp [heartbeat, events], by simp [heartbeat, events],
    by simp [heartbeat, events, hasAnswer], id⟩

theorem start_effect (e : ResponseEmitter) : Effect e e.start e.openKind [] [] false :=
  ⟨start_emits e, rfl, by simp [start, events], by simp [start, events], by simp [start, events, hasAnswer], id⟩

theorem encodes_of_kind (h : e.items = pre ++ [item]) (hkind : item.kind ≠ .message) : e.Encodes := by
  intro pre' item' hitems _ hmessage
  obtain ⟨-, rfl⟩ := append_singleton_inj.mp (h.symm.trans hitems)
  exact absurd hmessage hkind

theorem encodes_of_closed (h : e.openKind = none) : e.Encodes := by
  intro pre item hitems hstatus _
  rw [openKind_of_snoc hitems, if_pos hstatus] at h
  exact nomatch h

/-- A call that adds an item with nothing in it. -/
theorem effect_of_added {step : List Frame × ResponseEmitter} (hemits : Emits e step)
    (hitems : step.2.items = e.items ++ [item]) (hstatus : item.status = .inProgress)
    (hparts : item.parts = []) (hencodes : step.2.Encodes) :
    Effect e step (some item.kind) [] [] (item.kind == .message || item.kind == .functionCall) := by
  have htext : item.text = [] := by simp [text, hparts]
  refine ⟨hemits, ?_, ?_, ?_, ?_, fun _ => hencodes⟩
  · rw [openKind_of_snoc hitems, if_pos hstatus]
  · rw [hitems, textOf_snoc, htext, ite_self]
  · rw [hitems, textOf_snoc, htext, ite_self]
  · simp [hasAnswer, hitems]

theorem beginMessage_effect (h : e.openKind = none) : Effect e e.beginMessage (some .message) [] [] true := by
  have hitems : e.beginMessage.2.items = e.items ++ [⟨.message, (e.newId "msg").1, .inProgress, [],
    none, none, none, none⟩] := rfl
  refine effect_of_added (beginMessage_emits h) hitems rfl rfl ?_
  intro pre' item' hitems' _ _
  obtain ⟨rfl, rfl⟩ := append_singleton_inj.mp (hitems.symm.trans hitems')
  rfl

theorem beginReasoning_effect (h : e.openKind = none) : Effect e e.beginReasoning (some .reasoning) [] [] false := by
  have hitems : e.beginReasoning.2.items = e.items ++ [⟨.reasoning, (e.newId "rs").1, .inProgress, [],
    none, none, none, none⟩] := rfl
  exact effect_of_added (beginReasoning_emits h) hitems rfl rfl (encodes_of_kind hitems (by simp))

theorem beginCall_effect (h : e.openKind = none) (callId name : Text) (nameSpace : Option Text) :
    Effect e (e.beginCall callId name nameSpace) (some .functionCall) [] [] true := by
  have hitems : (e.beginCall callId name nameSpace).2.items = e.items ++ [⟨.functionCall,
    (e.newId "fc").1, .inProgress, [], some callId, some name, nameSpace, none⟩] := rfl
  exact effect_of_added (beginCall_emits h callId name nameSpace) hitems rfl rfl
    (encodes_of_kind hitems (by simp))

/-- A delta for the item in progress. -/
theorem effect_of_delta {kind : ItemKind} (hitems : e.items = pre ++ [item])
    (hstatus : item.status = .inProgress) (hkind : item.kind = kind) (t : Text) (event : ResponseEvent)
    (hevent : ∀ c : Client, c.receive event = c.delta kind item.id pre.length t) :
    Effect e ((e.setLast { item with parts := item.parts ++ [t] }).events [event]) (some kind)
      (if kind = .reasoning then t else []) (if kind = .message then t else []) false := by
  subst hkind
  have hnew := setLast_items hitems { item with parts := item.parts ++ [t] }
  have hnew' : ((e.setLast { item with parts := item.parts ++ [t] }).events [event]).2.items =
      pre ++ [{ item with parts := item.parts ++ [t] }] := hnew
  have htext : ({ item with parts := item.parts ++ [t] } : Item).text = item.text ++ t := by
    simp [text]
  refine ⟨emits_events rfl ?_, ?_, ?_, ?_, ?_, ?_⟩
  · rw [view_of_open hitems hstatus, view_of_open hnew hstatus]
    simp only [receiveAll, hevent]
    rw [delta_snoc (by simp) (wire_id item) (addDelta_wire item t)]
    rfl
  · rw [openKind_of_snoc hnew', if_pos hstatus]
  · rw [hnew', hitems, textOf_snoc, textOf_snoc, htext]
    split <;> simp
  · rw [hnew', hitems, textOf_snoc, textOf_snoc, htext]
    split <;> simp
  · simp [hasAnswer, hnew', hitems]
  · intro hencodes pre' item' hitems' _ hmessage
    obtain ⟨rfl, rfl⟩ := append_singleton_inj.mp (hnew'.symm.trans hitems')
    exact hencodes pre item hitems hstatus hmessage

theorem reasoningDelta_effect (h : e.openKind = some .reasoning) (t : Text) :
    ∃ step, e.reasoningDelta t = .ok step ∧ Effect e step (some .reasoning) t [] false := by
  obtain ⟨pre, item, hitems, hstatus, hkind⟩ := exists_last_of_openKind h
  exact ⟨_, by simp [reasoningDelta, hitems], effect_of_delta hitems hstatus hkind t
    (.reasoningTextDelta item.id pre.length t) fun _ => rfl⟩

theorem argumentsDelta_effect (h : e.openKind = some .functionCall) (t : Text) :
    ∃ step, e.argumentsDelta t = .ok step ∧ Effect e step (some .functionCall) [] [] false := by
  obtain ⟨pre, item, hitems, hstatus, hkind⟩ := exists_last_of_openKind h
  exact ⟨_, by simp [argumentsDelta, hitems], effect_of_delta hitems hstatus hkind t
    (.functionCallArgumentsDelta item.id pre.length t) fun _ => rfl⟩

theorem textDelta_effect (h : e.openKind = some .message) (hencodes : e.Encodes) (t : Text) :
    ∃ step, e.textDelta t = .ok step ∧ Effect e step (some .message) [] t false := by
  obtain ⟨pre, item, hitems, hstatus, hkind⟩ := exists_last_of_openKind h
  exact ⟨_, by simp [textDelta, hitems, hencodes pre item hitems hstatus hkind],
    effect_of_delta hitems hstatus hkind t (.outputTextDelta item.id pre.length t) fun _ => rfl⟩

/-! #### Closing -/

theorem settle_spec (e : ResponseEmitter) (item : Item) (status : ItemStatus) :
    (e.settle item status).kind = item.kind ∧ (e.settle item status).id = item.id ∧
      (e.settle item status).parts = item.parts ∧ (e.settle item status).status = status ∧
      (e.settle item status).name = item.name ∧
      (e.settle item status).wire = (e.settle item status).wire.settledAs item.wire := by
  cases hkind : item.kind <;> cases hseal : e.sealReasoning <;>
    simp [settle, hkind, hseal, wire, WireItem.settledAs, WireItem.status, text]

theorem status_wire (item : Item) : item.wire.status = item.status := by
  cases hkind : item.kind <;> simp [wire, hkind, WireItem.status]

/-- The done events of an item, in order. -/
theorem receiveAll_done {n index : Nat} {items : List WireItem} {done : Item}
    (hindex : index = items.length) (hkind : done.kind = item.kind) (hid : done.id = item.id)
    (hparts : done.parts = item.parts) (hname : done.name = item.name)
    (hstatus : done.status ≠ .inProgress) (hsettled : done.wire = done.wire.settledAs item.wire) :
    (⟨n, items ++ [item.wire], .streaming⟩ : Client).receiveAll
        (doneEvents done index ++ [.outputItemDone index done.wire]) =
      some ⟨n + (doneEvents done index ++ [ResponseEvent.outputItemDone index done.wire]).length,
        items ++ [done.wire], .idle⟩ := by
  have hlast : ∀ n, (⟨n, items ++ [item.wire], .partDone⟩ : Client).receive
      (.outputItemDone index done.wire) = some ⟨n, items ++ [done.wire], .idle⟩ := fun n =>
    receive_itemDone hindex (by rwa [status_wire]) hsettled
  have htext : done.text = item.text := by simp [text, hparts]
  have hid' : item.wire.id = done.id := (wire_id item).trans hid.symm
  have hdone : ∀ kind next, item.wire.deltas kind = some done.text →
      (⟨n, items ++ [item.wire], .streaming⟩ : Client).done kind done.id index done.text next =
        some ⟨n, items ++ [item.wire], next⟩ :=
    fun kind next hdeltas => done_snoc hindex hid' hdeltas
  -- The events of an item with a content part.
  have hcontent : ∀ kind event part, (∀ c : Client, c.receive event = c.done kind done.id index done.text .textDone) →
      item.wire.deltas kind = some done.text → item.wire.content = [part] →
      (⟨n, items ++ [item.wire], .streaming⟩ : Client).receiveAll
        [event, .contentPartDone done.id index part, .outputItemDone index done.wire] =
          some ⟨n + 3, items ++ [done.wire], .idle⟩ := by
    intro kind event part hevent hdeltas hcontent
    have hpart := receive_partDone (n := n + 1) hindex hid' hcontent
    simp [receiveAll, hevent, hdone kind .textDone hdeltas, hpart, hlast]
  cases hitem : item.kind with
  | message =>
    simp only [doneEvents, hkind.trans hitem]
    exact hcontent .message _ _ (fun _ => rfl) (by simp [wire, hitem, WireItem.deltas, htext])
      (by simp [wire, hitem, WireItem.content, htext])
  | reasoning =>
    simp only [doneEvents, hkind.trans hitem]
    exact hcontent .reasoning _ _ (fun _ => rfl) (by simp [wire, hitem, WireItem.deltas, htext])
      (by simp [wire, hitem, WireItem.content, htext])
  | functionCall =>
    have hfirst : (⟨n, items ++ [item.wire], .streaming⟩ : Client).receive
        (.functionCallArgumentsDone done.id index done.text done.name) =
          some ⟨n, items ++ [item.wire], .partDone⟩ := by
      have hsame : item.wire.name = done.name := by simp [wire, hitem, WireItem.name, hname]
      have harguments := hdone .functionCall .partDone
        (by simp [wire, hitem, WireItem.deltas, htext])
      simp [receive, named_snoc n items item.wire .streaming hindex hid', hsame, harguments]
    simp [doneEvents, hkind.trans hitem, receiveAll, hfirst, hlast]

theorem close_effect (e : ResponseEmitter) {status : ItemStatus} (hstatus : status ≠ .inProgress) :
    Effect e (e.close status) none [] [] false := by
  rcases eq_nil_or_concat e.items with hnil | ⟨pre, item, hitems⟩
  · have hopen : e.openKind = none := by simp [openKind, hnil]
    have hclose : e.close status = ([], e) := by simp [close, hnil]
    rw [hclose, ← hopen]
    exact effect_nil e
  · rw [concat_eq_append] at hitems
    by_cases hopen : item.status = .inProgress
    · obtain ⟨hkind, hid, hparts, hdone, hname, hsettled⟩ := settle_spec e item status
      have hnew := setLast_items hitems (e.settle item status)
      have hclose : e.close status = (e.setLast (e.settle item status)).events
          (doneEvents (e.settle item status) pre.length ++
            [.outputItemDone pre.length (e.settle item status).wire]) := by
        simp [close, hitems, hopen]
      have hnew' : (e.close status).2.items = pre ++ [e.settle item status] := by
        rw [hclose]
        exact hnew
      have hclosed : (e.close status).2.openKind = none := by
        rw [openKind_of_snoc hnew', hdone, if_neg hstatus]
      have htext : (e.settle item status).text = item.text := by simp [text, hparts]
      refine ⟨?_, hclosed, ?_, ?_, ?_, fun _ => encodes_of_closed hclosed⟩
      · rw [hclose]
        refine emits_events rfl ?_
        rw [view_of_open hitems hopen, view_of_closed hnew (by rwa [hdone])]
        exact receiveAll_done (length_map _).symm hkind hid hparts hname (by rwa [hdone]) hsettled
      · rw [hnew', hitems, textOf_snoc, textOf_snoc, htext, hkind, append_nil]
      · rw [hnew', hitems, textOf_snoc, textOf_snoc, htext, hkind, append_nil]
      · simp [hasAnswer, hnew', hitems, hkind]
    · have hnone : e.openKind = none := by rw [openKind_of_snoc hitems, if_neg hopen]
      have hclose : e.close status = ([], e) := by simp [close, hitems, hopen]
      rw [hclose, ← hnone]
      exact effect_nil e

/-! #### The end of the stream -/

theorem ended_ne_inProgress (c : Prop) [Decidable c] :
    (if c then .incomplete else .completed : ItemStatus) ≠ .inProgress := by
  split <;> simp

theorem complete_run (e : ResponseEmitter) (status : ResponseStatus) (usage : Json) (details : Option Json) :
    ∃ n, e.view.run (e.complete status usage details).2.1 =
      some ⟨n, (e.complete status usage details).1.output, .ended⟩ ∧ (e.complete status usage details).1.output =
        (e.close (if status = .incomplete then .incomplete else .completed)).2.output := by
  have hclose := close_effect e (ended_ne_inProgress (status = .incomplete))
  refine ⟨(e.close (if status = .incomplete then .incomplete else .completed)).2.sequence + 1, ?_, rfl⟩
  simp only [complete]
  rw [run_append, hclose.emits, view_of_idle hclose.openKind]
  by_cases hcompleted : status = .completed <;>
    simp [events, hcompleted, run, step, receive, envelope]

theorem abandoned_wire {item : Item} (h : item.status = .inProgress) :
    item.wire.abandoned = { item with status := .incomplete }.wire := by
  cases hkind : item.kind <;> simp [wire, hkind, h, WireItem.abandoned, text]

theorem abandoned_of_settled {item : WireItem} (h : item.status ≠ .inProgress) : item.abandoned = item := by
  rcases item with ⟨id, status, content⟩ | ⟨id, status, content, encrypted⟩ |
    ⟨id, status, callId, name, arguments, nameSpace⟩ <;>
  cases status <;> simp_all [WireItem.abandoned, WireItem.status]

theorem abandon_output (h : e.view.Settled) : e.abandon.output = e.output.map WireItem.abandoned := by
  have hbefore := h.before
  rcases eq_nil_or_concat e.items with hnil | ⟨pre, item, hitems⟩
  · simp [abandon, hnil, output]
  · rw [concat_eq_append] at hitems
    have hpre : (pre.map wire).map WireItem.abandoned = pre.map wire := by
      refine (map_congr_left fun wire hwire => abandoned_of_settled (hbefore wire ?_)).trans
        (map_id _)
      simp only [view, output_of_snoc hitems, dropLast_concat]
      exact hwire
    rw [output_of_snoc hitems, map_append, hpre]
    by_cases hopen : item.status = .inProgress
    · have habandon : e.abandon = e.setLast { item with status := .incomplete } := by
        simp [abandon, hitems, hopen]
      rw [habandon, output_of_snoc (setLast_items hitems _), map_singleton, abandoned_wire hopen]
    · have habandon : e.abandon = e := by simp [abandon, hitems, hopen]
      rw [habandon, output_of_snoc hitems, map_singleton, abandoned_of_settled (by rwa [status_wire])]

theorem fail_run (h : e.view.Settled) (payload : FailurePayload) (usage : Json) :
    ∃ n, e.view.run (e.fail payload usage).2.1 = some ⟨n, (e.fail payload usage).1.output, .ended⟩ ∧
      (e.fail payload usage).1.output = e.abandon.output := by
  have hsequence : e.abandon.sequence = e.sequence := by
    simp only [abandon]
    split
    · rfl
    · split <;> rfl
  refine ⟨e.sequence + 2, ?_, rfl⟩
  have hstage : e.view.stage ≠ .failing ∧ e.view.stage ≠ .ended := by
    simp only [view]
    split <;> simp
  have habandon : e.abandon.items.map wire = (e.items.map wire).map WireItem.abandoned :=
    abandon_output h
  have hreceived : e.view.received = e.sequence := rfl
  have hitems : e.view.items = e.items.map wire := rfl
  simp only [fail, events, hsequence, envelope, output, habandon]
  simp [run, step, receive, hstage, hreceived, hitems]

end ResponseEmitter

end Kairyu
