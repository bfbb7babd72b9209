/-
  Kairyu/OrchestratorStream.lean
  ==============================
  **A direct route, streamed** (`orchestration/orchestrator.py`,
  `entrypoints/server/app.py`).

  The orchestrator forwards the partials of one engine and, when the first tier fails
  before it has shown text, starts over on the second.  The server turns each event into
  chunks, with an offset of its own for every choice.

  Reading guide.

    * Usage, traces, notes and the chunks that carry them are left out; so are the status
      and reasoning events of the routes with several agents.
    * An engine is the partials it yields and the class of the exception that ends it.
-/
import Kairyu.ChatStream

namespace Kairyu

/-! ### The orchestrator -/

structure EngineStream where
  partials : List GenerationPartial
  failure : Option String := none

structure OrchestratorResult where
  text : Text
  completions : List CompletionOutput := []

inductive OrchestratorEvent where
  | delta (text : Text) (completions : List CompletionOutput)
  | result (result : OrchestratorResult)
  | error (result : OrchestratorResult) (errorType : String)

/-- Why the loop over an engine's partials was left. -/
inductive DirectFailure where
  | engine (className : String)
  | offset (error : ValueError)
  /-- `"direct stream produced no result"` -/
  | noResult

def DirectFailure.className : DirectFailure → String
  | .engine className => className
  | .offset _ => "ValueError"
  | .noResult => "RuntimeError"

/-- `GenerationResult.text` -/
def GenerationPartial.text (p : GenerationPartial) : Text := (p.completions.head?.map (·.text)).getD []

/-- The local variables of the loop. -/
structure DirectLoop where
  last : Option GenerationPartial := none
  emitted : Nat := 0
  textParts : List Text := []

namespace DirectLoop

def onPartial (s : DirectLoop) (p : GenerationPartial) : Except ValueError (OrchestratorEvent × DirectLoop) :=
  match p.completions with
  | [] => .ok (.delta [] [], { s with last := some p, textParts := s.textParts ++ [[]] })
  | completion :: _ => do
    let (delta, emitted) ← completion.deltaAfter s.emitted
    return (.delta delta p.completions, { last := some p, emitted, textParts := s.textParts ++ [delta] })

/-- The events of the loop, its variables at the end, and the failure that ended it. -/
def run (failure : Option String) (s : DirectLoop) :
    List GenerationPartial → List OrchestratorEvent × DirectLoop × Option DirectFailure
  | [] =>
    match failure with
    | some className => ([], s, some (.engine className))
    | none => ([], s, if s.last.isNone then some .noResult else none)
  | p :: partials =>
    match s.onPartial p with
    | .error error => ([], s, some (.offset error))
    | .ok (event, s) =>
      let (events, rest) := run failure s partials
      (event :: events, rest)

/-- The result of a loop that ended well. -/
def result (s : DirectLoop) : OrchestratorResult where
  text :=
    let text := (s.last.map (·.text)).getD []
    if text ≠ [] then text else s.textParts.flatten
  completions := (s.last.map (·.completions)).getD []

end DirectLoop

def EngineStream.attempt (engine : EngineStream) : List OrchestratorEvent × DirectLoop × Option DirectFailure :=
  DirectLoop.run engine.failure {} engine.partials

/-- What decides about a second attempt, the shown text apart. -/
structure DirectRoute where
  target : String
  hasTier2 : Bool
  multimodal : Bool := false
  tier2Multimodal : Bool := false

namespace DirectRoute

def eligible (route : DirectRoute) : Bool :=
  route.target == "tier1" && route.hasTier2 && (!route.multimodal || route.tier2Multimodal)

/-- Whether the failed first attempt is followed by one on the second tier. -/
def failsOver (route : DirectRoute) (first : EngineStream) : Bool :=
  let (_, s, failure) := first.attempt
  failure.isSome && route.eligible && s.textParts.flatten.isEmpty

/-- The last event of an attempt. -/
def outcome (s : DirectLoop) : Option DirectFailure → OrchestratorEvent
  | none => .result s.result
  | some failure => .error { text := s.textParts.flatten } failure.className

/-- The events of the direct route of `_run_chat_stream`. -/
def stream (route : DirectRoute) (first second : EngineStream) : List OrchestratorEvent :=
  let (events, s, failure) := first.attempt
  if route.failsOver first then
    let (events', s', failure') := second.attempt
    events ++ (events' ++ [outcome s' failure'])
  else events ++ [outcome s failure]

end DirectRoute

/-! ### The server -/

/-- The local variables of `_stream_orchestrator`. -/
structure OrchestratorWire where
  /-- A set, read by membership. -/
  startedChoices : List Nat := []
  sent : Dict Nat Nat := ∅
  logprobsSent : Dict Nat Nat := ∅
  completionParts : List Text := []
  completionLength : Nat := 0
  completions : List CompletionOutput := []

namespace OrchestratorWire

/-- One completion of a snapshot in `fresh_chunks`. -/
def freshChunk (s : OrchestratorWire) (c : CompletionOutput) : Except ValueError (List ChatEvent × OrchestratorWire) := do
  let (deltaText, nextText) ← c.deltaAfter ((s.sent.lookup c.index).getD 0)
  let freshLogprobs := (c.logprobContent.getD []).drop ((s.logprobsSent.lookup c.index).getD 0)
  if deltaText = [] ∧ freshLogprobs = [] ∧ (s.sent.lookup c.index).isSome = true then return ([], s)
  else
    let first := decide (c.index ∉ s.startedChoices)
    let s := { s with
      startedChoices := c.index :: s.startedChoices
      sent := s.sent.insert c.index nextText
      logprobsSent := match c.logprobContent with
        | some entries => s.logprobsSent.insert c.index entries.length
        | none => s.logprobsSent }
    return ([.content c.index first deltaText (if freshLogprobs = [] then none else some freshLogprobs)], s)

/-- The chunks of a sorted snapshot; a failure keeps those before it. -/
def freshSorted (s : OrchestratorWire) : List CompletionOutput → List ChatEvent × Except ValueError OrchestratorWire
  | [] => ([], .ok s)
  | c :: rest =>
    match s.freshChunk c with
    | .error error => ([], .error error)
    | .ok (chunks, s) =>
      let (more, outcome) := s.freshSorted rest
      (chunks ++ more, outcome)

def byIndex (completions : List CompletionOutput) : List CompletionOutput :=
  completions.insertionSort fun a b => a.index ≤ b.index

def freshChunks (s : OrchestratorWire) (completions : List CompletionOutput) :
    List ChatEvent × Except ValueError OrchestratorWire :=
  freshSorted { s with completions } (byIndex completions)

/-- A delta event without completions. -/
def onText (s : OrchestratorWire) (text : Text) : List ChatEvent × OrchestratorWire :=
  let parts := s.completionParts ++ [text]
  let completion := {
    index := 0, text := parts.flatten, textDelta := some text, textOffset := some s.completionLength }
  let length := s.completionLength + text.length
  ([.content 0 (decide (0 ∉ s.startedChoices)) text none],
    { s with
      completionParts := parts
      completions := [completion]
      completionLength := length
      sent := s.sent.insert 0 length
      startedChoices := 0 :: s.startedChoices })

/-- The completions of the last event. -/
def finalCompletions (s : OrchestratorWire) (result : OrchestratorResult) : List CompletionOutput :=
  if result.completions ≠ [] then result.completions
  else
    let text := if result.text ≠ [] then result.text else s.completionParts.flatten
    [{ index := 0, text, finishReason := some "stop" }]

def onEvent (s : OrchestratorWire) : OrchestratorEvent → List ChatEvent × Except ValueError OrchestratorWire
  | .delta text [] =>
    let (chunks, s) := s.onText text
    (chunks, .ok s)
  | .delta _ completions => s.freshChunks completions
  | .result result => s.freshChunks (s.finalCompletions result)
  | .error result _ => s.freshChunks (s.finalCompletions result)

/-- The chunks behind the last event. -/
def finish (s : OrchestratorWire) : List ChatEvent :=
  let final := if s.completions ≠ [] then s.completions else [{ index := 0, text := [], finishReason := some "stop" }]
  (byIndex final).map (fun c => .finish c.index (c.finishReason.getD "stop")) ++ [.done]

/-- The chunks of a stream of events, and the `ValueError` that ended it. -/
def serve (s : OrchestratorWire) : List OrchestratorEvent → List ChatEvent × Option ValueError
  | [] => (s.finish, none)
  | event :: events =>
    match s.onEvent event with
    | (chunks, .error error) => (chunks ++ [.error "ValueError", .done], some error)
    | (chunks, .ok s) =>
      match event with
      | .error _ errorType => (chunks ++ [.error s!"upstream backend error ({errorType})", .done], none)
      | _ =>
        let (more, failure) := s.serve events
        (chunks ++ more, failure)

end OrchestratorWire

end Kairyu
