/-
  Kairyu/ChatStream.lean
  ======================
  **Chat completions, whole and streamed** (`outputs.py`,
  `entrypoints/server/chat_service.py`, `entrypoints/server/app.py`).

  `buildChoice` turns a finished completion into a message; `streamEngine` puts the
  same completion on the wire while the backend still extends it.

  Reading guide.

    * Metering, traces and the usage chunk carry no delta and are left out.
    * A failure inside the stream is reported by the name of its class only.
    * The parsers of tool calls are parameters of `buildChoice`: without tools no
      call they find is allowed.
-/
import Kairyu.Dict
import Kairyu.Text

namespace Kairyu

/-! ### Completions -/

structure TokenLogprob where
  token : Text
  tokenId : Int
  logprob : UInt64
deriving DecidableEq, Repr

structure CompletionOutput where
  index : Nat
  text : Text
  finishReason : Option String := none
  logprobContent : Option (List TokenLogprob) := none
  textDelta : Option Text := none
  textOffset : Option Int := none
  reasoningContent : Option Text := none
  reasoningDelta : Option Text := none
  reasoningOffset : Option Int := none

/-- A `ValueError` with its message. -/
structure ValueError where
  message : String
deriving DecidableEq, Repr

/-- The part of a cumulative value, or of a delta with its offset, that follows
    `offset`, next to the offset it ends at. -/
def deltaFrom (whole : Text) (delta : Option Text) (start : Option Int) (offset : Nat)
    (incomplete mismatch : String) : Except ValueError (Text × Nat) :=
  match delta, start with
  | none, none => .ok (whole.drop offset, whole.length)
  | some delta, some start =>
    if (offset : Int) = start + delta.length then .ok ([], offset)
    else if start ≠ offset then .error ⟨mismatch⟩
    else .ok (delta, offset + delta.length)
  | _, _ => .error ⟨incomplete⟩

namespace CompletionOutput

def offsetMismatch (kind : String) (offset : Nat) (start : Option Int) : String :=
  let got := match start with
    | none => "None"
    | some start => toString start
  s!"completion {kind} delta offset mismatch: expected {offset}, got {got}"

def deltaAfter (c : CompletionOutput) (offset : Nat) : Except ValueError (Text × Nat) :=
  let mismatch := offsetMismatch "text" offset c.textOffset
  deltaFrom c.text c.textDelta c.textOffset offset mismatch mismatch

def reasoningDeltaAfter (c : CompletionOutput) (offset : Nat) : Except ValueError (Text × Nat) :=
  deltaFrom (c.reasoningContent.getD []) c.reasoningDelta c.reasoningOffset offset
    "completion reasoning delta metadata is incomplete"
    (offsetMismatch "reasoning" offset c.reasoningOffset)

end CompletionOutput

/-! ### Inline reasoning -/

/-- `<think>` -/
def thinkOpening : Text := (Text.of "<think>")

/-- `</think>` -/
def thinkClosing : Text := (Text.of "</think>")

/-- Splits `<think>…</think>` off a growing text.  `reasoning` is `none` until the
    opening is decided, then says whether the text is inside the block. -/
structure ReasoningDeltaParser where
  pending : Text := []
  reasoning : Option Bool := none
deriving DecidableEq, Repr

namespace ReasoningDeltaParser

/-- The part of `feed` inside the block; `pending` includes the new text. -/
def feedReasoning (pending : Text) (final : Bool) : (Text × Text) × ReasoningDeltaParser :=
  match Text.find thinkClosing pending with
  | some markerAt =>
    ((pending.take markerAt, pending.drop (markerAt + thinkClosing.length)),
      { pending := [], reasoning := some false })
  | none =>
    if final then ((pending, []), { pending := [], reasoning := some true })
    else
      let keep := thinkClosing.length - 1
      if pending.length ≤ keep then (([], []), { pending, reasoning := some true })
      else
        ((pending.take (pending.length - keep), []),
          { pending := pending.drop (pending.length - keep), reasoning := some true })

/-- The reasoning and the content that `delta` completes. -/
def feed (p : ReasoningDeltaParser) (delta : Text) (final : Bool) :
    (Text × Text) × ReasoningDeltaParser :=
  match p.reasoning with
  | some false => (([], delta), p)
  | some true => feedReasoning (p.pending ++ delta) final
  | none =>
    let pending := p.pending ++ delta
    if pending <+: thinkOpening ∧ final = false then (([], []), { pending, reasoning := none })
    else if thinkOpening <+: pending then feedReasoning (pending.drop thinkOpening.length) final
    else (([], pending), { pending := [], reasoning := some false })

end ReasoningDeltaParser

/-! ### The whole message -/

structure ToolCall where
  name : Text
  arguments : Text
deriving DecidableEq, Repr

inductive ToolChoiceMode where
  | auto
  | none
  | required
  | named
deriving DecidableEq, Repr

structure NormalizedToolChoice where
  mode : ToolChoiceMode
  /-- A frozen set, read by membership. -/
  allowedNames : List Text
  named : Option Text := .none

def NormalizedToolChoice.allows (choice : NormalizedToolChoice) (name : Text) : Bool :=
  decide (name ∈ choice.allowedNames ∧ (choice.named = none ∨ some name = choice.named))

/-- What `_build_choice` asks of the tool-call parsers on one text. -/
structure ToolCallParsing where
  /-- `_parse_tool_calls` -/
  parseToolCalls : Text → List ToolCall
  /-- `_text_beside_calls` -/
  textBesideCalls : Text → Option Text
  /-- `_bare_invoke_calls`, for a generic protocol and at least one tool -/
  bareInvokeCalls : Text → Option (List ToolCall × Option Text)

structure ResponseMessage where
  content : Option Text
  reasoningContent : Option Text
  toolCalls : List ToolCall := []

structure Choice where
  index : Nat
  message : ResponseMessage
  finishReason : String

/-- The reasoning block of a whole text, when the caller asked for reasoning. -/
def splitReasoning (text : Text) : Option Text × Text :=
  let hasOpening := thinkOpening <+: text
  let candidate := if hasOpening then text.drop thinkOpening.length else text
  match Text.find thinkClosing candidate with
  | some at_ => (some (candidate.take at_), candidate.drop (at_ + thinkClosing.length))
  | none => if hasOpening then (some candidate, []) else (none, text)

def buildChoice (parsing : ToolCallParsing) (hasTools : Bool) (index : Nat) (text : Text)
    (toolChoice : NormalizedToolChoice) (finishReason : Option String)
    (reasoningContent : Option Text) (reasoningEffort : Option String) : Choice :=
  let (reasoningContent, text) :=
    if reasoningContent = none ∧ reasoningEffort ≠ none ∧ reasoningEffort ≠ some "none" then
      splitReasoning text
    else (reasoningContent, text)
  let allowed (call : ToolCall) : Bool := toolChoice.allows call.name
  let (toolCalls, content) :=
    if toolChoice.mode = .none then ([], none)
    else
      let toolCalls := (parsing.parseToolCalls text).filter allowed
      let content := parsing.textBesideCalls text
      match (if toolCalls = [] ∧ hasTools then parsing.bareInvokeCalls text else none) with
      | some recovered => if recovered.1.all allowed then recovered else (toolCalls, content)
      | none => (toolCalls, content)
  if toolCalls ≠ [] then
    { index, message := { content, reasoningContent, toolCalls }, finishReason := "tool_calls" }
  else
    { index, message := { content := some text, reasoningContent }
      finishReason :=
        if finishReason = some "tool_calls" then "stop" else finishReason.getD "stop" }

/-! ### The stream -/

/-- One `GenerationResult` of a backend stream. -/
structure GenerationPartial where
  completions : List CompletionOutput
  finished : Bool

structure ChatRequest where
  reasoningEffort : Option String := none
  logprobs : Bool := false

/-- A chunk on the wire; `first` chunks carry the role. -/
inductive ChatEvent where
  | reasoning (index : Nat) (first : Bool) (text : Text)
  | content (index : Nat) (first : Bool) (text : Text) (logprobs : Option (List TokenLogprob))
  | finish (index : Nat) (reason : String)
  | error (className : String)
  | done
deriving DecidableEq, Repr

/-- The local variables of `_stream_engine`, each by choice index. -/
structure ChatStream where
  sent : Dict Nat Nat := ∅
  reasoningSent : Dict Nat Nat := ∅
  /-- A set, read by membership. -/
  wireStarted : List Nat := []
  logprobsSent : Dict Nat Nat := ∅
  reasoningParsers : Dict Nat ReasoningDeltaParser := ∅

namespace ChatStream

/-- The new logprobs of a completion, when the caller asked for them. -/
def takeLogprobs (s : ChatStream) (request : ChatRequest) (c : CompletionOutput) :
    Option (List TokenLogprob) × ChatStream :=
  match request.logprobs, c.logprobContent with
  | true, some entries =>
    let fresh := entries.drop ((s.logprobsSent.lookup c.index).getD 0)
    (if fresh = [] then none else some fresh,
      { s with logprobsSent := s.logprobsSent.insert c.index entries.length })
  | _, _ => (none, s)

/-- The chunks for one completion of a partial. -/
def write (s : ChatStream) (index : Nat) (reasoning content : Text)
    (logprobs : Option (List TokenLogprob)) : List ChatEvent × ChatStream :=
  let first := decide (index ∉ s.wireStarted)
  let reasoningEvents := if reasoning = [] then [] else [.reasoning index first reasoning]
  let started := if reasoning = [] then s.wireStarted else index :: s.wireStarted
  let first := decide (index ∉ started)
  let contentEvents :=
    if content = [] ∧ logprobs = none then [] else [.content index first content logprobs]
  let started := if content = [] ∧ logprobs = none then started else index :: started
  (reasoningEvents ++ contentEvents, { s with wireStarted := started })

/-- The reasoning split off a delta: the backend's own wins, an inline block is
    parsed when the caller named an effort. -/
def splitDelta (s : ChatStream) (request : ChatRequest) (index : Nat) (delta remote : Text)
    (final : Bool) : (Text × Text) × ChatStream :=
  if request.reasoningEffort ≠ none ∧ remote = [] then
    let parser := (s.reasoningParsers.lookup index).getD {}
    let fed := parser.feed delta final
    (fed.1, { s with reasoningParsers := s.reasoningParsers.insert index fed.2 })
  else ((remote, delta), s)

/-- One completion of a partial. -/
def onCompletion (request : ChatRequest) (finished : Bool) (s : ChatStream)
    (c : CompletionOutput) : Except ValueError (List ChatEvent × ChatStream) := do
  let previousOffset := (s.sent.lookup c.index).getD 0
  let (deltaText, nextOffset) ← c.deltaAfter previousOffset
  let (remote, nextReasoning) ← c.reasoningDeltaAfter ((s.reasoningSent.lookup c.index).getD 0)
  let s := { s with reasoningSent := s.reasoningSent.insert c.index nextReasoning }
  let ((reasoning, content), s) := s.splitDelta request c.index deltaText remote finished
  if content = [] ∧ reasoning = [] ∧ finished = false then return ([], s)
  let s := { s with sent := s.sent.insert c.index nextOffset }
  let (logprobs, s) := s.takeLogprobs request c
  return s.write c.index reasoning content logprobs

/-- The completions of one partial; a failure keeps what was written before it. -/
def onCompletions (request : ChatRequest) (finished : Bool) (s : ChatStream) :
    List CompletionOutput → List ChatEvent × Except ValueError ChatStream
  | [] => ([], .ok s)
  | c :: rest =>
    match s.onCompletion request finished c with
    | .error e => ([], .error e)
    | .ok (events, s) =>
      let (more, result) := s.onCompletions request finished rest
      (events ++ more, result)

/-- The stream from here on; `last` is the latest partial. -/
def streamFrom (request : ChatRequest) (s : ChatStream) (last : Option GenerationPartial) :
    List GenerationPartial → List ChatEvent
  | [] =>
    ((last.map (·.completions)).getD []).map
        (fun c => .finish c.index (c.finishReason.getD "stop")) ++ [.done]
  | result :: rest =>
    match s.onCompletions request result.finished result.completions with
    | (events, .error _) => events ++ [.error "ValueError", .done]
    | (events, .ok s) => events ++ streamFrom request s (some result) rest

end ChatStream

/-- The chunks of one streamed chat completion. -/
def streamEngine (request : ChatRequest) (partials : List GenerationPartial) : List ChatEvent :=
  ChatStream.streamFrom request {} none partials

/-- What a client reads from the reasoning deltas of one choice. -/
def reasoningOnWire (index : Nat) (events : List ChatEvent) : Text :=
  events.flatMap fun
    | .reasoning i _ text => if i = index then text else []
    | _ => []

/-- What a client reads from the content deltas of one choice. -/
def contentOnWire (index : Nat) (events : List ChatEvent) : Text :=
  events.flatMap fun
    | .content i _ text _ => if i = index then text else []
    | _ => []

end Kairyu
