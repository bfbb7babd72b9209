/-
  Kairyu/ToolStream.lean
  ======================
  **Incremental tool-call scanners** (`entrypoints/server/tool_stream.py`): the four
  protocols, and the fold of their events into content blocks.

  Reading guide.

    * The scanner classes are one structure; a hook that a subclass overrides branches
      on the protocol.  The fields that only one protocol has keep their initial value
      in the others.
    * A method returns its events next to the scanner it leaves.
    * The identifiers of calls are fresh random strings that nothing reads back; they
      are left out.
-/
import Kairyu.ToolCalls

namespace Kairyu

inductive ToolCallProtocol where
  | generic
  | qwen
  | deepseekV4
  | llama
deriving DecidableEq, Repr

inductive ToolStreamEvent where
  | textDelta (text : Text)
  | toolStart (name : Text)
  | toolArgsDelta (partialJson : Text)
  | toolStop
  /-- The protocol became invalid after a call was put on the wire. -/
  | streamInvalid (message : String)
deriving DecidableEq, Repr

/-! ### Markers -/

def genericOpen : Text := Text.of "<tool_call>"
def genericClose : Text := Text.of "</tool_call>"
def dsmlBlockOpen : Text := Text.of "<｜DSML｜tool_calls>"
def dsmlBlockClose : Text := Text.of "</｜DSML｜tool_calls>"
def dsmlInvokeOpen : Text := Text.of "<｜DSML｜invoke name=\""
def dsmlInvokeClose : Text := Text.of "</｜DSML｜invoke>"
def llamaToolPrefix : Text := Text.of "<|python_tag|>"
def llamaToolSuffixes : List Text := [Text.of "<|eom_id|>", Text.of "<|eot_id|>"]

/-- Longest buffer suffix that could still begin one of `watches`. -/
def holdbackLength (buffer : Text) (watches : List Text) : Nat :=
  let limit := min ((watches.map List.length).foldl max 0 - 1) buffer.length
  let keeps := ((List.range limit).map (· + 1)).reverse
  (keeps.find? fun keep => watches.any fun watch =>
    decide (buffer.drop (buffer.length - keep) <+: watch)).getD 0

/-! ### Progressive arguments -/

/-- How far the braces of the arguments object have been followed. -/
structure ArgumentsScan where
  depth : Int := 0
  inString : Bool := false
  escape : Bool := false
  complete : Bool := false
deriving DecidableEq, Repr

namespace ArgumentsScan

def step (a : ArgumentsScan) (c : CodePoint) : ArgumentsScan :=
  if a.inString then
    if a.escape then { a with escape := false }
    else if c = cp '\\' then { a with escape := true }
    else if c = cp '"' then { a with inString := false }
    else a
  else if c = cp '"' then { a with inString := true }
  else if c = cp '{' then { a with depth := a.depth + 1 }
  else if c = cp '}' then { a with depth := a.depth - 1, complete := decide (a.depth - 1 = 0) }
  else a

/-- Follow the text up to the end of the object; the second part was consumed. -/
def run (a : ArgumentsScan) : Text → ArgumentsScan × Text
  | [] => (a, [])
  | c :: cs =>
    if (a.step c).complete then (a.step c, [c])
    else
      let (b, consumed) := run (a.step c) cs
      (b, c :: consumed)

end ArgumentsScan

/-- A call that was opened before its envelope closed. -/
structure Progressive where
  name : Text
  scanAt : Nat
  scan : ArgumentsScan := {}
deriving DecidableEq, Repr

/-- The start of a canonical envelope body. -/
structure ProgressiveMatch where
  /-- The literal of the name, with its quotes. -/
  nameLiteral : Text
  /-- Whether the object stands under `arguments`, and not under `parameters`. -/
  isArguments : Bool
  /-- What follows, from the opening brace of the object on. -/
  rest : Text
deriving DecidableEq, Repr

/-- `"(?:[^"\\]|\\.)*"`, the opening quote read: the literal up to its closing quote.
    After a backslash any character but a newline is taken. -/
def quotedLiteral (escape : Bool) : Text → Option (Text × Text)
  | [] => none
  | c :: cs =>
    if escape then
      if c = cp '\n' then none
      else (quotedLiteral false cs).map fun (literal, rest) => (c :: literal, rest)
    else if c = cp '"' then some ([c], cs)
    else (quotedLiteral (c = cp '\\') cs).map fun (literal, rest) => (c :: literal, rest)

/-- `"(?:arguments|parameters)"`, and whether it was the first -/
def argumentsKeyLiteral (t : Text) : Option (Bool × Text) :=
  match Text.after (Text.of "\"arguments\"") t with
  | some t => some (true, t)
  | none => (Text.after (Text.of "\"parameters\"") t).map fun t => (false, t)

/-- `_GENERIC_PROGRESSIVE_PREFIX` -/
def matchProgressive (body : Text) : Option ProgressiveMatch := do
  let t ← Text.after [cp '{'] (Text.lstrip body)
  let t ← Text.after (Text.of "\"name\"") (Text.lstrip t)
  let t ← Text.after [cp ':'] (Text.lstrip t)
  let t ← Text.after [cp '"'] (Text.lstrip t)
  let (literal, t) ← quotedLiteral false t
  let t ← Text.after [cp ','] (Text.lstrip t)
  let (isArguments, t) ← argumentsKeyLiteral (Text.lstrip t)
  let t ← Text.after [cp ':'] (Text.lstrip t)
  let t := Text.lstrip t
  if t.head? = some (cp '{') then
    return { nameLiteral := cp '"' :: literal, isArguments, rest := t }
  else none

/-- `payload.get("arguments", payload.get("parameters", {}))` -/
def payloadArguments (payload : JsonFields) : Json :=
  ((Json.get payload (Text.of "arguments")).or (Json.get payload (Text.of "parameters"))).getD (.obj [])

/-- Arguments may be a string of JSON. -/
def parsedArguments (codec : FloatCodec) : Json → Option Json
  | .str t => strictJsonLoads codec t
  | arguments => some arguments

/-- `_validated_call` -/
def validatedCall (codec : FloatCodec) (payload : Option Json) : Option (Text × JsonFields) :=
  match payload with
  | some (.obj payload) =>
    match Json.get payload (Text.of "name") with
    | some (.str name) =>
      if Text.blank name then none
      else
        match parsedArguments codec (payloadArguments payload) with
        | some (.obj arguments) =>
          if Json.isFinite (.obj arguments) then some (name, arguments) else none
        | _ => none
    | _ => none
  | _ => none

/-! ### The scanner -/

/-- `_state` of the DSML and Llama scanners; the other two are always `generic`. -/
inductive ScannerState where
  | leading
  | inBlock
  | inInvoke
  | afterBlock
  | start
  | hold
  | generic
deriving DecidableEq, Repr

structure ToolStreamScanner where
  protocol : ToolCallProtocol
  tools : List JsonFields
  choice : NormalizedToolChoice
  buffer : Text := []
  inCall : Bool := false
  rawText : Text := []
  progressive : Option Progressive := none
  committedCalls : Nat := 0
  invalidated : Bool := false
  /-- Qwen: no text but white space outside envelopes so far. -/
  pureSoFar : Bool := true
  qwenCommitted : Bool := false
  state : ScannerState := .generic
  invokeHeader : Text := []

namespace ToolStreamScanner

/-- What a method returns. -/
abbrev Step := List ToolStreamEvent × ToolStreamScanner

/-- Run `next` on the scanner a step leaves. -/
def andThen (step : Step) (next : ToolStreamScanner → Step) : Step :=
  let (events, s) := step
  let (more, s) := next s
  (events ++ more, s)

def allowed (s : ToolStreamScanner) (name : Text) : Bool := s.choice.allows name

def invalidate (s : ToolStreamScanner) (message : String) : Step :=
  ([.streamInvalid message], { s with invalidated := true })

/-- `_text` -/
def text (s : ToolStreamScanner) (t : Text) : Step :=
  let events := if t = [] then [] else [ToolStreamEvent.textDelta t]
  if s.protocol = .qwen ∧ Text.blank t = false then
    if s.qwenCommitted then
      s.invalidate "text outside Qwen tool calls voids the committed calls"
    else (events, { s with pureSoFar := false })
  else (events, s)

variable (codec : FloatCodec)

def commit (s : ToolStreamScanner) (name : Text) (arguments : JsonFields) : Step :=
  ([.toolStart name, .toolArgsDelta (Json.dumps codec (.obj arguments)), .toolStop],
    { s with committedCalls := s.committedCalls + 1 })

/-- The call of a `<function=…>` body. -/
def qwenCall (s : ToolStreamScanner) (body : Text) : Option (Text × JsonFields) := do
  let (name, inner) ← qwenFunction body
  let name := Text.strip name
  if name = [] then none
  else
    let schema ← toolParametersSchema name s.tools
    let arguments ← qwenArguments codec inner schema
    return (name, arguments)

/-- `_close_envelope` -/
def closeEnvelope (s : ToolStreamScanner) (body : Text) : Step :=
  let envelope := genericOpen ++ body ++ genericClose
  match validatedCall codec (strictJsonLoads codec body) with
  | some (name, arguments) =>
    if s.allowed name then s.commit codec name arguments else s.text envelope
  | none =>
    if s.protocol = .qwen ∧ s.pureSoFar = true then
      match s.qwenCall codec body with
      | some (name, arguments) =>
        if s.allowed name then { s with qwenCommitted := true }.commit codec name arguments
        else s.text envelope
      | none => s.text envelope
    else s.text envelope

/-- `_dangling` -/
def dangling (s : ToolStreamScanner) (buffered : Text) : Step :=
  if s.protocol = .qwen ∧ s.qwenCommitted = true then
    s.invalidate "unterminated Qwen tool call voids the committed calls"
  else s.text (genericOpen ++ buffered)

/-- The call that `_progressive_events` may open on this body. -/
def openProgressive (s : ToolStreamScanner) (body : Text) : Option Progressive :=
  match matchProgressive body with
  | none => none
  | some found =>
    match strictJsonLoads codec found.nameLiteral with
    | some (.str name) =>
      if Text.blank name = false ∧ s.allowed name = true then
        some { name, scanAt := body.length - found.rest.length }
      else none
    | _ => none

/-- Follow the arguments of an open call as far as the body goes. -/
def advance (s : ToolStreamScanner) (p : Progressive) (body : Text) : Step :=
  if p.scan.complete then ([], { s with progressive := some p })
  else
    let (scan, consumed) := p.scan.run (body.drop p.scanAt)
    (if consumed = [] then [] else [.toolArgsDelta consumed],
      { s with progressive := some { p with scan, scanAt := p.scanAt + consumed.length } })

/-- `_progressive_events` -/
def progressiveEvents (s : ToolStreamScanner) (body : Text) : Step :=
  match s.progressive with
  | some p => s.advance p body
  | none =>
    match s.openProgressive codec body with
    | none => ([], s)
    | some p =>
      andThen ([.toolStart p.name], { s with committedCalls := s.committedCalls + 1 })
        fun s => s.advance p body

/-- `_finish_progressive`, for the open call `p` -/
def finishProgressive (s : ToolStreamScanner) (p : Progressive) (body : Text) : Step :=
  andThen (s.advance p body) fun s =>
    let complete := (s.progressive.map (·.scan.complete)).getD false
    match validatedCall codec (strictJsonLoads codec body) with
    | some (name, _) =>
      if complete ∧ name = p.name ∧ s.allowed name = true then
        ([.toolStop], { s with progressive := none })
      else s.invalidate "generic tool call became invalid after streaming arguments"
    | none => s.invalidate "generic tool call became invalid after streaming arguments"

/-- No closing marker yet. -/
def awaitClose (s : ToolStreamScanner) (final : Bool) : Step :=
  let progressed :=
    if final = false ∨ s.progressive.isSome then s.progressiveEvents codec s.buffer else ([], s)
  if final then
    andThen progressed fun s =>
      let (events, s) :=
        if s.progressive.isSome then
          s.invalidate "generic tool call ended after streaming unterminated arguments"
        else s.dangling s.buffer
      (events, { s with buffer := [], inCall := false })
  else progressed

/-- No opening marker yet: what cannot begin one is text. -/
def awaitOpen (s : ToolStreamScanner) (final : Bool) : Step :=
  let keep := if final then 0 else holdbackLength s.buffer [genericOpen]
  let cut := s.buffer.length - keep
  { s with buffer := s.buffer.drop cut }.text (s.buffer.take cut)

/-- The loop of `feed`, over a buffer that already holds the new text. -/
def scan (final : Bool) : Nat → ToolStreamScanner → Step
  | 0, s => ([], s)
  | n + 1, s =>
    if s.invalidated then ([], s)
    else if s.inCall then
      match Text.cut genericClose s.buffer with
      | none => s.awaitClose codec final
      | some (body, rest) =>
        let s := { s with buffer := rest, inCall := false }
        andThen
          (match s.progressive with
            | none => s.closeEnvelope codec body
            | some p => s.finishProgressive codec p body)
          (scan final n)
    else
      match Text.cut genericOpen s.buffer with
      | none => s.awaitOpen final
      | some (before, rest) =>
        andThen ({ s with buffer := rest, inCall := true }.text before) (scan final n)

/-- One round of the loop for every marker the buffer can hold, and one more. -/
def scanBuffer (s : ToolStreamScanner) (final : Bool) : Step :=
  scan codec final (s.buffer.length + 1) s

/-- The new text recorded and buffered. -/
def push (s : ToolStreamScanner) (delta : Text) : ToolStreamScanner :=
  { s with rawText := s.rawText ++ delta, buffer := s.buffer ++ delta }

/-- `_fallback_to_generic`: replay the raw text through the generic mode. -/
def fallbackToGeneric (s : ToolStreamScanner) (final : Bool) : Step :=
  { s with buffer := s.rawText, state := .generic, inCall := false }.scanBuffer codec final

/-! #### DSML -/

/-- `_invoke_open_could_grow` -/
def invokeOpenCouldGrow (stripped : Text) : Bool :=
  match Text.after dsmlInvokeOpen stripped with
  | some remainder =>
    match Text.cut [cp '"'] remainder with
    | none => true
    | some (_, rest) => decide (cp '>' ∉ rest)
  | none => decide (stripped <+: dsmlInvokeOpen)

/-- `_match_invoke_open`: the header, and what follows it. -/
def matchInvokeOpen (stripped : Text) : Option (Text × Text) :=
  match Text.after dsmlInvokeOpen stripped with
  | none => none
  | some rest =>
    match Text.cut [cp '"'] rest with
    | none => none
    | some (name, rest) =>
      if cp '\n' ∈ name then none
      else (Text.after [cp '>'] rest).map fun rest =>
        (dsmlInvokeOpen ++ name ++ Text.of "\">", rest)

/-- `_commit_invoke` up to the commit: the call of a whole invocation. -/
def invokedCall (s : ToolStreamScanner) (invokeText : Text) : Option (Text × JsonFields) := do
  let (name, body) ← dsmlInvoke invokeText
  let name := Text.strip name
  if name = [] then none
  else
    let _ ← toolParametersSchema name s.tools
    let arguments ← dsmlParameters codec (body.length + 1) [] body
    let call ← validatedCall codec
      (some (.obj [(Text.of "name", .str name), (Text.of "arguments", .obj arguments)]))
    if s.allowed call.1 then some call else none

/-- `_structure_failure` -/
def structureFailure (s : ToolStreamScanner) (final : Bool) : Step :=
  if s.committedCalls ≠ 0 then
    s.invalidate "malformed DSML tool-call block voids the committed calls"
  else s.fallbackToGeneric codec final

/-- One round of a loop: it breaks, or continues with the scanner it leaves. -/
inductive Round where
  | stop (step : Step)
  | again (step : Step)

/-- A round of the DSML scanner. -/
def dsmlRound (s : ToolStreamScanner) (final : Bool) : Round :=
  match s.state with
  | .leading =>
    let stripped := Text.lstrip s.buffer
    if stripped = [] ∨ (stripped <+: dsmlBlockOpen ∧ final = false) then .stop ([], s)
    else
      match Text.after dsmlBlockOpen stripped with
      | some rest => .again ([], { s with buffer := rest, state := .inBlock })
      | none => .stop (s.fallbackToGeneric codec final)
  | .inBlock =>
    let stripped := Text.lstrip s.buffer
    if stripped = [] then .stop (if final then s.structureFailure codec final else ([], s))
    else if (stripped <+: dsmlBlockClose ∨ stripped <+: dsmlInvokeOpen) ∧ final = false then
      .stop ([], s)
    else
      match Text.after dsmlBlockClose stripped with
      | some rest => .again ([], { s with buffer := rest, state := .afterBlock })
      | none =>
        match matchInvokeOpen stripped with
        | some (header, rest) =>
          .again ([], { s with invokeHeader := header, buffer := rest, state := .inInvoke })
        | none =>
          if final = false ∧ invokeOpenCouldGrow stripped = true then .stop ([], s)
          else .stop (s.structureFailure codec final)
  | .inInvoke =>
    match Text.cut dsmlInvokeClose s.buffer with
    | none => .stop (if final then s.structureFailure codec final else ([], s))
    | some (inner, rest) =>
      match s.invokedCall codec (s.invokeHeader ++ inner ++ dsmlInvokeClose) with
      | none => .stop ({ s with buffer := rest }.structureFailure codec final)
      | some (name, arguments) =>
        .again ({ s with buffer := rest, state := .inBlock }.commit codec name arguments)
  | .afterBlock =>
    .stop (if Text.blank s.buffer then ([], s) else s.structureFailure codec final)
  | .start | .hold | .generic => .stop ([], s)

/-- The loop of the DSML scanner. -/
def scanDsml (final : Bool) : Nat → ToolStreamScanner → Step
  | 0, s => ([], s)
  | n + 1, s =>
    if s.invalidated then ([], s)
    else
      match s.dsmlRound codec final with
      | .stop step => step
      | .again step => andThen step (scanDsml final n)

/-! #### Llama -/

/-- The candidate without the tag around it. -/
def llamaCandidate (buffer : Text) : Text :=
  let candidate := Text.strip buffer
  let candidate := match Text.after llamaToolPrefix candidate with
    | some rest => Text.lstrip rest
    | none => candidate
  match llamaToolSuffixes.find? fun suffix => decide (suffix <:+ candidate) with
  | some suffix => Text.rstrip (candidate.take (candidate.length - suffix.length))
  | none => candidate

/-- `_finalize` -/
def finalize (s : ToolStreamScanner) : Step :=
  match validatedCall codec (strictJsonLoads codec (llamaCandidate s.buffer)) with
  | some (name, arguments) =>
    if s.allowed name then { s with buffer := [] }.commit codec name arguments
    else s.fallbackToGeneric codec true
  | none => s.fallbackToGeneric codec true

/-- The stripped text is a bare or a tagged call so far. -/
def Candidate (stripped : Text) (final : Bool) : Prop :=
  stripped.head? = some (cp '{') ∨ llamaToolPrefix <+: stripped ∨
    (stripped <+: llamaToolPrefix ∧ final = false)

instance (stripped : Text) (final : Bool) : Decidable (Candidate stripped final) :=
  inferInstanceAs (Decidable (_ ∨ _))

/-- A candidate call is held to the end of the text. -/
def holdCall (s : ToolStreamScanner) (final : Bool) : Step :=
  if final then s.finalize codec else ([], s)

/-- `feed` of the Llama scanner, before it fell back -/
def feedLlama (s : ToolStreamScanner) (final : Bool) : Step :=
  let stripped := Text.lstrip s.buffer
  if s.state = .start ∧ stripped ≠ [] then
    if Candidate stripped final then { s with state := .hold }.holdCall codec final
    else s.fallbackToGeneric codec final
  else s.holdCall codec final

/-! #### The entry points -/

/-- `feed` of the four scanners -/
def feed (s : ToolStreamScanner) (delta : Text) (final : Bool) : Step :=
  if s.invalidated then ([], s)
  else
    let s := s.push delta
    match s.state with
    | .generic => s.scanBuffer codec final
    | .start | .hold => s.feedLlama codec final
    | .leading | .inBlock | .inInvoke | .afterBlock => scanDsml codec final (s.buffer.length + 1) s

end ToolStreamScanner

/-- `tool_stream_scanner_for` -/
def toolStreamScannerFor (protocol : ToolCallProtocol) (tools : List JsonFields)
    (choice : NormalizedToolChoice) : ToolStreamScanner :=
  { protocol, tools, choice
    state := match protocol with
      | .deepseekV4 => .leading
      | .llama => .start
      | .generic | .qwen => .generic }

/-- The chunks of a text, the last one `final`. -/
def ToolStreamScanner.feedChunks (codec : FloatCodec) (s : ToolStreamScanner) :
    List Text → ToolStreamScanner.Step
  | [] => ([], s)
  | [chunk] => s.feed codec chunk true
  | chunk :: rest => ToolStreamScanner.andThen (s.feed codec chunk false) fun s =>
      s.feedChunks codec rest

/-! ### Folding -/

inductive ContentBlock where
  | text (text : Text)
  | toolUse (name : Text) (input : Json)
deriving DecidableEq

structure FoldedToolStream where
  blocks : List ContentBlock
  invalidated : Bool
  committedCalls : Nat
deriving DecidableEq

/-- Why `fold_tool_stream` raises. -/
inductive FoldError where
  | noPendingTool
  | invalidJson
deriving DecidableEq, Repr

/-- The local variables of `fold_tool_stream`. -/
structure FoldState where
  blocks : List ContentBlock := []
  textParts : Text := []
  committed : Nat := 0
  pendingTool : Option Text := none
  pendingJson : Text := []

namespace FoldState

def flushText (f : FoldState) : FoldState :=
  { f with
    blocks := if Text.blank f.textParts then f.blocks else f.blocks ++ [.text f.textParts]
    textParts := [] }

/-- One event that does not void the stream. -/
def step (codec : FloatCodec) (f : FoldState) : ToolStreamEvent → Except FoldError FoldState
  | .textDelta t => .ok { f with textParts := f.textParts ++ t }
  | .toolStart name => .ok { f.flushText with pendingTool := some name, pendingJson := [] }
  | .toolArgsDelta partialJson => .ok { f with pendingJson := f.pendingJson ++ partialJson }
  | .toolStop =>
    match f.pendingTool with
    | none => .error .noPendingTool
    | some name =>
      let json := if f.pendingJson = [] then Text.of "\x7b\x7d" else f.pendingJson
      match Json.loads codec json with
      | none => .error .invalidJson
      | some input =>
        .ok { f with
          blocks := f.blocks ++ [.toolUse name input]
          pendingTool := none
          committed := f.committed + 1 }
  | .streamInvalid _ => .ok f

def finish (f : FoldState) (rawText : Text) : FoldedToolStream :=
  let f := f.flushText
  { blocks := if f.blocks = [] then [.text rawText] else f.blocks
    invalidated := false
    committedCalls := f.committed }

/-- The events from `f` on. -/
def run (codec : FloatCodec) (rawText : Text) (f : FoldState) :
    List ToolStreamEvent → Except FoldError FoldedToolStream
  | [] => .ok (f.finish rawText)
  | .streamInvalid _ :: _ =>
    .ok { blocks := [.text rawText], invalidated := true, committedCalls := 0 }
  | event :: rest =>
    match f.step codec event with
    | .error e => .error e
    | .ok f => run codec rawText f rest

end FoldState

/-- `fold_tool_stream` -/
def foldToolStream (codec : FloatCodec) (events : List ToolStreamEvent) (rawText : Text) :
    Except FoldError FoldedToolStream := FoldState.run codec rawText {} events

end Kairyu
