/-
  Kairyu/ResponseEvents.lean
  ==========================
  **The events of a Responses stream.**

  `ResponseEmitter` numbers the events of one response and keeps the snapshot that goes
  with them; `OutputAssembler` maps reasoning, prose and scanned tool calls onto its
  items.  A call that would index an empty list of items or use a text encoder that does
  not exist is an `EmitError`.
-/
import Kairyu.ToolStream

namespace Kairyu

/-! ### Items and events -/

inductive ItemKind where
  | message
  | reasoning
  | functionCall
deriving DecidableEq, Repr

inductive ItemStatus where
  | inProgress
  | completed
  | incomplete
deriving DecidableEq, Repr

/-- A part of an item's content; the parts built here have no annotations and no
    log probabilities. -/
inductive ContentPart where
  | outputText (text : Text)
  | reasoningText (text : Text)
deriving DecidableEq, Repr

/-- An item as it goes over the wire. -/
inductive WireItem where
  | message (id : Text) (status : ItemStatus) (content : List ContentPart)
  | reasoning (id : Text) (status : ItemStatus) (content : List ContentPart)
      (encryptedContent : Option Text)
  | functionCall (id : Text) (status : ItemStatus) (callId name : Option Text) (arguments : Text)
      (nameSpace : Option Text)
deriving DecidableEq, Repr

/-- `{**item, "content": []}` -/
def WireItem.withoutContent : WireItem → WireItem
  | .message id status _ => .message id status []
  | .reasoning id status _ encryptedContent => .reasoning id status [] encryptedContent
  | item => item

/-- `_Item` -/
structure Item where
  kind : ItemKind
  id : Text
  status : ItemStatus := .inProgress
  parts : List Text := []
  callId : Option Text := none
  name : Option Text := none
  nameSpace : Option Text := none
  encryptedContent : Option Text := none
deriving DecidableEq, Repr

namespace Item

def text (item : Item) : Text := item.parts.flatten

def wire (item : Item) : WireItem :=
  match item.kind with
  | .message => .message item.id item.status [.outputText item.text]
  | .reasoning => .reasoning item.id item.status [.reasoningText item.text] item.encryptedContent
  | .functionCall =>
    .functionCall item.id item.status item.callId item.name item.text item.nameSpace

end Item

inductive ResponseStatus where
  | inProgress
  | completed
  | incomplete
  | failed
deriving DecidableEq, Repr

/-- `_response_envelope`, without the fields it only echoes from the request. -/
structure ResponseEnvelope where
  id : Text
  createdAt : Int
  status : ResponseStatus
  output : List WireItem
  usage : Option Json
  error : Option (Text × Text)
  incompleteDetails : Option Json
  extensions : JsonFields

/-- The payload of an event; the index of a content part is always 0. -/
inductive ResponseEvent where
  | created (response : ResponseEnvelope)
  | inProgress (response : ResponseEnvelope)
  | outputItemAdded (outputIndex : Nat) (item : WireItem)
  | contentPartAdded (itemId : Text) (outputIndex : Nat) (part : ContentPart)
  | outputTextDelta (itemId : Text) (outputIndex : Nat) (delta : Text)
  | reasoningTextDelta (itemId : Text) (outputIndex : Nat) (delta : Text)
  | functionCallArgumentsDelta (itemId : Text) (outputIndex : Nat) (delta : Text)
  | outputTextDone (itemId : Text) (outputIndex : Nat) (text : Text)
  | reasoningTextDone (itemId : Text) (outputIndex : Nat) (text : Text)
  | contentPartDone (itemId : Text) (outputIndex : Nat) (part : ContentPart)
  | functionCallArgumentsDone (itemId : Text) (outputIndex : Nat) (arguments : Text)
      (name : Option Text)
  | outputItemDone (outputIndex : Nat) (item : WireItem)
  | completed (response : ResponseEnvelope)
  | incomplete (response : ResponseEnvelope)
  | error (code message : Text) (param : Option Text)
  | failed (response : ResponseEnvelope)

structure Frame where
  sequenceNumber : Nat
  event : ResponseEvent

/-- What the emitter raises. -/
inductive EmitError where
  | indexError
  | assertionError
deriving DecidableEq, Repr

/-- The frames of a call and the state it leaves. -/
abbrev Emission (σ : Type) := Except EmitError (List Frame × σ)

/-- The frames of one call followed by those of the next. -/
def Emission.andThen {σ : Type} (first : Emission σ) (next : σ → Emission σ) : Emission σ :=
  match first with
  | .error error => .error error
  | .ok (frames, s) =>
    match next s with
    | .error error => .error error
    | .ok (more, s) => .ok (frames ++ more, s)

/-! ### The emitter -/

/-- The payload of a failure. -/
structure FailurePayload where
  message : Option Text
  type : Text
  param : Option Text
  code : Option Text
deriving DecidableEq, Repr

/-- `value or default` -/
def orDefault (value : Option Text) (default : Text) : Text :=
  match value with
  | some (c :: cs) => c :: cs
  | _ => default

/-- `_RESPONSE_ERROR_CODES` -/
def responseErrorCodes : List Text :=
  ["server_error", "rate_limit_exceeded", "invalid_prompt", "data_residency_mismatch", "bio_policy",
    "misalignment_policy_violation", "vector_store_timeout", "invalid_image",
    "invalid_image_format", "invalid_base64_image", "invalid_image_url", "image_too_large",
    "image_too_small", "image_parse_error", "image_content_policy_violation", "invalid_image_mode",
    "image_file_too_large", "unsupported_image_media_type", "empty_image_file",
    "failed_to_download_image", "image_file_not_found", "context_length_exceeded"].map Text.of

structure ResponseEmitter where
  responseId : Text
  createdAt : Int
  sealReasoning : Option (Text → Text) := none
  extensions : JsonFields := []
  sequence : Nat := 0
  items : List Item := []
  /-- The item and the index the text encoder was built for. -/
  textEncoder : Option (Text × Nat) := none
  /-- The random identifiers, and how many of them were drawn. -/
  uuids : Nat → Text
  drawn : Nat := 0

namespace ResponseEmitter

/-- `_new_id` -/
def newId (e : ResponseEmitter) (kind : String) : Text × ResponseEmitter :=
  (Text.of kind ++ cp '_' :: e.uuids e.drawn, { e with drawn := e.drawn + 1 })

/-- `_event`, for the events of one call in order. -/
def events (e : ResponseEmitter) (events : List ResponseEvent) : List Frame × ResponseEmitter :=
  (events.mapIdx fun i event => ⟨e.sequence + i, event⟩,
    { e with sequence := e.sequence + events.length })

def output (e : ResponseEmitter) : List WireItem := e.items.map Item.wire

def envelope (e : ResponseEmitter) (status : ResponseStatus) (usage : Option Json)
    (error : Option (Text × Text)) (incompleteDetails : Option Json) : ResponseEnvelope where
  id := e.responseId
  createdAt := e.createdAt
  status
  output := e.output
  usage
  error
  incompleteDetails
  extensions := e.extensions

def openKind (e : ResponseEmitter) : Option ItemKind :=
  match e.items.getLast? with
  | some item => if item.status = .inProgress then some item.kind else none
  | none => none

def hasAnswer (e : ResponseEmitter) : Bool :=
  e.items.any fun item => item.kind == .message || item.kind == .functionCall

def start (e : ResponseEmitter) : List Frame × ResponseEmitter :=
  let snapshot := e.envelope .inProgress none none none
  e.events [.created snapshot, .inProgress snapshot]

def heartbeat (e : ResponseEmitter) : List Frame × ResponseEmitter :=
  e.events [.inProgress (e.envelope .inProgress none none none)]

/-- `_open` -/
def openItem (e : ResponseEmitter) (item : Item) : Nat × ResponseEmitter :=
  (e.items.length, { e with items := e.items ++ [item] })

/-- The last item changed in place. -/
def setLast (e : ResponseEmitter) (item : Item) : ResponseEmitter :=
  { e with items := e.items.dropLast ++ [item] }

def beginMessage (e : ResponseEmitter) : List Frame × ResponseEmitter :=
  let (id, e) := e.newId "msg"
  let item : Item := { kind := .message, id }
  let (index, e) := e.openItem item
  { e with textEncoder := some (id, index) }.events
    [.outputItemAdded index item.wire.withoutContent, .contentPartAdded id index (.outputText [])]

def textDelta (e : ResponseEmitter) (text : Text) : Emission ResponseEmitter :=
  match e.items.getLast? with
  | none => .error .indexError
  | some item =>
    match e.textEncoder with
    | none => .error .assertionError
    | some (id, index) =>
      .ok ((e.setLast { item with parts := item.parts ++ [text] }).events
        [.outputTextDelta id index text])

def beginReasoning (e : ResponseEmitter) : List Frame × ResponseEmitter :=
  let (id, e) := e.newId "rs"
  let item : Item := { kind := .reasoning, id }
  let (index, e) := e.openItem item
  e.events
    [.outputItemAdded index item.wire.withoutContent, .contentPartAdded id index (.reasoningText [])]

def reasoningDelta (e : ResponseEmitter) (text : Text) : Emission ResponseEmitter :=
  match e.items.getLast? with
  | none => .error .indexError
  | some item =>
    .ok ((e.setLast { item with parts := item.parts ++ [text] }).events
      [.reasoningTextDelta item.id (e.items.length - 1) text])

def beginCall (e : ResponseEmitter) (callId name : Text) (nameSpace : Option Text) :
    List Frame × ResponseEmitter :=
  let (id, e) := e.newId "fc"
  let item : Item :=
    { kind := .functionCall, id, callId := some callId, name := some name, nameSpace }
  let (index, e) := e.openItem item
  e.events [.outputItemAdded index item.wire]

def argumentsDelta (e : ResponseEmitter) (delta : Text) : Emission ResponseEmitter :=
  match e.items.getLast? with
  | none => .error .indexError
  | some item =>
    .ok ((e.setLast { item with parts := item.parts ++ [delta] }).events
      [.functionCallArgumentsDelta item.id (e.items.length - 1) delta])

/-- The events that finish an item before `output_item.done`. -/
def doneEvents (item : Item) (index : Nat) : List ResponseEvent :=
  match item.kind with
  | .message =>
    [.outputTextDone item.id index item.text, .contentPartDone item.id index (.outputText item.text)]
  | .reasoning =>
    [.reasoningTextDone item.id index item.text,
      .contentPartDone item.id index (.reasoningText item.text)]
  | .functionCall => [.functionCallArgumentsDone item.id index item.text item.name]

/-- The item with its final status, sealed when it is reasoning. -/
def settle (e : ResponseEmitter) (item : Item) (status : ItemStatus) : Item :=
  match item.kind, e.sealReasoning with
  | .reasoning, some sealText =>
    { item with status, encryptedContent := some (sealText item.text) }
  | _, _ => { item with status }

def close (e : ResponseEmitter) (status : ItemStatus) : List Frame × ResponseEmitter :=
  match e.items.getLast? with
  | none => ([], e)
  | some item =>
    if item.status = .inProgress then
      let item := e.settle item status
      let index := e.items.length - 1
      (e.setLast item).events (doneEvents item index ++ [.outputItemDone index item.wire])
    else ([], e)

def complete (e : ResponseEmitter) (status : ResponseStatus) (usage : Json)
    (incompleteDetails : Option Json) : ResponseEnvelope × List Frame × ResponseEmitter :=
  let (frames, e) := e.close (if status = .incomplete then .incomplete else .completed)
  let envelope := e.envelope status (some usage) none incompleteDetails
  let (last, e) := e.events [if status = .completed then .completed envelope else .incomplete envelope]
  (envelope, frames ++ last, e)

/-- A half-written item stays, marked incomplete. -/
def abandon (e : ResponseEmitter) : ResponseEmitter :=
  match e.items.getLast? with
  | none => e
  | some item => if item.status = .inProgress then e.setLast { item with status := .incomplete } else e

def fail (e : ResponseEmitter) (payload : FailurePayload) (usage : Json) :
    ResponseEnvelope × List Frame × ResponseEmitter :=
  let e := e.abandon
  let code := orDefault payload.code (Text.of "server_error")
  let message := orDefault payload.message (Text.of "generation failed")
  let responseCode := if code ∈ responseErrorCodes then code else Text.of "server_error"
  let (first, e) := e.events [.error code message payload.param]
  let envelope := e.envelope .failed (some usage) (some (responseCode, message)) none
  let (last, e) := e.events [.failed envelope]
  (envelope, first ++ last, e)

end ResponseEmitter

/-! ### The assembler -/

def gateFailure (code message : Text) : FailurePayload where
  message := some message
  type := Text.of "upstream_error"
  param := none
  code := some code

/-- A call the chat handler already parsed; the function's name and arguments. -/
structure ParsedCall where
  id : Option Text
  function : Option (Option Text × Option Text)

structure OutputAssembler where
  emitter : ResponseEmitter
  scanner : Option ToolStreamScanner := none
  choice : Option NormalizedToolChoice := none
  parallel : Option Bool := none
  /-- The namespace and the name in it of a tool's flat name. -/
  namespaces : List (Text × Text × Text) := []
  pendingWs : Text := []
  lateReasoning : List Text := []
  calls : Nat := 0
  failure : Option FailurePayload := none

namespace OutputAssembler

def withEmitter (a : OutputAssembler) (emitter : ResponseEmitter) : OutputAssembler :=
  { a with emitter }

/-- A call of the emitter that cannot raise. -/
def emit (a : OutputAssembler) (f : ResponseEmitter → List Frame × ResponseEmitter) :
    Emission OutputAssembler :=
  let (frames, emitter) := f a.emitter
  .ok (frames, a.withEmitter emitter)

def emitting (a : OutputAssembler) (f : ResponseEmitter → Emission ResponseEmitter) :
    Emission OutputAssembler :=
  match f a.emitter with
  | .error error => .error error
  | .ok (frames, emitter) => .ok (frames, a.withEmitter emitter)

def reasoning (a : OutputAssembler) (text : Text) : Emission OutputAssembler :=
  if text = [] ∨ a.failure.isSome then .ok ([], a)
  else if a.emitter.openKind = some .message ∨ a.emitter.openKind = some .functionCall then
    -- It waits for the item to close: closing it early would split a message or cut a
    -- call's arguments.
    .ok ([], { a with lateReasoning := a.lateReasoning ++ [text] })
  else
    Emission.andThen
      (if a.emitter.openKind ≠ some .reasoning then a.emit (·.beginReasoning) else .ok ([], a))
      fun a => a.emitting (·.reasoningDelta text)

/-- The reasoning that waited, as an item of its own. -/
def placeReasoning (a : OutputAssembler) (text : Text) (status : ItemStatus)
    (keepReasoningOpen : Bool) : Emission OutputAssembler :=
  Emission.andThen (a.emit (·.beginReasoning)) fun a =>
    Emission.andThen (a.emitting (·.reasoningDelta text)) fun a =>
      if keepReasoningOpen then .ok ([], a) else a.emit (·.close status)

/-- `_close` -/
def close (a : OutputAssembler) (status : ItemStatus) (keepReasoningOpen : Bool) :
    Emission OutputAssembler :=
  Emission.andThen (a.emit (·.close status)) fun a =>
    if a.lateReasoning = [] then .ok ([], a)
    else
      { a with lateReasoning := [] }.placeReasoning a.lateReasoning.flatten status keepReasoningOpen

/-- Text, with the white space held back before it. -/
def writeText (a : OutputAssembler) (text : Text) : Emission OutputAssembler :=
  { a with pendingWs := [] }.emitting (·.textDelta (a.pendingWs ++ text))

/-- The start of a call; `none` is an identifier the scanner draws. -/
def startCall (a : OutputAssembler) (callId : Option Text) (name : Text) : Emission OutputAssembler :=
  let (nameSpace, name) := match a.namespaces.lookup name with
    | some (nameSpace, name) => (some nameSpace, name)
    | none => (none, name)
  Emission.andThen
    (match callId with
      | some callId => a.emit (·.beginCall callId name nameSpace)
      | none =>
        let (callId, emitter) := a.emitter.newId "call"
        (a.withEmitter emitter).emit (·.beginCall callId name nameSpace))
    fun a => .ok ([], { a with calls := a.calls + 1 })

/-- One event of `_apply` -/
def applyEvent (a : OutputAssembler) (callId : Option Text) :
    ToolStreamEvent → Emission OutputAssembler
  | .streamInvalid message =>
    .ok ([], { a with failure := some (gateFailure (Text.of "invalid_tool_call") (Text.of message)) })
  | .textDelta text =>
    if a.emitter.openKind ≠ some .message then
      if Text.blank text then .ok ([], { a with pendingWs := a.pendingWs ++ text })
      else
        Emission.andThen (a.close .completed false) fun a =>
          Emission.andThen (a.emit (·.beginMessage)) fun a => a.writeText text
    else a.writeText text
  | .toolStart name =>
    if a.parallel = some false ∧ 1 ≤ a.calls then
      .ok ([], { a with failure := some (gateFailure (Text.of "parallel_tool_calls_not_satisfied")
        (Text.of "upstream model emitted multiple calls while parallel_tool_calls=false")) })
    else
      Emission.andThen (a.close .completed false) fun a =>
        { a with pendingWs := [] }.startCall callId name
  | .toolArgsDelta partialJson => a.emitting (·.argumentsDelta partialJson)
  | .toolStop => a.close .completed true

/-- `_apply` -/
def apply (callId : Option Text) : List ToolStreamEvent → OutputAssembler → Emission OutputAssembler
  | [], a => .ok ([], a)
  | event :: rest, a =>
    if a.failure.isSome then .ok ([], a)
    else Emission.andThen (a.applyEvent callId event) (apply callId rest)

def content (codec : FloatCodec) (a : OutputAssembler) (delta : Text) (final : Bool) :
    Emission OutputAssembler :=
  if a.failure.isSome then .ok ([], a)
  else
    match a.scanner with
    | none => apply none (if delta = [] then [] else [.textDelta delta]) a
    | some scanner =>
      if delta = [] ∧ final = false then .ok ([], a)
      else
        let (events, scanner) := scanner.feed codec delta final
        apply none events { a with scanner := some scanner }

/-- The events of one parsed call. -/
def parsedCall (a : OutputAssembler) (call : ParsedCall) : Emission OutputAssembler :=
  let (name, arguments) := call.function.getD (none, none)
  let id := match call.id with
    | some (c :: cs) => some (c :: cs)
    | _ => none
  apply id [.toolStart (name.getD []), .toolArgsDelta (arguments.getD []), .toolStop] a

def parsedCalls : List ParsedCall → OutputAssembler → Emission OutputAssembler
  | [], a => .ok ([], a)
  | call :: rest, a => Emission.andThen (a.parsedCall call) (parsedCalls rest)

/-- The gate of `finish`. -/
def unsatisfied (a : OutputAssembler) : Bool :=
  match a.choice with
  | some choice => (choice.mode == .required || choice.mode == .named) && a.calls == 0
  | none => false

def finish (a : OutputAssembler) (incomplete : Bool) : Emission OutputAssembler :=
  if a.failure.isSome then .ok ([], a)
  else if a.unsatisfied then
    .ok ([], { a with failure := some (gateFailure (Text.of "tool_choice_not_satisfied")
      (Text.of "upstream model did not satisfy tool_choice")) })
  else
    let status := if incomplete then .incomplete else .completed
    Emission.andThen (a.close status false) fun a =>
      if a.emitter.hasAnswer then .ok ([], a)
      else
        Emission.andThen (a.emit (·.beginMessage)) fun a =>
          Emission.andThen
            (if a.pendingWs = [] then .ok ([], a) else a.emitting (·.textDelta a.pendingWs))
            fun a => a.emit (·.close status)

end OutputAssembler

end Kairyu
