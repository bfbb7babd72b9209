/-
  Kairyu/WireEvents.lean
  ======================
  **Updates across the engine process boundary** (`engine/core/engine_service.py`,
  `engine/zmq_backend.py`).

  The service encodes the cumulative updates of a request as one snapshot and deltas that
  carry offsets and a sequence number; the API process puts them together again in a
  `_WireAccumulator` and streams results that carry the new text only.

  Reading guide.

    * An event is its decoded dictionary.  Fields the service always writes are plain, a
      field that may be missing is an `Option`; checks of Python types are left out.
    * Events of the legacy wire version, which the accumulator returns as they are, are
      left out.
    * `text_parts` is a list that earlier results may still read: `replaced` are the lists
      it was bound to before.
-/
import Kairyu.ChatStream
import Kairyu.EngineRequest

namespace Kairyu

/-! ### Stage metrics -/

/-- `[a-z][a-z0-9_]{0,63}` -/
def safeStage (stage : String) : Bool :=
  match stage.toList with
  | [] => false
  | c :: cs => c.isLower && cs.all (fun d => d.isLower || d.isDigit || d == '_') && decide (cs.length ≤ 63)

/-- The three scalars of a stage metric as they are on the wire. -/
structure StageRow where
  stage : String
  durationNs : Nat
  occurrences : Nat
deriving DecidableEq, Repr

namespace StageRow

/-- The checks of `GenerationStageMetric.__post_init__`. -/
def valid (row : StageRow) : Bool :=
  safeStage row.stage && decide (row.durationNs ≤ 2 ^ 63 - 1) &&
    decide (1 ≤ row.occurrences ∧ row.occurrences ≤ 2 ^ 31 - 1)

end StageRow

/-- A `GenerationStageMetric` that exists has passed its checks. -/
structure GenerationStageMetric where
  row : StageRow
  valid : row.valid = true
deriving DecidableEq

/-! ### Log probabilities -/

/-- What msgpack carries of a rich log probability. -/
inductive Packed where
  | none
  | int (n : Int)
  | float (bits : FloatBits)
  | str (text : Text)
  | list (items : List Packed)

/-- A `TokenLogprob` with all its fields. -/
inductive RichLogprob where
  | mk (token : Text) (tokenId : TokenId) (logprob : FloatBits) (bytes : Option (List Int))
      (top : List RichLogprob)

def packBytes : Option (List Int) → Packed
  | none => .none
  | some bytes => .list (bytes.map Packed.int)

mutual

def encodeTokenLogprob : RichLogprob → Packed
  | .mk token tokenId logprob bytes top =>
    .list [.str token, .int tokenId, .float logprob, packBytes bytes, .list (encodeTokenLogprobs top)]

def encodeTokenLogprobs : List RichLogprob → List Packed
  | [] => []
  | entry :: entries => encodeTokenLogprob entry :: encodeTokenLogprobs entries

end

def Packed.asInt : Packed → Option Int
  | .int n => some n
  | _ => Option.none

def unpackBytes : Packed → Option (Option (List Int))
  | .none => some none
  | .list items => (items.mapM Packed.asInt).map some
  | _ => none

mutual

/-- `none` where the unpacking of the five fields fails. -/
def decodeTokenLogprob : Packed → Option RichLogprob
  | .list [.str token, .int tokenId, .float logprob, bytes, .list top] => do
    let bytes ← unpackBytes bytes
    let top ← decodeTokenLogprobs top
    return .mk token tokenId logprob bytes top
  | _ => none

def decodeTokenLogprobs : List Packed → Option (List RichLogprob)
  | [] => some []
  | entry :: entries => do
    let entry ← decodeTokenLogprob entry
    let entries ← decodeTokenLogprobs entries
    return entry :: entries

end

/-- One entry of `logprobs`, by token id. -/
abbrev LogprobEntry := List (TokenId × FloatBits)

/-- The same entry with the ids written as strings. -/
abbrev WireEntry := List (Text × FloatBits)

/-- `{str(token_id): logprob ...}` -/
def encodeEntry (entry : LogprobEntry) : WireEntry :=
  entry.map fun (tokenId, logprob) => (Json.writeInteger tokenId, logprob)

/-- `int(key)` of a key that is an integer. -/
def keyValue : Text → Int
  | [] => 0
  | c :: cs => if c = cp '-' then -(Json.naturalValue cs : Int) else Json.naturalValue (c :: cs)

/-- `{int(token_id): logprob ...}` -/
def decodeEntry (entry : WireEntry) : LogprobEntry :=
  entry.map fun (key, logprob) => (keyValue key, logprob)

/-! ### Updates and events -/

/-- A cumulative `StreamUpdate`. -/
structure WireUpdate where
  outputs : List TokenId
  text : Text
  finished : Bool := false
  finishReason : Option FinishReason := none
  logprobs : Option (List LogprobEntry) := none
  cumulativeLogprob : FloatBits := 0
  numPromptTokens : Nat := 0
  numCachedTokens : Nat := 0
  logprobContent : Option (List RichLogprob) := none
  stageMetrics : List GenerationStageMetric := []

inductive WireBody where
  | snapshot (outputs : List TokenId) (text : Text) (numPromptTokens : Nat)
      (logprobs : Option (List WireEntry)) (logprobContent : Option (List Packed))
  | delta (outputOffset : Nat) (newTokenIds : List TokenId) (textOffset : Nat) (textDelta : Text)
      (logprobOffset : Option Nat) (newLogprobs : Option (List WireEntry))
      (logprobContentOffset : Option Nat) (newLogprobContent : Option (List Packed))

structure WireEvent where
  wireVersion : Nat
  requestId : RequestId
  sequence : Nat
  finished : Bool
  finishReason : Option FinishReason
  numCachedTokens : Nat
  cumulativeLogprob : FloatBits
  stageMetrics : Option (List StageRow)
  body : WireBody

/-- `WIRE_VERSION` -/
def Wire.version : Nat := 2

/-! ### The encoder -/

structure WireEventCursor where
  sequence : Nat := 0
  outputCount : Nat := 0
  text : Text := []
  logprobCount : Nat := 0
  logprobContentCount : Nat := 0
  hasLogprobs : Bool := false
  hasLogprobContent : Bool := false
  stageMetrics : List StageRow := []

/-- The loop of `_stage_metrics_to_wire` over the metrics left. -/
def stageMetricsToWire (seen : List String) : List GenerationStageMetric → Except ValueError (List StageRow)
  | [] => .ok []
  | metric :: metrics =>
    if Text.blank (Text.of metric.row.stage) then
      .error ⟨"engine stage metric stage must be a non-empty string"⟩
    else if metric.row.occurrences < 1 then
      .error ⟨"engine stage metric occurrences must be a positive integer"⟩
    else if metric.row.stage ∈ seen then
      .error ⟨s!"engine stage metrics contain duplicate stage '{metric.row.stage}'"⟩
    else (stageMetricsToWire (metric.row.stage :: seen) metrics).map (metric.row :: ·)

def validateMonotonicLength (name : String) (current previous : Nat) : Except ValueError Unit :=
  if current < previous then
    .error ⟨s!"engine {name} retracted from {previous} to {current}; delta wire requires cumulative updates"⟩
  else .ok ()

/-- The number of entries; none are zero. -/
def countOf {α : Type} (rows : Option (List α)) : Nat := (rows.getD []).length

namespace WireEventCursor

/-- What raises before anything is encoded. -/
def validate (cursor : WireEventCursor) (update : WireUpdate) : Except ValueError Unit := do
  validateMonotonicLength "token output" update.outputs.length cursor.outputCount
  validateMonotonicLength "logprobs" (countOf update.logprobs) cursor.logprobCount
  validateMonotonicLength "logprob content" (countOf update.logprobContent) cursor.logprobContentCount
  if cursor.hasLogprobs = true ∧ update.logprobs = none then
    .error ⟨"engine logprobs disappeared from a cumulative update"⟩
  else if cursor.hasLogprobContent = true ∧ update.logprobContent.isNone = true then
    .error ⟨"engine logprob content disappeared from a cumulative update"⟩
  else if 0 < cursor.sequence ∧ update.finished = false then
    validateMonotonicLength "visible text" update.text.length cursor.text.length
    if ¬ cursor.text <+: update.text then
      .error ⟨"engine visible text changed an already-emitted non-terminal prefix"⟩
    else .ok ()
  else .ok ()

/-- Whether the update would be an empty event that is not the last. -/
def unchanged (cursor : WireEventCursor) (update : WireUpdate) (rows : Option (List StageRow)) : Bool :=
  decide (0 < cursor.sequence) && update.outputs.length == cursor.outputCount &&
    update.text.length == cursor.text.length && countOf update.logprobs == cursor.logprobCount &&
    countOf update.logprobContent == cursor.logprobContentCount &&
    update.logprobs.isSome == cursor.hasLogprobs && update.logprobContent.isSome == cursor.hasLogprobContent &&
    rows.all (· == cursor.stageMetrics) && !update.finished

end WireEventCursor

/-- The loop that counts the characters two texts have in common. -/
def commonLength : Text → Text → Nat
  | previous :: before, current :: after => if previous ≠ current then 0 else commonLength before after + 1
  | _, _ => 0

namespace WireEventCursor

def textOffset (cursor : WireEventCursor) (update : WireUpdate) : Nat :=
  if update.finished then commonLength cursor.text update.text else cursor.text.length

def body (cursor : WireEventCursor) (update : WireUpdate) : WireBody :=
  if cursor.sequence = 0 then
    .snapshot update.outputs update.text update.numPromptTokens (update.logprobs.map (·.map encodeEntry))
      (update.logprobContent.map encodeTokenLogprobs)
  else
    let offset := cursor.textOffset update
    .delta cursor.outputCount (update.outputs.drop cursor.outputCount) offset (update.text.drop offset)
      (update.logprobs.map fun _ => cursor.logprobCount)
      (update.logprobs.map fun rows => (rows.drop cursor.logprobCount).map encodeEntry)
      (update.logprobContent.map fun _ => cursor.logprobContentCount)
      (update.logprobContent.map fun rows => encodeTokenLogprobs (rows.drop cursor.logprobContentCount))

/-- The cursor behind an encoded update. -/
def advance (cursor : WireEventCursor) (update : WireUpdate) (rows : Option (List StageRow)) :
    WireEventCursor where
  sequence := cursor.sequence + 1
  outputCount := update.outputs.length
  text := update.text
  logprobCount := countOf update.logprobs
  logprobContentCount := countOf update.logprobContent
  hasLogprobs := update.logprobs.isSome
  hasLogprobContent := update.logprobContent.isSome
  stageMetrics := rows.getD cursor.stageMetrics

end WireEventCursor

/-- The stage metrics an event carries: none unless the request is traced. -/
def tracedRows (traceRequested : Bool) (update : WireUpdate) : Except ValueError (Option (List StageRow)) :=
  if traceRequested then (stageMetricsToWire [] update.stageMetrics).map some else .ok none

/-- `_v2_event_from_update`: the event, if there is one, and the cursor behind it. -/
def v2EventFromUpdate (requestId : RequestId) (update : WireUpdate) (cursor : WireEventCursor)
    (traceRequested : Bool) : Except ValueError (Option WireEvent × WireEventCursor) := do
  let rows ← tracedRows traceRequested update
  cursor.validate update
  if cursor.unchanged update rows then
    return (none, cursor)
  else
    let event := {
      wireVersion := Wire.version
      requestId
      sequence := cursor.sequence
      finished := update.finished
      finishReason := update.finishReason
      numCachedTokens := update.numCachedTokens
      cumulativeLogprob := update.cumulativeLogprob
      stageMetrics := rows
      body := cursor.body update }
    return (some event, cursor.advance update rows)

/-- The events of the updates of one request; `none` where one is suppressed. -/
def encodeUpdates (requestId : RequestId) (traceRequested : Bool) (cursor : WireEventCursor) :
    List WireUpdate → Except ValueError (List (Option WireEvent))
  | [] => .ok []
  | update :: updates => do
    let (event, cursor) ← v2EventFromUpdate requestId update cursor traceRequested
    let events ← encodeUpdates requestId traceRequested cursor updates
    return event :: events

/-! ### The accumulator -/

/-- `EngineServiceError` with its message. -/
structure EngineServiceError where
  message : String
deriving DecidableEq, Repr

structure WireAccumulator where
  started : Bool := false
  nextSequence : Nat := 0
  outputs : List TokenId := []
  textParts : List Text := []
  textLength : Nat := 0
  logprobs : Option (List WireEntry) := none
  logprobContent : Option (List Packed) := none
  numPromptTokens : Nat := 0
  numCachedTokens : Nat := 0
  cumulativeLogprob : FloatBits := 0
  stageMetrics : List GenerationStageMetric := []
  wireVersion : Option Nat := none
  /-- The lists `text_parts` was bound to before, the oldest first. -/
  replaced : List (List Text) := []

/-- The text of a result: read already, or a `_TextSnapshot` of the first parts of a list. -/
inductive TextValue where
  | whole (text : Text)
  | snapshot (object partCount : Nat)

/-- The text when it is read with the accumulator in this state. -/
def TextValue.read (acc : WireAccumulator) : TextValue → Text
  | .whole text => text
  | .snapshot object partCount => (((acc.replaced ++ [acc.textParts]).getD object []).take partCount).flatten

/-- `_decode_stage_metrics`, the loop over the rows left. -/
def decodeStageMetrics (seen : List String) : List StageRow → Except EngineServiceError (List GenerationStageMetric)
  | [] => .ok []
  | row :: rows =>
    if h : row.valid = true then
      if row.stage ∈ seen then
        .error ⟨s!"engine wire stage_metrics contain duplicate stage '{row.stage}'"⟩
      else (decodeStageMetrics (row.stage :: seen) rows).map (⟨row, h⟩ :: ·)
    else .error ⟨"engine wire stage metric is invalid"⟩

/-- The loop that compares the metrics left with the current ones. -/
def checkStageMetrics (current : List GenerationStageMetric) :
    List GenerationStageMetric → Except EngineServiceError Unit
  | [] => .ok ()
  | old :: previous =>
    match current.find? (·.row.stage == old.row.stage) with
    | none => .error ⟨s!"engine wire stage metric '{old.row.stage}' disappeared"⟩
    | some new =>
      if new.row.durationNs < old.row.durationNs ∨ new.row.occurrences < old.row.occurrences then
        .error ⟨s!"engine wire stage metric '{old.row.stage}' decreased"⟩
      else checkStageMetrics current previous

/-- The new rows of one kind of log probabilities behind those received. -/
def extendRows {α : Type} (apart omitted offsetName : String) (current new : Option (List α))
    (offset : Option Nat) : Except EngineServiceError (Option (List α)) :=
  match new, offset with
  | none, none => if current.isSome then .error ⟨omitted⟩ else .ok none
  | some new, some offset =>
    if offset ≠ countOf current then
      .error ⟨s!"engine wire delta {offsetName} mismatch: expected {countOf current}, got {offset}"⟩
    else .ok (some (current.getD [] ++ new))
  | _, _ => .error ⟨apart⟩

namespace WireAccumulator

def snapshot (acc : WireAccumulator) (sequence : Nat) (outputs : List TokenId) (text : Text) (numPromptTokens : Nat)
    (logprobs : Option (List WireEntry)) (logprobContent : Option (List Packed)) :
    Except EngineServiceError WireAccumulator :=
  if acc.started then .error ⟨"engine wire sent a duplicate snapshot"⟩
  else if sequence ≠ 0 then .error ⟨s!"engine wire snapshot sequence must be 0, got {sequence}"⟩
  else
    .ok { acc with
      outputs := acc.outputs ++ outputs
      textParts := acc.textParts ++ [text]
      textLength := text.length
      logprobs := if logprobs.isSome then logprobs else acc.logprobs
      logprobContent := if logprobContent.isSome then logprobContent else acc.logprobContent
      numPromptTokens
      started := true
      nextSequence := 1 }

/-- The text of a delta: appended, or in place of the tail behind its offset. -/
def takeText (acc : WireAccumulator) (finished : Bool) (textOffset : Nat) (textDelta : Text) :
    Except EngineServiceError WireAccumulator :=
  if acc.textLength < textOffset then
    .error ⟨s!"engine wire delta text_offset mismatch: expected a value in [0, {acc.textLength}], got {textOffset}"⟩
  else if textOffset ≠ acc.textLength ∧ finished = false then
    .error ⟨"engine wire attempted a non-terminal visible-text rewrite"⟩
  else if textOffset = acc.textLength then
    .ok { acc with textParts := acc.textParts ++ [textDelta], textLength := textOffset + textDelta.length }
  else
    .ok { acc with
      textParts := [acc.textParts.flatten.take textOffset ++ textDelta]
      replaced := acc.replaced ++ [acc.textParts]
      textLength := textOffset + textDelta.length }

def delta (acc : WireAccumulator) (sequence : Nat) (finished : Bool) (outputOffset : Nat) (newTokenIds : List TokenId)
    (textOffset : Nat) (textDelta : Text) (logprobOffset : Option Nat) (newLogprobs : Option (List WireEntry))
    (logprobContentOffset : Option Nat) (newLogprobContent : Option (List Packed)) :
    Except EngineServiceError WireAccumulator :=
  if acc.started = false then .error ⟨"engine wire sent a delta before its snapshot"⟩
  else if sequence ≠ acc.nextSequence then
    .error ⟨s!"engine wire sequence mismatch: expected {acc.nextSequence}, got {sequence}"⟩
  else if outputOffset ≠ acc.outputs.length then
    .error ⟨s!"engine wire delta output_offset mismatch: expected {acc.outputs.length}, got {outputOffset}"⟩
  else do
    let acc := { acc with outputs := acc.outputs ++ newTokenIds }
    let acc ← acc.takeText finished textOffset textDelta
    let logprobs ← extendRows "engine wire delta logprobs and offset must appear together"
      "engine wire delta omitted active logprob metadata" "logprob_offset" acc.logprobs newLogprobs logprobOffset
    let logprobContent ← extendRows "engine wire delta logprob content and offset must appear together"
      "engine wire delta omitted active rich logprob metadata" "logprob_content_offset" acc.logprobContent
      newLogprobContent logprobContentOffset
    return { acc with logprobs, logprobContent, nextSequence := acc.nextSequence + 1 }

def takeBody (acc : WireAccumulator) (event : WireEvent) : Except EngineServiceError WireAccumulator :=
  match event.body with
  | .snapshot outputs text numPromptTokens logprobs logprobContent =>
    acc.snapshot event.sequence outputs text numPromptTokens logprobs logprobContent
  | .delta outputOffset newTokenIds textOffset textDelta logprobOffset newLogprobs contentOffset newContent =>
    acc.delta event.sequence event.finished outputOffset newTokenIds textOffset textDelta logprobOffset newLogprobs
      contentOffset newContent

def takeStageMetrics (acc : WireAccumulator) : Option (List StageRow) → Except EngineServiceError WireAccumulator
  | none => .ok acc
  | some rows => do
    let stageMetrics ← decodeStageMetrics [] rows
    checkStageMetrics stageMetrics acc.stageMetrics
    return { acc with stageMetrics }

end WireAccumulator

/-- The cumulative event that `apply` returns. -/
structure NormalizedEvent where
  requestId : RequestId
  outputs : List TokenId
  finished : Bool
  finishReason : Option FinishReason
  numPromptTokens : Nat
  numCachedTokens : Nat
  cumulativeLogprob : FloatBits
  stageMetrics : List GenerationStageMetric
  textOffset : Nat
  textDelta : Text
  text : TextValue
  logprobs : Option (List WireEntry)
  logprobContent : Option (List Packed)

namespace WireBody

/-- The offset and the text that a consumer of deltas sees. -/
def shown : WireBody → Nat × Text
  | .snapshot _ text _ _ _ => (0, text)
  | .delta _ _ textOffset textDelta _ _ _ _ => (textOffset, textDelta)

def newTokenIds : WireBody → List TokenId
  | .snapshot .. => []
  | .delta _ newTokenIds _ _ _ _ _ _ => newTokenIds

def isSnapshot : WireBody → Bool
  | .snapshot .. => true
  | .delta .. => false

end WireBody

namespace WireAccumulator

def normalized (acc : WireAccumulator) (event : WireEvent) (materialize : Bool) : NormalizedEvent where
  requestId := event.requestId
  outputs := acc.outputs
  finished := event.finished
  finishReason := event.finishReason
  numPromptTokens := acc.numPromptTokens
  numCachedTokens := acc.numCachedTokens
  cumulativeLogprob := acc.cumulativeLogprob
  stageMetrics := acc.stageMetrics
  textOffset := event.body.shown.1
  textDelta := event.body.shown.2
  text := if materialize then .whole acc.textParts.flatten else .snapshot acc.replaced.length acc.textParts.length
  logprobs := acc.logprobs
  logprobContent := acc.logprobContent

def apply (acc : WireAccumulator) (event : WireEvent) (materialize : Bool) :
    Except EngineServiceError (NormalizedEvent × WireAccumulator) :=
  let version := acc.wireVersion.getD event.wireVersion
  if event.wireVersion ≠ version then
    .error ⟨s!"engine wire changed version within one request: {version} -> {event.wireVersion}"⟩
  else if event.wireVersion ≠ Wire.version then .error ⟨s!"unsupported engine wire version {event.wireVersion}"⟩
  else do
    let acc ← { acc with wireVersion := some version }.takeBody event
    let acc := { acc with
      numCachedTokens := event.numCachedTokens, cumulativeLogprob := event.cumulativeLogprob }
    let acc ← acc.takeStageMetrics event.stageMetrics
    return (acc.normalized event materialize, acc)

/-- All events in order. -/
def applyAll (materialize : WireEvent → Bool) (acc : WireAccumulator) :
    List WireEvent → Except EngineServiceError (List NormalizedEvent × WireAccumulator)
  | [] => .ok ([], acc)
  | event :: events => do
    let (normal, acc) ← acc.apply event (materialize event)
    let (normals, acc) ← applyAll materialize acc events
    return (normal :: normals, acc)

end WireAccumulator

/-! ### Results of a stream -/

/-- The parts of a `GenerationResult` that `_result` takes from the event. -/
structure EngineResult where
  text : TextValue
  tokenIds : List TokenId
  cumulativeLogprob : FloatBits
  logprobs : Option (List LogprobEntry)
  finishReason : Option FinishReason
  /-- `none` where an entry cannot be decoded. -/
  logprobContent : Option (Option (List RichLogprob))
  textDelta : Option Text
  textOffset : Option Int
  finished : Bool
  promptTokens : Nat
  cachedTokens : Nat

def decodeContent : Option (List Packed) → Option (Option (List RichLogprob))
  | none => some none
  | some rows => (decodeTokenLogprobs rows).map some

namespace NormalizedEvent

def result (event : NormalizedEvent) (deltaNative : Bool) : EngineResult where
  text := event.text
  tokenIds := event.outputs
  cumulativeLogprob := event.cumulativeLogprob
  logprobs := event.logprobs.map (·.map decodeEntry)
  finishReason := event.finishReason
  logprobContent := decodeContent event.logprobContent
  textDelta := if deltaNative then some event.textDelta else none
  textOffset := if deltaNative then some event.textOffset else none
  finished := event.finished
  promptTokens := event.numPromptTokens
  cachedTokens := event.numCachedTokens

end NormalizedEvent

/-- The completion of a result, with the text read in this state of the accumulator. -/
def EngineResult.completion (acc : WireAccumulator) (result : EngineResult) : CompletionOutput where
  index := 0
  text := result.text.read acc
  textDelta := result.textDelta
  textOffset := result.textOffset

/-- `_stream_event_needs_materialization` -/
def WireEvent.needsMaterialization (event : WireEvent) : Bool :=
  event.wireVersion != Wire.version || event.body.isSnapshot || !event.body.newTokenIds.isEmpty || event.finished

/-- `ZmqEngineBackend.stream` over the events of its queue: the results yielded, and the
    failure that ended it. -/
def streamResults (acc : WireAccumulator) (emitted : Int) :
    List WireEvent → List EngineResult × Option EngineServiceError
  | [] => ([], none)
  | event :: events =>
    match acc.apply event event.finished with
    | .error error => ([], some error)
    | .ok (normal, acc) =>
      if event.needsMaterialization = false then streamResults acc emitted events
      else
        let fresh := decide (emitted < normal.outputs.length) || normal.finished
        let emitted := if fresh then (normal.outputs.length : Int) else emitted
        let yielded := if fresh then [normal.result true] else []
        if normal.finished then (yielded, none)
        else
          let (rest, failure) := streamResults acc emitted events
          (yielded ++ rest, failure)

/-- What a consumer has read after the completions, each by `delta_after`. -/
def readDeltas (offset : Nat) : List CompletionOutput → Except ValueError Text
  | [] => .ok []
  | completion :: completions => do
    let (delta, offset) ← completion.deltaAfter offset
    let rest ← readDeltas offset completions
    return delta ++ rest

end Kairyu
