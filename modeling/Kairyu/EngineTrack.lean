/-
  Kairyu/EngineTrack.lean
  =======================
  **What the engine loop reports of a request** (`_IncrementalStopMatcher`,
  `_RequestTrack` and `_materialize_update` of `engine/engine_loop.py`).

  Each step hands a track the token ids the scheduler committed.  The track detokenizes
  them, searches the text that became stable for stop strings and builds the cumulative
  update; a stop string found here finishes the request early.

  Reading guide.

    * A detokenizer is what its text is after the ids pushed to it (`stable`) and what
      `finalize` returns (`final`).
    * Entries of `logprobs` are kept as the sampled tokens they are built from; stage
      metrics are left out.
-/
import Kairyu.EngineRequest
import Kairyu.Text

namespace Kairyu

/-! ### The stop matcher -/

/-- `text.find(pattern, start)` -/
def Text.findFrom (pattern text : Text) (start : Nat) : Option Nat :=
  (Text.find pattern (text.drop start)).map (· + start)

/-- `"stop matcher text must never retract"` -/
inductive StopError where
  | retracted
deriving DecidableEq, Repr

structure StopMatcher where
  stops : List Text
  overlap : Nat
  searchedLength : Int := -1
  found : Option Nat := none
deriving DecidableEq

namespace StopMatcher

def new (stops : List Text) : StopMatcher where
  stops
  overlap := ((stops.map List.length).max?.getD 1) - 1

/-- The smaller position, the one found first if they are equal. -/
def earlier (found index : Option Nat) : Option Nat :=
  match index, found with
  | none, _ => found
  | some i, none => some i
  | some i, some f => if i < f then some i else some f

def find (m : StopMatcher) (text : Text) : Except StopError (Option Nat × StopMatcher) :=
  if m.found.isSome then .ok (m.found, m)
  else if (text.length : Int) < m.searchedLength then .error .retracted
  else if (text.length : Int) = m.searchedLength then .ok (none, m)
  else
    -- A newly completed stop begins at most `overlap` characters before the previous tail.
    let start := if m.searchedLength < 0 then 0 else (m.searchedLength - m.overlap).toNat
    let found := m.stops.foldl (fun found stop => earlier found (Text.findFrom stop text start)) none
    .ok (found, { m with searchedLength := text.length, found })

end StopMatcher

/-! ### Updates -/

structure SampledToken where
  tokenId : TokenId
  logprob : Option FloatBits := none
  topLogprobs : Option (List (TokenId × FloatBits)) := none
  grammarTerminated : Bool := false
deriving DecidableEq

structure Detokenizer where
  stable : List TokenId → Text
  final : List TokenId → Text

/-- `_TrackUpdateInput`: what the scheduler says of the request after a step. -/
structure TrackUpdateInput where
  newIds : List TokenId
  newMeta : List SampledToken := []
  finished : Bool := false
  stateFinishReason : Option FinishReason := none
  request : EngineRequest
  numCachedTokens : Nat := 0
  finishReason : Option FinishReason := none

structure StreamUpdate where
  outputs : List TokenId
  text : Text
  finished : Bool
  finishReason : Option FinishReason
  logprobs : Option (List SampledToken)
  numPromptTokens : Nat
  numCachedTokens : Nat

structure RequestTrack where
  detok : Detokenizer
  matcher : StopMatcher
  holdback : Nat
  numPromptTokens : Nat
  /-- The ids pushed to the detokenizer. -/
  pushed : List TokenId := []
  stable : Text := []
  outputs : List TokenId := []
  logprobs : Option (List SampledToken) := none
  numCachedTokens : Nat := 0

namespace RequestTrack

def new (detok : Detokenizer) (stops : List Text) (numPromptTokens : Nat) : RequestTrack where
  detok
  matcher := StopMatcher.new stops
  holdback := (StopMatcher.new stops).overlap
  numPromptTokens

/-- The new ids without a sampled stop token, which is not visible text. -/
def visibleNewIds (item : TrackUpdateInput) : List TokenId :=
  match item.newIds.getLast? with
  | none => item.newIds
  | some terminalId =>
    if item.finished = true ∧ item.stateFinishReason = some .stop ∧
        ((item.request.ignoreEos = false ∧ item.request.eosTokenId = some terminalId) ∨
          terminalId ∈ item.request.stopTokenIds) then
      item.newIds.dropLast
    else item.newIds

/-- `_logprob_fields`, as the tokens with a log probability. -/
def newLogprobs (meta' : List SampledToken) : Option (List SampledToken) :=
  if meta'.any (·.logprob.isSome) then some (meta'.filter (·.logprob.isSome)) else none

/-- The part of `_materialize_update` that takes in the new tokens. -/
def take (track : RequestTrack) (item : TrackUpdateInput) : RequestTrack :=
  let visible := visibleNewIds item
  let pushed := track.pushed ++ visible
  { track with
    outputs := track.outputs ++ item.newIds
    pushed
    stable := if visible = [] then track.stable else track.detok.stable pushed
    numCachedTokens := max track.numCachedTokens item.numCachedTokens
    logprobs :=
      match newLogprobs item.newMeta with
      | none => track.logprobs
      | some new => some (track.logprobs.getD [] ++ new) }

/-- The cumulative update. -/
def update (track : RequestTrack) (text : Text) (finished : Bool) (reason : Option FinishReason) :
    StreamUpdate where
  outputs := track.outputs
  text
  finished
  finishReason := reason
  logprobs := track.logprobs
  numPromptTokens := track.numPromptTokens
  numCachedTokens := track.numCachedTokens

/-- `detok.finalize()`, accepted only if it extends the text that is already stable. -/
def finalized (track : RequestTrack) : Text :=
  let terminal := track.detok.final track.pushed
  if track.stable <+: terminal then terminal else track.stable

/-- `_materialize_update`: the update, whether it finishes the request early, and the
    track after it. -/
def materializeUpdate (track : RequestTrack) (item : TrackUpdateInput) :
    Except StopError (StreamUpdate × Bool × RequestTrack) :=
  let track := track.take item
  if item.finished then
    let track := { track with stable := track.finalized }
    match track.matcher.find track.stable with
    | .error error => .error error
    | .ok (some stopAt, matcher) =>
      .ok (track.update (track.stable.take stopAt) true (some .stop), false, { track with matcher })
    | .ok (none, matcher) =>
      .ok (track.update track.stable true (some (item.finishReason.getD .length)), false,
        { track with matcher })
  else
    match track.matcher.find track.stable with
    | .error error => .error error
    | .ok (some stopAt, matcher) =>
      .ok (track.update (track.stable.take stopAt) true (some .stop), true, { track with matcher })
    | .ok (none, matcher) =>
      -- All but the hold-back may cross the streaming boundary.
      .ok (track.update (track.stable.take (track.stable.length - track.holdback)) false none, false,
        { track with matcher })

/-- The terminal update of a request whose steps these are. -/
def report (track : RequestTrack) : List TrackUpdateInput → Except StopError (Option StreamUpdate)
  | [] => .ok none
  | item :: items =>
    match track.materializeUpdate item with
    | .error error => .error error
    | .ok (update, _, track) => if update.finished then .ok (some update) else track.report items

end RequestTrack

end Kairyu
