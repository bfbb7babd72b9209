/-
  Kairyu/EngineRequest.lean
  =========================
  **Requests** (`engine/core/scheduler.py`, `engine/core/sampling_types.py`).

  Floating-point parameters are carried as the 64-bit patterns they are; nothing
  modelled here computes with them.  A JSON schema is a JSON value.
-/
import Kairyu.Json
import Kairyu.RadixKVCache

namespace Kairyu

abbrev RequestId := String

/-- Engine-side sampling parameters; the default is exact greedy. -/
structure EngineSampling where
  temperature : FloatBits := 0
  topK : Int := -1
  topP : FloatBits := 0x3ff0000000000000
  minP : FloatBits := 0
  presencePenalty : FloatBits := 0
  frequencyPenalty : FloatBits := 0
  repetitionPenalty : FloatBits := 0x3ff0000000000000
  seed : Option Int := none
  logprobs : Option Int := none
  jsonSchema : Option Json := none
  jsonMode : Bool := false
  regex : Option String := none
  grammar : Option String := none
  structuralTag : Option Json := none
  forcedTokenIds : Option (List TokenId) := none

namespace EngineSampling

def needsGrammar (p : EngineSampling) : Bool :=
  p.jsonSchema.isSome || p.jsonMode || p.regex.isSome || p.grammar.isSome || p.structuralTag.isSome

/-- Whether deterministic-draft verification can preserve this policy. -/
def isSpeculativeEligible (p : EngineSampling) : Bool :=
  p.forcedTokenIds.isNone && !p.needsGrammar

end EngineSampling

structure EngineRequest where
  requestId : RequestId
  promptTokenIds : List TokenId
  maxNewTokens : Int := 16
  eosTokenId : Option TokenId := none
  stopTokenIds : List TokenId := []
  minTokens : Int := 0
  ignoreEos : Bool := false
  /-- Smaller integers are admitted first. -/
  priority : Int := 0
  schedulingClass : String := "interactive"
  sampling : EngineSampling := {}
  samplingId : Option String := none

namespace EngineRequest

def promptLen (r : EngineRequest) : Nat := r.promptTokenIds.length

end EngineRequest

instance : Inhabited EngineRequest := ⟨{ requestId := "", promptTokenIds := [] }⟩

inductive FinishReason where
  | stop
  | length
  | abort
deriving DecidableEq, Repr

end Kairyu
