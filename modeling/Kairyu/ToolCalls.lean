/-
  Kairyu/ToolCalls.lean
  =====================
  **Reading tool calls out of model text** (`entrypoints/server/chat_service.py`): the
  strict JSON reader, the schema of a declared tool, and the parameter elements of the
  Qwen and DSML formats.

  Reading guide.

    * A function that raises `ValueError` returns `none`; every caller modelled here
      catches it.
    * The patterns of the source are matched by hand.  Each is deterministic: a name
      ends at its delimiter, a lazy body at the first closing marker.
    * A tool is the mapping the caller sent.
-/
import Kairyu.ChatStream
import Kairyu.Json

namespace Kairyu

namespace Text

/-- What follows `p`, when the text starts with it. -/
def after (p t : Text) : Option Text := if p <+: t then some (t.drop p.length) else none

/-- The text before and after the first occurrence of `p`. -/
def cut (p t : Text) : Option (Text × Text) := (find p t).map fun i => (t.take i, t.drop (i + p.length))

/-- `[^stop\n]+` -/
def takeName (stop : CodePoint) (t : Text) : Option (Text × Text) :=
  let inName c := c ≠ stop && c ≠ cp '\n'
  if t.takeWhile inName = [] then none else some (t.takeWhile inName, t.dropWhile inName)

/-- The leftmost match of a pattern: the text before it, and what it matched. -/
def search {α : Type} (pattern : Text → Option (α × Text)) : Text → Option (Text × α × Text)
  | [] => (pattern []).map fun found => ([], found)
  | c :: cs =>
    match pattern (c :: cs) with
    | some found => some ([], found)
    | none => (search pattern cs).map fun (before, found) => (c :: before, found)

/-- `text.lower()` on the letters of ASCII. -/
def lower (t : Text) : Text := t.map fun c => if 65 ≤ c.val ∧ c.val ≤ 90 then c + 32 else c

end Text

open Json (get)

/-! ### Strict JSON -/

/-- `parse_constant` refuses, and `object_pairs_hook` refuses a key twice. -/
def strictHooks : Json.Hooks where
  constant _ := none
  pairs pairs := if (pairs.map Prod.fst).Nodup then some pairs else none

/-- `_strict_json_loads` -/
def strictJsonLoads (codec : FloatCodec) (t : Text) : Option Json :=
  (Json.loadsWith codec strictHooks t).filter Json.isFinite

/-! ### Declared tools -/

/-- `_tool_parameters_schema` -/
def toolParametersSchema (functionName : Text) : List JsonFields → Option JsonFields
  | [] => none
  | tool :: rest =>
    match get tool (Text.of "type"), get tool (Text.of "function") with
    | some (.str kind), some (.obj function) =>
      match get function (Text.of "name") with
      | some (.str name) =>
        if kind = Text.of "function" ∧ name = functionName then
          match get function (Text.of "parameters") with
          | none => some []
          | some (.obj parameters) => some parameters
          | some _ => none
        else toolParametersSchema functionName rest
      | _ => toolParametersSchema functionName rest
    | _, _ => toolParametersSchema functionName rest

/-- The strings of a list of strings. -/
def stringItems : List Json → Option (List Text)
  | [] => some []
  | .str t :: rest => (stringItems rest).map (t :: ·)
  | _ :: _ => none

/-- `_schema_types` -/
def schemaTypes (schema : JsonFields) : Option (List Text) :=
  match get schema (Text.of "type") with
  | some (.str declared) => some [declared]
  | some (.arr items) => stringItems items
  | none | some .null => some []
  | some _ => none

/-- Whether a parsed parameter has a declared type. -/
def hasKind (kind : Text) : Json → Bool
  | .int _ => kind = Text.of "integer" || kind = Text.of "number"
  | .float _ => kind = Text.of "number"
  | .bool _ => kind = Text.of "boolean"
  | .arr _ => kind = Text.of "array"
  | .obj _ => kind = Text.of "object"
  | .str _ => kind = Text.of "string"
  | .null => false

/-! ### Qwen parameters -/

/-- One formatting newline on each side is not part of the value. -/
def stripNewlines (value : Text) : Text :=
  let value := if value.head? = some (cp '\n') then value.drop 1 else value
  if value.getLast? = some (cp '\n') then value.dropLast else value

/-- `_qwen_parameter_value` -/
def qwenParameterValue (codec : FloatCodec) (value : Text) (schema : Json) : Option Json :=
  let value := stripNewlines value
  match schema with
  | .obj schema =>
    match schemaTypes schema with
    | none => none
    | some kinds =>
      let nonNullKinds := kinds.filter (· ≠ Text.of "null")
      if kinds = [] then some (.str value)
      else if Text.of "null" ∈ kinds ∧ value.lower = Text.of "null" then some .null
      else if nonNullKinds = [] then none
      else if nonNullKinds.all (· = Text.of "string") then some (.str value)
      else
        match strictJsonLoads codec value with
        | none => none
        | some parsed => if nonNullKinds.any (hasKind · parsed) then some parsed else none
  | _ => some (.str value)

/-- `<parameter=NAME>VALUE</parameter>` -/
def qwenParameter (t : Text) : Option ((Text × Text) × Text) := do
  let t ← Text.after (Text.of "<parameter=") t
  let (name, t) ← Text.takeName (cp '>') t
  let t ← Text.after [cp '>'] t
  let (value, t) ← Text.cut (Text.of "</parameter>") t
  return ((name, value), t)

/-- `properties`, `required` and `additionalProperties` of a parameters schema. -/
structure ParametersSchema where
  properties : JsonFields
  required : List Text
  /-- The schema of a parameter that is not declared; `none` where it is refused. -/
  additional : Option Json

def readParametersSchema (schema : JsonFields) : Option ParametersSchema := do
  let _ ← match get schema (Text.of "type") with
    | none => some ()
    | some (.str t) => if t = Text.of "object" then some () else none
    | some _ => none
  let properties ← match get schema (Text.of "properties") with
    | none => some []
    | some (.obj properties) => some properties
    | some _ => none
  let required ← match get schema (Text.of "required") with
    | none => some []
    | some (.arr items) => stringItems items
    | some _ => none
  let additional ← match get schema (Text.of "additionalProperties") with
    | none | some (.bool true) => some (some (.obj []))
    | some (.bool false) => some none
    | some (.obj schema) => some (some (.obj schema))
    | some _ => none
  return { properties, required, additional }

/-- The schema of one parameter. -/
def ParametersSchema.schemaFor (schema : ParametersSchema) (name : Text) : Option Json :=
  match get schema.properties name with
  | none | some .null => schema.additional
  | some declared => some declared

/-- The parameters of a body, in order; `arguments` are those read so far. -/
def qwenParameters (codec : FloatCodec) (schema : ParametersSchema) :
    Nat → JsonFields → Text → Option JsonFields
  | 0, _, _ => none
  | n + 1, arguments, body =>
    match Text.search qwenParameter body with
    | none => if Text.blank body then some arguments else none
    | some (before, (name, value), rest) =>
      let name := Text.strip name
      if Text.blank before = false ∨ name = [] ∨ name ∈ arguments.map Prod.fst then none
      else
        match schema.schemaFor name with
        | none => none
        | some parameterSchema =>
          match qwenParameterValue codec value parameterSchema with
          | none => none
          | some value => qwenParameters codec schema n (arguments ++ [(name, value)]) rest

/-- `_qwen_arguments` -/
def qwenArguments (codec : FloatCodec) (body : Text) (schema : JsonFields) : Option JsonFields :=
  match readParametersSchema schema with
  | none => none
  | some schema =>
    match qwenParameters codec schema (body.length + 1) [] body with
    | none => none
    | some arguments =>
      if schema.required.all (· ∈ arguments.map Prod.fst) then some arguments else none

/-- `\s*<function=NAME>BODY</function>\s*`, matched as a whole. -/
def qwenFunction (body : Text) : Option (Text × Text) := do
  let t ← Text.after (Text.of "<function=") (Text.lstrip body)
  let (name, t) ← Text.takeName (cp '>') t
  let t ← Text.after [cp '>'] t
  let trimmed := Text.rstrip t
  if Text.of "</function>" <:+ trimmed then
    return (name, trimmed.take (trimmed.length - (Text.of "</function>").length))
  else none

/-! ### DSML -/

/-- `<｜DSML｜parameter name="NAME" string="true|false">VALUE</｜DSML｜parameter>` -/
def dsmlParameter (t : Text) : Option ((Text × Bool × Text) × Text) := do
  let t ← Text.after (Text.of "<｜DSML｜parameter name=\"") t
  let (name, t) ← Text.takeName (cp '"') t
  let t ← Text.after (Text.of "\" string=\"") t
  let (isString, t) ← match Text.after (Text.of "true") t with
    | some t => some (true, t)
    | none => (Text.after (Text.of "false") t).map fun t => (false, t)
  let t ← Text.after (Text.of "\">") t
  let (value, t) ← Text.cut (Text.of "</｜DSML｜parameter>") t
  return ((name, isString, value), t)

/-- The parameters of an invocation, in order. -/
def dsmlParameters (codec : FloatCodec) : Nat → JsonFields → Text → Option JsonFields
  | 0, _, _ => none
  | n + 1, arguments, body =>
    match Text.search dsmlParameter body with
    | none => if Text.blank body then some arguments else none
    | some (before, (key, isString, value), rest) =>
      if Text.blank before = false ∨ key ∈ arguments.map Prod.fst then none
      else if isString then dsmlParameters codec n (arguments ++ [(key, .str value)]) rest
      else
        match strictJsonLoads codec value with
        | none => none
        | some value => dsmlParameters codec n (arguments ++ [(key, value)]) rest

/-- `<｜DSML｜invoke name="NAME">\s*BODY\s*</｜DSML｜invoke>`, matched as a whole on a
    text whose only closing marker ends it. -/
def dsmlInvoke (t : Text) : Option (Text × Text) := do
  let t ← Text.after (Text.of "<｜DSML｜invoke name=\"") t
  let (name, t) ← Text.takeName (cp '"') t
  let t ← Text.after (Text.of "\">") t
  if Text.of "</｜DSML｜invoke>" <:+ t then
    return (name, Text.strip (t.take (t.length - (Text.of "</｜DSML｜invoke>").length)))
  else none

end Kairyu
