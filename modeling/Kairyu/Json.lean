/-
  Kairyu/Json.lean
  ================
  **JSON as Python's `json` module reads and writes it.**

  Reading guide.

    * A reader returns what it read next to the text it left, or `none` where the
      module raises.  The readers of arrays and objects take the reader of one value
      as an argument, as the module's do.
    * A string is scanned into units first; two units that were escaped surrogates of
      a pair are then joined.
    * `float` and its `repr` are a `FloatCodec`: the two functions with the law that
      the second is a literal the first reads back.
    * The interpreter's limits on nesting and on the digits of an integer are not
      modelled.
-/
import Kairyu.Text

namespace Kairyu

/-- The bit pattern of an IEEE double. -/
abbrev FloatBits := UInt64

/-- Neither infinite nor a NaN. -/
def FloatBits.isFinite (b : FloatBits) : Bool := decide (b.toNat / 2 ^ 52 % 2 ^ 11 ≠ 2 ^ 11 - 1)

inductive Json where
  | null
  | bool (value : Bool)
  | int (value : Int)
  | float (value : FloatBits)
  | str (value : Text)
  | arr (items : List Json)
  | obj (fields : List (Text × Json))

/-- The entries of a mapping, in insertion order. -/
abbrev JsonFields := List (Text × Json)

namespace Json

mutual

/-- Equality of values, entries in order. -/
def beq : Json → Json → Bool
  | .null, .null => true
  | .bool a, .bool b => a == b
  | .int a, .int b => a == b
  | .float a, .float b => a == b
  | .str a, .str b => a == b
  | .arr a, .arr b => beqItems a b
  | .obj a, .obj b => beqFields a b
  | _, _ => false

def beqItems : List Json → List Json → Bool
  | [], [] => true
  | a :: as, b :: bs => beq a b && beqItems as bs
  | _, _ => false

def beqFields : List (Text × Json) → List (Text × Json) → Bool
  | [], [] => true
  | (k, a) :: as, (l, b) :: bs => k == l && beq a b && beqFields as bs
  | _, _ => false

end

mutual

theorem beq_iff (a b : Json) : beq a b = true ↔ a = b := by
  cases a <;> cases b <;> simp [beq, beqItems_iff, beqFields_iff]

theorem beqItems_iff (as bs : List Json) : beqItems as bs = true ↔ as = bs := by
  cases as <;> cases bs <;> simp [beqItems, beq_iff, beqItems_iff]

theorem beqFields_iff (as bs : List (Text × Json)) : beqFields as bs = true ↔ as = bs := by
  rcases as with _ | ⟨⟨k, a⟩, as⟩ <;> rcases bs with _ | ⟨⟨l, b⟩, bs⟩ <;>
    simp [beqFields, beq_iff, beqFields_iff]

end

instance : DecidableEq Json := fun a b => decidable_of_iff _ (beq_iff a b)

/-- `mapping.get(key)` -/
def get (fields : JsonFields) (key : Text) : Option Json := fields.lookup key

/-! ### Numbers -/

def isDigit (c : CodePoint) : Bool := decide (48 ≤ c.val ∧ c.val ≤ 57)

/-- A longest run of digits. -/
def scanDigits (t : Text) : Text × Text := (t.takeWhile isDigit, t.dropWhile isDigit)

/-- `0|[1-9][0-9]*` -/
def scanNatural : Text → Option (Text × Text)
  | [] => none
  | c :: cs =>
    if c = cp '0' then some ([c], cs)
    else if isDigit c then some (c :: (scanDigits cs).1, (scanDigits cs).2)
    else none

/-- `-?` -/
def scanMinus : Text → Text × Text
  | [] => ([], [])
  | c :: cs => if c = cp '-' then ([c], cs) else ([], c :: cs)

/-- `(\.[0-9]+)?` -/
def scanFraction : Text → Text × Text
  | [] => ([], [])
  | c :: cs =>
    let (digits, rest) := scanDigits cs
    if c = cp '.' ∧ digits ≠ [] then (c :: digits, rest) else ([], c :: cs)

/-- `[-+]?` -/
def scanSign : Text → Text × Text
  | [] => ([], [])
  | c :: cs => if c = cp '-' ∨ c = cp '+' then ([c], cs) else ([], c :: cs)

/-- `([eE][-+]?[0-9]+)?` -/
def scanExponent : Text → Text × Text
  | [] => ([], [])
  | c :: cs =>
    let (sign, unsigned) := scanSign cs
    let (digits, rest) := scanDigits unsigned
    if (c = cp 'e' ∨ c = cp 'E') ∧ digits ≠ [] then (c :: (sign ++ digits), rest) else ([], c :: cs)

/-- The parts of a number literal. -/
structure NumberLiteral where
  minus : Text
  natural : Text
  fraction : Text
  exponent : Text
deriving DecidableEq, Repr

namespace NumberLiteral

def text (l : NumberLiteral) : Text := l.minus ++ (l.natural ++ (l.fraction ++ l.exponent))

def isFloat (l : NumberLiteral) : Bool := l.fraction ≠ [] || l.exponent ≠ []

end NumberLiteral

def scanNumber (t : Text) : Option (NumberLiteral × Text) :=
  let (minus, t) := scanMinus t
  match scanNatural t with
  | none => none
  | some (natural, t) =>
    let (fraction, t) := scanFraction t
    let (exponent, t) := scanExponent t
    some ({ minus, natural, fraction, exponent }, t)

/-- `int(digits)` -/
def naturalValue (digits : Text) : Nat := digits.foldl (fun value c => value * 10 + (c.val - 48)) 0

def integerValue (minus natural : Text) : Int :=
  if minus = [] then naturalValue natural else -naturalValue natural

end Json

/-- Python's `float` of a literal and `repr` of a float. -/
structure FloatCodec where
  read : Text → FloatBits
  write : FloatBits → Text
  /-- The `repr` of a finite float is a float literal … -/
  write_literal : ∀ b, b.isFinite = true →
    ∃ l : Json.NumberLiteral, l.isFloat = true ∧ Json.scanNumber (write b) = some (l, [])
  /-- … that reads back as that float. -/
  read_write : ∀ b, b.isFinite = true → read (write b) = b

namespace Json

/-! ### Strings -/

/-- Where `scanstring` is: outside an escape, after its backslash, or with so many
    of the four hexadecimal digits left. -/
inductive StringMode where
  | plain
  | escape
  | hex (left : Nat) (value : Nat)
deriving DecidableEq, Repr

/-- A scanned code point, and whether a `\u` escape wrote it. -/
structure StringUnit where
  point : CodePoint
  escaped : Bool
deriving DecidableEq, Repr

/-- The one-letter escapes. -/
def escapedChar (c : CodePoint) : Option CodePoint :=
  if c = cp '"' then some (cp '"')
  else if c = cp '\\' then some (cp '\\')
  else if c = cp '/' then some (cp '/')
  else if c = cp 'b' then some 8
  else if c = cp 'f' then some 12
  else if c = cp 'n' then some (cp '\n')
  else if c = cp 'r' then some (cp '\r')
  else if c = cp 't' then some (cp '\t')
  else none

def hexValue (c : CodePoint) : Option Nat :=
  if isDigit c then some (c.val - 48)
  else if 97 ≤ c.val ∧ c.val ≤ 102 then some (c.val - 87)
  else if 65 ≤ c.val ∧ c.val ≤ 70 then some (c.val - 55)
  else none

/-- The rest of a string, up to its closing quote. -/
def scanString : StringMode → Text → Option (List StringUnit × Text)
  | _, [] => none
  | .plain, c :: cs =>
    if c = cp '"' then some ([], cs)
    else if c = cp '\\' then scanString .escape cs
    -- A control character must be escaped.
    else if c.val ≤ 0x1f then none
    else (scanString .plain cs).map fun (units, rest) => (⟨c, false⟩ :: units, rest)
  | .escape, c :: cs =>
    if c = cp 'u' then scanString (.hex 4 0) cs
    else
      match escapedChar c with
      | none => none
      | some point =>
        (scanString .plain cs).map fun (units, rest) => (⟨point, false⟩ :: units, rest)
  | .hex left value, c :: cs =>
    match hexValue c with
    | none => none
    | some digit =>
      let value := value * 16 + digit
      if left ≤ 1 then
        (scanString .plain cs).map fun (units, rest) => (⟨Fin.ofNat _ value, true⟩ :: units, rest)
      else scanString (.hex (left - 1) value) cs

def isHighSurrogate (c : CodePoint) : Bool := decide (0xd800 ≤ c.val ∧ c.val ≤ 0xdbff)

def isLowSurrogate (c : CodePoint) : Bool := decide (0xdc00 ≤ c.val ∧ c.val ≤ 0xdfff)

/-- The code point of a surrogate pair. -/
def joinPair (high low : CodePoint) : CodePoint :=
  Fin.ofNat _ (0x10000 + (high.val - 0xd800) * 0x400 + (low.val - 0xdc00))

/-- Join the pairs that two consecutive escapes wrote. -/
def joinSurrogates : List StringUnit → Text
  | [] => []
  | [u] => [u.point]
  | u :: v :: rest =>
    if u.escaped && v.escaped && isHighSurrogate u.point && isLowSurrogate v.point then
      joinPair u.point v.point :: joinSurrogates rest
    else u.point :: joinSurrogates (v :: rest)

/-! ### Values -/

/-- What a caller of `loads` may replace: the constants beyond JSON, and the making
    of a mapping from its pairs. -/
structure Hooks where
  constant : FloatBits → Option Json
  pairs : JsonFields → Option JsonFields

def isWs (c : CodePoint) : Bool := c == cp ' ' || c == cp '\t' || c == cp '\n' || c == cp '\r'

def skipWs (t : Text) : Text := t.dropWhile isWs

/-- The rest after one expected character. -/
def expect (c : CodePoint) : Text → Option Text
  | [] => none
  | d :: ds => if d = c then some ds else none

def scanKey (t : Text) : Option (Text × Text) := do
  let t ← expect (cp '"') t
  let (units, t) ← scanString .plain t
  return (joinSurrogates units, t)

/-- The items of an array after its bracket or a comma. -/
def scanItems (scanOnce : Text → Option (Json × Text)) : Nat → Text → Option (List Json × Text)
  | 0, _ => none
  | n + 1, t => do
    let (value, t) ← scanOnce t
    match expect (cp ',') (skipWs t) with
    | some t =>
      let (values, t) ← scanItems scanOnce n (skipWs t)
      return (value :: values, t)
    | none =>
      let t ← expect (cp ']') (skipWs t)
      return ([value], t)

/-- `JSONArray`; the opening bracket is read. -/
def jsonArray (scanOnce : Text → Option (Json × Text)) (t : Text) : Option (List Json × Text) :=
  match expect (cp ']') (skipWs t) with
  | some t => some ([], t)
  | none => scanItems scanOnce t.length (skipWs t)

/-- The members of an object after its brace or a comma. -/
def scanMembers (scanOnce : Text → Option (Json × Text)) : Nat → Text → Option (JsonFields × Text)
  | 0, _ => none
  | n + 1, t => do
    let (key, t) ← scanKey t
    let t ← expect (cp ':') (skipWs t)
    let (value, t) ← scanOnce (skipWs t)
    match expect (cp ',') (skipWs t) with
    | some t =>
      let (members, t) ← scanMembers scanOnce n (skipWs t)
      return ((key, value) :: members, t)
    | none =>
      let t ← expect (cp '}') (skipWs t)
      return ([(key, value)], t)

/-- `JSONObject` before the pairs become a mapping; the opening brace is read. -/
def jsonObject (scanOnce : Text → Option (Json × Text)) (t : Text) : Option (JsonFields × Text) :=
  match expect (cp '}') (skipWs t) with
  | some t => some ([], t)
  | none => scanMembers scanOnce t.length (skipWs t)

/-- The three words and the three constants. -/
def words : List (Text × Except FloatBits Json) :=
  [(Text.of "null", .ok .null), (Text.of "true", .ok (.bool true)),
    (Text.of "false", .ok (.bool false)), (Text.of "NaN", .error 0x7ff8000000000000),
    (Text.of "Infinity", .error 0x7ff0000000000000),
    (Text.of "-Infinity", .error 0xfff0000000000000)]

def Hooks.meaning (hooks : Hooks) : Except FloatBits Json → Option Json
  | .ok value => some value
  | .error bits => hooks.constant bits

def scanWord (hooks : Hooks) (t : Text) : Option (Json × Text) := do
  let (word, meaning) ← words.find? fun entry => decide (entry.1 <+: t)
  let value ← hooks.meaning meaning
  return (value, t.drop word.length)

variable (codec : FloatCodec) (hooks : Hooks)

def numberValue (l : NumberLiteral) : Json :=
  if l.isFloat then .float (codec.read l.text) else .int (integerValue l.minus l.natural)

/-- One value, given the reader of the values inside it. -/
def scanValue (scanOnce : Text → Option (Json × Text)) : Text → Option (Json × Text)
  | [] => none
  | c :: cs =>
    if c = cp '"' then
      (scanString .plain cs).map fun (units, rest) => (.str (joinSurrogates units), rest)
    else if c = cp '{' then do
      let (pairs, rest) ← jsonObject scanOnce cs
      let fields ← hooks.pairs pairs
      return (.obj fields, rest)
    else if c = cp '[' then (jsonArray scanOnce cs).map fun (items, rest) => (.arr items, rest)
    else
      match scanNumber (c :: cs) with
      | some (l, rest) => some (numberValue codec l, rest)
      | none => scanWord hooks (c :: cs)

/-- `scan_once`, for values nested less deep than `depth`. -/
def scanOnce : Nat → Text → Option (Json × Text)
  | 0, _ => none
  | depth + 1, t => scanValue codec hooks (scanOnce depth) t

/-- `json.loads` with the hooks of its caller -/
def loadsWith (t : Text) : Option Json :=
  -- A byte order mark is refused.
  if t.head? = some (cp '\ufeff') then none
  else do
    let (value, rest) ← scanOnce codec hooks (t.length + 1) (skipWs t)
    if skipWs rest = [] then some value else none

/-- `mapping[key] = value` -/
def setField (fields : JsonFields) (key : Text) (value : Json) : JsonFields :=
  if fields.any (·.1 == key) then
    fields.map fun entry => if entry.1 = key then (key, value) else entry
  else fields ++ [(key, value)]

/-- The hooks of a plain `json.loads`. -/
def plainHooks : Hooks where
  constant bits := some (.float bits)
  pairs pairs := some (pairs.foldl (fun fields entry => setField fields entry.1 entry.2) [])

/-- `json.loads` -/
def loads (t : Text) : Option Json := loadsWith codec plainHooks t

/-! ### Writing -/

def hexChar (n : Nat) : CodePoint := Fin.ofNat _ (if n < 10 then 48 + n else 87 + n)

/-- A character of a string, escaped where JSON asks for it. -/
def writeChar (c : CodePoint) : Text :=
  if c = cp '"' then Text.of "\\\""
  else if c = cp '\\' then Text.of "\\\\"
  else if c = cp '\n' then Text.of "\\n"
  else if c = cp '\r' then Text.of "\\r"
  else if c = cp '\t' then Text.of "\\t"
  else if c.val = 12 then Text.of "\\f"
  else if c.val = 8 then Text.of "\\b"
  else if c.val ≤ 0x1f then Text.of "\\u00" ++ [hexChar (c.val / 16), hexChar (c.val % 16)]
  else [c]

def writeString (t : Text) : Text := cp '"' :: (t.flatMap writeChar ++ [cp '"'])

def writeNatural (n : Nat) : Text :=
  if n = 0 then [cp '0'] else ((Nat.digits 10 n).map fun d => Fin.ofNat _ (48 + d)).reverse

def writeInteger (i : Int) : Text :=
  if i < 0 then cp '-' :: writeNatural i.natAbs else writeNatural i.natAbs

/-- Texts with `", "` between them. -/
def commas : List Text → Text
  | [] => []
  | [t] => t
  | t :: u :: rest => t ++ (Text.of ", " ++ commas (u :: rest))

def writeFloat (b : FloatBits) : Text :=
  if b.isFinite then codec.write b
  else if b = 0x7ff0000000000000 then Text.of "Infinity"
  else if b = 0xfff0000000000000 then Text.of "-Infinity"
  else Text.of "NaN"

mutual

/-- `json.dumps(value, ensure_ascii=False)` -/
def dumps : Json → Text
  | .null => Text.of "null"
  | .bool true => Text.of "true"
  | .bool false => Text.of "false"
  | .int i => writeInteger i
  | .float b => writeFloat codec b
  | .str t => writeString t
  | .arr items => cp '[' :: (commas (dumpsItems items) ++ [cp ']'])
  | .obj fields => cp '{' :: (commas (dumpsFields fields) ++ [cp '}'])

def dumpsItems : List Json → List Text
  | [] => []
  | value :: rest => dumps value :: dumpsItems rest

def dumpsFields : List (Text × Json) → List Text
  | [] => []
  | (key, value) :: rest => (writeString key ++ (Text.of ": " ++ dumps value)) :: dumpsFields rest

end

mutual

/-- No number in the value is infinite or a NaN. -/
def isFinite : Json → Bool
  | .float b => b.isFinite
  | .arr items => isFiniteItems items
  | .obj fields => isFiniteFields fields
  | _ => true

def isFiniteItems : List Json → Bool
  | [] => true
  | value :: rest => isFinite value && isFiniteItems rest

def isFiniteFields : List (Text × Json) → Bool
  | [] => true
  | (_, value) :: rest => isFinite value && isFiniteFields rest

end

end Json

end Kairyu
