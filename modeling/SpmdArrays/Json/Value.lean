import SpmdArrays.Json.Token

/-!
JSON values read from tokens. The reader keeps a stack of the arrays and objects
that are open; members of objects stay in the order of the text, repeated keys
included.
-/

namespace SpmdArrays.Json

inductive Value where
  | null
  | bool (b : Bool)
  | number (text : String)
  | string (text : Option String)
  | array (items : List Value)
  | object (members : List (Option String × Value))

abbrev Member := Option String × Value

/-- An array or object that is open; its contents are kept last one first. -/
inductive Frame where
  | items (reversed : List Value)
  | members (reversed : List Member)
  /-- A member whose key is read and whose value is not. -/
  | member (reversed : List Member) (key : Option String)

/-- What has to come next. -/
inductive Want where
  | value
  | valueOrEnd
  | key
  | keyOrEnd
  | colon (key : Option String)
  | separator

inductive Reader where
  | reading (stack : List Frame) (want : Want)
  | done (v : Value)

/-- Puts a finished value where it belongs. -/
def place (stack : List Frame) (v : Value) : Option Reader :=
  match stack with
  | [] => some (.done v)
  | .items reversed :: rest => some (.reading (.items (v :: reversed) :: rest) .separator)
  | .member reversed key :: rest =>
    some (.reading (.members ((key, v) :: reversed) :: rest) .separator)
  | .members _ :: _ => none

def readValue (stack : List Frame) : Token → Option Reader
  | .null => place stack .null
  | .bool b => place stack (.bool b)
  | .number text => place stack (.number text)
  | .string text => place stack (.string text)
  | .openBracket => some (.reading (.items [] :: stack) .valueOrEnd)
  | .openBrace => some (.reading (.members [] :: stack) .keyOrEnd)
  | _ => none

def closeArray : List Frame → Option Reader
  | .items reversed :: rest => place rest (.array reversed.reverse)
  | _ => none

def closeObject : List Frame → Option Reader
  | .members reversed :: rest => place rest (.object reversed.reverse)
  | _ => none

def readToken (r : Reader) (t : Token) : Option Reader :=
  match r with
  | .done _ => none
  | .reading stack want =>
    match want, t with
    | .value, t => readValue stack t
    | .valueOrEnd, .closeBracket => closeArray stack
    | .valueOrEnd, t => readValue stack t
    | .keyOrEnd, .closeBrace => closeObject stack
    | .keyOrEnd, .string key => some (.reading stack (.colon key))
    | .key, .string key => some (.reading stack (.colon key))
    | .colon key, .colon =>
      match stack with
      | .members reversed :: rest => some (.reading (.member reversed key :: rest) .value)
      | _ => none
    | .separator, .comma =>
      match stack with
      | .items _ :: _ => some (.reading stack .value)
      | .members _ :: _ => some (.reading stack .key)
      | _ => none
    | .separator, .closeBracket => closeArray stack
    | .separator, .closeBrace => closeObject stack
    | _, _ => none

/-- Reads a text that holds exactly one value. -/
def parse? (text : String) : Option Value := do
  let tokens ← tokens? text
  match ← tokens.foldlM readToken (.reading [] .value) with
  | .done v => some v
  | .reading .. => none

/-- A natural number written with digits only, below the given bound. -/
def Value.natBelow? (bound : Nat) : Value → Option Nat
  | .number text =>
    if text.toList.all Char.isDigit then
      let n := text.toList.foldl (fun n c => 10 * n + (c.toNat - '0'.toNat)) 0
      if n < bound then some n else none
    else none
  | _ => none

end SpmdArrays.Json
