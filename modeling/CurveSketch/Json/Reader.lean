import CurveSketch.Json.Token

/-!
# Reading JSON text

The text is read token by token. What has been read so far is a `Reading`: the arrays and objects
that are still open, each with its contents up to here, and what may come next. `Json.parse?` reads
a whole text, which must be one value with nothing but blanks around it.
-/

namespace CurveSketch

/-- An array or an object that is still open, with the contents read last in front. -/
inductive OpenValue where
  /-- An array with its items. -/
  | array (items : List Json)
  /-- An object with its members, and the name of the member being read. -/
  | object (members : List (Option String × Json)) (name : Option String)

/-- What has been read of a text, and what may come next. -/
inductive Reading where
  /-- A value must come. -/
  | value (around : List OpenValue)
  /-- An array was opened: its first item or its end must come. -/
  | firstItem (around : List OpenValue)
  /-- An object was opened: its first name or its end must come. -/
  | firstName (around : List OpenValue)
  /-- The name of a further member must come. -/
  | name (members : List (Option String × Json)) (around : List OpenValue)
  /-- The colon after a name must come. -/
  | colon (members : List (Option String × Json)) (name : Option String)
    (around : List OpenValue)
  /-- A value is complete. -/
  | complete (v : Json) (around : List OpenValue)

namespace Reading

/-- Reads a token where a value must come. -/
def stepValue (around : List OpenValue) : Token → Option Reading
  | .plain v => some (complete v around)
  | .string s => some (complete (.string s) around)
  | .openArray => some (firstItem around)
  | .openObject => some (firstName around)
  | _ => none

/-- Reads a token after a complete value. -/
def stepComplete (v : Json) : List OpenValue → Token → Option Reading
  | .array items :: around, .comma => some (value (.array (v :: items) :: around))
  | .array items :: around, .closeArray => some (complete (.array (v :: items).reverse) around)
  | .object members s :: around, .comma => some (name ((s, v) :: members) around)
  | .object members s :: around, .closeObject =>
    some (complete (.object ((s, v) :: members).reverse) around)
  | _, _ => none

/-- Reads a token. -/
def step : Reading → Token → Option Reading
  | value around, t => stepValue around t
  | firstItem around, .closeArray => some (complete (.array []) around)
  | firstItem around, t => stepValue (.array [] :: around) t
  | firstName around, .closeObject => some (complete (.object []) around)
  | firstName around, .string s => some (colon [] s around)
  | name members around, .string s => some (colon members s around)
  | colon members s around, .colon => some (value (.object members s :: around))
  | complete v around, t => stepComplete v around t
  | _, _ => none

/-- Reads the rest of a text. -/
def run (reading : Reading) (cs : List Char) : Option Json :=
  if cs.all Token.isSpace then
    match reading with
    | complete v [] => some v
    | _ => none
  else
    match h : Token.next? cs with
    | none => none
    | some (t, rest) =>
      have : rest.length < cs.length := Token.length_lt_of_next? h
      match reading.step t with
      | none => none
      | some reading => run reading rest
termination_by cs.length

end Reading

/-- Reads a JSON value. -/
def Json.parse? (text : String) : Option Json :=
  Reading.run (.value []) text.toList

end CurveSketch
