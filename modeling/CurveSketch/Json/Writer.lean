import CurveSketch.Json

/-!
# Writing JSON text

The text of a JSON value, without blanks. How a double is written is left to a printer; whole
numbers are written in decimal digits, and strings with quotes, backslashes and control characters
escaped. What has no text of its own (a NaN, an infinity, a value that could not be represented) is
written as `null`.
-/

namespace CurveSketch.Json

/-! ## Strings and numbers -/

/-- A character as it is written in a string. -/
def escape (c : Char) : List Char :=
  match c with
  | '"' => ['\\', '"']
  | '\\' => ['\\', '\\']
  | '\x08' => ['\\', 'b']
  | '\x0c' => ['\\', 'f']
  | '\n' => ['\\', 'n']
  | '\r' => ['\\', 'r']
  | '\t' => ['\\', 't']
  | c =>
    if c.toNat < 0x20 then
      ['\\', 'u', '0', '0', Nat.digitChar (c.toNat / 16), Nat.digitChar (c.toNat % 16)]
    else [c]

/-- The text of a string, in quotes. -/
def writeString (s : String) : List Char :=
  '"' :: s.toList.flatMap escape ++ ['"']

/-- The text of a whole number. -/
def writeInt (n : Int) : List Char :=
  if n < 0 then '-' :: Nat.toDigits 10 n.natAbs else Nat.toDigits 10 n.natAbs

/-- The text of a number. -/
def writeNumber (printFloat : Float → String) : JsonNumber → List Char
  | .int n => writeInt n
  | .float x => if x.isFinite then (printFloat x).toList else "null".toList

/-! ## Values -/

mutual

/-- The text of a value as a list of characters. -/
def write (printFloat : Float → String) : Json → List Char
  | null => "null".toList
  | bool true => "true".toList
  | bool false => "false".toList
  | number (some n) => writeNumber printFloat n
  | number none => "null".toList
  | string (some s) => writeString s
  | string none => "null".toList
  | array items => '[' :: writeItems printFloat items ++ [']']
  | object members => '\x7b' :: writeMembers printFloat members ++ ['\x7d']

/-- The text of the items of an array. -/
def writeItems (printFloat : Float → String) : List Json → List Char
  | [] => []
  | [v] => write printFloat v
  | v :: w :: rest => write printFloat v ++ ',' :: writeItems printFloat (w :: rest)

/-- The text of the members of an object. -/
def writeMembers (printFloat : Float → String) : List (Option String × Json) → List Char
  | [] => []
  | [(name?, v)] => writeString (name?.getD "") ++ ':' :: write printFloat v
  | (name?, v) :: m :: rest =>
    writeString (name?.getD "") ++ ':' :: write printFloat v ++
      ',' :: writeMembers printFloat (m :: rest)

end

/-- The text of a value. -/
def text (printFloat : Float → String) (v : Json) : String :=
  .ofList (write printFloat v)

end CurveSketch.Json
