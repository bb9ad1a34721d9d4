/-!
# JSON values

A JSON value as it stands in a text, before anything is expected of it. What cannot be represented
(a number beyond the range of binary64, a string with half of a surrogate pair) is kept as `none`,
since it does no harm in a part of the text that nobody reads.
-/

namespace CurveSketch

/-- A number, as it was written: with neither fraction nor exponent, and within 64 bits, or else in
binary64. -/
inductive JsonNumber where
  | int (n : Int)
  | float (x : Float)

/-- A JSON value. -/
inductive Json where
  | null
  | bool (b : Bool)
  | number (value? : Option JsonNumber)
  | string (text? : Option String)
  | array (items : List Json)
  | object (members : List (Option String × Json))

namespace Json

/-- The value of a whole number. -/
def ofInt (n : Int) : Json :=
  number (some (.int n))

/-- The value of a double. -/
def ofFloat (x : Float) : Json :=
  number (some (.float x))

/-- The value of a text. -/
def ofString (s : String) : Json :=
  string (some s)

end Json

end CurveSketch
