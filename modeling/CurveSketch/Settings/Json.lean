import CurveSketch.Decimal
import CurveSketch.Json.Decoder
import CurveSketch.Json.Reader
import CurveSketch.Settings
import CurveSketch.Text.Natural

/-!
# Settings in JSON

Settings are read from a JSON record in which every field may be left out; what is left out is
standard. Settings that are read must also be usable.
-/

namespace CurveSketch.Settings

/-- The wording of what makes settings unusable. -/
def Fault.message : Fault → String
  | notPositive name value =>
    "setting " ++ name ++ " = " ++ Decimal.text value.float ++ " must be positive"
  | slopeWindow count =>
    "slope window must contain at least two points, got " ++ String.ofList (Text.natural count)

/-- Finds a tolerance in a JSON value. -/
def tolerance? (v : Json) : Option Binary64 :=
  v.float?.map .ofFloat

/-- Finds settings in a JSON value. -/
def decode? (v : Json) : Option (Settings Binary64) := do
  let field ← v.fields? ["axisSlop", "originSlop", "relaxedOriginSlop", "slopeThreshold",
    "slopeWindow", "symmetryTolerance"]
  let axisSlop ← Json.defaulted standard.axisSlop tolerance? (field "axisSlop")
  let originSlop ← Json.defaulted standard.originSlop tolerance? (field "originSlop")
  let relaxedOriginSlop ←
    Json.defaulted standard.relaxedOriginSlop tolerance? (field "relaxedOriginSlop")
  let slopeThreshold ← Json.defaulted standard.slopeThreshold tolerance? (field "slopeThreshold")
  let slopeWindow ← Json.defaulted standard.slopeWindow Json.nat? (field "slopeWindow")
  let symmetryTolerance ←
    Json.defaulted standard.symmetryTolerance tolerance? (field "symmetryTolerance")
  return ⟨axisSlop, originSlop, relaxedOriginSlop, slopeThreshold, slopeWindow, symmetryTolerance⟩

/-- Why there are no usable settings in a text. -/
inductive TextFault where
  /-- The text is not a record of settings. -/
  | malformed
  /-- The settings are unusable. -/
  | unusable (fault : Fault)

/-- Finds usable settings in JSON text. -/
def parse (text : String) : Except TextFault (Settings Binary64) :=
  match (Json.parse? text).bind decode? with
  | none => .error .malformed
  | some s =>
    match s.check with
    | .ok s => .ok s
    | .error fault => .error (.unusable fault)

end CurveSketch.Settings
