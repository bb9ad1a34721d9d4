import CurveSketch.Binary64
import CurveSketch.Drawing
import CurveSketch.Json.Decoder
import CurveSketch.Json.Reader

/-!
# Answers

An answer as it comes from the drawing surface, in JSON: curves by the points they were drawn
through, with labels beside them. Each kind of record is decoded from a JSON value and encoded as
one. An answer may come in an envelope that says what kind of answer it is, the answer being JSON
text inside the JSON text of the envelope.

`Answer.toDrawing` makes a drawing of the curves. A curve that lists neither maxima nor minima has
its turning points found from its vertices.
-/

namespace CurveSketch

/-! ## Points -/

/-- A point as it was drawn. -/
structure DrawnPoint where
  /-- A number that the drawing surface gives to points. -/
  index? : Option Int
  /-- The horizontal coordinate. -/
  x : Float
  /-- The vertical coordinate. -/
  y : Float

namespace DrawnPoint

/-- Finds a point in a JSON value. -/
def decode? (v : Json) : Option DrawnPoint := do
  let field ← v.fields? ["ind", "x", "y"]
  let index? ← Json.optional Json.int? (field "ind")
  let x ← Json.required Json.float? (field "x")
  let y ← Json.required Json.float? (field "y")
  return ⟨index?, x, y⟩

/-- The JSON value of a point. -/
def encode (p : DrawnPoint) : Json :=
  .object (Json.member? "ind" (p.index?.map .ofInt) ++ Json.member "x" (.ofFloat p.x) ++
    Json.member "y" (.ofFloat p.y))

/-- The place of a point. -/
def toPoint (p : DrawnPoint) : Point Binary64 :=
  ⟨.ofFloat p.x, .ofFloat p.y⟩

end DrawnPoint

/-- Finds a list of points in a JSON value. -/
def drawnPoints? : Json → Option (List DrawnPoint) :=
  Json.list? DrawnPoint.decode?

/-- The JSON value of a list of points. -/
def encodePoints (ps : List DrawnPoint) : Json :=
  .array (ps.map DrawnPoint.encode)

/-! ## Curves -/

/-- A drawn curve. All but the points and the turning points is handed through untouched. -/
structure Curve where
  /-- The points it was drawn through. -/
  points : List DrawnPoint
  /-- The maxima. -/
  maxima? : Option (List DrawnPoint)
  /-- The minima. -/
  minima? : Option (List DrawnPoint)
  /-- The points on the horizontal axis. -/
  interX? : Option (List DrawnPoint)
  /-- The points on the vertical axis. -/
  interY? : Option (List DrawnPoint)
  /-- The ends. -/
  ends? : Option (List DrawnPoint)
  /-- The number of its colour. -/
  color? : Option Int

namespace Curve

/-- Finds a curve in a JSON value. -/
def decode? (v : Json) : Option Curve := do
  let field ← v.fields? ["pts", "maxima", "minima", "interX", "interY", "endPt", "colorIdx"]
  let points ← Json.required drawnPoints? (field "pts")
  let maxima? ← Json.optional drawnPoints? (field "maxima")
  let minima? ← Json.optional drawnPoints? (field "minima")
  let interX? ← Json.optional drawnPoints? (field "interX")
  let interY? ← Json.optional drawnPoints? (field "interY")
  let ends? ← Json.optional drawnPoints? (field "endPt")
  let color? ← Json.optional Json.int? (field "colorIdx")
  return ⟨points, maxima?, minima?, interX?, interY?, ends?, color?⟩

/-- The JSON value of a curve. -/
def encode (c : Curve) : Json :=
  .object (Json.member "pts" (encodePoints c.points) ++
    Json.member? "maxima" (c.maxima?.map encodePoints) ++
    Json.member? "minima" (c.minima?.map encodePoints) ++
    Json.member? "interX" (c.interX?.map encodePoints) ++
    Json.member? "interY" (c.interY?.map encodePoints) ++
    Json.member? "endPt" (c.ends?.map encodePoints) ++
    Json.member? "colorIdx" (c.color?.map .ofInt))

/-- Points listed as turning points of one kind. -/
def flagged (kind : Extremum) (ps : Option (List DrawnPoint)) : List (TurningPoint Binary64) :=
  (ps.getD []).map fun p => ⟨p.toPoint, kind⟩

/-- The polyline of a curve. Its turning points are those it lists, or those of its vertices if it
lists neither maxima nor minima. -/
def toPolyline (c : Curve) : Polyline Binary64 :=
  let points := c.points.map DrawnPoint.toPoint
  match c.maxima?, c.minima? with
  | none, none => .withTurningPoints points
  | maxima?, minima? => .make points (flagged .maxima maxima? ++ flagged .minima minima?)

end Curve

/-! ## Labels -/

/-- A text placed beside the curves. -/
structure Label where
  /-- The text. -/
  text : String
  /-- The horizontal coordinate. -/
  x : Float
  /-- The vertical coordinate. -/
  y : Float

namespace Label

/-- Finds a label in a JSON value. -/
def decode? (v : Json) : Option Label := do
  let field ← v.fields? ["text", "x", "y"]
  let text ← Json.required Json.text? (field "text")
  let x ← Json.required Json.float? (field "x")
  let y ← Json.required Json.float? (field "y")
  return ⟨text, x, y⟩

/-- The JSON value of a label. -/
def encode (l : Label) : Json :=
  .object (Json.member "text" (.ofString l.text) ++ Json.member "x" (.ofFloat l.x) ++
    Json.member "y" (.ofFloat l.y))

end Label

/-! ## Answers -/

/-- An answer: everything that was drawn. -/
structure Answer where
  /-- The width of the drawing surface. -/
  canvasWidth : Float
  /-- The height of the drawing surface. -/
  canvasHeight : Float
  /-- The curves, in the order they were drawn. -/
  curves : List Curve
  /-- The labels. -/
  labels? : Option (List Label)

namespace Answer

/-- Finds an answer in a JSON value. -/
def decode? (v : Json) : Option Answer := do
  let field ← v.fields? ["canvasWidth", "canvasHeight", "curves", "freeSymbols"]
  let canvasWidth ← Json.defaulted 0 Json.float? (field "canvasWidth")
  let canvasHeight ← Json.defaulted 0 Json.float? (field "canvasHeight")
  let curves ← Json.defaulted [] (Json.list? Curve.decode?) (field "curves")
  let labels? ← Json.optional (Json.list? Label.decode?) (field "freeSymbols")
  return ⟨canvasWidth, canvasHeight, curves, labels?⟩

/-- The JSON value of an answer. -/
def encode (a : Answer) : Json :=
  .object (Json.member "canvasWidth" (.ofFloat a.canvasWidth) ++
    Json.member "canvasHeight" (.ofFloat a.canvasHeight) ++
    Json.member "curves" (.array (a.curves.map Curve.encode)) ++
    Json.member? "freeSymbols" (a.labels?.map fun ls => .array (ls.map Label.encode)))

/-- Finds an answer in JSON text. -/
def parse? (text : String) : Option Answer :=
  (Json.parse? text).bind decode?

/-- The curves of an answer as a drawing in canonical form. -/
def toDrawing (a : Answer) : Drawing Binary64 :=
  .canonical (a.curves.map Curve.toPolyline)

end Answer

/-! ## Envelopes -/

/-- An answer of some kind, as JSON text. -/
structure Envelope where
  /-- The kind of answer. -/
  kind : String
  /-- The JSON text. -/
  value : String

namespace Envelope

/-- The kind of answer that is a drawing. -/
def drawingKind : String :=
  "graphChoice"

/-- Finds an envelope in a JSON value. -/
def decode? (v : Json) : Option Envelope := do
  let field ← v.fields? ["type", "value"]
  let kind ← Json.required Json.text? (field "type")
  let value ← Json.required Json.text? (field "value")
  return ⟨kind, value⟩

/-- The JSON value of an envelope. -/
def encode (e : Envelope) : Json :=
  .object (Json.member "type" (.ofString e.kind) ++ Json.member "value" (.ofString e.value))

/-- Finds an envelope in JSON text. -/
def parse? (text : String) : Option Envelope :=
  (Json.parse? text).bind decode?

/-- Why there is no answer in an envelope. -/
inductive Fault where
  /-- The envelope holds another kind of answer. -/
  | unknownKind (kind : String)
  /-- The text in the envelope is not an answer. -/
  | malformed

/-- The wording of an unknown kind of answer. -/
def unknownKindMessage (kind : String) : String :=
  "unknown answer type " ++ kind

/-- The answer in an envelope. -/
def open? (e : Envelope) : Except Fault Answer :=
  if e.kind = drawingKind then
    match Answer.parse? e.value with
    | some a => .ok a
    | none => .error .malformed
  else .error (.unknownKind e.kind)

end Envelope

end CurveSketch
