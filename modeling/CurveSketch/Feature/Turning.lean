import CurveSketch.Context

/-!
# Turning points

The feature `points`: the turning points of the line, from left to right, are of the kinds listed
and lie in the sectors listed.
-/

namespace CurveSketch

namespace Extremum

/-- Both kinds. -/
def all : List Extremum :=
  [maxima, minima]

/-- The name of a kind in a specification. -/
def name : Extremum → List Char
  | maxima => "maxima".toList
  | minima => "minima".toList

/-- The kind with a name, read without regard to blanks around it and to case. -/
def ofName? (text : List Char) : Option Extremum :=
  all.find? fun k => Text.sameName k.name (Text.trim text)

end Extremum

/-- The kinds and the sectors of the turning points of a line, from left to right. -/
structure Turning where
  /-- The kind and the sector of each turning point. -/
  expected : List (Extremum × Sector)
deriving DecidableEq, Repr

namespace Turning

/-- The tag of the feature. -/
def tag : List Char :=
  "points".toList

/-- The words that may stand between a kind and a sector, with the blanks around them. -/
def prepositions : List (List Char) :=
  [" in ".toList, " on ".toList, " at ".toList]

/-- Reads one item, `kind in sector`, of the data of the feature. -/
def readItem (data item : List Char) : Except SpecFault (Extremum × Sector) :=
  match Text.cutAtWord? prepositions (Text.trim item) with
  | none => throw (.invalid tag data (.notKindInSector (Text.trim item)))
  | some (kind, sector) =>
    match Extremum.ofName? kind with
    | none => throw (.invalid tag data (.unknownPointKind (Text.trim kind)))
    | some kind => return (kind, ← Sector.read sector)

/-- Reads a list of turning points. -/
def read (data : List Char) : Except SpecFault Turning := do
  return ⟨← (Text.split ',' data).mapM (readItem data)⟩

/-- The word written between a kind and a sector. -/
def preposition : Sector → List Char
  | .origin => " at ".toList
  | .relaxedOrigin => " at ".toList
  | _ => " in ".toList

/-- The text of the turning points. -/
def data (turning : Turning) : List Char :=
  Text.commaSeparated
    (turning.expected.map fun e => e.1.name ++ preposition e.2 ++ e.2.name)

variable {K : Type} [Scalar K]

/-- Tests whether a turning point is of a kind and in the region of a sector. -/
def fits (settings : Settings K) (expected : Extremum × Sector) (t : TurningPoint K) : Bool :=
  expected.1 == t.kind && (expected.2.region settings).contains t.point

/-- Tests whether a line has the turning points. -/
def holds (turning : Turning) (context : Context K) (l : Polyline K) : Bool :=
  turning.expected.length == l.turning.length &&
    (turning.expected.zip l.turning).all fun e => fits context.settings e.1 e.2

/-- The turning points of a line that are in some sector, if there are any. -/
def describe? (context : Context K) (l : Polyline K) : Option Turning :=
  match l.turning.filterMap fun t => (context.classifier.classify? t.point).map (t.kind, ·) with
  | [] => none
  | expected => some ⟨expected⟩

end Turning

end CurveSketch
