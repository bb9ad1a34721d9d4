import CurveSketch.Feature.CurveCount
import CurveSketch.Feature.Meeting
import CurveSketch.Feature.Path
import CurveSketch.Feature.Slope
import CurveSketch.Feature.Symmetry
import CurveSketch.Feature.Turning
import CurveSketch.Selector

/-!
# Clauses

A clause is a feature under its tag, as in `slope: start=up`. Features of a single line are told
apart from features of the whole drawing; the former are said of the line that a selector picks.
Each kind of clause can be read, written, tested on a drawing, and used to describe one.
-/

namespace CurveSketch

/-- The tag of a clause, in lower case and without blanks around it, and the data after it. -/
def splitTag? (clause : List Char) : Option (List Char × List Char) :=
  (Text.cut? ':' clause).map fun p => (Text.lower (Text.trim p.1), p.2)

/-- The text of a tag and the data after it. -/
def tagged (tag data : List Char) : List Char :=
  tag ++ ':' :: ' ' :: data

/-! ## Features of one line -/

/-- A feature of a single line. -/
inductive LineFeature where
  | path (path : Path)
  | slope (slope : Slope)
  | symmetry (symmetry : Symmetry)
  | turning (turning : Turning)
deriving DecidableEq, Repr

namespace LineFeature

/-- Reads the data of the feature with a tag, if there is such a feature. -/
def readData? (tag data : List Char) : Option (Except SpecFault LineFeature) :=
  if tag = Path.tag then some (path <$> Path.read data)
  else if tag = Slope.tag then some (slope <$> Slope.read data)
  else if tag = Symmetry.tag then some (symmetry <$> Symmetry.read data)
  else if tag = Turning.tag then some (turning <$> Turning.read data)
  else none

/-- Reads a clause about a line. -/
def read (clause : List Char) : Except SpecFault LineFeature :=
  match (splitTag? clause).bind fun p => readData? p.1 p.2 with
  | some result => result
  | none => .error (.unknownFeature (Text.trim clause))

/-- The tag of a feature. -/
def tag : LineFeature → List Char
  | path _ => Path.tag
  | slope _ => Slope.tag
  | symmetry _ => Symmetry.tag
  | turning _ => Turning.tag

/-- The text after the tag. -/
def data : LineFeature → List Char
  | path p => p.data
  | slope s => s.data
  | symmetry s => s.data
  | turning t => t.data

/-- The text of a feature. -/
def text (f : LineFeature) : List Char :=
  tagged f.tag f.data

variable {K : Type} [Scalar K]

/-- Tests whether a line has the feature. -/
def holds (context : Context K) (l : Polyline K) : LineFeature → Bool
  | path p => p.holds context l
  | slope s => s.holds context l
  | symmetry s => s.holds context l
  | turning t => t.holds context l

/-- The features that a line has to show: its path, slope, symmetry and turning points. -/
def describeAll (context : Context K) (l : Polyline K) : List LineFeature :=
  ((Path.describe? context l).map path).toList ++
    ((Slope.describe? context l).map slope).toList ++
    ((Symmetry.describe? context l).map symmetry).toList ++
    ((Turning.describe? context l).map turning).toList

end LineFeature

/-! ## Features of the drawing -/

/-- A feature of the whole drawing. -/
inductive DrawingFeature where
  | count (count : CurveCount)
  | meeting (meeting : Meeting)
deriving DecidableEq, Repr

namespace DrawingFeature

/-- Reads a clause if its tag is that of a feature of the drawing. -/
def read? (clause : List Char) : Option (Except SpecFault DrawingFeature) :=
  match splitTag? clause with
  | none => none
  | some (tag, data) =>
    if tag = CurveCount.tag then some (count <$> CurveCount.read data)
    else if tag = Meeting.tag then some (meeting <$> Meeting.read data)
    else none

/-- The tag of a feature. -/
def tag : DrawingFeature → List Char
  | count _ => CurveCount.tag
  | meeting _ => Meeting.tag

/-- The text after the tag. -/
def data : DrawingFeature → List Char
  | count c => c.data
  | meeting m => m.data

/-- The text of a feature. -/
def text (f : DrawingFeature) : List Char :=
  tagged f.tag f.data

variable {K : Type} [Scalar K]

/-- Tests whether a drawing has the feature, narrowing the names it mentions if it has. -/
def holds (context : Context K) (d : Drawing K) (naming : Naming) : DrawingFeature → Bool × Naming
  | count c => (c.holds d, naming)
  | meeting m => m.holds context d naming

/-- The features that a drawing has to show: the number of curves, and each pair that crosses. -/
def describeAll (context : Context K) (d : Drawing K) : List DrawingFeature :=
  ((CurveCount.describe? d).map count).toList ++ (Meeting.describeAll context d).map meeting

end DrawingFeature

/-! ## Clauses -/

/-- One clause of a specification. -/
inductive Clause where
  /-- A feature of the whole drawing. -/
  | ofDrawing (feature : DrawingFeature)
  /-- A feature of the line selected. -/
  | ofLine (selector : Selector) (feature : LineFeature)
deriving DecidableEq, Repr

namespace Clause

/-- The text of a clause. -/
def text : Clause → List Char
  | ofDrawing f => f.text
  | ofLine selector f => selector.lead ++ f.text

/-- Reads the clauses after a selector, which are separated by semicolons and of which there is at
least one. -/
def readSelected (tag item : List Char) (selected : Except SpecFault (Selector × List Char)) :
    Except SpecFault (List Clause) := do
  let (selector, rest) ← selected
  let parts := ((Text.split ';' rest).map Text.trim).filter (!·.isEmpty)
  let clauses ← parts.mapM fun part => do return ofLine selector (← LineFeature.read part)
  if clauses.isEmpty then throw (.invalid tag item .noLineClause)
  return clauses

/-- Reads the clauses on one line of a specification, given without blanks around it. -/
def readLine (item : List Char) : Except SpecFault (List Clause) :=
  match DrawingFeature.read? item with
  | some result => (fun f => [ofDrawing f]) <$> result
  | none =>
    match splitTag? item with
    | none => (fun f => [ofLine .any f]) <$> LineFeature.read item
    | some (tag, data) =>
      if tag = Selector.numberTag then readSelected tag item (Selector.readNth data)
      else if tag = Selector.nameTag then readSelected tag item (Selector.readNamed data)
      else (fun f => [ofLine .any f]) <$> LineFeature.read item

/-- Tests whether a clause is about any line at all. -/
def isAboutAnyLine : Clause → Bool
  | ofLine .any _ => true
  | _ => false

variable {K : Type} [Scalar K]

/-- Tests a drawing by a clause, narrowing the names it mentions if it holds. -/
def holds (context : Context K) (d : Drawing K) (naming : Naming) : Clause → Bool × Naming
  | ofDrawing f => f.holds context d naming
  | ofLine selector f => selector.holds d naming (f.holds context)

end Clause

end CurveSketch
