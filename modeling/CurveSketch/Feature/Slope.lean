import CurveSketch.Context

/-!
# Slopes

The feature `slope`: the line is nearly level, or rises or falls steeply, where it starts or ends.
A slope is measured on the bounding box of a few vertices at that end; in between flat and steep
there is no gradient.
-/

namespace CurveSketch

/-- An end of a line. -/
inductive Position where
  | start
  | finish
deriving DecidableEq, Repr

namespace Position

/-- Both ends, in drawing order. -/
def all : List Position :=
  [start, finish]

/-- The name of an end in a specification. -/
def name : Position → List Char
  | start => "start".toList
  | finish => "end".toList

/-- The end with a name, read without regard to blanks around it and to case. -/
def ofName? (text : List Char) : Option Position :=
  all.find? fun p => Text.sameName p.name (Text.trim text)

end Position

/-- A slope that can be told at a glance. -/
inductive Gradient where
  /-- Nearly level. -/
  | flat
  /-- Steep, and rising from left to right. -/
  | up
  /-- Steep, and falling from left to right. -/
  | down
deriving DecidableEq, Repr

namespace Gradient

/-- Every gradient. -/
def all : List Gradient :=
  [flat, up, down]

/-- The name of a gradient in a specification. -/
def name : Gradient → List Char
  | flat => "flat".toList
  | up => "up".toList
  | down => "down".toList

/-- The gradient with a name, read without regard to blanks around it and to case. -/
def ofName? (text : List Char) : Option Gradient :=
  all.find? fun g => Text.sameName g.name (Text.trim text)

variable {K : Type} [Scalar K]

/-- The gradient of a bounding box of signed size, if it is flat or steep. -/
def ofSize? (threshold : K) (size : Point K) : Option Gradient :=
  let width := Scalar.abs size.x
  let height := size.y
  if threshold < Scalar.abs (width / height) then some .flat
  else
    let steepness := height / width
    if threshold < Scalar.abs steepness then some (if 0 < steepness then .up else .down)
    else none

/-- The gradient of a line at one of its ends. -/
def measure? (settings : Settings K) (l : Polyline K) (position : Position) : Option Gradient :=
  let part :=
    match position with
    | .start => l.head settings.slopeWindow
    | .finish => l.tail settings.slopeWindow
  ofSize? settings.slopeThreshold part.size

end Gradient

/-- The gradients of a line at its ends, as far as they are stated. -/
structure Slope where
  /-- The gradient at the start. -/
  start? : Option Gradient
  /-- The gradient at the end. -/
  finish? : Option Gradient
deriving DecidableEq, Repr

namespace Slope

/-- The tag of the feature. -/
def tag : List Char :=
  "slope".toList

/-- Nothing is stated. -/
def unstated : Slope :=
  ⟨none, none⟩

/-- The gradient stated at an end. -/
def at? (slope : Slope) : Position → Option Gradient
  | .start => slope.start?
  | .finish => slope.finish?

/-- The slope with the gradient at one end stated. -/
def state (slope : Slope) (gradient : Gradient) : Position → Slope
  | .start => { slope with start? := some gradient }
  | .finish => { slope with finish? := some gradient }

/-- The ends with a gradient stated, in drawing order. -/
def stated (slope : Slope) : List (Position × Gradient) :=
  Position.all.filterMap fun p => (slope.at? p).map fun g => (p, g)

/-- Reads one item, `position=gradient`, of the data of a slope. -/
def readItem (data : List Char) (slope : Slope) (item : List Char) : Except SpecFault Slope :=
  match Text.cut? '=' item with
  | none => throw (.invalid tag data (.notPositionSlope (Text.trim item)))
  | some (position, gradient) =>
    match Position.ofName? position with
    | none => throw (.invalid tag data (.unknownPosition (Text.trim position)))
    | some position =>
      match Gradient.ofName? gradient with
      | none => throw (.invalid tag data (.unknownSlope (Text.trim gradient)))
      | some gradient =>
        if (slope.at? position).isSome then
          throw (.invalid tag data (.repeatedPosition position.name))
        else return slope.state gradient position

/-- Reads a list of gradients at ends, none of them stated twice. -/
def read (data : List Char) : Except SpecFault Slope :=
  (Text.split ',' data).foldlM (readItem data) unstated

/-- The text of the gradients. -/
def data (slope : Slope) : List Char :=
  Text.commaSeparated (slope.stated.map fun s => s.1.name ++ '=' :: s.2.name)

variable {K : Type} [Scalar K]

/-- Tests whether a line has the gradients stated. -/
def holds (slope : Slope) (context : Context K) (l : Polyline K) : Bool :=
  slope.stated.all fun s => Gradient.measure? context.settings l s.1 == some s.2

/-- The gradients of a line, if it has one at either end. -/
def describe? (context : Context K) (l : Polyline K) : Option Slope :=
  match Gradient.measure? context.settings l .start,
    Gradient.measure? context.settings l .finish with
  | none, none => none
  | start?, finish? => some ⟨start?, finish?⟩

end Slope

end CurveSketch
