import CurveSketch.Context

/-!
# Symmetry

The feature `symmetry`. A line is cut at the vertical axis and at its turning points, and the
stretches on the left are compared with those on the right, from the axis outwards, by the signed
sizes of their bounding boxes. A line with turning points that shows no symmetry about the axes is
moved so that the middle of its turning points lies on the origin, and looked at again.
-/

namespace CurveSketch

/-- How a line is its own image. -/
inductive Symmetry where
  /-- In none of the ways below. -/
  | asymmetric
  /-- Under a half turn about the origin. -/
  | odd
  /-- Under reflection in the vertical axis. -/
  | even
  /-- Under reflection in the vertical line through the middle of its turning points. -/
  | symmetric
  /-- Under a half turn about the middle of its turning points. -/
  | antisymmetric
deriving DecidableEq, Repr

namespace Symmetry

/-- Every symmetry. -/
def all : List Symmetry :=
  [asymmetric, odd, even, symmetric, antisymmetric]

/-- The name of a symmetry in a specification. -/
def name : Symmetry → List Char
  | asymmetric => "none".toList
  | odd => "odd".toList
  | even => "even".toList
  | symmetric => "symmetric".toList
  | antisymmetric => "antisymmetric".toList

/-- A symmetry about the axes, seen as one about the middle of the turning points. -/
def aboutMiddle : Symmetry → Symmetry
  | even => symmetric
  | odd => antisymmetric
  | s => s

variable {K : Type} [Scalar K]

/-- Tests whether two stretches meet at the origin, within the looser tolerance. -/
def meetAtOrigin (settings : Settings K) (left right : Polyline K) : Bool :=
  let origin := Sector.relaxedOrigin.region settings
  left.points.getLast?.any origin.contains && right.points.head?.any origin.contains

/-- How a stretch on the left and its counterpart on the right are each other's image, unless both
are single points. The innermost pair has an odd symmetry only if it meets at the origin. -/
def ofPair? (settings : Settings K) (innermost : Bool) (left right : Polyline K) :
    Option Symmetry :=
  let l := left.size
  let r := right.size
  if l.x == 0 && l.y == 0 && r.x == 0 && r.y == 0 then none
  else
    let tolerance := settings.symmetryTolerance
    let widths := (r.x - l.x) / r.x
    let sameHeights := (r.y - l.y) / r.y
    let oppositeHeights := (r.y + l.y) / r.y
    if tolerance ≤ Scalar.abs widths ∨ Scalar.isNaN widths then some asymmetric
    else if r.y == 0 && l.y == 0 then some even
    else if Scalar.abs sameHeights < tolerance then
      some (if !innermost || meetAtOrigin settings left right then odd else asymmetric)
    else if Scalar.abs oppositeHeights < tolerance then some even
    else some asymmetric

/-- The symmetry that pairs of stretches agree on, from the innermost pair outwards, given what the
pairs before them have shown. -/
def agreed (settings : Settings K) (found? : Option Symmetry) :
    List (Polyline K × Polyline K) → Symmetry
  | [] => found?.getD asymmetric
  | (left, right) :: rest =>
    match ofPair? settings found?.isNone left right, found? with
    | none, _ => agreed settings found? rest
    | some s, none => agreed settings (some s) rest
    | some s, some found =>
      if found = s then agreed settings (some found) rest else asymmetric

/-- The symmetry of a line about the axes. -/
def aboutAxes (settings : Settings K) (l : Polyline K) : Symmetry :=
  let lefts := ((Region.leftOf 0).clip l).stretches
  let rights := ((Region.rightOf 0).clip l).stretches
  if lefts.length = rights.length then agreed settings none (lefts.reverse.zip rights)
  else asymmetric

/-- The middle of the turning points of a line: the middle one, or the midpoint between two. -/
def middle? (l : Polyline K) : Option (Point K) :=
  let half := l.turning.length / 2
  if l.turning.length % 2 = 1 then l.turning[half]?.map (·.point)
  else
    match l.turning[half - 1]?, l.turning[half]? with
    | some a, some b => some ((a.point + b.point).scale Scalar.half)
    | _, _ => none

/-- The symmetry of a line: about the axes, or else about the middle of its turning points. -/
def ofLine (settings : Settings K) (l : Polyline K) : Symmetry :=
  match aboutAxes settings l with
  | asymmetric =>
    match middle? l with
    | none => asymmetric
    | some middle => (aboutAxes settings (l.shiftedBy middle)).aboutMiddle
  | s => s

/-! ## The clause -/

/-- The tag of the feature. -/
def tag : List Char :=
  "symmetry".toList

/-- Reads the name of a symmetry. -/
def read (data : List Char) : Except SpecFault Symmetry :=
  match all.find? fun s => Text.sameName s.name (Text.trim data) with
  | some s => .ok s
  | none => .error (.invalid tag data .unknownSymmetry)

/-- The text of a symmetry. -/
def data (s : Symmetry) : List Char :=
  s.name

/-- Tests whether a line has the symmetry. -/
def holds (s : Symmetry) (context : Context K) (l : Polyline K) : Bool :=
  ofLine context.settings l == s

/-- The symmetry of a line, if it has one. -/
def describe? (context : Context K) (l : Polyline K) : Option Symmetry :=
  match ofLine context.settings l with
  | asymmetric => none
  | s => some s

end Symmetry

end CurveSketch
