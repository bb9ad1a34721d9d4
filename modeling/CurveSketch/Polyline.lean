import CurveSketch.Neighbours
import CurveSketch.Plane

/-!
# Polylines

A drawn curve is a `Polyline`: its vertices, joined by straight pieces, and the vertices at which
it turns, flagged as maxima or minima and kept in order of their horizontal coordinate. The turning
points may be given, or found from the vertices by `Polyline.withTurningPoints`.

The file also measures polylines (`size`, `span?`), cuts off their ends, and lists the points in
which two of them cross, in order along the first and well apart from each other.
-/

namespace CurveSketch

/-- The kind of a turning point. -/
inductive Extremum where
  /-- The curve rises before the point and falls after it. -/
  | maxima
  /-- The curve falls before the point and rises after it. -/
  | minima
deriving DecidableEq, Repr

/-- A point at which a curve turns. -/
structure TurningPoint (K : Type) where
  /-- Where the curve turns. -/
  point : Point K
  /-- Which way it turns. -/
  kind : Extremum
deriving Repr

/-- One drawn curve: its vertices in drawing order and its turning points from left to right. -/
structure Polyline (K : Type) where
  /-- The vertices, each joined to the next by a straight piece. -/
  points : List (Point K)
  /-- The turning points, in order of their horizontal coordinate. -/
  turning : List (TurningPoint K)
deriving Repr

namespace Polyline

variable {K : Type} [Scalar K]

/-! ## Building -/

/-- A polyline with given turning points, which are sorted; of two above each other the one given
first stays first. -/
def make (points : List (Point K)) (turning : List (TurningPoint K)) : Polyline K :=
  ⟨points, turning.mergeSort fun a b => Scalar.totalLe a.point.x b.point.x⟩

/-- A polyline without turning points. -/
def ofPoints (points : List (Point K)) : Polyline K :=
  ⟨points, []⟩

/-- The turning points met in reading on from the vertex `last`. Here `rise` is the last change of
height other than zero, and `top` the first vertex of the level run that `last` ends. -/
def turnsAfter (rise : K) (top last : Point K) : List (Point K) → List (TurningPoint K)
  | [] => []
  | p :: rest =>
    let change := p.y - last.y
    let top' := if last.y == p.y then top else p
    if change == 0 then turnsAfter rise top' p rest
    else if 0 < rise ∧ change < 0 then ⟨top, .maxima⟩ :: turnsAfter change top' p rest
    else if rise < 0 ∧ 0 < change then ⟨top, .minima⟩ :: turnsAfter change top' p rest
    else turnsAfter change top' p rest

/-- The turning points of a list of vertices in drawing order; a level top or bottom is flagged at
its first vertex. -/
def turns : List (Point K) → List (TurningPoint K)
  | [] => []
  | p :: rest => turnsAfter 0 p p rest

/-- A polyline whose turning points are found from its vertices. -/
def withTurningPoints (points : List (Point K)) : Polyline K :=
  make points (turns points)

/-- Polylines are the same drawing when they have the same vertices. -/
instance : BEq (Polyline K) := ⟨fun a b => a.points == b.points⟩

/-! ## Direction and position -/

/-- Tests whether the first vertex is to the right of the last. -/
def runsRightToLeft (l : Polyline K) : Bool :=
  match l.points.head?, l.points.getLast? with
  | some first, some last => decide (last.x < first.x)
  | _, _ => false

/-- The polyline drawn from left to right. -/
def leftToRight (l : Polyline K) : Polyline K :=
  if l.runsRightToLeft then { l with points := l.points.reverse } else l

/-- The polyline moved so that `offset` comes to lie on the origin. -/
def shiftedBy (l : Polyline K) (offset : Point K) : Polyline K :=
  make (l.points.map (· - offset)) (l.turning.map fun t => { t with point := t.point - offset })

/-- The first vertices, without turning points. -/
def head (l : Polyline K) (count : Nat) : Polyline K :=
  ofPoints (l.points.take count)

/-- The last vertices, without turning points. -/
def tail (l : Polyline K) (count : Nat) : Polyline K :=
  ofPoints (l.points.drop (l.points.length - count))

/-! ## Measures -/

/-- The corner of the bounding box towards the lower left. -/
def lowerCorner (points : List (Point K)) : Point K :=
  points.foldl (fun m p => ⟨Scalar.min m.x p.x, Scalar.min m.y p.y⟩)
    ⟨Scalar.largest, Scalar.largest⟩

/-- The corner of the bounding box towards the upper right. -/
def upperCorner (points : List (Point K)) : Point K :=
  points.foldl (fun m p => ⟨Scalar.max m.x p.x, Scalar.max m.y p.y⟩)
    ⟨-Scalar.largest, -Scalar.largest⟩

/-- The signed width and height of the bounding box: the width is positive when the polyline starts
to the left of the middle of the box, the height when it starts below it. -/
def size (l : Polyline K) : Point K :=
  match l.points with
  | [] => Point.origin
  | first :: _ =>
    let low := lowerCorner l.points
    let high := upperCorner l.points
    let middle := (low + high).scale Scalar.half
    let extent := high - low
    ⟨if first.x < middle.x then extent.x else -extent.x,
      if first.y < middle.y then extent.y else -extent.y⟩

/-- The least and the greatest horizontal coordinate, unless there are no vertices. -/
def span? (l : Polyline K) : Option (K × K) :=
  l.points.head?.map fun first =>
    l.points.foldl (fun m p => (Scalar.min m.1 p.x, Scalar.max m.2 p.x)) (first.x, first.x)

/-! ## Crossings of two polylines -/

/-- Tests whether the bounding boxes of two straight pieces have a point in common. -/
def boxesMeet (a b : Point K × Point K) : Bool :=
  let low (s : Point K × Point K) : Point K :=
    ⟨Scalar.min s.1.x s.2.x, Scalar.min s.1.y s.2.y⟩
  let high (s : Point K × Point K) : Point K :=
    ⟨Scalar.max s.1.x s.2.x, Scalar.max s.1.y s.2.y⟩
  decide ((low a).x ≤ (high b).x) && decide ((low b).x ≤ (high a).x) &&
    (decide ((low a).y ≤ (high b).y) && decide ((low b).y ≤ (high a).y))

/-- Tests whether a parameter lies on a closed straight piece. -/
def onPiece (t : K) : Bool :=
  decide (0 ≤ t) && decide (t ≤ 1)

/-- The parameter along `a` at which the straight pieces `a` and `b` cross. -/
def pieceCrossing? (a b : Point K × Point K) : Option K :=
  match crossingParams a.1 a.2 b.1 b.2 with
  | none => none
  | some (t, u) => if onPiece t && onPiece u then some t else none

/-- The points in which a straight piece crosses the pieces in a list, in order along it. -/
def pieceCrossings (a : Point K × Point K) (pieces : List (Point K × Point K)) : List (Point K) :=
  ((pieces.filterMap (pieceCrossing? a)).mergeSort Scalar.totalLe).map fun t => a.1.lerp a.2 t

/-- Tests whether two points are distinguishable as crossings. -/
def apart (p q : Point K) : Bool :=
  Scalar.isLong (p.x - q.x) (p.y - q.y)

/-- What is left of a list of points when one too close to a point kept before it is dropped. -/
def separate (kept : List (Point K)) : List (Point K) → List (Point K)
  | [] => []
  | p :: rest => if kept.all (apart p) then p :: separate (p :: kept) rest else separate kept rest

/-- The points in which `l` crosses `other`, in order along `l`. Parallel pieces never cross, and a
crossing found twice, at a shared vertex, is listed once. Only pieces whose bounding boxes meet are
looked at. -/
def crossings (l other : Polyline K) : List (Point K) :=
  separate [] <| (neighbours l.points).flatMap fun a =>
    pieceCrossings a ((neighbours other.points).filter (boxesMeet a))

end Polyline

end CurveSketch
