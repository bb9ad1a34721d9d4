import CurveSketch.Plane

/-!
# Directed boundaries

A `Segment` is a straight boundary with a direction of travel: a closed segment, a half-line or a
full line. It has an inside, which is the closed half plane on one of its sides, cut down to the
strip over the part of the boundary that is there. `Segment.crossing?` finds where another
segment crosses it, and `Segment.clip?` keeps the part of a closed segment that is inside.
-/

namespace CurveSketch

/-- A side of a directed boundary. -/
inductive Side where
  /-- Anticlockwise of the direction of travel. -/
  | left
  /-- Clockwise of the direction of travel. -/
  | right
deriving DecidableEq, Repr

/-- How far a boundary reaches beyond the two points that direct it. -/
inductive Extent where
  /-- It stops at both points; its inside is on the left. -/
  | closed
  /-- It starts at the first point and runs through the second without end. -/
  | halfLine (inside : Side)
  /-- It is endless both ways. -/
  | fullLine (inside : Side)
deriving DecidableEq, Repr

namespace Extent

/-- The side that counts as inside. -/
def side : Extent → Side
  | closed => .left
  | halfLine s => s
  | fullLine s => s

/-- Holds when the boundary stops at its first point. -/
def boundedAtStart : Extent → Bool
  | fullLine _ => false
  | _ => true

/-- Holds when the boundary stops at its second point. -/
def boundedAtStop : Extent → Bool
  | closed => true
  | _ => false

end Extent

/-- A directed boundary, travelled from `start` towards `stop`. -/
structure Segment (K : Type) where
  /-- Where the direction of travel is taken from. -/
  start : Point K
  /-- Where the direction of travel leads to. -/
  stop : Point K
  /-- How far the boundary reaches, and which side of it is inside. -/
  extent : Extent
deriving Repr

/-- Where another segment crosses a boundary. -/
structure Crossing (K : Type) where
  /-- The parameter of the crossing along the other segment. -/
  param : K
  /-- Whether the other segment stops on the inside of the boundary. -/
  inside : Bool
deriving Repr

namespace Segment

variable {K : Type} [Scalar K]

instance : BEq (Segment K) :=
  ⟨fun a b => a.start == b.start && a.stop == b.stop && a.extent == b.extent⟩

/-! ## Building boundaries -/

/-- The closed segment between two points. -/
def closed (a b : Point K) : Segment K :=
  ⟨a, b, .closed⟩

/-- The half-line from `origin` in a direction. -/
def halfLine (origin direction : Point K) (inside : Side) : Segment K :=
  ⟨origin, origin + direction, .halfLine inside⟩

/-- The full line through `origin` in a direction. -/
def fullLine (origin direction : Point K) (inside : Side) : Segment K :=
  ⟨origin, origin + direction, .fullLine inside⟩

/-! ## The inside -/

/-- The displacement from start to stop. -/
def direction (s : Segment K) : Point K :=
  s.stop - s.start

/-- Tests whether a displacement from the start ends on the inner side of the boundary's line. -/
def facesInside (s : Segment K) (offset : Point K) : Bool :=
  let turn := s.direction.cross offset
  match s.extent.side with
  | .left => decide (0 ≤ turn)
  | .right => decide (turn ≤ 0)

/-- Tests whether a parameter of the boundary's line belongs to the boundary itself. -/
def reaches (s : Segment K) (t : K) : Bool :=
  (!s.extent.boundedAtStart || decide (0 ≤ t)) && (!s.extent.boundedAtStop || decide (t ≤ 1))

/-- Tests whether a point is inside: on the inner side, and with its foot on the boundary. -/
def contains (s : Segment K) (p : Point K) : Bool :=
  let offset := p - s.start
  s.facesInside offset && s.reaches (offset.dot s.direction / s.direction.dot s.direction)

/-- The half-line from `origin` in a direction, with the side towards `origin + inward` inside. -/
def halfLineTowards (origin direction inward : Point K) : Segment K :=
  let onLeft := halfLine origin direction .left
  if onLeft.contains (origin + inward) then onLeft else halfLine origin direction .right

/-! ## Crossings -/

/-- Tests whether a parameter lies before or beyond the ends of the segment. -/
def misses (s : Segment K) (t : K) : Bool :=
  (s.extent.boundedAtStart && decide (t < 0)) || (s.extent.boundedAtStop && decide (1 < t))

/-- Where `other` crosses the boundary. Parallel lines never cross, collinear ones included. -/
def crossing? (s other : Segment K) : Option (Crossing K) :=
  match crossingParams s.start s.stop other.start other.stop with
  | none => none
  | some (t, u) =>
    if s.misses t || other.misses u then none
    else some ⟨u, s.facesInside (other.stop - s.start)⟩

/-- Tests whether `other` crosses the boundary. -/
def crosses (s other : Segment K) : Bool :=
  (s.crossing? other).isSome

/-- The point at a parameter along the segment. -/
def pointAt (s : Segment K) (t : K) : Point K :=
  s.start.lerp s.stop t

/-- The part of a segment that is inside the boundary, if there is one. -/
def clip? (s piece : Segment K) : Option (Segment K) :=
  match s.crossing? piece with
  | none => if s.contains piece.start then some piece else none
  | some c =>
    let p := piece.pointAt c.param
    if !c.inside then some (closed piece.start p)
    else if s.contains piece.start then some piece
    else some (closed p piece.stop)

end Segment

end CurveSketch
