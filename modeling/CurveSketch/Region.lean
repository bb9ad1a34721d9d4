import CurveSketch.Polyline
import CurveSketch.Segment

/-!
# Regions and clipping

A `Region` is a convex part of the plane, given by the directed boundaries it is inside of. The
file builds the shapes that sectors are made of, relates a polyline to a region as inside, outside
or crossing, and clips a polyline to a boundary or a region. Clipping leaves one polyline: where
the drawing leaves and comes back, the gap is bridged by a straight piece.
-/

namespace CurveSketch

variable {K : Type} [Scalar K]

/-! ## Clipping to one boundary -/

/-- The part of a polyline inside a boundary, with the turning points that are inside. -/
def Segment.clip (s : Segment K) (l : Polyline K) : Polyline K :=
  let kept := (neighbours l.points).filterMap fun piece => s.clip? (.closed piece.1 piece.2)
  .make (collapse (kept.flatMap fun piece => [piece.start, piece.stop]))
    (l.turning.filter fun t => s.contains t.point)

/-! ## Regions -/

/-- A convex region: the points inside all of its boundaries. -/
structure Region (K : Type) where
  /-- The boundaries, each with the region on its inside. -/
  boundaries : List (Segment K)

/-- How a polyline lies with respect to a region. -/
inductive Relation where
  /-- Every vertex is in the region and no piece crosses a boundary. -/
  | inside
  /-- Some vertex is in the region, or some piece crosses a boundary. -/
  | intersects
  /-- Nothing touches the region. -/
  | outside
deriving DecidableEq, Repr

namespace Region

/-! ## Shapes -/

/-- The whole plane. -/
def everywhere : Region K :=
  ⟨[]⟩

/-- The wedge at the origin between two directions. -/
def quadrant (axis₁ axis₂ : Point K) : Region K :=
  ⟨[.halfLineTowards .origin axis₁ axis₂, .halfLineTowards .origin axis₂ axis₁]⟩

/-- The strip along `axis` between the points `slop` away from the origin on the left and on the
right. -/
def axisBand (left right axis : Point K) (slop : K) : Region K :=
  let left := left.scale slop
  let right := right.scale slop
  ⟨[.closed left right, .halfLine left axis .right, .halfLine right axis .left]⟩

/-- The square around the origin of half-width `size`. -/
def square (size : K) : Region K :=
  let topRight : Point K := ⟨size, size⟩
  let topLeft : Point K := ⟨-size, size⟩
  let bottomLeft : Point K := ⟨-size, -size⟩
  let bottomRight : Point K := ⟨size, -size⟩
  ⟨[.closed topRight topLeft, .closed topLeft bottomLeft, .closed bottomLeft bottomRight,
    .closed bottomRight topRight]⟩

/-- The half plane on one side of the line through the origin in a direction. -/
def halfPlane (direction : Point K) (inside : Side) : Region K :=
  ⟨[.fullLine .origin direction inside]⟩

/-- The half plane of the points not to the right of `x`. -/
def leftOf (x : K) : Region K :=
  ⟨[.fullLine ⟨x, 0⟩ .up .left]⟩

/-- The half plane of the points not to the left of `x`. -/
def rightOf (x : K) : Region K :=
  ⟨[.fullLine ⟨x, 0⟩ .up .right]⟩

/-! ## Points and polylines in a region -/

/-- Tests whether a point is inside every boundary. -/
def contains (r : Region K) (p : Point K) : Bool :=
  r.boundaries.all (·.contains p)

/-- Tests whether a segment crosses some boundary. -/
def crosses (r : Region K) (s : Segment K) : Bool :=
  r.boundaries.any (·.crosses s)

/-- The crossings of a segment with the boundaries, in order along the segment. Of two at one
parameter, the one with the earlier boundary comes first. -/
def crossings (r : Region K) (s : Segment K) : List (Crossing K) :=
  (r.boundaries.filterMap (·.crossing? s)).mergeSort fun a b => Scalar.totalLe a.param b.param

/-- How a polyline lies with respect to the region. -/
def relation (r : Region K) (l : Polyline K) : Relation :=
  let crossed := (neighbours l.points).any fun piece => r.crosses (.closed piece.1 piece.2)
  if l.points.all r.contains && !crossed then .inside
  else if l.points.any r.contains || crossed then .intersects
  else .outside

/-- The part of a polyline inside every boundary. -/
def clip (r : Region K) (l : Polyline K) : Polyline K :=
  r.boundaries.foldl (fun clipped boundary => boundary.clip clipped) l

end Region

/-! ## Cutting at the turning points -/

/-- The pieces of a polyline that is cut at the horizontal coordinates listed, from left to right;
two pieces share the point where they are cut. -/
def Polyline.cutAt (l : Polyline K) : List K → List (Polyline K)
  | [] => [l]
  | x :: rest => (Region.leftOf x).clip l :: ((Region.rightOf x).clip l).cutAt rest

/-- The pieces of a polyline between its turning points. -/
def Polyline.stretches (l : Polyline K) : List (Polyline K) :=
  l.cutAt (l.turning.map (·.point.x))

end CurveSketch
