import CurveSketch.Polyline

/-!
# Drawings

A `Drawing` is everything that was drawn for one question: a list of polylines. In its canonical
form each polyline runs from left to right, and the polylines are sorted by where they start.
-/

namespace CurveSketch

/-- The polylines drawn for one question. -/
structure Drawing (K : Type) where
  /-- The polylines, in the order in which clauses number them. -/
  lines : List (Polyline K)

namespace Drawing

variable {K : Type} [Scalar K]

instance : BEq (Drawing K) := ⟨fun a b => a.lines == b.lines⟩

/-- Where a polyline starts horizontally; one without vertices counts as starting at zero. -/
def startX (l : Polyline K) : K :=
  match l.points with
  | [] => 0
  | p :: _ => p.x

/-- The polylines, each made to run from left to right, and sorted by where they start. Of two
that start at the same place the one given first stays first. -/
def canonical (lines : List (Polyline K)) : Drawing K :=
  ⟨(lines.map Polyline.leftToRight).mergeSort fun a b => Scalar.totalLe (startX a) (startX b)⟩

/-- The canonical form of a drawing. -/
def canonicalised (d : Drawing K) : Drawing K :=
  canonical d.lines

/-- Tests whether two horizontal spans have a coordinate in common. -/
def spansMeet (a b : K × K) : Bool :=
  decide (a.1 ≤ b.2) && decide (b.1 ≤ a.2)

/-- Tests whether two of the spans in a list have a coordinate in common. -/
def someSpansMeet : List (K × K) → Bool
  | [] => false
  | s :: rest => rest.any (spansMeet s) || someSpansMeet rest

/-- Tests whether two of the polylines lie above each other somewhere; those without vertices do
not count. -/
def linesOverlap (d : Drawing K) : Bool :=
  someSpansMeet (d.lines.filterMap Polyline.span?)

end Drawing

end CurveSketch
