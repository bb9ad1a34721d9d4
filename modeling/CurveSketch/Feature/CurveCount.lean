import CurveSketch.Drawing
import CurveSketch.Specification.Fault

/-!
# Counting curves

The feature `curves`: the drawing has exactly so many curves.
-/

namespace CurveSketch

/-- A number of curves. -/
structure CurveCount where
  /-- The number. -/
  count : Nat
deriving DecidableEq, Repr

namespace CurveCount

/-- The tag of the feature. -/
def tag : List Char :=
  "curves".toList

/-- Reads a count. -/
def read (data : List Char) : Except SpecFault CurveCount :=
  match Text.readNatural (Text.trim data) with
  | .ok count => .ok ⟨count⟩
  | .error fault => .error (.invalid tag data (.notANumber fault))

/-- The text of the count. -/
def data (c : CurveCount) : List Char :=
  Text.natural c.count

variable {K : Type}

/-- Tests whether a drawing has so many curves. -/
def holds (c : CurveCount) (d : Drawing K) : Bool :=
  d.lines.length == c.count

/-- The number of curves of a drawing, if there is more than one. -/
def describe? (d : Drawing K) : Option CurveCount :=
  if 2 ≤ d.lines.length then some ⟨d.lines.length⟩ else none

end CurveCount

end CurveSketch
