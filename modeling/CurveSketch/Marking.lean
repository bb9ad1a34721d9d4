import CurveSketch.Answer
import CurveSketch.Solutions
import CurveSketch.Specification

/-!
# Marking

A drawing is marked against the accepted shapes of a question: it earns the response of the first
whose specification it meets. All specifications are read before any is tested, so that one with a
fault is reported even where an earlier one fits. The other way about, `specificationOf` writes the
text of the specification that an answer itself meets.
-/

namespace CurveSketch

/-- The accepted shapes of a question, their specifications having been read. -/
def Solutions.readAll {R : Type} (solutions : Solutions R) :
    Except SpecFault (List (Specification × R)) :=
  solutions.answers.mapM fun a => do return (← Specification.parse a.definition, a.response)

/-- The response of the first specification that a drawing meets, or else the one given. -/
def firstMatch {K R : Type} [Scalar K] (context : Context K) (d : Drawing K) (otherwise : R)
    (shapes : List (Specification × R)) : R :=
  match shapes.find? fun shape => shape.1.holds context d with
  | some shape => shape.2
  | none => otherwise

/-- The response that a drawing earns. -/
def markDrawing {K R : Type} [Scalar K] (solutions : Solutions R) (context : Context K)
    (d : Drawing K) : Except SpecFault R := do
  return firstMatch context d solutions.unmatched (← solutions.readAll)

/-- The response that an answer earns. -/
def mark {R : Type} (solutions : Solutions R) (context : Context Binary64) (answer : Answer) :
    Except SpecFault R :=
  markDrawing solutions context answer.toDrawing

/-- The text of the specification that an answer meets. -/
def specificationOf (settings : Settings Binary64) (answer : Answer) : String :=
  (Specification.describe (.ofSettings settings) answer.toDrawing).print

end CurveSketch
