import CurveSketch.Clause

/-!
# Specifications

A specification is a list of clauses, one or more to a line of text, all of which a drawing must
meet. The names of lines mean the same throughout, so the clauses are tested in turn with one
naming that each narrows. If every clause is about any line at all, the drawing must besides
consist of exactly one curve.

`Specification.describe` writes the specification that a drawing itself meets.
-/

namespace CurveSketch

/-- The clauses that a drawing must meet. -/
structure Specification where
  /-- The clauses, in the order they are written. -/
  clauses : List Clause
deriving DecidableEq, Repr

namespace Specification

/-- Tests whether the specification asks for a single curve without saying so: no clause counts
curves, relates lines, or speaks of a line by number or name. -/
def expectsSingleCurve (s : Specification) : Bool :=
  s.clauses.all Clause.isAboutAnyLine

/-! ## Text -/

/-- The lines of a text that are not blank, without the blanks around them. -/
def textLines (text : List Char) : List (List Char) :=
  ((Text.split '\n' text).map Text.trim).filter (!·.isEmpty)

/-- Reads a specification, up to the first line that has a fault. -/
def read (text : List Char) : Except SpecFault Specification := do
  return ⟨(← (textLines text).mapM Clause.readLine).flatten⟩

/-- The text of a specification: its clauses on lines of their own. -/
def text (s : Specification) : List Char :=
  ['\r', '\n'].intercalate (s.clauses.map Clause.text)

/-- Reads a specification from a string. -/
def parse (text : String) : Except SpecFault Specification :=
  read text.toList

/-- The text of a specification as a string. -/
def print (s : Specification) : String :=
  String.ofList s.text

/-! ## Marking -/

variable {K : Type} [Scalar K]

/-- The naming after each clause in a list has been tested in turn, and whether all of them held. -/
def runClauses (context : Context K) (d : Drawing K) (naming : Naming) :
    List Clause → Bool × Naming
  | [] => (true, naming)
  | clause :: rest =>
    let (held, naming) := clause.holds context d naming
    let (others, naming) := runClauses context d naming rest
    (held && others, naming)

/-- Tests whether a drawing meets the specification. -/
def holds (s : Specification) (context : Context K) (d : Drawing K) : Bool :=
  (runClauses context d .start s.clauses).1 &&
    (!s.expectsSingleCurve || CurveCount.holds ⟨1⟩ d)

/-- The specification that describes a drawing: the number of curves and where they cross, then the
features of each line. -/
def describe (context : Context K) (d : Drawing K) : Specification :=
  ⟨(DrawingFeature.describeAll context d).map Clause.ofDrawing ++
    (Selector.forDrawing d).flatMap fun l =>
      (LineFeature.describeAll context l.2).map (Clause.ofLine l.1)⟩

end Specification

end CurveSketch
