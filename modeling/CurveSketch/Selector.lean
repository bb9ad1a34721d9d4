import CurveSketch.Drawing
import CurveSketch.Naming
import CurveSketch.Specification.Fault

/-!
# Selecting lines

A clause about a line says which line it is about: any line, the line with a number, or the line
that a name stands for. In a specification the number or the name stands in front of the clauses it
applies to, as in `line: 2; slope: start=up; points: maxima in topLeft`.
-/

namespace CurveSketch

/-- Which line a clause is about. -/
inductive Selector where
  /-- Some line. -/
  | any
  /-- The line with a number, counted from one. -/
  | nth (number : Nat)
  /-- The line that a name stands for. -/
  | named (name : List Char)
deriving DecidableEq, Repr

namespace Selector

/-- The tag in front of a number. -/
def numberTag : List Char :=
  "line".toList

/-- The tag in front of a name. -/
def nameTag : List Char :=
  "match".toList

/-- Reads the data after `line:`, giving the selector and the clauses it applies to. The number is
at least one and has no sign. -/
def readNth (data : List Char) : Except SpecFault (Selector × List Char) :=
  match Text.cut? ';' data with
  | none => .error (.invalidSelector (Text.trim data))
  | some (index, rest) =>
    let index := Text.trim index
    match Text.readNatural index with
    | .ok n =>
      if 1 ≤ n ∧ index.head? ≠ some '+' then .ok (nth n, rest)
      else .error (.invalidSelector index)
    | .error _ => .error (.invalidSelector index)

/-- Reads the data after `match:`, giving the selector and the clauses it applies to. -/
def readNamed (data : List Char) : Except SpecFault (Selector × List Char) :=
  match Text.cut? ';' data with
  | none => .error (.invalidSelector (Text.trim data))
  | some (name, rest) =>
    let name := Text.trim name
    if isLineName name then .ok (named name, rest) else .error (.invalidSelector name)

/-- The text in front of a clause about the line selected. -/
def lead : Selector → List Char
  | any => []
  | nth n => numberTag ++ ':' :: ' ' :: (Text.natural n ++ [';', ' '])
  | named name => nameTag ++ ':' :: ' ' :: (name ++ [';', ' '])

variable {K : Type} [Scalar K]

/-- Tests a drawing by a test of the lines selected. A name is narrowed to the lines that pass. -/
def holds (selector : Selector) (d : Drawing K) (naming : Naming) (test : Polyline K → Bool) :
    Bool × Naming :=
  match selector with
  | any => (d.lines.any test, naming)
  | nth 0 => (false, naming)
  | nth (i + 1) => (d.lines[i]?.any test, naming)
  | named name =>
    naming.refine [name] d.lines.length fun
      | i :: _ => d.lines[i]?.any test
      | [] => false

/-- The selectors that a drawing is described with, each with its line. A single line needs none;
otherwise each line has its number and, if some lines lie above each other, its standard name. -/
def forDrawing (d : Drawing K) : List (Selector × Polyline K) :=
  match d.lines with
  | [only] => [(any, only)]
  | lines =>
    let numbered := lines.zipIdx.map fun l => (nth (l.2 + 1), l.1)
    if d.linesOverlap then
      numbered ++ lines.zipIdx.map fun l => (named (standardName l.2), l.1)
    else numbered

end Selector

end CurveSketch
