import CurveSketch.Context
import CurveSketch.Drawing
import CurveSketch.Naming

/-!
# Crossings of two lines

The feature `intersects`: two lines, spoken of by name, cross in points that lie in the sectors
listed, in order along the first line. It is written `A to B at origin, topRight`, or
`A to B nowhere` for lines that do not cross.
-/

namespace CurveSketch

/-- Where two lines cross. -/
structure Meeting where
  /-- The name of the line along which the crossings are ordered. -/
  first : List Char
  /-- The name of the other line. -/
  second : List Char
  /-- The sectors of the crossings. -/
  sectors : List Sector
deriving DecidableEq, Repr

namespace Meeting

/-- The tag of the feature. -/
def tag : List Char :=
  "intersects".toList

/-- Reads where the lines cross: nowhere, or at the sectors listed after a preposition. -/
def readPlace (data place : List Char) : Except SpecFault (List Sector) :=
  let (preposition, rest) := Text.nextWord place
  if preposition = "nowhere".toList ∧ rest = [] then .ok []
  else if preposition = "at".toList ∨ preposition = "in".toList ∨ preposition = "on".toList then
    Sector.readAll (Text.split ',' rest)
  else .error (.invalid tag data .notAPlace)

/-- Reads two different names of lines and where they cross. -/
def read (data : List Char) : Except SpecFault Meeting := do
  let (first, rest) := Text.nextWord data
  let (word, rest) := Text.nextWord rest
  let (second, rest) := Text.nextWord rest
  if word ≠ "to".toList ∨ !isLineName first ∨ !isLineName second then
    throw (.invalid tag data .notAPair)
  if first = second then throw (.invalid tag data .sameLine)
  return ⟨first, second, ← readPlace data rest⟩

/-- The text of the names and the sectors. -/
def data (m : Meeting) : List Char :=
  m.first ++ " to ".toList ++ m.second ++
    match m.sectors with
    | [] => " nowhere".toList
    | sectors => " at ".toList ++ Text.commaSeparated (sectors.map Sector.name)

variable {K : Type} [Scalar K]

/-- Tests two lines, without regard to names. -/
def holdsOf (m : Meeting) (context : Context K) (a b : Polyline K) : Bool :=
  (a.crossings b).map context.classifier.classify? == m.sectors.map some

/-- Tests a drawing, and narrows what the two names stand for to the lines that pass. -/
def holds (m : Meeting) (context : Context K) (d : Drawing K) (naming : Naming) : Bool × Naming :=
  naming.refine [m.first, m.second] d.lines.length fun
    | i :: j :: _ =>
      match d.lines[i]?, d.lines[j]? with
      | some a, some b => m.holdsOf context a b
      | _, _ => false
    | _ => false

/-- The crossings of a line with those after it. Lines are named by their index. -/
def describeFrom (context : Context K) (a : Polyline K × Nat) (others : List (Polyline K × Nat)) :
    List Meeting :=
  others.filterMap fun b =>
    match a.1.crossings b.1 with
    | [] => none
    | points =>
      some ⟨standardName a.2, standardName b.2, points.filterMap context.classifier.classify?⟩

/-- The crossings of each of the lines in a list with those after it. -/
def describePairs (context : Context K) : List (Polyline K × Nat) → List Meeting
  | [] => []
  | a :: rest => describeFrom context a rest ++ describePairs context rest

/-- The pairs of lines of a drawing that cross. -/
def describeAll (context : Context K) (d : Drawing K) : List Meeting :=
  describePairs context d.lines.zipIdx

end Meeting

end CurveSketch
