import CurveSketch.Text
import CurveSketch.Text.Natural

/-!
# Faults in a specification

Why a specification cannot be read. A specification with a fault is of no use: no clause is ever
skipped because it could not be understood. `SpecFault.message` is the wording shown to authors.
-/

namespace CurveSketch

/-- What is wrong with the data of a clause. Texts in quotation are given without the blanks around
them. -/
inductive ClauseFault where
  /-- A sector path names no sector. -/
  | noSectors
  /-- An item of a slope has no equals sign. -/
  | notPositionSlope (item : List Char)
  /-- A slope names an end that there is not. -/
  | unknownPosition (name : List Char)
  /-- A slope names a gradient that there is not. -/
  | unknownSlope (name : List Char)
  /-- A slope states one end twice. -/
  | repeatedPosition (name : List Char)
  /-- A symmetry has no such name. -/
  | unknownSymmetry
  /-- An item of a list of turning points has no preposition. -/
  | notKindInSector (item : List Char)
  /-- A turning point has no such kind. -/
  | unknownPointKind (name : List Char)
  /-- A number of curves is not a count. -/
  | notANumber (fault : Text.NaturalFault)
  /-- A relation of two lines does not name two lines. -/
  | notAPair
  /-- A relation of two lines names one line twice. -/
  | sameLine
  /-- A relation of two lines does not say where they cross. -/
  | notAPlace
  /-- Nothing is said about the line selected. -/
  | noLineClause
deriving DecidableEq, Repr

/-- The wording of a fault. -/
def ClauseFault.message : ClauseFault → String
  | noSectors => "no sectors listed"
  | notPositionSlope item => "`" ++ String.ofList item ++ "` is not position=slope"
  | unknownPosition name => "unknown position `" ++ String.ofList name ++ "`"
  | unknownSlope name => "unknown slope `" ++ String.ofList name ++ "`"
  | repeatedPosition name => String.ofList name ++ " given more than once"
  | unknownSymmetry => "unknown symmetry"
  | notKindInSector item => "`" ++ String.ofList item ++ "` is not `kind in sector`"
  | unknownPointKind name => "unknown point kind `" ++ String.ofList name ++ "`"
  | notANumber fault => "not a number: " ++ fault.message
  | notAPair => "expected `A to B`"
  | sameLine => "a line cannot intersect itself"
  | notAPlace => "expected `at` and a list of sectors, or `nowhere`"
  | noLineClause => "no line clause follows the selector"

/-- Why a specification cannot be read. -/
inductive SpecFault where
  /-- A clause has no tag, or one that no feature has. -/
  | unknownFeature (clause : List Char)
  /-- The data of a clause does not fit its tag. -/
  | invalidClause (tag data : List Char) (fault : ClauseFault)
  /-- No sector has this name. -/
  | unknownSector (name : List Char)
  /-- A line is selected neither by number nor by name. -/
  | invalidSelector (text : List Char)
deriving DecidableEq, Repr

namespace SpecFault

/-- A fault in the data of a clause, which is quoted without the blanks around it. -/
def invalid (tag data : List Char) (fault : ClauseFault) : SpecFault :=
  invalidClause tag (Text.trim data) fault

/-- The wording of a fault. -/
def message : SpecFault → String
  | unknownFeature clause => "unknown feature in specification line: " ++ String.ofList clause
  | invalidClause tag data fault =>
    "invalid " ++ String.ofList tag ++ " clause `" ++ String.ofList data ++ "`: " ++ fault.message
  | unknownSector name => String.ofList name ++ " is not a valid sector"
  | invalidSelector text => "invalid line selector `" ++ String.ofList text ++ "`"

end SpecFault

end CurveSketch
