import CurveSketch.Region
import CurveSketch.Settings
import CurveSketch.Specification.Fault

/-!
# Sectors

A sector is a named region of the graph. The first nine sectors of `Sector.all` (four quadrants,
four bands along the half axes, the origin) cover the plane; the coarser ones that follow are only
ever named. A sector has a name and, along the axes, a short one; names are read without regard to
case. Its region depends on the settings.

A `SectorSet` is a set of sectors, held as the list of its members in the order of `Sector.all`, so
that equal sets are equal lists.
-/

namespace CurveSketch

/-- A named region of the graph. -/
inductive Sector where
  | topLeft
  | topRight
  | bottomLeft
  | bottomRight
  | onAxisWithPositiveX
  | onAxisWithNegativeX
  | onAxisWithPositiveY
  | onAxisWithNegativeY
  | origin
  | relaxedOrigin
  | leftHalf
  | rightHalf
  | topHalf
  | bottomHalf
  | anywhere
deriving DecidableEq, Repr

namespace Sector

/-- Every sector, in the order in which the members of a set are listed. -/
def all : List Sector :=
  [topLeft, topRight, bottomLeft, bottomRight, onAxisWithPositiveX, onAxisWithNegativeX,
    onAxisWithPositiveY, onAxisWithNegativeY, origin, relaxedOrigin, leftHalf, rightHalf, topHalf,
    bottomHalf, anywhere]

theorem mem_all (s : Sector) : s ∈ all := by
  cases s <;> decide

/-! ## Names -/

/-- The name of a sector in a specification. -/
def name : Sector → List Char
  | topLeft => "topLeft".toList
  | topRight => "topRight".toList
  | bottomLeft => "bottomLeft".toList
  | bottomRight => "bottomRight".toList
  | onAxisWithPositiveX => "onAxisWithPositiveX".toList
  | onAxisWithNegativeX => "onAxisWithNegativeX".toList
  | onAxisWithPositiveY => "onAxisWithPositiveY".toList
  | onAxisWithNegativeY => "onAxisWithNegativeY".toList
  | origin => "origin".toList
  | relaxedOrigin => "relaxedOrigin".toList
  | leftHalf => "left".toList
  | rightHalf => "right".toList
  | topHalf => "top".toList
  | bottomHalf => "bottom".toList
  | anywhere => "any".toList

/-- The short name that the half axes have besides. -/
def shortName? : Sector → Option (List Char)
  | onAxisWithPositiveX => some "+Xaxis".toList
  | onAxisWithNegativeX => some "-Xaxis".toList
  | onAxisWithPositiveY => some "+Yaxis".toList
  | onAxisWithNegativeY => some "-Yaxis".toList
  | _ => none

/-- The sector with a name, read without regard to blanks around it and to case. -/
def read (text : List Char) : Except SpecFault Sector :=
  let text := Text.trim text
  match all.find? fun s => Text.sameName s.name text || s.shortName?.any (Text.sameName · text) with
  | some s => .ok s
  | none => .error (.unknownSector text)

/-- Reads a list of sectors, up to the first that has no such name. -/
def readAll (names : List (List Char)) : Except SpecFault (List Sector) :=
  names.mapM read

/-! ## Regions -/

/-- The region that a sector covers. -/
def region {K : Type} [Scalar K] (settings : Settings K) : Sector → Region K
  | topRight => .quadrant .right .up
  | topLeft => .quadrant .left .up
  | bottomLeft => .quadrant .left .down
  | bottomRight => .quadrant .right .down
  | onAxisWithPositiveY => .axisBand .left .right .up settings.axisSlop
  | onAxisWithNegativeY => .axisBand .right .left .down settings.axisSlop
  | onAxisWithPositiveX => .axisBand .up .down .right settings.axisSlop
  | onAxisWithNegativeX => .axisBand .down .up .left settings.axisSlop
  | origin => .square settings.originSlop
  | relaxedOrigin => .square settings.relaxedOriginSlop
  | leftHalf => .leftOf 0
  | rightHalf => .rightOf 0
  | topHalf => .halfPlane .right .left
  | bottomHalf => .halfPlane .right .right
  | anywhere => .everywhere

end Sector

/-! ## Sets of sectors -/

/-- A set of sectors: its members in the order of `Sector.all`. -/
abbrev SectorSet := List Sector

namespace SectorSet

/-- The set of the sectors in a list. -/
def ofList (sectors : List Sector) : SectorSet :=
  Sector.all.filter sectors.contains

@[simp] theorem mem_ofList {sectors : List Sector} {s : Sector} :
    s ∈ ofList sectors ↔ s ∈ sectors := by
  simp [ofList, Sector.mem_all]

/-- The pairs of sectors that a point is in both of only by touching their common boundary. -/
def opposed : List (Sector × Sector) :=
  [(.topRight, .bottomRight), (.topLeft, .bottomLeft), (.topRight, .topLeft),
    (.bottomRight, .bottomLeft), (.onAxisWithPositiveX, .onAxisWithNegativeX),
    (.onAxisWithPositiveY, .onAxisWithNegativeY)]

/-- The set without the members whose opposite is a member too. -/
def withoutOpposed (sectors : SectorSet) : SectorSet :=
  let clashes := opposed.filter fun pair => sectors.contains pair.1 && sectors.contains pair.2
  sectors.filter fun s => !clashes.any fun pair => pair.1 == s || pair.2 == s

end SectorSet

end CurveSketch
