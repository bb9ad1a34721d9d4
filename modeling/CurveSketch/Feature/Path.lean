import CurveSketch.Context

/-!
# Sector paths

The feature `through`: the line passes through the sectors listed, in order. Each sector stands for
one or more consecutive stretches of the line that lie in it; two neighbouring sectors of the list
may share one stretch, and stretches in no sector are skipped. `followsPath` decides this row by
row, from the last sector of the list to the first.
-/

namespace CurveSketch

/-- The sectors a line passes through, in order. -/
structure Path where
  /-- The sectors. -/
  sectors : List Sector
deriving DecidableEq, Repr

/-! ## Matching a path -/

/-- For each end of the list of stretches, whether no sector is needed to account for it: whether
it holds empty stretches only. -/
def unneeded : List SectorSet → List Bool
  | [] => [true]
  | set :: rest =>
    let row := unneeded rest
    (set.isEmpty && row.headD false) :: row

/-- For each end of the list of stretches, whether it can be accounted for by the sector `s`
followed by the sectors that `below` tells this of. -/
def accounted (s : Sector) : List SectorSet → List Bool → List Bool
  | [], _ => [false]
  | set :: rest, below =>
    let row := accounted s rest below.tail
    let here :=
      if set.isEmpty then row.headD false
      else
        set.contains s && (row.headD false || below.headD false || below.tail.headD false)
    here :: row

/-- Tests whether the stretches of a line follow the sectors expected. -/
def followsPath (expected : List Sector) (actual : List SectorSet) : Bool :=
  (expected.foldr (fun s below => accounted s actual below) (unneeded actual)).headD false

namespace Path

/-- The tag of the feature. -/
def tag : List Char :=
  "through".toList

/-- Reads a list of sectors; items without a name do not count, but one sector must be named. -/
def read (data : List Char) : Except SpecFault Path := do
  let names := ((Text.split ',' data).map Text.trim).filter (!·.isEmpty)
  let sectors ← Sector.readAll names
  if sectors.isEmpty then throw (.invalid tag data .noSectors)
  return ⟨sectors⟩

/-- The text of the sectors. -/
def data (path : Path) : List Char :=
  Text.commaSeparated (path.sectors.map Sector.name)

variable {K : Type} [Scalar K]

/-- Tests whether a line takes the path. -/
def holds (path : Path) (context : Context K) (l : Polyline K) : Bool :=
  followsPath path.sectors (context.classifier.sectorSets l)

/-- The path that a line takes, if it passes through any sector. -/
def describe? (context : Context K) (l : Polyline K) : Option Path :=
  match context.classifier.sectorPath l with
  | [] => none
  | sectors => some ⟨sectors⟩

end Path

end CurveSketch
