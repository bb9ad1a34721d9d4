import CurveSketch.Sector

/-!
# Classifying points

A `Classifier` holds the sectors that a drawing is read in, with their regions, in order of
priority: where regions overlap, the earliest sector wins.
-/

namespace CurveSketch

/-- Sectors and their regions, the most important first. -/
structure Classifier (K : Type) where
  /-- Each sector with its region. -/
  entries : List (Sector × Region K)

namespace Classifier

variable {K : Type} [Scalar K]

/-- The order of priority used where none is given: the origin, then the axes, then the
quadrants. -/
def standardOrder : List Sector :=
  [.origin, .onAxisWithPositiveX, .onAxisWithPositiveY, .onAxisWithNegativeX,
    .onAxisWithNegativeY, .topRight, .topLeft, .bottomLeft, .bottomRight]

/-- The classifier over the sectors in a list, the most important first; of a sector listed again
only the first mention counts. -/
def ofOrder (settings : Settings K) (order : List Sector) : Classifier K :=
  ⟨order.eraseDups.map fun s => (s, s.region settings)⟩

/-- The sectors in order of priority. -/
def order (c : Classifier K) : List Sector :=
  c.entries.map (·.1)

/-- The sectors whose region has a property, as a set. -/
def sectorsWhere (c : Classifier K) (p : Region K → Bool) : SectorSet :=
  .ofList ((c.entries.filter fun e => p e.2).map (·.1))

/-- Every sector that a point is in. -/
def classifyAll (c : Classifier K) (p : Point K) : SectorSet :=
  c.sectorsWhere (·.contains p)

/-- The most important sector that a point is in. -/
def classify? (c : Classifier K) (p : Point K) : Option Sector :=
  (c.entries.find? fun e => e.2.contains p).map (·.1)

/-- The most important member of a set. -/
def mostImportant? (c : Classifier K) (sectors : SectorSet) : Option Sector :=
  c.order.find? sectors.contains

end Classifier

end CurveSketch
