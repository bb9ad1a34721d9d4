import CurveSketch.SectorWalk

/-!
# The context of marking

What a feature needs besides the drawing itself: the settings, and a classifier that says in which
sectors, and with which priority, the drawing is read.
-/

namespace CurveSketch

/-- The settings and the classifier that drawings are read with. -/
structure Context (K : Type) where
  /-- The tolerances. -/
  settings : Settings K
  /-- The sectors, by priority. -/
  classifier : Classifier K

namespace Context

variable {K : Type} [Scalar K]

/-- The context of a list of sectors, the most important first. -/
def ofOrder (settings : Settings K) (order : List Sector) : Context K :=
  ⟨settings, .ofOrder settings order⟩

/-- The context of the standard order of sectors. -/
def ofSettings (settings : Settings K) : Context K :=
  ofOrder settings Classifier.standardOrder

end Context

end CurveSketch
