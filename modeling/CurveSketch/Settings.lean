import CurveSketch.Binary64

/-!
# Settings

The tolerances used in marking. They are absolute lengths and suit drawings scaled to about one
unit each way. `Settings.check` says which settings are usable, and why others are not.
-/

namespace CurveSketch

/-- The tolerances used in marking. -/
structure Settings (K : Type) where
  /-- Half the width of the band around each axis that counts as on the axis. -/
  axisSlop : K
  /-- Half the width of the square that counts as the origin. -/
  originSlop : K
  /-- Half the width of the larger square that counts as the origin for odd symmetry. -/
  relaxedOriginSlop : K
  /-- The ratio of width to height from which a slope is flat, and of height to width from which it
  is steep. -/
  slopeThreshold : K
  /-- How many vertices at an end of a line its slope is measured on. -/
  slopeWindow : Nat
  /-- How much corresponding stretches of a symmetric line may differ in size, as a ratio. -/
  symmetryTolerance : K
deriving Repr

namespace Settings

/-- The settings used where none are given. -/
def standard : Settings Binary64 where
  axisSlop := 0.02
  originSlop := 0.05
  relaxedOriginSlop := 0.1
  slopeThreshold := 4.0
  slopeWindow := 5
  symmetryTolerance := 0.4

/-- Why settings are unusable. -/
inductive Fault where
  /-- A tolerance is not a positive number. -/
  | notPositive (name : String) (value : Binary64)
  /-- A slope cannot be measured on so few vertices. -/
  | slopeWindow (count : Nat)

/-- The tolerances under the names they are reported by, in the order they are checked. -/
def tolerances (s : Settings Binary64) : List (String × Binary64) :=
  [("axisSlop", s.axisSlop), ("originSlop", s.originSlop),
    ("relaxedOriginSlop", s.relaxedOriginSlop), ("slopeThreshold", s.slopeThreshold),
    ("symmetryTolerance", s.symmetryTolerance)]

/-- The first thing that makes the settings unusable. -/
def fault? (s : Settings Binary64) : Option Fault :=
  match s.tolerances.find? fun t => Scalar.isNaN t.2 || decide (t.2 ≤ 0) with
  | some (name, value) => some (.notPositive name value)
  | none => if s.slopeWindow < 2 then some (.slopeWindow s.slopeWindow) else none

/-- The settings if they are usable. -/
def check (s : Settings Binary64) : Except Fault (Settings Binary64) :=
  match s.fault? with
  | some fault => .error fault
  | none => .ok s

end Settings

end CurveSketch
