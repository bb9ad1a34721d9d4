import CurveSketch.Scalar

/-!
# Binary64

The coordinates of drawings. Arithmetic is that of `Float`, which has a single NaN. Sorting tells
NaNs apart by their sign, though: the negative ones come before all numbers and the positive ones
after them. So a `Binary64` carries the sign of a NaN beside the float. A NaN read from outside is
positive, one that an operation makes of numbers is negative, and an operation that is given NaNs
hands on the first of them.
-/

namespace CurveSketch

/-- A binary64 number, or a NaN with a sign. -/
structure Binary64 where
  /-- The value without the sign of a NaN. -/
  float : Float
  /-- The sign of a NaN; it says nothing of a number. -/
  minus : Bool
deriving Repr

namespace Binary64

/-! ## Values -/

/-- A value read from outside. -/
def ofFloat (x : Float) : Binary64 :=
  ⟨x, false⟩

instance : OfScientific Binary64 :=
  ⟨fun mantissa negative exponent => ofFloat (Float.ofScientific mantissa negative exponent)⟩

/-- The result of an operation on numbers; if there is none, it is a negative NaN. -/
def ofResult (x : Float) : Binary64 :=
  ⟨x, x.isNaN⟩

/-- An operation on two values: the first NaN among them, or the result for two numbers. -/
def lift (op : Float → Float → Float) (a b : Binary64) : Binary64 :=
  if a.float.isNaN then a else if b.float.isNaN then b else ofResult (op a.float b.float)

theorem lift_of_isNaN {op : Float → Float → Float} {a b : Binary64}
    (h : a.float.isNaN = true) : lift op a b = a :=
  if_pos h

theorem lift_of_isNaN_right {op : Float → Float → Float} {a b : Binary64}
    (ha : a.float.isNaN = false) (hb : b.float.isNaN = true) : lift op a b = b := by
  rw [lift, ha, hb]
  rfl

theorem lift_of_numbers {op : Float → Float → Float} {a b : Binary64}
    (ha : a.float.isNaN = false) (hb : b.float.isNaN = false) :
    lift op a b = ofResult (op a.float b.float) := by
  rw [lift, ha, hb]
  rfl

/-- The value with its sign turned, also that of a NaN. -/
def negated (a : Binary64) : Binary64 :=
  ⟨-a.float, a.float.isNaN && !a.minus⟩

/-! ## Order -/

/-- The place of a value in the total order: its magnitude bits, counted downwards from `-1` for
the negative ones. -/
def rank (a : Binary64) : Int :=
  let bits := a.float.toBits.toNat
  if a.float.isNaN then if a.minus then -(bits : Int) - 1 else (bits : Int)
  else if bits < 0x8000000000000000 then (bits : Int)
  else -((bits - 0x8000000000000000 : Nat) : Int) - 1

end Binary64

/-! ## Binary64 as a scalar -/

instance : Scalar Binary64 where
  zero := .ofFloat 0.0
  one := .ofFloat 1.0
  add := Binary64.lift (· + ·)
  sub := Binary64.lift (· - ·)
  mul := Binary64.lift (· * ·)
  div := Binary64.lift (· / ·)
  neg := Binary64.negated
  lt a b := a.float < b.float
  le a b := a.float ≤ b.float
  beq a b := a.float == b.float
  decLt a b := inferInstanceAs (Decidable (a.float < b.float))
  decLe a b := inferInstanceAs (Decidable (a.float ≤ b.float))
  half := 0.5
  largest := 1.7976931348623157e308
  abs a := .ofFloat a.float.abs
  isNaN a := a.float.isNaN
  totalLe a b := decide (a.rank ≤ b.rank)
  isLong x y := decide (Float.sqrt (x.float * x.float + y.float * y.float) > 1e-9)

end CurveSketch
