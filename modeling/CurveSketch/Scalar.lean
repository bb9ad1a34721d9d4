/-!
# Scalars

Drawings arrive in binary64, while what is said about their shape is exact geometry. Everything
geometric in this library is therefore written once, over any `Scalar`, and read at two
instances: `Binary64`, where every operation rounds and a comparison with NaN is false, and `Rat`,
where the same text is exact arithmetic.

A scalar carries two orders. `<` and `≤` are the numeric comparisons used by the geometry;
`totalLe` ranks every value, both zeros and NaN included, and is the order in which things are
sorted.
-/

namespace CurveSketch

/-- The numbers that coordinates are made of. -/
class Scalar (K : Type) extends
    Zero K, One K, Add K, Sub K, Mul K, Div K, Neg K, LT K, LE K, BEq K where
  /-- The strict comparison is decidable. -/
  decLt : DecidableLT K
  /-- The weak comparison is decidable. -/
  decLe : DecidableLE K
  /-- One half. -/
  half : K
  /-- The largest finite coordinate, the empty bounding box being inside out between it and its
  negation. -/
  largest : K
  /-- The magnitude. -/
  abs : K → K
  /-- Holds of the values that are no number. -/
  isNaN : K → Bool
  /-- A total order that refines the numeric one, with the negative zero below the positive. -/
  totalLe : K → K → Bool
  /-- Says of a displacement with these components that it is longer than `10⁻⁹`. -/
  isLong : K → K → Bool

variable {K : Type} [Scalar K]

instance decidableLt (a b : K) : Decidable (a < b) :=
  Scalar.decLt a b

instance decidableLe (a b : K) : Decidable (a ≤ b) :=
  Scalar.decLe a b

namespace Scalar

/-- The lesser of two values; a value that is no number gives way to the other. -/
def min (a b : K) : K :=
  if isNaN a then b else if b < a then b else a

/-- The greater of two values; a value that is no number gives way to the other. -/
def max (a b : K) : K :=
  if isNaN a then b else if a < b then b else a

end Scalar

/-! ## Exact arithmetic -/

instance : Scalar Rat where
  zero := 0
  one := 1
  decLt := inferInstance
  decLe := inferInstance
  half := 1 / 2
  largest := ((Nat.pow 2 1024 - Nat.pow 2 971 : Nat) : Rat)
  abs x := if x < 0 then -x else x
  isNaN _ := false
  totalLe a b := decide (a ≤ b)
  isLong x y := decide (x * x + y * y > 1 / 1000000000000000000)

namespace Scalar

@[simp] theorem isNaN_rat (a : Rat) : isNaN a = false :=
  rfl

@[simp] theorem totalLe_rat (a b : Rat) : totalLe a b = decide (a ≤ b) :=
  rfl

/-- Over the rationals the two orders agree with the usual least of two numbers. -/
theorem min_rat (a b : Rat) : min a b = if b < a then b else a :=
  rfl

/-- Over the rationals the two orders agree with the usual greatest of two numbers. -/
theorem max_rat (a b : Rat) : max a b = if a < b then b else a :=
  rfl

end Scalar

end CurveSketch
