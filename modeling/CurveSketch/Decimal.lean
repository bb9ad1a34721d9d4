/-!
# The shortest decimal

A double is written with the fewest decimal digits that read back as the same double. The numbers
that read back as `m · 2^e` fill an interval around it. Of the decimal grids `10^p` the coarsest
with a point in this interval is taken, and on it the point next to the double.
-/

namespace CurveSketch.Decimal

/-- A finite positive double `m · 2^e`. -/
structure Binary where
  /-- The significand. -/
  m : Nat
  /-- The exponent of two. -/
  e : Int

/-- The least significand of a normal double, the fifty-second power of two. -/
def leastNormal : Nat :=
  0x10000000000000

/-- The magnitude of a finite double. -/
def Binary.ofFloat (x : Float) : Binary :=
  let bits := x.toBits.toNat
  let fraction : Nat := bits % leastNormal
  let exponent : Nat := bits / leastNormal % 0x800
  if exponent = 0 then ⟨fraction, -1074⟩ else ⟨leastNormal + fraction, (exponent : Int) - 1075⟩

/-- Compares `a · 2^e` with `b · 10^p`. -/
def compareScaled (a : Nat) (e : Int) (b : Nat) (p : Int) : Ordering :=
  compare (a * Nat.pow 2 e.toNat * Nat.pow 10 (-p).toNat)
    (b * Nat.pow 10 p.toNat * Nat.pow 2 (-e).toNat)

/-- The last point of the grid `10^p` that is not above `a · 2^e`. -/
def gridFloor (a : Nat) (e p : Int) : Nat :=
  a * Nat.pow 2 e.toNat * Nat.pow 10 (-p).toNat / (Nat.pow 10 p.toNat * Nat.pow 2 (-e).toNat)

/-- Tests whether `c · 10^p` reads back as the double: whether it is no further from it than half
way to its neighbours, or less than half way if the significand is odd. Below a power of two the
neighbours are twice as close. -/
def readsBack (x : Binary) (c : Nat) (p : Int) : Bool :=
  let below := if x.m = leastNormal ∧ -1074 < x.e then 1 else 2
  let low := compareScaled (4 * x.m - below) (x.e - 2) c p
  let high := compareScaled (4 * x.m + 2) (x.e - 2) c p
  if x.m % 2 = 0 then low != .gt && high != .lt else low == .lt && high == .gt

/-- The point of the grid `10^p` next to the double, among those that read back. Of two at the same
distance the upper one is taken. -/
def onGrid? (x : Binary) (p : Int) : Option (Nat × Int) :=
  let c := gridFloor x.m x.e p
  match decide (0 < c) && readsBack x c p, readsBack x (c + 1) p with
  | true, true =>
    if compareScaled (2 * x.m) x.e (2 * c + 1) p = .lt then some (c, p) else some (c + 1, p)
  | true, false => some (c, p)
  | false, true => some (c + 1, p)
  | false, false => none

/-- The digits `c` and the exponent `p` of the shortest decimal `c · 10^p` that reads back. -/
def shortest? (x : Binary) : Option (Nat × Int) :=
  (List.range 634).findSome? fun i : Nat => onGrid? x (309 - (i : Int))

/-- The number `c · 10^p` without an exponent, and with a point only if it has a fraction. -/
def positional (c : Nat) (p : Int) : List Char :=
  let digits := Nat.toDigits 10 c
  if 0 ≤ p then digits ++ List.replicate p.toNat '0'
  else
    let places := (-p).toNat
    let padded := List.replicate (places + 1 - digits.length) '0' ++ digits
    padded.take (padded.length - places) ++ '.' :: padded.drop (padded.length - places)

/-- The text of a double: its shortest decimal, without an exponent. -/
def text (x : Float) : String :=
  if x.isNaN then "NaN"
  else
    let sign := if x.toBits.toNat < 0x8000000000000000 then "" else "-"
    if x.isInf then sign ++ "inf"
    else if x == 0 then sign ++ "0"
    else
      match shortest? (.ofFloat x) with
      | some (c, p) => sign ++ String.ofList (positional c p)
      | none => sign ++ "0"

end CurveSketch.Decimal
