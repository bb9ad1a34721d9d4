import CurveSketch.Json

/-!
# Numbers in JSON text

A `Numeral` is a number as it is written: sign, digits, fraction, exponent. Its value is a whole
number if it is written as one and fits in 64 bits. Otherwise it is a double, found by a quick rule
rather than by rounding the exact value: the leading digits that fit in 64 bits are converted, and
the result is multiplied or divided by a power of ten. Where both are exact the result is the
nearest double; in general it may be its neighbour.
-/

namespace CurveSketch

/-- A number as it is written. -/
structure Numeral where
  /-- Whether there is a minus sign. -/
  negative : Bool
  /-- The digits before the point. -/
  whole : List Char
  /-- The digits after the point; none if there is no point. -/
  fraction : List Char
  /-- Whether the exponent is negative, and its digits. -/
  exponent? : Option (Bool × List Char)
deriving DecidableEq, Repr

namespace Numeral

/-! ## Reading -/

/-- Reads digits, of which there must be one. -/
def readDigits? (cs : List Char) : Option (List Char × List Char) :=
  match cs.takeWhile Char.isDigit with
  | [] => none
  | digits => some (digits, cs.dropWhile Char.isDigit)

/-- Reads the digits before the point, which start with a zero only if it is the only one. -/
def readWhole? (cs : List Char) : Option (List Char × List Char) :=
  match readDigits? cs with
  | some ('0' :: _ :: _, _) => none
  | result => result

/-- Reads the point and the digits after it, if there is a point. -/
def readFraction? : List Char → Option (List Char × List Char)
  | '.' :: rest => readDigits? rest
  | cs => some ([], cs)

/-- Reads the sign of an exponent. -/
def readSign : List Char → Bool × List Char
  | '-' :: rest => (true, rest)
  | '+' :: rest => (false, rest)
  | cs => (false, cs)

/-- Reads the exponent, if there is one. -/
def readExponent? : List Char → Option (Option (Bool × List Char) × List Char)
  | 'e' :: rest =>
    (readDigits? (readSign rest).2).map fun r => (some ((readSign rest).1, r.1), r.2)
  | 'E' :: rest =>
    (readDigits? (readSign rest).2).map fun r => (some ((readSign rest).1, r.1), r.2)
  | cs => some (none, cs)

/-- Reads a number without its sign. -/
def readUnsigned? (negative : Bool) (cs : List Char) : Option (Numeral × List Char) := do
  let (whole, rest) ← readWhole? cs
  let (fraction, rest) ← readFraction? rest
  let (exponent?, rest) ← readExponent? rest
  return (⟨negative, whole, fraction, exponent?⟩, rest)

/-- Reads a number. -/
def read? : List Char → Option (Numeral × List Char)
  | '-' :: rest => readUnsigned? true rest
  | cs => readUnsigned? false cs

/-- Reading digits takes some of the text. -/
theorem length_lt_of_readDigits? {cs : List Char} {r : List Char × List Char}
    (h : readDigits? cs = some r) : r.2.length < cs.length := by
  unfold readDigits? at h
  split at h
  · simp at h
  · rename_i hne
    obtain rfl := Option.some.inj h
    have hsplit : (cs.takeWhile Char.isDigit ++ cs.dropWhile Char.isDigit).length = cs.length :=
      congrArg List.length List.takeWhile_append_dropWhile
    have hpos : 0 < (cs.takeWhile Char.isDigit).length := List.length_pos_iff.mpr hne
    rw [List.length_append] at hsplit
    show (cs.dropWhile Char.isDigit).length < cs.length
    omega

/-- Reading the digits before the point takes some of the text. -/
theorem length_lt_of_readWhole? {cs : List Char} {r : List Char × List Char}
    (h : readWhole? cs = some r) : r.2.length < cs.length := by
  unfold readWhole? at h
  split at h
  · simp at h
  · exact length_lt_of_readDigits? h

/-- Reading a fraction adds nothing to the text. -/
theorem length_le_of_readFraction? {cs : List Char} {r : List Char × List Char}
    (h : readFraction? cs = some r) : r.2.length ≤ cs.length := by
  unfold readFraction? at h
  split at h
  · exact Nat.le_succ_of_le (Nat.le_of_lt (length_lt_of_readDigits? h))
  · obtain rfl := Option.some.inj h
    exact Nat.le_refl _

/-- Reading a sign adds nothing to the text. -/
theorem length_readSign_le (cs : List Char) : (readSign cs).2.length ≤ cs.length := by
  unfold readSign
  split <;> simp

/-- Reading an exponent adds nothing to the text. -/
theorem length_le_of_readExponent? {cs : List Char} {r : Option (Bool × List Char) × List Char}
    (h : readExponent? cs = some r) : r.2.length ≤ cs.length := by
  have digits : ∀ {rest : List Char} {r : Option (Bool × List Char) × List Char},
      ((readDigits? (readSign rest).2).map fun d => (some ((readSign rest).1, d.1), d.2)) =
        some r → r.2.length ≤ rest.length := by
    intro rest r h
    obtain ⟨d, hd, rfl⟩ := Option.map_eq_some_iff.mp h
    have := length_lt_of_readDigits? hd
    have := length_readSign_le rest
    show d.2.length ≤ rest.length
    omega
  unfold readExponent? at h
  split at h
  · exact Nat.le_succ_of_le (digits h)
  · exact Nat.le_succ_of_le (digits h)
  · obtain rfl := Option.some.inj h
    exact Nat.le_refl _

/-- Reading a number takes some of the text. -/
theorem length_lt_of_read? {cs : List Char} {r : Numeral × List Char}
    (h : read? cs = some r) : r.2.length < cs.length := by
  have unsigned : ∀ {negative : Bool} {cs : List Char} {r : Numeral × List Char},
      readUnsigned? negative cs = some r → r.2.length < cs.length := by
    intro negative cs r h
    simp only [readUnsigned?, Option.bind_eq_bind, Option.bind_eq_some_iff] at h
    obtain ⟨w, hw, f, hf, e, he, hr⟩ := h
    obtain rfl := Option.some.inj hr
    have := length_lt_of_readWhole? hw
    have := length_le_of_readFraction? hf
    have := length_le_of_readExponent? he
    show e.2.length < cs.length
    omega
  unfold read? at h
  split at h
  · exact Nat.lt_succ_of_lt (unsigned h)
  · exact unsigned h

/-! ## Value -/

/-- The value of a digit. -/
def digit (c : Char) : Nat :=
  c.toNat - '0'.toNat

/-- Reads digits on from a significand for as long as it fits in 64 bits; also counts the digits
left over. -/
def accumulate (significand : Nat) : List Char → Nat × Nat
  | [] => (significand, 0)
  | c :: rest =>
    if significand * 10 + digit c < 0x10000000000000000 then
      accumulate (significand * 10 + digit c) rest
    else (significand, rest.length + 1)

/-- A power of ten, for exponents up to 308. -/
def powerOfTen (k : Nat) : Float :=
  Float.ofScientific 1 false k

/-- A double multiplied by a power of ten, unless it becomes too large. -/
def scaleUp? (x : Float) (k : Nat) : Option Float :=
  if k ≤ 308 then
    let y := x * powerOfTen k
    if y.isInf then none else some y
  else if x == 0 then some x else none

/-- A double divided by a power of ten, in steps no larger than `10^308`. -/
def scaleDown (x : Float) (k : Nat) : Float :=
  if k ≤ 308 then x / powerOfTen k
  else if x == 0 then x
  else scaleDown (x / powerOfTen 308) (k - 308)
termination_by k
decreasing_by omega

/-- A double times a power of ten, unless it becomes too large. -/
def scale? (x : Float) (exponent : Int) : Option Float :=
  if 0 ≤ exponent then scaleUp? x exponent.toNat else some (scaleDown x (-exponent).toNat)

/-- The value of the digits of an exponent; an exponent beyond 31 bits counts as the next one. -/
def exponentValue (digits : List Char) : Nat :=
  digits.foldl (fun n c => min (n * 10 + digit c) 0x80000000) 0

/-- The magnitude of a number as a double, unless it is too large. -/
def magnitude? (n : Numeral) : Option Float :=
  let (whole, skipped) := accumulate 0 n.whole
  let (significand, unread) := accumulate whole n.fraction
  let point : Int := (skipped : Int) - ((n.fraction.length - unread : Nat) : Int)
  let exponent : Int :=
    match n.exponent? with
    | none => point
    | some (true, digits) => point - exponentValue digits
    | some (false, digits) => point + exponentValue digits
  scale? (Float.ofNat significand) exponent

/-- The value of a number as a double, unless it is too large. -/
def toFloat? (n : Numeral) : Option Float :=
  n.magnitude?.map fun x => if n.negative then -x else x

/-- The value of a number. A whole number that needs more than 64 bits is a double, and so is a
negative zero. -/
def value? (n : Numeral) : Option JsonNumber :=
  match n.fraction, n.exponent?, accumulate 0 n.whole with
  | [], none, (value, 0) =>
    if n.negative then
      if 0 < value ∧ value ≤ 0x8000000000000000 then some (.int (-(value : Int)))
      else some (.float (-Float.ofNat value))
    else some (.int value)
  | _, _, _ => n.toFloat?.map .float

end Numeral

end CurveSketch
