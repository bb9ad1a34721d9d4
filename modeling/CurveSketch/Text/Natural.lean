/-!
# Natural numbers in text

Counts are written in decimal and must fit in 64 bits. `readNatural` reports the first fault in
reading order; a character that is no digit is found before the value it follows is found to be
too large for another digit.
-/

namespace CurveSketch.Text

/-- Why a text is not a count. -/
inductive NaturalFault where
  /-- There is nothing to read. -/
  | empty
  /-- A character is not a digit. -/
  | invalidDigit
  /-- The value does not fit in 64 bits. -/
  | tooLarge
deriving DecidableEq, Repr

/-- The wording of a fault. -/
def NaturalFault.message : NaturalFault → String
  | empty => "cannot parse integer from empty string"
  | invalidDigit => "invalid digit found in string"
  | tooLarge => "number too large to fit in target type"

/-- The value of a decimal digit. -/
def digit? (c : Char) : Option Nat :=
  if c.isDigit then some (c.toNat - '0'.toNat) else none

/-- Reads digits on from a value. -/
def readDigits (value : Nat) : List Char → Except NaturalFault Nat
  | [] => .ok value
  | c :: rest =>
    match digit? c with
    | none => .error .invalidDigit
    | some d =>
      if value * 10 + d < 0x10000000000000000 then readDigits (value * 10 + d) rest
      else .error .tooLarge

/-- Reads a count: digits, with at most one plus sign in front of them. -/
def readNatural : List Char → Except NaturalFault Nat
  | [] => .error .empty
  | ['+'] => .error .invalidDigit
  | '+' :: digits => readDigits 0 digits
  | digits => readDigits 0 digits

/-- The decimal digits of a count. -/
def natural (n : Nat) : List Char :=
  Nat.toDigits 10 n

end CurveSketch.Text
