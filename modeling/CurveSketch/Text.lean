import CurveSketch.Text.Blank

/-!
# Reading text

Specification text is read as a list of characters. The file holds the few ways in which it is
taken apart: trimming blanks, cutting at a separator, cutting off a word, and comparing names
without regard to the case of ASCII letters.
-/

namespace CurveSketch.Text

/-! ## Trimming -/

/-- The text without the blanks it starts with. -/
def trimStart (cs : List Char) : List Char :=
  cs.dropWhile isBlank

/-- The text without the blanks it ends with. -/
def trimEnd (cs : List Char) : List Char :=
  (cs.reverse.dropWhile isBlank).reverse

/-- The text without the blanks around it. -/
def trim (cs : List Char) : List Char :=
  trimEnd (trimStart cs)

/-! ## Cutting -/

/-- The parts of a text between the occurrences of a separator; there is always a first part. -/
def split (sep : Char) : List Char → List (List Char)
  | [] => [[]]
  | c :: rest =>
    if c = sep then [] :: split sep rest
    else
      match split sep rest with
      | [] => [[c]]
      | part :: parts => (c :: part) :: parts

/-- The text before and after the first occurrence of a separator, if there is one. -/
def cut? (sep : Char) : List Char → Option (List Char × List Char)
  | [] => none
  | c :: rest =>
    if c = sep then some ([], rest) else (cut? sep rest).map fun p => (c :: p.1, p.2)

/-- The text before and after the first place where one of the words stands, if there is one. -/
def cutAtWord? (words : List (List Char)) : List Char → Option (List Char × List Char)
  | [] => none
  | c :: rest =>
    match words.find? (·.isPrefixOf (c :: rest)) with
    | some word => some ([], (c :: rest).drop word.length)
    | none => (cutAtWord? words rest).map fun p => (c :: p.1, p.2)

/-- The first word of a text and what follows the blanks after it. -/
def nextWord (cs : List Char) : List Char × List Char :=
  let start := trimStart cs
  (start.takeWhile (!isBlank ·), trimStart (start.dropWhile (!isBlank ·)))

/-! ## Comparing and joining -/

/-- The text with its ASCII letters in lower case. -/
def lower (cs : List Char) : List Char :=
  cs.map Char.toLower

/-- Tests whether two texts agree but for the case of ASCII letters. -/
def sameName (a b : List Char) : Bool :=
  lower a == lower b

/-- The parts of a list, written with a comma and a blank between them. -/
def commaSeparated (parts : List (List Char)) : List Char :=
  [',', ' '].intercalate parts

end CurveSketch.Text
