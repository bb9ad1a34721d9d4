import CurveSketch.Text

/-!
# Names of lines

Clauses may speak of lines by name. `Naming` keeps the ways in which the names met so far can stand
for different lines of one drawing; a clause that mentions names narrows them to those under which
it holds (`Naming.refine`), and leaves them as they were if it holds under none.

`standardName` names the lines of a drawing by their position: `A` to `Z`, then `AA`, `AB` and so
on.
-/

namespace CurveSketch

/-! ## Names -/

/-- Tests whether a text is a name: one or more ASCII letters. -/
def isLineName (text : List Char) : Bool :=
  !text.isEmpty && text.all Char.isAlpha

/-- The name that `A` to `Z`, `AA`, `AB`, … has at position `n`, counted from one; there is none
at zero. -/
def nameAt (n : Nat) : List Char :=
  if n = 0 then [] else nameAt ((n - 1) / 26) ++ [Char.ofNat ('A'.toNat + (n - 1) % 26)]
termination_by n
decreasing_by omega

/-- The name given to the line at an index. -/
def standardName (index : Nat) : List Char :=
  nameAt (index + 1)

/-! ## Bindings -/

/-- The ways in which names can stand for lines. -/
structure Naming where
  /-- The names met so far. -/
  names : List (List Char)
  /-- The index of a line for each name, in every way that is left. -/
  bindings : List (List Nat)
deriving DecidableEq, Repr

namespace Naming

/-- No name has been met. -/
def start : Naming :=
  ⟨[], [[]]⟩

/-- The bindings with one more name, which stands for each line that no other name stands for. -/
def extend (lineCount : Nat) (bindings : List (List Nat)) : List (List Nat) :=
  bindings.flatMap fun binding =>
    ((List.range lineCount).filter (!binding.contains ·)).map fun line => binding ++ [line]

/-- The lines that names stand for in one binding. -/
def linesOf (known : List (List Char)) (binding : List Nat) (names : List (List Char)) :
    List Nat :=
  names.filterMap fun name => List.lookup name (known.zip binding)

/-- The names known once others have been mentioned. -/
def known (old names : List (List Char)) : List (List Char) :=
  names.foldl (fun known name => if known.contains name then known else known ++ [name]) old

/-- Keeps the bindings under which `holds` is true of the lines that `names` stand for, new names
standing for each unused line in turn. Says whether any were left; if none, the naming stays as it
was. -/
def refine (naming : Naming) (names : List (List Char)) (lineCount : Nat)
    (holds : List Nat → Bool) : Bool × Naming :=
  let known := known naming.names names
  let added := known.length - naming.names.length
  let candidates := (List.range added).foldl (fun bs _ => extend lineCount bs) naming.bindings
  match candidates.filter fun binding => holds (linesOf known binding names) with
  | [] => (false, naming)
  | bindings => (true, ⟨known, bindings⟩)

end Naming

end CurveSketch
