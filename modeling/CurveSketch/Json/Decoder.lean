import CurveSketch.Json

/-!
# Decoding JSON values

How the values of a program are found in a JSON value. A record is an object that has its fields
as members, each at most once, among others that do not matter; or else an array of its fields in
order. A field that may be absent may also be `null`. Free content is kept as it is, but of members
with the same name only the last counts, the members are put in the order of their names, and it
must not be nested too deeply.
-/

namespace CurveSketch.Json

/-! ## Plain values -/

/-- A double; whole numbers are taken as doubles too. -/
def float? : Json → Option Float
  | number (some (.int n)) => some (Float.ofInt n)
  | number (some (.float x)) => some x
  | _ => none

/-- A whole number of 64 bits with a sign. -/
def int? : Json → Option Int
  | number (some (.int n)) =>
    if -0x8000000000000000 ≤ n ∧ n < 0x8000000000000000 then some n else none
  | _ => none

/-- A whole number of 64 bits without a sign. -/
def nat? : Json → Option Nat
  | number (some (.int n)) => if 0 ≤ n ∧ n < 0x10000000000000000 then some n.toNat else none
  | _ => none

/-- A truth value. -/
def bool? : Json → Option Bool
  | bool b => some b
  | _ => none

/-- A text. -/
def text? : Json → Option String
  | string s => s
  | _ => none

/-- A list of values. -/
def list? {α : Type} (item? : Json → Option α) : Json → Option (List α)
  | array items => items.mapM item?
  | _ => none

/-! ## Records -/

/-- The fields of a record with the names given, each if it is there. In an object every name must
be a proper text and no field may occur twice; in an array the fields come first to last. -/
def fields? (names : List String) : Json → Option (String → Option Json)
  | object members => do
    let members ← members.mapM fun m => m.1.map (·, m.2)
    let known := members.filter fun m => names.contains m.1
    if (known.map (·.1)).Nodup then return fun name => List.lookup name known else none
  | array items =>
    if items.length ≤ names.length then
      some fun name => List.lookup name (names.zip items)
    else none
  | _ => none

/-- A field that has to be there. -/
def required {α : Type} (decode? : Json → Option α) : Option Json → Option α
  | some v => decode? v
  | none => none

/-- A field with a value of its own where it is left out. -/
def defaulted {α : Type} (value : α) (decode? : Json → Option α) : Option Json → Option α
  | some v => decode? v
  | none => some value

/-- A field that may be left out or be `null`. -/
def optional {α : Type} (decode? : Json → Option α) : Option Json → Option (Option α)
  | some null => some none
  | some v => (decode? v).map some
  | none => some none

/-! ## Free content -/

/-- Of members with the same name only the last. -/
def lastOfEach : List (Option String × Json) → List (Option String × Json)
  | [] => []
  | m :: rest => if rest.any (·.1 == m.1) then lastOfEach rest else m :: lastOfEach rest

/-- Members in the order of their names. -/
def inNameOrder (members : List (Option String × Json)) : List (Option String × Json) :=
  members.mergeSort fun a b => decide (a.1.getD "" ≤ b.1.getD "")

mutual

/-- The content of a value, nested no deeper than `depth`. -/
def content? (depth : Nat) : Json → Option Json
  | number none => none
  | string none => none
  | array items => if depth = 0 then none else (contentItems? (depth - 1) items).map array
  | object members =>
    if depth = 0 then none
    else (contentMembers? (depth - 1) members).map fun ms => object (inNameOrder (lastOfEach ms))
  | v => some v

/-- The content of the items of an array. -/
def contentItems? (depth : Nat) : List Json → Option (List Json)
  | [] => some []
  | v :: rest => do
    let v ← content? depth v
    let rest ← contentItems? depth rest
    return v :: rest

/-- The content of the members of an object. -/
def contentMembers? (depth : Nat) :
    List (Option String × Json) → Option (List (Option String × Json))
  | [] => some []
  | (none, _) :: _ => none
  | (some name, v) :: rest => do
    let v ← content? depth v
    let rest ← contentMembers? depth rest
    return (some name, v) :: rest

end

/-! ## Encoding records -/

/-- A member of an object. -/
def member (name : String) (v : Json) : List (Option String × Json) :=
  [(some name, v)]

/-- A member of an object that is left out if it has no value. -/
def member? (name : String) (v : Option Json) : List (Option String × Json) :=
  (v.map fun v => (some name, v)).toList

end CurveSketch.Json
