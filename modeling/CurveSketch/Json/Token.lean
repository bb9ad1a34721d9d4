import CurveSketch.Json.Numeral

/-!
# Tokens of JSON text

JSON text is a sequence of marks, plain values and strings, with blanks between them.
`Token.next?` takes the first one off a text; what is left is always shorter
(`Token.length_lt_of_next?`).
-/

namespace CurveSketch

/-- A mark, a plain value or a string in JSON text. -/
inductive Token where
  | openArray
  | closeArray
  | openObject
  | closeObject
  | comma
  | colon
  /-- A number, a truth value or `null`. -/
  | plain (value : Json)
  /-- A string, unless it has half of a surrogate pair. -/
  | string (text? : Option String)

namespace Token

/-- Tests whether a character may stand between tokens. -/
def isSpace (c : Char) : Bool :=
  c = ' ' || c = '\t' || c = '\n' || c = '\r'

/-! ## Strings -/

/-- A character of a string, or the code that stands for one or for half of one. -/
inductive Unit16 where
  | char (c : Char)
  | code (n : Nat)

/-- The value of a hexadecimal digit. -/
def hexDigit? (c : Char) : Option Nat :=
  if c.isDigit then some (c.toNat - '0'.toNat)
  else if 'a' ≤ c ∧ c ≤ 'f' then some (c.toNat - 'a'.toNat + 10)
  else if 'A' ≤ c ∧ c ≤ 'F' then some (c.toNat - 'A'.toNat + 10)
  else none

/-- The value of four hexadecimal digits. -/
def hexCode? (a b c d : Char) : Option Nat := do
  return (((← hexDigit? a) * 16 + (← hexDigit? b)) * 16 + (← hexDigit? c)) * 16 + (← hexDigit? d)

/-- The character that a letter after a backslash stands for. -/
def escaped? : Char → Option Char
  | '"' => some '"'
  | '\\' => some '\\'
  | '/' => some '/'
  | 'b' => some '\x08'
  | 'f' => some '\x0c'
  | 'n' => some '\n'
  | 'r' => some '\r'
  | 't' => some '\t'
  | _ => none

/-- Reads the rest of a string up to its closing quote; `before` is what has been read, the last
character first. -/
def readUnits? (before : List Unit16) : List Char → Option (List Unit16 × List Char)
  | '"' :: rest => some (before.reverse, rest)
  | '\\' :: 'u' :: a :: b :: c :: d :: rest =>
    match hexCode? a b c d with
    | none => none
    | some n => readUnits? (.code n :: before) rest
  | '\\' :: e :: rest =>
    match escaped? e with
    | none => none
    | some c => readUnits? (.char c :: before) rest
  | c :: rest =>
    if c.toNat < 0x20 ∨ c = '\\' then none else readUnits? (.char c :: before) rest
  | [] => none

/-- Reading the rest of a string takes at least its closing quote. -/
theorem length_lt_of_readUnits? {before : List Unit16} {cs : List Char}
    {r : List Unit16 × List Char} (h : readUnits? before cs = some r) :
    r.2.length < cs.length := by
  fun_induction readUnits? before cs with
  | case1 before rest =>
    obtain rfl := Option.some.inj h
    exact Nat.lt_succ_self _
  | case2 => simp at h
  | case3 before a b c d rest n hn ih =>
    have := ih h
    simp only [List.length_cons]
    omega
  | case4 => simp at h
  | case5 before e rest hne c hc ih =>
    have := ih h
    simp only [List.length_cons]
    omega
  | case6 => simp at h
  | case7 before c rest _ _ _ hc ih =>
    have := ih h
    simp only [List.length_cons]
    omega
  | case8 => simp at h

/-- The characters of a string, a pair of surrogate codes being one; none if a code stands alone. -/
def joinUnits? (before : List Char) : List Unit16 → Option (List Char)
  | [] => some before.reverse
  | .char c :: rest => joinUnits? (c :: before) rest
  | .code n :: .code m :: rest =>
    if 0xD800 ≤ n ∧ n < 0xDC00 then
      if 0xDC00 ≤ m ∧ m < 0xE000 then
        joinUnits? (Char.ofNat (0x10000 + (n - 0xD800) * 0x400 + (m - 0xDC00)) :: before) rest
      else none
    else if 0xDC00 ≤ n ∧ n < 0xE000 then none
    else joinUnits? (Char.ofNat n :: before) (.code m :: rest)
  | .code n :: rest =>
    if 0xD800 ≤ n ∧ n < 0xE000 then none else joinUnits? (Char.ofNat n :: before) rest

/-- Reads a string after its opening quote. -/
def readString? (cs : List Char) : Option (Token × List Char) :=
  (readUnits? [] cs).map fun r => (string ((joinUnits? [] r.1).map String.ofList), r.2)

/-! ## The next token -/

/-- Reads a token that starts at the first character of a text. -/
def read? : List Char → Option (Token × List Char)
  | '[' :: rest => some (openArray, rest)
  | ']' :: rest => some (closeArray, rest)
  | '\x7b' :: rest => some (openObject, rest)
  | '\x7d' :: rest => some (closeObject, rest)
  | ',' :: rest => some (comma, rest)
  | ':' :: rest => some (colon, rest)
  | '"' :: rest => readString? rest
  | 'n' :: 'u' :: 'l' :: 'l' :: rest => some (plain .null, rest)
  | 't' :: 'r' :: 'u' :: 'e' :: rest => some (plain (.bool true), rest)
  | 'f' :: 'a' :: 'l' :: 's' :: 'e' :: rest => some (plain (.bool false), rest)
  | cs => (Numeral.read? cs).map fun r => (plain (.number r.1.value?), r.2)

/-- Reading a token takes some of the text. -/
theorem length_lt_of_read? {cs : List Char} {r : Token × List Char} (h : read? cs = some r) :
    r.2.length < cs.length := by
  unfold read? at h
  split at h
  case h_7 =>
    obtain ⟨u, hu, rfl⟩ := Option.map_eq_some_iff.mp h
    exact Nat.lt_succ_of_lt (length_lt_of_readUnits? hu)
  case h_11 =>
    obtain ⟨n, hn, rfl⟩ := Option.map_eq_some_iff.mp h
    exact Numeral.length_lt_of_read? hn
  all_goals
    obtain rfl := Option.some.inj h
    simp only [List.length_cons]
    omega

/-- Reads the first token after the blanks that a text starts with. -/
def next? (cs : List Char) : Option (Token × List Char) :=
  read? (cs.dropWhile isSpace)

/-- Taking the first token off a text leaves a shorter one. -/
theorem length_lt_of_next? {cs : List Char} {r : Token × List Char} (h : next? cs = some r) :
    r.2.length < cs.length :=
  Nat.lt_of_lt_of_le (length_lt_of_read? h) (List.dropWhile_sublist _).length_le

end Token

end CurveSketch
