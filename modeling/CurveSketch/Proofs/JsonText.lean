import CurveSketch.Json.Reader
import CurveSketch.Proofs.JsonNumeral

/-!
# JSON text read back

The text that is written of a JSON value reads as that value (`Json.parse?_text`), if nothing in the
value is without a text of its own and the numbers in it read back. Characters of strings, escaped
or not, are read one by one; a value is read up to its last character, whatever is open around it
and whatever follows.
-/

namespace CurveSketch

/-! ## Strings -/

namespace Token

/-- What is read of a string stands for a character. -/
def Unit16.StandsFor (u : Unit16) (c : Char) : Prop :=
  u = .char c ∨ u = .code c.toNat ∧ c.toNat < 0x20

theorem hexCode?_digitChar {n : Nat} (h : n < 0x20) :
    hexCode? '0' '0' (Nat.digitChar (n / 16)) (Nat.digitChar (n % 16)) = some n := by
  have hall : ∀ n < 0x20,
      hexCode? '0' '0' (Nat.digitChar (n / 16)) (Nat.digitChar (n % 16)) = some n := by decide
  exact hall n h

/-- A character is read back from the way it is written. -/
theorem exists_readUnits?_escape (c : Char) : ∃ u : Unit16, u.StandsFor c ∧
    ∀ before rest, readUnits? before (Json.escape c ++ rest) = readUnits? (u :: before) rest := by
  unfold Json.escape
  split
  · exact ⟨.char '"', .inl rfl, fun _ _ => rfl⟩
  · exact ⟨.char '\\', .inl rfl, fun _ _ => rfl⟩
  · exact ⟨.char '\x08', .inl rfl, fun _ _ => rfl⟩
  · exact ⟨.char '\x0c', .inl rfl, fun _ _ => rfl⟩
  · exact ⟨.char '\n', .inl rfl, fun _ _ => rfl⟩
  · exact ⟨.char '\r', .inl rfl, fun _ _ => rfl⟩
  · exact ⟨.char '\t', .inl rfl, fun _ _ => rfl⟩
  · rename_i hquote hbackslash _ _ _ _ _
    split
    · rename_i hcontrol
      refine ⟨.code c.toNat, .inr ⟨rfl, hcontrol⟩, fun before rest => ?_⟩
      simp only [List.cons_append, List.nil_append, readUnits?, hexCode?_digitChar hcontrol]
    · rename_i hplain
      refine ⟨.char c, .inl rfl, fun before rest => ?_⟩
      rw [List.singleton_append, readUnits?]
      · exact if_neg (not_or.2 ⟨hplain, hbackslash⟩)
      · exact hquote
      · exact fun _ _ _ _ _ h _ => hbackslash h
      · exact fun _ _ h _ => hbackslash h

theorem joinUnits?_cons {u : Unit16} {c : Char} (h : u.StandsFor c) (before : List Char)
    (units : List Unit16) : joinUnits? before (u :: units) = joinUnits? (c :: before) units := by
  rcases h with rfl | ⟨rfl, hlt⟩
  · rw [joinUnits?]
  · have hchar : Char.ofNat c.toNat = c := Char.ofNat_toNat c
    have hhigh : ¬ (0xD800 ≤ c.toNat ∧ c.toNat < 0xDC00) := by omega
    have hlow : ¬ (0xDC00 ≤ c.toNat ∧ c.toNat < 0xE000) := by omega
    have hnone : ¬ (0xD800 ≤ c.toNat ∧ c.toNat < 0xE000) := by omega
    cases units with
    | nil => simp [joinUnits?, hnone, hchar]
    | cons v units =>
      cases v with
      | char d => simp [joinUnits?, hnone, hchar]
      | code m => rw [joinUnits?, if_neg hhigh, if_neg hlow, hchar]

theorem joinUnits?_eq_some {units : List Unit16} {cs : List Char}
    (h : List.Forall₂ Unit16.StandsFor units cs) (before : List Char) :
    joinUnits? before units = some (before.reverse ++ cs) := by
  induction h generalizing before with
  | nil => rw [joinUnits?, List.append_nil]
  | cons hu _ ih => rw [joinUnits?_cons hu, ih, List.reverse_cons, List.append_assoc]; rfl

theorem exists_readUnits?_flatMap (cs : List Char) : ∃ units : List Unit16,
    List.Forall₂ Unit16.StandsFor units cs ∧ ∀ before rest,
      readUnits? before (cs.flatMap Json.escape ++ '"' :: rest) =
        some (before.reverse ++ units, rest) := by
  induction cs with
  | nil => exact ⟨[], .nil, fun before rest => by rw [List.append_nil]; rfl⟩
  | cons c cs ih =>
    obtain ⟨u, hu, hread⟩ := exists_readUnits?_escape c
    obtain ⟨units, hunits, hrest⟩ := ih
    refine ⟨u :: units, .cons hu hunits, fun before rest => ?_⟩
    rw [List.flatMap_cons, List.append_assoc, hread, hrest, List.reverse_cons, List.append_assoc]
    rfl

theorem readString?_writeString (s : String) (rest : List Char) :
    readString? (s.toList.flatMap Json.escape ++ '"' :: rest) = some (string (some s), rest) := by
  obtain ⟨units, hunits, hread⟩ := exists_readUnits?_flatMap s.toList
  rw [readString?, hread, Option.map_some, List.reverse_nil, List.nil_append,
    joinUnits?_eq_some hunits]
  simp

/-! ## Tokens -/

theorem next?_of_not_isSpace {c : Char} (hc : isSpace c = false) (cs : List Char) :
    next? (c :: cs) = read? (c :: cs) := by
  rw [next?, List.dropWhile_cons_of_neg (by simp [hc])]

theorem next?_number {cs rest : List Char} {value : JsonNumber} (h : Numeral.Spells cs value)
    (hrest : Numeral.Ends rest) :
    next? (cs ++ rest) = some (plain (.number (some value)), rest) := by
  obtain ⟨n, hread, hvalue⟩ := h
  have hnumeral := Numeral.read?_append hrest hread
  obtain ⟨c, tail, rfl, hc⟩ := Numeral.exists_head_of_read? hread
  have hspace : isSpace c = false := by
    by_contra hspace
    simp only [isSpace, Bool.not_eq_false, Bool.or_eq_true, decide_eq_true_iff] at hspace
    rcases hspace with ((rfl | rfl) | rfl) | rfl <;> exact absurd hc (by decide)
  rw [List.cons_append] at hnumeral ⊢
  rw [next?_of_not_isSpace hspace]
  unfold read?
  split
  case h_11 =>
    rw [hnumeral, Option.map_some, hvalue]
    rfl
  all_goals
    rename_i heq
    obtain ⟨rfl, -⟩ := List.cons.inj heq
    exact absurd hc (by decide)

theorem next?_writeString (s : String) (rest : List Char) :
    next? (Json.writeString s ++ rest) = some (string (some s), rest) := by
  rw [Json.writeString, List.cons_append, List.cons_append, List.append_assoc,
    next?_of_not_isSpace (by decide)]
  exact readString?_writeString s rest

/-- There is a token in a text that is not blank. -/
theorem all_isSpace_of_next? {cs : List Char} {r : Token × List Char} (h : next? cs = some r) :
    cs.all isSpace = false := by
  by_contra hall
  rw [next?, List.dropWhile_eq_nil_iff.2 (List.all_eq_true.1 (by simpa using hall))] at h
  exact absurd h nofun

end Token

/-! ## Values -/

/-- Every number of a value has one property, and every text in it, names included, another. -/
inductive Json.Every (P : Option JsonNumber → Prop) (Q : Option String → Prop) : Json → Prop where
  | null : Every P Q null
  | bool (b : Bool) : Every P Q (bool b)
  | number {n? : Option JsonNumber} (h : P n?) : Every P Q (number n?)
  | string {s? : Option String} (h : Q s?) : Every P Q (string s?)
  | array {items : List Json} (h : ∀ v ∈ items, Every P Q v) : Every P Q (array items)
  | object {members : List (Option String × Json)} (hnames : ∀ m ∈ members, Q m.1)
    (h : ∀ m ∈ members, Every P Q m.2) : Every P Q (object members)

namespace Json

variable {P : Option JsonNumber → Prop} {Q : Option String → Prop}

theorem every_number_iff {n? : Option JsonNumber} : Every P Q (number n?) ↔ P n? :=
  ⟨fun | .number h => h, .number⟩

theorem every_string_iff {s? : Option String} : Every P Q (string s?) ↔ Q s? :=
  ⟨fun | .string h => h, .string⟩

theorem every_array_iff {items : List Json} :
    Every P Q (array items) ↔ ∀ v ∈ items, Every P Q v :=
  ⟨fun | .array h => h, .array⟩

theorem every_object_iff {members : List (Option String × Json)} :
    Every P Q (object members) ↔ (∀ m ∈ members, Q m.1) ∧ ∀ m ∈ members, Every P Q m.2 :=
  ⟨fun | .object hnames h => ⟨hnames, h⟩, fun h => .object h.1 h.2⟩

end Json

/-- Everything in a value has a text from which it is read back. -/
def Json.Legible (printFloat : Float → String) : Json → Prop :=
  Json.Every (fun n? => ∃ n, n? = some n ∧ Numeral.Spells (Json.writeNumber printFloat n) n)
    fun s? => s?.isSome = true

namespace Reading

theorem run_of_next? {cs rest : List Char} {t : Token} (h : Token.next? cs = some (t, rest))
    (reading : Reading) : reading.run cs = (reading.step t).bind (·.run rest) := by
  conv_lhs => unfold run
  rw [if_neg (by simp [Token.all_isSpace_of_next? h])]
  split
  · rename_i hnone
    exact absurd (h.symm.trans hnone) (Option.some_ne_none _)
  · rename_i t' rest' hsome
    obtain ⟨rfl, rfl⟩ := Prod.mk.inj (Option.some.inj (h.symm.trans hsome))
    cases reading.step t <;> rfl

/-- A value must come, inside what is open. -/
def Expects (reading : Reading) (around : List OpenValue) : Prop :=
  ∀ t, t ≠ .closeArray → reading.step t = stepValue around t

theorem expects_value (around : List OpenValue) : (value around).Expects around :=
  fun _ _ => rfl

theorem expects_firstItem (around : List OpenValue) :
    (firstItem around).Expects (.array [] :: around) := by
  intro t ht
  cases t with
  | closeArray => exact absurd rfl ht
  | _ => rfl

/-- The name of a member must come, after the members read. -/
def ExpectsName (reading : Reading) (members : List (Option String × Json))
    (around : List OpenValue) : Prop :=
  ∀ s?, reading.step (.string s?) = some (.colon members s? around)

variable {printFloat : Float → String}

/-- A value is read back from its text, whatever is open around it. -/
def ReadsBack (printFloat : Float → String) (v : Json) : Prop :=
  ∀ (reading : Reading) (around : List OpenValue) (rest : List Char), reading.Expects around →
    Numeral.Ends rest →
    reading.run (Json.write printFloat v ++ rest) = (complete v around).run rest

theorem run_of_step {cs rest : List Char} {t : Token} (h : Token.next? cs = some (t, rest))
    {reading reading' : Reading} (hstep : reading.step t = some reading') :
    reading.run cs = reading'.run rest := by
  rw [run_of_next? h, hstep]
  rfl

theorem run_writeItems {items : List Json} (hne : items ≠ [])
    (h : ∀ v ∈ items, ReadsBack printFloat v) {reading : Reading} {acc : List Json}
    {around : List OpenValue} (hreading : reading.Expects (.array acc :: around))
    (rest : List Char) :
    reading.run (Json.writeItems printFloat items ++ ']' :: rest) =
      (complete (.array (acc.reverse ++ items)) around).run rest := by
  induction items generalizing reading acc with
  | nil => exact absurd rfl hne
  | cons v items ih =>
    have hv := h v List.mem_cons_self
    cases items with
    | nil =>
      rw [Json.writeItems, hv _ _ _ hreading (Numeral.ends_cons (by decide) _),
        run_of_step (t := .closeArray) rfl rfl, List.reverse_cons]
    | cons w items =>
      rw [Json.writeItems, List.append_assoc, List.cons_append,
        hv _ _ _ hreading (Numeral.ends_cons (by decide) _), run_of_step (t := .comma) rfl rfl,
        ih (List.cons_ne_nil w items) (fun u hu => h u (List.mem_cons_of_mem _ hu))
          (expects_value _), List.reverse_cons, List.append_assoc]
      rfl

theorem run_writeMembers {members : List (Option String × Json)} (hne : members ≠ [])
    (hnames : ∀ m ∈ members, m.1.isSome = true) (h : ∀ m ∈ members, ReadsBack printFloat m.2)
    {reading : Reading} {acc : List (Option String × Json)} {around : List OpenValue}
    (hreading : reading.ExpectsName acc around) (rest : List Char) :
    reading.run (Json.writeMembers printFloat members ++ '\x7d' :: rest) =
      (complete (.object (acc.reverse ++ members)) around).run rest := by
  induction members generalizing reading acc with
  | nil => exact absurd rfl hne
  | cons m members ih =>
    obtain ⟨name?, v⟩ := m
    obtain ⟨name, rfl⟩ := Option.isSome_iff_exists.1 (hnames _ List.mem_cons_self)
    have hv : ReadsBack printFloat v := h _ List.mem_cons_self
    -- the name and the colon
    have hname : ∀ cs, reading.run (Json.writeString name ++ ':' :: cs) =
        (value (.object acc (some name) :: around)).run cs := fun cs => by
      rw [run_of_step (Token.next?_writeString name _) (hreading _),
        run_of_step (t := .colon) rfl rfl]
    cases members with
    | nil =>
      rw [Json.writeMembers, List.append_assoc, List.cons_append, Option.getD_some, hname,
        hv _ _ _ (expects_value _) (Numeral.ends_cons (by decide) _),
        run_of_step (t := .closeObject) rfl rfl, List.reverse_cons]
    | cons m' members =>
      rw [Json.writeMembers, List.append_assoc, List.append_assoc, List.cons_append,
        List.cons_append, Option.getD_some, hname,
        hv _ _ _ (expects_value _) (Numeral.ends_cons (by decide) _),
        run_of_step (t := .comma) rfl rfl,
        ih (List.cons_ne_nil m' members) (fun u hu => hnames u (List.mem_cons_of_mem _ hu))
          (fun u hu => h u (List.mem_cons_of_mem _ hu)) (fun _ => rfl), List.reverse_cons,
        List.append_assoc]
      rfl

/-- A value whose text is a single token is read back. -/
theorem readsBack_of_next? {v : Json} {t : Token} (hne : t ≠ .closeArray)
    (hstep : ∀ around, stepValue around t = some (complete v around))
    (hnext : ∀ rest, Numeral.Ends rest →
      Token.next? (Json.write printFloat v ++ rest) = some (t, rest)) :
    ReadsBack printFloat v := fun _ around rest hreading hrest =>
  run_of_step (hnext rest hrest) ((hreading t hne).trans (hstep around))

theorem readsBack_array {items : List Json} (h : ∀ v ∈ items, ReadsBack printFloat v) :
    ReadsBack printFloat (.array items) := by
  intro reading around rest hreading _
  rw [Json.write, List.append_assoc, List.cons_append, List.singleton_append,
    run_of_step (t := .openArray) rfl (hreading _ nofun)]
  cases items with
  | nil => exact run_of_step (t := .closeArray) rfl rfl
  | cons v items =>
    exact run_writeItems (List.cons_ne_nil v items) h (expects_firstItem around) rest

theorem readsBack_object {members : List (Option String × Json)}
    (hnames : ∀ m ∈ members, m.1.isSome = true) (h : ∀ m ∈ members, ReadsBack printFloat m.2) :
    ReadsBack printFloat (.object members) := by
  intro reading around rest hreading _
  rw [Json.write, List.append_assoc, List.cons_append, List.singleton_append,
    run_of_step (t := .openObject) rfl (hreading _ nofun)]
  cases members with
  | nil => exact run_of_step (t := .closeObject) rfl rfl
  | cons m members =>
    have hfirst : (firstName around).ExpectsName [] around := fun _ => rfl
    exact run_writeMembers (List.cons_ne_nil m members) hnames h hfirst rest

/-- A value with nothing illegible in it is read back from its text. -/
theorem readsBack_of_legible {v : Json} (h : v.Legible printFloat) : ReadsBack printFloat v := by
  induction h with
  | null => exact readsBack_of_next? (t := .plain .null) nofun (fun _ => rfl) fun _ _ => rfl
  | bool b =>
    refine readsBack_of_next? (t := .plain (.bool b)) nofun (fun _ => rfl) fun _ _ => ?_
    cases b <;> rfl
  | number h =>
    obtain ⟨n, rfl, hspells⟩ := h
    exact readsBack_of_next? (t := .plain (.number (some n))) nofun (fun _ => rfl) fun _ =>
      Token.next?_number hspells
  | string h =>
    obtain ⟨s, rfl⟩ := Option.isSome_iff_exists.1 h
    exact readsBack_of_next? (t := .string (some s)) nofun (fun _ => rfl) fun rest _ =>
      Token.next?_writeString s rest
  | array _ ih => exact readsBack_array ih
  | object hnames _ ih => exact readsBack_object hnames ih

end Reading

/-- The text of a value reads as the value, if nothing in it is illegible. -/
theorem Json.parse?_text {printFloat : Float → String} {v : Json} (h : v.Legible printFloat) :
    Json.parse? (v.text printFloat) = some v := by
  have hrun := Reading.readsBack_of_legible h (.value []) [] [] (Reading.expects_value [])
    Numeral.ends_nil
  rw [List.append_nil] at hrun
  rw [parse?, text, String.toList_ofList, hrun]
  unfold Reading.run
  rfl

end CurveSketch
