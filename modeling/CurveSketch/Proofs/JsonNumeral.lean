import CurveSketch.Json.Numeral
import CurveSketch.Json.Writer
import CurveSketch.Proofs.Text

/-!
# Numbers read back

A number that is a whole text of its own is read in the same way where the text goes on with
something else (`Numeral.read?_append`). The digits of a whole number of 64 bits read back as that
number (`Numeral.spells_writeInt`).
-/

namespace CurveSketch

namespace Numeral

/-! ## A number inside a text -/

/-- Text that does not go on with a number. -/
def Ends (rest : List Char) : Prop :=
  ∀ c ∈ rest.head?, c.isDigit = false ∧ c ≠ '.' ∧ c ≠ 'e' ∧ c ≠ 'E'

theorem ends_nil : Ends [] :=
  nofun

theorem ends_cons {c : Char} (h : c.isDigit = false ∧ c ≠ '.' ∧ c ≠ 'e' ∧ c ≠ 'E')
    (rest : List Char) : Ends (c :: rest) := by
  rintro d ⟨⟩
  exact h

variable {rest : List Char}

theorem takeWhile_isDigit_append (h : Ends rest) (cs : List Char) :
    (cs ++ rest).takeWhile Char.isDigit = cs.takeWhile Char.isDigit ∧
      (cs ++ rest).dropWhile Char.isDigit = cs.dropWhile Char.isDigit ++ rest := by
  induction cs with
  | nil =>
    cases rest with
    | nil => exact ⟨rfl, rfl⟩
    | cons c rest =>
      have hc := (h c rfl).1
      exact ⟨List.takeWhile_cons_of_neg (by simp [hc]), List.dropWhile_cons_of_neg (by simp [hc])⟩
  | cons c cs ih =>
    by_cases hc : c.isDigit = true
    · simp [hc, ih]
    · simp [hc]

theorem readDigits?_append (h : Ends rest) {cs : List Char} {d r : List Char}
    (hcs : readDigits? cs = some (d, r)) : readDigits? (cs ++ rest) = some (d, r ++ rest) := by
  obtain ⟨htake, hdrop⟩ := takeWhile_isDigit_append h cs
  unfold readDigits? at hcs ⊢
  rw [htake, hdrop]
  split at hcs
  · exact absurd hcs nofun
  · obtain ⟨rfl, rfl⟩ := Prod.mk.inj (Option.some.inj hcs)
    rfl

theorem readWhole?_append (h : Ends rest) {cs : List Char} {d r : List Char}
    (hcs : readWhole? cs = some (d, r)) : readWhole? (cs ++ rest) = some (d, r ++ rest) := by
  unfold readWhole? at hcs ⊢
  split at hcs
  · exact absurd hcs nofun
  · rename_i hleading
    rw [readDigits?_append h hcs]
    split
    · rename_i c tail r' heq
      obtain ⟨rfl, rfl⟩ := Prod.mk.inj (Option.some.inj heq)
      exact absurd hcs (hleading _ _ _)
    · rfl

theorem readFraction?_append (h : Ends rest) {cs : List Char} {d r : List Char}
    (hcs : readFraction? cs = some (d, r)) :
    readFraction? (cs ++ rest) = some (d, r ++ rest) := by
  unfold readFraction? at hcs
  split at hcs
  · exact readDigits?_append h hcs
  · rename_i hpoint
    obtain ⟨rfl, rfl⟩ := Prod.mk.inj (Option.some.inj hcs)
    unfold readFraction?
    split
    · rename_i tail heq
      cases cs with
      | nil => exact absurd rfl (h '.' (by rw [← List.nil_append rest, heq]; rfl)).2.1
      | cons c cs => exact absurd (by rw [(List.cons.inj heq).1]) (hpoint cs)
    · rfl

theorem readSign_append {cs : List Char} (hcs : cs ≠ []) (rest : List Char) :
    readSign (cs ++ rest) = ((readSign cs).1, (readSign cs).2 ++ rest) := by
  obtain ⟨c, tail, rfl⟩ := List.exists_cons_of_ne_nil hcs
  rw [List.cons_append]
  by_cases hminus : c = '-'
  · subst hminus
    rfl
  by_cases hplus : c = '+'
  · subst hplus
    rfl
  simp [readSign, hminus, hplus]

theorem readExponent?_append (h : Ends rest) {cs : List Char} {e : Option (Bool × List Char)}
    {r : List Char} (hcs : readExponent? cs = some (e, r)) :
    readExponent? (cs ++ rest) = some (e, r ++ rest) := by
  -- the same digits follow the mark of an exponent
  have hmarked : ∀ {tail : List Char},
      ((readDigits? (readSign tail).2).map fun d => (some ((readSign tail).1, d.1), d.2)) =
        some (e, r) →
      ((readDigits? (readSign (tail ++ rest)).2).map fun d =>
        (some ((readSign (tail ++ rest)).1, d.1), d.2)) = some (e, r ++ rest) := by
    intro tail htail
    obtain ⟨⟨digits, r'⟩, hdigits, heq⟩ := Option.map_eq_some_iff.1 htail
    obtain ⟨rfl, rfl⟩ := Prod.mk.inj heq
    have hne : tail ≠ [] := by
      rintro rfl
      exact absurd hdigits nofun
    rw [readSign_append hne, readDigits?_append h hdigits]
    rfl
  unfold readExponent? at hcs
  split at hcs
  · exact hmarked hcs
  · exact hmarked hcs
  · rename_i he hE
    obtain ⟨rfl, rfl⟩ := Prod.mk.inj (Option.some.inj hcs)
    cases cs with
    | cons c cs =>
      have hc : c ≠ 'e' := fun hc => he cs (by rw [hc])
      have hc' : c ≠ 'E' := fun hc => hE cs (by rw [hc])
      simp [readExponent?, hc, hc']
    | nil =>
      cases rest with
      | nil => rfl
      | cons c rest =>
        obtain ⟨-, -, hc, hc'⟩ := h c rfl
        simp [readExponent?, hc, hc']

theorem readUnsigned?_append (h : Ends rest) {negative : Bool} {cs : List Char} {n : Numeral}
    {r : List Char} (hcs : readUnsigned? negative cs = some (n, r)) :
    readUnsigned? negative (cs ++ rest) = some (n, r ++ rest) := by
  simp only [readUnsigned?, Option.bind_eq_bind, Option.bind_eq_some_iff] at hcs
  obtain ⟨⟨whole, r₁⟩, hwhole, ⟨fraction, r₂⟩, hfraction, ⟨exponent?, r₃⟩, hexponent, heq⟩ := hcs
  obtain ⟨rfl, rfl⟩ := Prod.mk.inj (Option.some.inj heq)
  simp [readUnsigned?, readWhole?_append h hwhole, readFraction?_append h hfraction,
    readExponent?_append h hexponent]

/-- A number starts with a minus sign or a digit. -/
theorem exists_head_of_read? {cs : List Char} {r : Numeral × List Char} (h : read? cs = some r) :
    ∃ c tail, cs = c :: tail ∧ (c = '-' ∨ c.isDigit = true) := by
  unfold read? at h
  split at h
  · exact ⟨'-', _, rfl, .inl rfl⟩
  · simp only [readUnsigned?, Option.bind_eq_bind, Option.bind_eq_some_iff] at h
    obtain ⟨⟨whole, r'⟩, hwhole, -⟩ := h
    have hdigits : readDigits? cs = some (whole, r') := by
      unfold readWhole? at hwhole
      split at hwhole
      · cases hwhole
      · exact hwhole
    cases cs with
    | nil => cases hdigits
    | cons c tail =>
      refine ⟨c, tail, rfl, .inr ?_⟩
      by_contra hc
      rw [readDigits?, List.takeWhile_cons_of_neg hc] at hdigits
      cases hdigits

/-- Without a minus sign a number is read as it is. -/
theorem read?_of_head?_ne {cs : List Char} (h : cs.head? ≠ some '-') :
    read? cs = readUnsigned? false cs := by
  unfold read?
  split
  · exact absurd rfl h
  · rfl

/-- A number is read in the same way where the text goes on with something else. -/
theorem read?_append (h : Ends rest) {cs : List Char} {n : Numeral} {r : List Char}
    (hcs : read? cs = some (n, r)) : read? (cs ++ rest) = some (n, r ++ rest) := by
  cases cs with
  | nil => exact absurd hcs nofun
  | cons c cs =>
    by_cases hminus : c = '-'
    · subst hminus
      exact readUnsigned?_append h hcs
    · have hhead : ∀ tail : List Char, (c :: tail).head? ≠ some '-' := fun _ heq =>
        hminus (Option.some.inj heq)
      rw [read?_of_head?_ne (hhead _)] at hcs
      rw [List.cons_append, read?_of_head?_ne (hhead _)]
      exact readUnsigned?_append h hcs

/-! ## Whole numbers -/

/-- A text is a number, with a value. -/
def Spells (cs : List Char) (value : JsonNumber) : Prop :=
  ∃ n, read? cs = some (n, []) ∧ n.value? = some value

theorem readDigits?_toDigits (m : Nat) :
    readDigits? (Nat.toDigits 10 m) = some (Nat.toDigits 10 m, []) := by
  have hdigits : ∀ c ∈ Nat.toDigits 10 m, c.isDigit = true := fun c hc =>
    Nat.isDigit_of_mem_toDigits (by decide) (by decide) hc
  unfold readDigits?
  rw [List.takeWhile_eq_self_iff.2 hdigits, List.dropWhile_eq_nil_iff.2 hdigits]
  split
  · rename_i hnil
    exact absurd hnil Nat.toDigits_ne_nil
  · rfl

theorem head?_toDigits_ne_zero {m : Nat} (hm : 0 < m) : (Nat.toDigits 10 m).head? ≠ some '0' := by
  induction m using Nat.strongRecOn with
  | ind m ih =>
    rw [Nat.toDigits_eq_if (by decide)]
    split
    · have hdigit : ∀ d < 10, 0 < d → Nat.digitChar d ≠ '0' := by decide
      exact fun h => hdigit m ‹_› hm (Option.some.inj h)
    · rw [List.head?_append_of_ne_nil _ Nat.toDigits_ne_nil]
      exact ih (m / 10) (by omega) (by omega)

/-- The digits of a number start with a zero only if it is the only one. -/
theorem readWhole?_toDigits (m : Nat) :
    readWhole? (Nat.toDigits 10 m) = some (Nat.toDigits 10 m, []) := by
  unfold readWhole?
  rw [readDigits?_toDigits]
  split
  · rename_i c cs r heq
    have hdigits := (Prod.mk.inj (Option.some.inj heq)).1
    rcases Nat.eq_zero_or_pos m with rfl | hm
    · exact absurd (congrArg List.length hdigits) nofun
    · exact absurd (congrArg List.head? hdigits) (head?_toDigits_ne_zero hm)
  · rfl

/-- Digits whose value fits in 64 bits are all taken. -/
theorem accumulate_eq {cs : List Char} {s : Nat}
    (h : Nat.ofDigitChars 10 cs s < 0x10000000000000000) :
    accumulate s cs = (Nat.ofDigitChars 10 cs s, 0) := by
  induction cs generalizing s with
  | nil => rfl
  | cons c cs ih =>
    rw [Nat.ofDigitChars_cons, Nat.mul_comm] at h ⊢
    exact (if_pos ((Text.le_ofDigitChars cs _).trans_lt h)).trans (ih h)

theorem readUnsigned?_toDigits (negative : Bool) (m : Nat) :
    readUnsigned? negative (Nat.toDigits 10 m) =
      some (⟨negative, Nat.toDigits 10 m, [], none⟩, []) := by
  simp [readUnsigned?, readWhole?_toDigits, readFraction?, readExponent?]

theorem value?_toDigits {m : Nat} (hm : m < 0x10000000000000000) (negative : Bool) :
    value? ⟨negative, Nat.toDigits 10 m, [], none⟩ =
      if negative then
        if 0 < m ∧ m ≤ 0x8000000000000000 then some (.int (-(m : Int)))
        else some (.float (-Float.ofNat m))
      else some (.int m) := by
  have hvalue : Nat.ofDigitChars 10 (Nat.toDigits 10 m) 0 = m := Nat.ofDigitChars_ten_toDigits
  have hall : accumulate 0 (Nat.toDigits 10 m) = (m, 0) := by
    rw [accumulate_eq (by rwa [hvalue]), hvalue]
  simp only [value?, hall]

/-- A whole number of 64 bits is read back from its text. -/
theorem spells_writeInt {n : Int} (hlow : -0x8000000000000000 ≤ n)
    (hhigh : n < 0x10000000000000000) : Spells (Json.writeInt n) (.int n) := by
  unfold Json.writeInt
  split
  · refine ⟨⟨true, Nat.toDigits 10 n.natAbs, [], none⟩, readUnsigned?_toDigits true _, ?_⟩
    rw [value?_toDigits (by omega), if_pos rfl, if_pos ⟨by omega, by omega⟩]
    exact congrArg (fun k => some (JsonNumber.int k)) (by omega)
  · refine ⟨⟨false, Nat.toDigits 10 n.natAbs, [], none⟩, ?_, ?_⟩
    · rw [read?_of_head?_ne fun hhead => ?_, readUnsigned?_toDigits]
      exact absurd (Nat.isDigit_of_mem_toDigits (by decide) (by decide)
        (List.mem_of_mem_head? hhead)) (by decide)
    · rw [value?_toDigits (by omega), if_neg (by decide)]
      exact congrArg (fun k => some (JsonNumber.int k)) (by omega)

end Numeral

end CurveSketch
