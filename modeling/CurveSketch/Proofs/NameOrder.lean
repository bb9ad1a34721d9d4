import CurveSketch.Proofs.Describe
import CurveSketch.Proofs.RoundTrip

/-!
# The order of the standard names

The standard names are the words of capital letters, the shorter ones first and those of one length
in alphabetical order. As numerals go they have no digit for zero, so that a word with leading
letters `A` is a numeral of its own and every word is the name of one line.

`standardName_enumerates` says that the first lines are named by the first words, in their order,
that the names can be read where a specification has names, and that so a name in a description of a
drawing is the name of the line described.
-/

namespace CurveSketch

/-! ## Words of capitals -/

/-- A text of one or more capital letters. -/
structure CapitalWord (word : List Char) : Prop where
  ne_nil : word ≠ []
  capital : ∀ c ∈ word, 'A' ≤ c ∧ c ≤ 'Z'

theorem capital_letter {k : Nat} (h : k < 26) : 'A' ≤ letter k ∧ letter k ≤ 'Z' := by
  have : ∀ k < 26, 'A' ≤ letter k ∧ letter k ≤ 'Z' := by decide
  exact this k h

theorem letter_lt_letter {k k' : Nat} (hk : k < k') (hk' : k' < 26) : letter k < letter k' := by
  have : ∀ k' < 26, ∀ k < k', letter k < letter k' := by decide
  exact this k' hk' k hk

theorem exists_letter {c : Char} (h : 'A' ≤ c ∧ c ≤ 'Z') : ∃ k < 26, letter k = c := by
  have hlow : 65 ≤ c.toNat := h.1
  have hhigh : c.toNat ≤ 90 := h.2
  refine ⟨c.toNat - 65, by omega, ?_⟩
  have heq : 'A'.toNat + (c.toNat - 65) = c.toNat := by
    change 65 + (c.toNat - 65) = c.toNat
    omega
  rw [letter, heq, Char.ofNat_toNat]

theorem capitalWord_standardName (i : Nat) : CapitalWord (standardName i) := by
  refine ⟨?_, fun c hc => ?_⟩
  · rw [standardName, nameAt_succ]
    simp
  · obtain ⟨k, hk, rfl⟩ := exists_letter_of_mem_nameAt hc
    exact capital_letter hk

/-- A text of capital letters is the name at some position: one more letter is one more digit. -/
theorem exists_nameAt {word : List Char} (h : ∀ c ∈ word, 'A' ≤ c ∧ c ≤ 'Z') :
    ∃ n, nameAt n = word := by
  induction word using List.reverseRecOn with
  | nil => exact ⟨0, nameAt_zero⟩
  | append_singleton word c ih =>
    obtain ⟨n, rfl⟩ := ih fun c hc => h c (List.mem_append_left _ hc)
    obtain ⟨k, hk, rfl⟩ := exists_letter (h c (List.mem_append_right _ (List.mem_singleton_self c)))
    refine ⟨26 * n + k + 1, ?_⟩
    have hrest : (26 * n + k) / 26 = n := by omega
    have hdigit : (26 * n + k) % 26 = k := by omega
    rw [nameAt_succ, hrest, hdigit]

theorem CapitalWord.exists_standardName {word : List Char} (h : CapitalWord word) :
    ∃ i, standardName i = word := by
  obtain ⟨n, hn⟩ := exists_nameAt h.capital
  cases n with
  | zero => exact absurd (hn.symm.trans nameAt_zero) h.ne_nil
  | succ i => exact ⟨i, hn⟩

/-! ## Shorter words first, then the alphabet -/

/-- The order of words : by length, and alphabetical among words of one length. -/
abbrev Before (word word' : List Char) : Prop :=
  List.Shortlex (· < ·) word word'

theorem lex_append_of_length_eq {α : Type} {r : α → α → Prop} {l l' : List α}
    (h : List.Lex r l l') (hlength : l.length = l'.length) (m m' : List α) :
    List.Lex r (l ++ m) (l' ++ m') := by
  induction h with
  | nil => exact absurd hlength (by simp)
  | cons _ ih => exact .cons (ih (by simpa using hlength))
  | rel h => exact .rel h

/-- One more letter does not change the order of two words. -/
theorem before_append_singleton {word word' : List Char} (h : Before word word') (c c' : Char) :
    Before (word ++ [c]) (word' ++ [c']) := by
  rw [Before, List.shortlex_def] at h ⊢
  rcases h with h | ⟨hlength, hlex⟩
  · exact .inl (by simpa using h)
  · exact .inr ⟨by simpa using hlength, lex_append_of_length_eq hlex hlength _ _⟩

theorem before_append_of_lt (word : List Char) {c c' : Char} (h : c < c') :
    Before (word ++ [c]) (word ++ [c']) :=
  .of_lex (by simp) (List.Lex.append_left _ (.rel h) word)

/-- Later positions have later names: a digit more or a greater one, at the first place where they
differ. -/
theorem before_nameAt_of_lt {m n : Nat} (h : m < n) : Before (nameAt m) (nameAt n) := by
  induction n using Nat.strongRecOn generalizing m with
  | ind n ih =>
    obtain ⟨n, rfl⟩ := Nat.exists_eq_succ_of_ne_zero (Nat.ne_zero_of_lt h)
    rw [Nat.succ_eq_add_one, nameAt_succ]
    cases m with
    | zero =>
      rw [nameAt_zero]
      exact .of_length_lt (by simp)
    | succ m =>
      rw [nameAt_succ]
      rcases (Nat.div_le_div_right (by omega) : m / 26 ≤ n / 26).eq_or_lt with heq | hlt
      · rw [heq]
        exact before_append_of_lt _ (letter_lt_letter (by omega) (Nat.mod_lt n (by decide)))
      · exact before_append_singleton (ih (n / 26) (by omega) hlt) _ _

theorem before_standardName_iff {i j : Nat} :
    Before (standardName i) (standardName j) ↔ i < j := by
  refine ⟨fun h => ?_, fun h => before_nameAt_of_lt (Nat.succ_lt_succ h)⟩
  rcases Nat.lt_trichotomy i j with hlt | rfl | hgt
  · exact hlt
  · exact absurd h (Std.Asymm.asymm _ _ h)
  · exact absurd h (Std.Asymm.asymm _ _ (before_nameAt_of_lt (Nat.succ_lt_succ hgt)))

/-- The words that come before the name of a line are the names of the lines before it. -/
theorem setOf_before_standardName (i : Nat) :
    {word | CapitalWord word ∧ Before word (standardName i)} = standardName '' Set.Iio i := by
  ext word
  constructor
  · rintro ⟨hword, hbefore⟩
    obtain ⟨j, rfl⟩ := hword.exists_standardName
    exact ⟨j, before_standardName_iff.1 hbefore, rfl⟩
  · rintro ⟨j, hj, rfl⟩
    exact ⟨capitalWord_standardName j, before_standardName_iff.2 hj⟩

theorem encard_before_standardName (i : Nat) :
    {word | CapitalWord word ∧ Before word (standardName i)}.encard = i := by
  have hinj : Function.Injective standardName := fun _ _ => standardName_injective
  rw [setOf_before_standardName, hinj.encard_image, ← Finset.coe_Iio,
    Set.encard_coe_eq_coe_finsetCard, Nat.card_Iio]

/-- The first names are the first words. -/
theorem exists_lt_standardName_iff {n : Nat} {word : List Char} :
    (∃ i < n, standardName i = word) ↔
      CapitalWord word ∧ {w | CapitalWord w ∧ Before w word}.encard < n := by
  constructor
  · rintro ⟨i, hi, rfl⟩
    rw [encard_before_standardName]
    exact ⟨capitalWord_standardName i, by exact_mod_cast hi⟩
  · rintro ⟨hword, hfew⟩
    obtain ⟨i, rfl⟩ := hword.exists_standardName
    rw [encard_before_standardName] at hfew
    exact ⟨i, by exact_mod_cast hfew, rfl⟩

/-! ## Names in a specification -/

variable {K : Type} [Scalar K]

/-- The standard names of lines are in the order of the lines, and the names of the first `n` lines
are the first `n` words of capital letters. Each can be read as the name that a line is selected by,
and with any other name as that of one of two lines that cross. In a description of a drawing, a
line that is selected by the standard name of an index is the line with this index, and so are the
two lines that are said to cross. -/
theorem standardName_enumerates (context : Context K) (d : Drawing K) :
    (∀ i j, Before (standardName i) (standardName j) ↔ i < j) ∧
      (∀ n word, (∃ i < n, standardName i = word) ↔
        CapitalWord word ∧ {w | CapitalWord w ∧ Before w word}.encard < n) ∧
      (∀ i text rest, ';' ∉ text → Text.trim text = standardName i →
        Selector.readNamed (text ++ ';' :: rest) = .ok (.named (standardName i), rest)) ∧
      (∀ i name sectors, isLineName name = true → name ≠ standardName i →
        ∀ m ∈ [Meeting.mk (standardName i) name sectors, ⟨name, standardName i, sectors⟩],
          Meeting.read (' ' :: m.data) = .ok m) ∧
      (∀ i l, (.named (standardName i), l) ∈ Selector.forDrawing d → d.lines[i]? = some l) ∧
      ∀ i j sectors, ⟨standardName i, standardName j, sectors⟩ ∈ Meeting.describeAll context d →
        ∃ a b, d.lines[i]? = some a ∧ d.lines[j]? = some b ∧ a.crossings b ≠ [] := by
  refine ⟨fun i j => before_standardName_iff, fun n word => exists_lt_standardName_iff,
    fun i text rest hcut htrim =>
      Selector.readNamed_of_trim (isLineName_standardName i) hcut htrim rest,
    fun i name sectors hname hne => ?_, fun i l h => ?_, fun i j sectors h => ?_⟩
  · have hline := isLineName_standardName i
    exact List.forall_mem_cons.2 ⟨Meeting.Legible.read_data ⟨hline, hname, hne.symm⟩,
      List.forall_mem_singleton.2 (Meeting.Legible.read_data ⟨hname, hline, hne⟩)⟩
  · rcases Selector.mem_forDrawing h with ⟨hany, -⟩ | ⟨k, hk, hnth | hnamed⟩
    · exact absurd hany nofun
    · exact absurd hnth nofun
    · rwa [standardName_injective (Selector.named.inj hnamed)]
  · obtain ⟨i', j', a, b, -, ha, hb, hne, heq⟩ := Meeting.exists_of_mem_describeAll h
    obtain ⟨hi, hj, -⟩ := Meeting.mk.inj heq
    rw [standardName_injective hi, standardName_injective hj]
    exact ⟨a, b, ha, hb, hne⟩

end CurveSketch
