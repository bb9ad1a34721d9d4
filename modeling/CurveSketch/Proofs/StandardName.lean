import CurveSketch.Naming

/-!
# Standard names

The standard name of a line is the numeral of its position in the system with the digits `A` to `Z`
of values 1 to 26. `position` reads the numeral, so different lines have different names
(`standardName_injective`) ; the names are made of letters and can stand in a specification.
-/

namespace CurveSketch

/-- The letter with a value less than 26, counted from `A`. -/
def letter (k : Nat) : Char :=
  Char.ofNat ('A'.toNat + k)

theorem toNat_letter {k : Nat} (h : k < 26) : (letter k).toNat = 'A'.toNat + k := by
  have : ∀ k < 26, (letter k).toNat = 'A'.toNat + k := by decide
  exact this k h

theorem isAlpha_letter {k : Nat} (h : k < 26) : (letter k).isAlpha = true := by
  have : ∀ k < 26, (letter k).isAlpha = true := by decide
  exact this k h

theorem nameAt_zero : nameAt 0 = [] := by
  rw [nameAt, if_pos rfl]

theorem nameAt_succ (n : Nat) : nameAt (n + 1) = nameAt (n / 26) ++ [letter (n % 26)] := by
  rw [nameAt, if_neg (Nat.succ_ne_zero n)]
  rfl

/-- The position that a name stands for. -/
def position (name : List Char) : Nat :=
  name.foldl (fun n c => 26 * n + (c.toNat - 'A'.toNat + 1)) 0

/-- A position is read back from its name. -/
theorem position_nameAt (n : Nat) : position (nameAt n) = n := by
  induction n using Nat.strongRecOn with
  | ind n ih =>
    cases n with
    | zero => rw [nameAt_zero]; rfl
    | succ n =>
      have hdigit := toNat_letter (Nat.mod_lt n (by decide : 0 < 26))
      have hrest := ih (n / 26) (by omega)
      rw [position] at hrest
      rw [nameAt_succ, position, List.foldl_append, hrest, List.foldl_cons, List.foldl_nil, hdigit]
      omega

theorem standardName_injective {i j : Nat} (h : standardName i = standardName j) : i = j := by
  have hpos := congrArg position h
  rw [standardName, standardName, position_nameAt, position_nameAt] at hpos
  exact Nat.succ.inj hpos

theorem exists_letter_of_mem_nameAt {n : Nat} {c : Char} (h : c ∈ nameAt n) :
    ∃ k < 26, letter k = c := by
  induction n using Nat.strongRecOn with
  | ind n ih =>
    cases n with
    | zero => simp [nameAt_zero] at h
    | succ n =>
      rw [nameAt_succ, List.mem_append, List.mem_singleton] at h
      rcases h with h | rfl
      · exact ih (n / 26) (by omega) h
      · exact ⟨n % 26, Nat.mod_lt n (by decide), rfl⟩

theorem isAlpha_of_mem_nameAt {n : Nat} {c : Char} (h : c ∈ nameAt n) : c.isAlpha = true := by
  obtain ⟨k, hk, rfl⟩ := exists_letter_of_mem_nameAt h
  exact isAlpha_letter hk

/-- A standard name is a name. -/
theorem isLineName_standardName (i : Nat) : isLineName (standardName i) = true := by
  have hne : (standardName i).isEmpty = false := by
    rw [standardName, nameAt_succ]
    simp
  have hletters : (standardName i).all Char.isAlpha = true :=
    List.all_eq_true.2 fun _ => isAlpha_of_mem_nameAt
  rw [isLineName, hne, hletters]
  rfl

end CurveSketch
