import Mathlib.Data.List.NodupEquivFin
import CurveSketch.Neighbours

/-!
# Runs of equal elements

`collapse` keeps one element of each run of equal ones. The list it leaves has the same ends, no
element next to an equal one, and every element of the original in its place : there is a monotone
map from the places of the original to those of the collapsed list (`exists_place_collapse`).
Neighbours in it are neighbours in the original, and the other way round unless they are equal.
Collapsing once more after a partial map gives nothing new (`collapse_filterMap_collapse`), so that
runs may be dropped early or late.
-/

namespace CurveSketch

variable {α β : Type} [BEq α] [LawfulBEq α] [BEq β] [LawfulBEq β]

theorem collapseAfter_cons_self (a : α) (rest : List α) :
    collapseAfter a (a :: rest) = collapseAfter a rest :=
  if_pos (beq_self_eq_true a)

theorem collapseAfter_cons_of_ne {a b : α} (h : a ≠ b) (rest : List α) :
    collapseAfter a (b :: rest) = b :: collapseAfter b rest :=
  if_neg fun hab => h (eq_of_beq hab)

/-! ## The collapsed list -/

omit [LawfulBEq α] in
theorem head?_collapse (l : List α) : (collapse l).head? = l.head? := by
  cases l <;> rfl

theorem getLast?_cons_collapseAfter (a : α) (l : List α) :
    (a :: collapseAfter a l).getLast? = (a :: l).getLast? := by
  induction l generalizing a with
  | nil => rfl
  | cons b rest ih =>
    by_cases hab : a = b
    · subst hab
      rw [collapseAfter_cons_self, ih, List.getLast?_cons_cons]
    · rw [collapseAfter_cons_of_ne hab, List.getLast?_cons_cons, ih, List.getLast?_cons_cons]

theorem getLast?_collapse (l : List α) : (collapse l).getLast? = l.getLast? := by
  cases l with
  | nil => rfl
  | cons a rest => exact getLast?_cons_collapseAfter a rest

theorem isChain_cons_collapseAfter (a : α) (l : List α) :
    (a :: collapseAfter a l).IsChain (· ≠ ·) := by
  induction l generalizing a with
  | nil => exact .singleton a
  | cons b rest ih =>
    by_cases hab : a = b
    · subst hab
      exact collapseAfter_cons_self a rest ▸ ih a
    · rw [collapseAfter_cons_of_ne hab]
      exact .cons_cons hab (ih b)

/-- No element is next to an equal one. -/
theorem isChain_collapse (l : List α) : (collapse l).IsChain (· ≠ ·) := by
  cases l with
  | nil => exact .nil
  | cons a rest => exact isChain_cons_collapseAfter a rest

theorem collapseAfter_of_isChain {a : α} {l : List α} (h : (a :: l).IsChain (· ≠ ·)) :
    collapseAfter a l = l := by
  induction l generalizing a with
  | nil => rfl
  | cons b rest ih =>
    obtain ⟨hab, hrest⟩ := List.isChain_cons_cons.1 h
    rw [collapseAfter_cons_of_ne hab, ih hrest]

/-! ## Adjacent elements -/

theorem mem_neighbours_cons_collapseAfter {a : α} {l : List α} {pair : α × α}
    (h : pair ∈ neighbours (a :: l)) : pair.1 = pair.2 ∧ pair.1 ∈ a :: collapseAfter a l ∨
      pair ∈ neighbours (a :: collapseAfter a l) := by
  induction l generalizing a with
  | nil => exact absurd h List.not_mem_nil
  | cons b rest ih =>
    by_cases hab : a = b
    · subst hab
      rw [collapseAfter_cons_self]
      rcases List.mem_cons.1 h with rfl | h
      · exact .inl ⟨rfl, List.mem_cons_self⟩
      · exact ih h
    · rw [collapseAfter_cons_of_ne hab]
      rcases List.mem_cons.1 h with rfl | h
      · exact .inr List.mem_cons_self
      · exact (ih h).imp (.imp_right (List.mem_cons_of_mem a)) (List.mem_cons_of_mem _)

/-- Adjacent elements stay adjacent, unless they are equal and become one. -/
theorem mem_neighbours_collapse {l : List α} {pair : α × α} (h : pair ∈ neighbours l) :
    pair.1 = pair.2 ∧ pair.1 ∈ collapse l ∨ pair ∈ neighbours (collapse l) := by
  cases l with
  | nil => exact absurd h List.not_mem_nil
  | cons a rest => exact mem_neighbours_cons_collapseAfter h

theorem neighbours_cons_collapseAfter_subset (a : α) (l : List α) :
    neighbours (a :: collapseAfter a l) ⊆ neighbours (a :: l) := by
  induction l generalizing a with
  | nil => exact List.Subset.refl _
  | cons b rest ih =>
    by_cases hab : a = b
    · subst hab
      rw [collapseAfter_cons_self]
      exact List.subset_cons_of_subset _ (ih a)
    · rw [collapseAfter_cons_of_ne hab]
      exact List.cons_subset_cons _ (ih b)

/-- No other elements become adjacent. -/
theorem neighbours_collapse_subset (l : List α) : neighbours (collapse l) ⊆ neighbours l := by
  cases l with
  | nil => exact List.Subset.refl _
  | cons a rest => exact neighbours_cons_collapseAfter_subset a rest

/-! ## Places -/

theorem exists_place_cons_collapseAfter (a : α) (l : List α) :
    ∃ place : Nat → Nat, Monotone place ∧ place 0 = 0 ∧
      ∀ i b, (a :: l)[i]? = some b → (a :: collapseAfter a l)[place i]? = some b := by
  induction l generalizing a with
  | nil =>
    refine ⟨id, monotone_id, rfl, fun i b hb => hb⟩
  | cons c rest ih =>
    obtain ⟨place, hmono, hzero, hplace⟩ := ih c
    by_cases hac : a = c
    · -- the first two elements share the place of the first
      subst hac
      refine ⟨fun i => place (i - 1), fun i j hij => hmono (Nat.sub_le_sub_right hij 1), hzero,
        fun i b hb => ?_⟩
      rw [collapseAfter_cons_self]
      cases i with
      | zero => exact hplace 0 b hb
      | succ i => exact hplace i b hb
    · rw [collapseAfter_cons_of_ne hac]
      refine ⟨fun i => if i = 0 then 0 else place (i - 1) + 1, fun i j hij => ?_, rfl,
        fun i b hb => ?_⟩
      · have := hmono (Nat.sub_le_sub_right hij 1)
        dsimp only
        split_ifs <;> omega
      · cases i with
        | zero => exact hb
        | succ i => exact hplace i b hb

/-- Every element has a place in the collapsed list, and the order is kept. -/
theorem exists_place_collapse (l : List α) : ∃ place : Nat → Nat, Monotone place ∧
    ∀ (i : Nat) (a : α), l[i]? = some a → (collapse l)[place i]? = some a := by
  cases l with
  | nil => exact ⟨id, monotone_id, fun _ _ h => h⟩
  | cons a rest =>
    obtain ⟨place, hmono, -, hplace⟩ := exists_place_cons_collapseAfter a rest
    exact ⟨place, hmono, hplace⟩

/-- The elements of a list have their places in order in what is left of a longer one. -/
theorem exists_place_of_sublist {l l' : List α} (h : l.Sublist l') :
    ∃ place : Nat → Nat, Monotone place ∧
      ∀ (i : Nat) (a : α), l[i]? = some a → (collapse l')[place i]? = some a := by
  obtain ⟨index, hindex⟩ := List.sublist_iff_exists_orderEmbedding_getElem?_eq.1 h
  obtain ⟨place, hmono, hplace⟩ := exists_place_collapse l'
  exact ⟨fun i => place (index i), hmono.comp index.monotone, fun i a ha =>
    hplace (index i) a ((hindex i).symm.trans ha)⟩

omit [BEq α] [LawfulBEq α] in
/-- The elements that pass a test have their places in order among themselves. -/
theorem exists_place_filter (test : α → Bool) (l : List α) :
    ∃ place : Nat → Nat, Monotone place ∧
      ∀ (i : Nat) (a : α), l[i]? = some a → test a = true →
        (l.filter test)[place i]? = some a := by
  refine ⟨fun i => ((l.take i).filter test).length, fun i j hij =>
    ((List.take_prefix_take_left hij).sublist.filter test).length_le, fun i a ha htest => ?_⟩
  obtain ⟨hi, rfl⟩ := List.getElem?_eq_some_iff.1 ha
  have hsplit : l.filter test =
      (l.take i).filter test ++ (l[i] :: l.drop (i + 1)).filter test := by
    rw [← List.filter_append, List.getElem_cons_drop, List.take_append_drop]
  rw [hsplit, List.filter_cons_of_pos htest, List.getElem?_append_right le_rfl, Nat.sub_self]
  rfl

/-! ## Elements equal to themselves -/

omit [LawfulBEq α] in
/-- What is dropped from a run is equal to what is kept of it. -/
theorem exists_beq_of_mem_collapseAfter {l : List α}
    (hrefl : ∀ a ∈ l, (a == a) = true) (last : α) {a : α} (ha : a ∈ l) :
    (last == a) = true ∨ ∃ b ∈ collapseAfter last l, (b == a) = true := by
  induction l generalizing last with
  | nil => exact absurd ha List.not_mem_nil
  | cons c l ih =>
    have hrest := fun a ha => hrefl a (List.mem_cons_of_mem c ha)
    unfold collapseAfter
    split
    · rename_i hlast
      rcases List.mem_cons.1 ha with rfl | ha
      · exact .inl hlast
      · exact ih hrest last ha
    · rcases List.mem_cons.1 ha with rfl | ha
      · exact .inr ⟨a, List.mem_cons_self, hrefl a List.mem_cons_self⟩
      · rcases ih hrest c ha with hc | ⟨b, hb, heq⟩
        · exact .inr ⟨c, List.mem_cons_self, hc⟩
        · exact .inr ⟨b, List.mem_cons_of_mem c hb, heq⟩

omit [LawfulBEq α] in
theorem exists_beq_of_mem_collapse {l : List α}
    (hrefl : ∀ a ∈ l, (a == a) = true) {a : α} (ha : a ∈ l) :
    ∃ b ∈ collapse l, (b == a) = true := by
  cases l with
  | nil => exact absurd ha List.not_mem_nil
  | cons c l =>
    rcases List.mem_cons.1 ha with rfl | ha
    · exact ⟨a, List.mem_cons_self, hrefl a List.mem_cons_self⟩
    · rcases exists_beq_of_mem_collapseAfter (fun a ha => hrefl a (List.mem_cons_of_mem c ha)) c ha
        with hc | ⟨b, hb, heq⟩
      · exact ⟨c, List.mem_cons_self, hc⟩
      · exact ⟨b, List.mem_cons_of_mem c hb, heq⟩

/-! ## Collapsing before a partial map -/

omit [BEq α] [LawfulBEq α] in
theorem collapseAfter_filterMap_cons_self (f : α → Option β) (last : β) (a : α) (l : List α) :
    collapseAfter last ((a :: a :: l).filterMap f) = collapseAfter last ((a :: l).filterMap f) := by
  cases hfa : f a with
  | none => rw [List.filterMap_cons_none hfa]
  | some c =>
    simp only [List.filterMap_cons_some hfa]
    by_cases hlast : last = c
    · subst hlast
      rw [collapseAfter_cons_self]
    · rw [collapseAfter_cons_of_ne hlast, collapseAfter_cons_of_ne hlast, collapseAfter_cons_self]

theorem collapseAfter_filterMap_collapseAfter (f : α → Option β) (last : β) (a : α) (l : List α) :
    collapseAfter last ((a :: collapseAfter a l).filterMap f) =
      collapseAfter last ((a :: l).filterMap f) := by
  induction l generalizing last a with
  | nil => rfl
  | cons b rest ih =>
    by_cases hab : a = b
    · subst hab
      rw [collapseAfter_cons_self, ih, collapseAfter_filterMap_cons_self]
    · rw [collapseAfter_cons_of_ne hab]
      cases hfa : f a with
      | none => rw [List.filterMap_cons_none hfa, List.filterMap_cons_none hfa, ih]
      | some c =>
        rw [List.filterMap_cons_some hfa, List.filterMap_cons_some hfa]
        by_cases hlast : last = c
        · subst hlast
          rw [collapseAfter_cons_self, collapseAfter_cons_self, ih]
        · rw [collapseAfter_cons_of_ne hlast, collapseAfter_cons_of_ne hlast, ih]

/-- Runs may be dropped before a partial map, if they are dropped after it. -/
theorem collapse_filterMap_collapse (f : α → Option β) (l : List α) :
    collapse ((collapse l).filterMap f) = collapse (l.filterMap f) := by
  -- as long as nothing is kept there is no last element to compare with
  have hcons : ∀ a l, collapse ((a :: collapseAfter a l).filterMap f) =
      collapse ((a :: l).filterMap f) := by
    intro a l
    induction l generalizing a with
    | nil => rfl
    | cons b rest ih =>
      cases hfa : f a with
      | some c =>
        have h := collapseAfter_filterMap_collapseAfter f c a (b :: rest)
        rw [List.filterMap_cons_some hfa, List.filterMap_cons_some hfa, collapseAfter_cons_self,
          collapseAfter_cons_self] at h
        rw [List.filterMap_cons_some hfa, List.filterMap_cons_some hfa, collapse_cons, h,
          collapse_cons]
      | none =>
        by_cases hab : a = b
        · subst hab
          rw [collapseAfter_cons_self, ih, List.filterMap_cons_none (l := a :: rest) hfa]
        · rw [collapseAfter_cons_of_ne hab, List.filterMap_cons_none hfa, ih,
            List.filterMap_cons_none hfa]
  cases l with
  | nil => rfl
  | cons a rest => exact hcons a rest

end CurveSketch
