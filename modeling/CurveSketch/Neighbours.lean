/-!
# Neighbours in a list

Two operations on lists of anything: `neighbours` lists the pairs of elements that stand next to
each other (the straight pieces of a polyline), and `collapse` keeps one element of each run of
equal ones (the stations of a path).
-/

namespace CurveSketch

variable {α : Type}

/-! ## Adjacent pairs -/

/-- The pairs of adjacent elements, in order. -/
def neighbours : List α → List (α × α)
  | a :: b :: rest => (a, b) :: neighbours (b :: rest)
  | _ => []

@[simp] theorem neighbours_nil : neighbours ([] : List α) = [] := rfl

@[simp] theorem neighbours_singleton (a : α) : neighbours [a] = [] := rfl

@[simp] theorem neighbours_cons_cons (a b : α) (rest : List α) :
    neighbours (a :: b :: rest) = (a, b) :: neighbours (b :: rest) := rfl

/-- The pairs are made of elements of the list. -/
theorem mem_of_mem_neighbours {l : List α} {pair : α × α} (h : pair ∈ neighbours l) :
    pair.1 ∈ l ∧ pair.2 ∈ l := by
  induction l with
  | nil => exact absurd h List.not_mem_nil
  | cons a l ih =>
    cases l with
    | nil => exact absurd h List.not_mem_nil
    | cons b l =>
      rw [neighbours_cons_cons] at h
      rcases List.mem_cons.1 h with rfl | h
      · exact ⟨List.mem_cons_self, List.mem_cons_of_mem _ List.mem_cons_self⟩
      · exact ⟨List.mem_cons_of_mem _ (ih h).1, List.mem_cons_of_mem _ (ih h).2⟩

/-! ## Runs of equal elements -/

variable [BEq α]

/-- What is left of a list, read after `last`, when an element equal to the one kept before it is
dropped. -/
def collapseAfter (last : α) : List α → List α
  | [] => []
  | a :: rest => if last == a then collapseAfter last rest else a :: collapseAfter a rest

/-- The list with each run of equal elements cut down to its first. -/
def collapse : List α → List α
  | [] => []
  | a :: rest => a :: collapseAfter a rest

@[simp] theorem collapse_nil : collapse ([] : List α) = [] := rfl

@[simp] theorem collapse_cons (a : α) (rest : List α) :
    collapse (a :: rest) = a :: collapseAfter a rest := rfl

theorem collapse_eq_nil_iff {l : List α} : collapse l = [] ↔ l = [] := by
  cases l <;> simp

/-- Collapsing only drops elements. -/
theorem collapseAfter_sublist (last : α) (l : List α) : (collapseAfter last l).Sublist l := by
  induction l generalizing last with
  | nil => exact .slnil
  | cons a rest ih =>
    unfold collapseAfter
    split
    · exact .cons a (ih last)
    · exact .cons_cons a (ih a)

/-- Collapsing only drops elements. -/
theorem collapse_sublist : ∀ l : List α, (collapse l).Sublist l
  | [] => .slnil
  | a :: rest => .cons_cons a (collapseAfter_sublist a rest)

end CurveSketch
