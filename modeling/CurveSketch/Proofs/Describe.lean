import CurveSketch.Proofs.StandardName
import CurveSketch.Specification
import Mathlib.Tactic.SplitIfs

/-!
# What a description says

The clauses that a drawing is described with, one kind after the other : the number of its lines if
there are two or more, each pair of lines that cross, and the features of each line, which is
selected by its position alone if it is the only one (`Specification.mem_describe_clauses`,
`Selector.mem_forDrawing`). Lines are named by their index throughout.
-/

namespace CurveSketch

variable {K : Type} [Scalar K]

namespace Meeting

theorem exists_of_mem_describeFrom {context : Context K} {a : Polyline K × Nat}
    {others : List (Polyline K × Nat)} {m : Meeting} (h : m ∈ describeFrom context a others) :
    ∃ b ∈ others, a.1.crossings b.1 ≠ [] ∧ m = ⟨standardName a.2, standardName b.2,
      (a.1.crossings b.1).filterMap context.classifier.classify?⟩ := by
  obtain ⟨b, hb, h⟩ := List.mem_filterMap.1 h
  split at h
  · exact absurd h nofun
  · rename_i hne
    exact ⟨b, hb, hne, (Option.some.inj h).symm⟩

/-- The lines of a pair that crosses come in the order of their numbers. -/
theorem exists_of_mem_describePairs {context : Context K} {ls : List (Polyline K × Nat)}
    (hsorted : (ls.map (·.2)).Pairwise (· < ·)) {m : Meeting} (h : m ∈ describePairs context ls) :
    ∃ a ∈ ls, ∃ b ∈ ls, a.2 < b.2 ∧ a.1.crossings b.1 ≠ [] ∧
      m = ⟨standardName a.2, standardName b.2,
        (a.1.crossings b.1).filterMap context.classifier.classify?⟩ := by
  induction ls with
  | nil => simp [describePairs] at h
  | cons a ls ih =>
    rw [List.map_cons, List.pairwise_cons] at hsorted
    rw [describePairs, List.mem_append] at h
    rcases h with h | h
    · obtain ⟨b, hb, hne, hm⟩ := exists_of_mem_describeFrom h
      have hab : a.2 < b.2 := hsorted.1 _ (List.mem_map_of_mem hb)
      exact ⟨a, List.mem_cons_self, b, List.mem_cons_of_mem _ hb, hab, hne, hm⟩
    · obtain ⟨b, hb, c, hc, hbc⟩ := ih hsorted.2 h
      exact ⟨b, List.mem_cons_of_mem _ hb, c, List.mem_cons_of_mem _ hc, hbc⟩

theorem exists_of_mem_describeAll {context : Context K} {d : Drawing K} {m : Meeting}
    (h : m ∈ describeAll context d) :
    ∃ i j a b, i < j ∧ d.lines[i]? = some a ∧ d.lines[j]? = some b ∧ a.crossings b ≠ [] ∧
      m = ⟨standardName i, standardName j,
        (a.crossings b).filterMap context.classifier.classify?⟩ := by
  have hsorted : (d.lines.zipIdx.map (·.2)).Pairwise (· < ·) := by
    rw [List.zipIdx_map_snd]
    exact List.pairwise_lt_range'
  obtain ⟨⟨a, i⟩, ha, ⟨b, j⟩, hb, hij, hne, hm⟩ := exists_of_mem_describePairs hsorted h
  exact ⟨i, j, a, b, hij, List.mk_mem_zipIdx_iff_getElem?.1 ha,
    List.mk_mem_zipIdx_iff_getElem?.1 hb, hne, hm⟩

end Meeting

namespace Selector

/-- A line is selected without number or name if it is the only one, and else by its index. -/
theorem mem_forDrawing {d : Drawing K} {selector : Selector} {l : Polyline K}
    (h : (selector, l) ∈ forDrawing d) : (selector = .any ∧ d.lines = [l]) ∨
      ∃ i, d.lines[i]? = some l ∧
        (selector = .nth (i + 1) ∨ selector = .named (standardName i)) := by
  have hnumbered : ∀ {ls : List (Polyline K)},
      (selector, l) ∈ ls.zipIdx.map (fun l => (nth (l.2 + 1), l.1)) →
        ∃ i, ls[i]? = some l ∧ selector = .nth (i + 1) := by
    intro ls h
    obtain ⟨⟨l', i⟩, hmem, heq⟩ := List.mem_map.1 h
    obtain ⟨rfl, rfl⟩ := Prod.mk.inj heq
    exact ⟨i, List.mk_mem_zipIdx_iff_getElem?.1 hmem, rfl⟩
  unfold forDrawing at h
  split at h
  · rename_i only heq
    obtain ⟨rfl, rfl⟩ := Prod.mk.inj (List.mem_singleton.1 h)
    exact .inl ⟨rfl, heq⟩
  · dsimp only at h
    split_ifs at h
    · rw [List.mem_append] at h
      rcases h with h | h
      · obtain ⟨i, hi, hs⟩ := hnumbered h
        exact .inr ⟨i, hi, .inl hs⟩
      · obtain ⟨⟨l', i⟩, hmem, heq⟩ := List.mem_map.1 h
        obtain ⟨rfl, rfl⟩ := Prod.mk.inj heq
        exact .inr ⟨i, List.mk_mem_zipIdx_iff_getElem?.1 hmem, .inr rfl⟩
    · obtain ⟨i, hi, hs⟩ := hnumbered h
      exact .inr ⟨i, hi, .inl hs⟩

end Selector

/-- A clause of a description states the number of lines, a pair that crosses, or a feature of a
line. -/
theorem Specification.mem_describe_clauses {context : Context K} {d : Drawing K} {c : Clause}
    (h : c ∈ (describe context d).clauses) :
    (2 ≤ d.lines.length ∧ c = .ofDrawing (.count ⟨d.lines.length⟩)) ∨
      (∃ i j a b, i ≠ j ∧ d.lines[i]? = some a ∧ d.lines[j]? = some b ∧ a.crossings b ≠ [] ∧
        c = .ofDrawing (.meeting ⟨standardName i, standardName j,
          (a.crossings b).filterMap context.classifier.classify?⟩)) ∨
      ∃ selector l f, (selector, l) ∈ Selector.forDrawing d ∧
        f ∈ LineFeature.describeAll context l ∧ c = .ofLine selector f := by
  rw [describe, List.mem_append, List.mem_map, List.mem_flatMap] at h
  rcases h with ⟨f, hf, rfl⟩ | ⟨⟨selector, l⟩, hl, h⟩
  · rw [DrawingFeature.describeAll, List.mem_append, List.mem_map] at hf
    rcases hf with hf | ⟨m, hm, rfl⟩
    · rw [Option.mem_toList, Option.map_eq_some_iff] at hf
      obtain ⟨count, hcount, rfl⟩ := hf
      rw [CurveCount.describe?] at hcount
      split_ifs at hcount with hlength
      obtain rfl := Option.some.inj hcount
      exact .inl ⟨hlength, rfl⟩
    · obtain ⟨i, j, a, b, hij, ha, hb, hne, rfl⟩ := Meeting.exists_of_mem_describeAll hm
      exact .inr (.inl ⟨i, j, a, b, Nat.ne_of_lt hij, ha, hb, hne, rfl⟩)
  · obtain ⟨f, hf, rfl⟩ := List.mem_map.1 h
    exact .inr (.inr ⟨selector, l, f, hl, hf, rfl⟩)

end CurveSketch
