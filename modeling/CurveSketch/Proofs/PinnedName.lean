import CurveSketch.Proofs.BoxScreen
import CurveSketch.Proofs.Describe
import CurveSketch.Proofs.Quadrant

/-!
# The names in a description

A description speaks of crossings by the standard names of two lines. Such a name stands for any
line at all, unless clauses that select the line by this name pin it down; those are written only
for drawings in which some lines lie above each other. Whether lines cross and whether they lie
above each other are told by different rules, and the first by rounded numbers. They agree all the
same (`Drawing.linesOverlap_of_crossings`), so wherever a crossing is described, each line is
described under its number and once more, in the same way, under its name
(`Specification.crossings_named`).
-/

namespace CurveSketch

/-! ## Lines above each other -/

namespace Drawing

section

variable {K : Type} [Scalar K]

theorem someSpansMeet_eq_false_iff {spans : List (K × K)} :
    someSpansMeet spans = false ↔ spans.Pairwise fun s t => spansMeet s t = false := by
  induction spans with
  | nil => simp [someSpansMeet]
  | cons s spans ih => simp [someSpansMeet, ih]

/-- Lines lie above each other if the spans of two of them meet. -/
theorem linesOverlap_of_spansMeet {d : Drawing K} {i j : Nat} {a b : Polyline K} (hij : i < j)
    (ha : d.lines[i]? = some a) (hb : d.lines[j]? = some b) {s t : K × K} (hs : s ∈ a.span?)
    (ht : t ∈ b.span?) (hmeet : spansMeet s t = true) : d.linesOverlap = true := by
  by_contra hnone
  have hapart := someSpansMeet_eq_false_iff.1 (Bool.eq_false_iff.2 hnone)
  rw [List.pairwise_filterMap, List.pairwise_iff_getElem] at hapart
  obtain ⟨hi, rfl⟩ := List.getElem?_eq_some_iff.1 ha
  obtain ⟨hj, rfl⟩ := List.getElem?_eq_some_iff.1 hb
  exact Bool.false_ne_true ((hapart i j hi hj hij s hs t ht).symm.trans hmeet)

end

/-- Lines that are found to cross lie above each other. -/
theorem linesOverlap_of_crossings {d : Drawing Binary64}
    (hd : ∀ l ∈ d.lines, ∀ p ∈ l.points, p.Finite) {i j : Nat} {a b : Polyline Binary64}
    (hij : i < j) (ha : d.lines[i]? = some a) (hb : d.lines[j]? = some b)
    (h : a.crossings b ≠ []) : d.linesOverlap = true := by
  have hnumber : ∀ {l : Polyline Binary64}, l ∈ d.lines → ∀ p ∈ l.points, p.x.float.isNaN = false :=
    fun hl p hp => Binary64.isNaN_eq_false_of_isFinite (hd _ hl p hp).x
  obtain ⟨s, hs, t, ht, hmeet⟩ := Polyline.spansMeet_of_crossings
    (hnumber (List.mem_of_getElem? ha)) (hnumber (List.mem_of_getElem? hb)) h
  exact linesOverlap_of_spansMeet hij ha hb hs ht hmeet

end Drawing

/-! ## Clauses on lines -/

section

variable {K : Type} [Scalar K] {d : Drawing K}

namespace Selector

/-- Lines are selected by their numbers and then, if some lie above each other, by their names. -/
theorem forDrawing_of_linesOverlap (hlines : 2 ≤ d.lines.length)
    (hoverlap : d.linesOverlap = true) :
    forDrawing d = d.lines.zipIdx.map (fun l => (nth (l.2 + 1), l.1)) ++
      d.lines.zipIdx.map fun l => (named (standardName l.2), l.1) := by
  unfold forDrawing
  split
  · rename_i only heq
    rw [heq] at hlines
    exact absurd hlines (Nat.not_succ_le_self 1)
  · exact if_pos hoverlap

omit [Scalar K] in
/-- Selectors that tell the indices apart select each line by its own. -/
theorem mem_map_zipIdx_iff {select : Nat → Selector} (hselect : Function.Injective select)
    {lines : List (Polyline K)} {i : Nat} {l : Polyline K} :
    (select i, l) ∈ lines.zipIdx.map (fun l => (select l.2, l.1)) ↔ lines[i]? = some l := by
  constructor
  · intro h
    obtain ⟨⟨l', j⟩, hmem, heq⟩ := List.mem_map.1 h
    obtain ⟨hij, rfl⟩ := Prod.mk.inj heq
    obtain rfl := hselect hij
    exact List.mk_mem_zipIdx_iff_getElem?.1 hmem
  · exact fun h => List.mem_map.2 ⟨(l, i), List.mk_mem_zipIdx_iff_getElem?.2 h, rfl⟩

/-- If some of the lines lie above each other, each is selected by its number and by its name. -/
theorem mem_forDrawing_of_linesOverlap (hlines : 2 ≤ d.lines.length)
    (hoverlap : d.linesOverlap = true) {i : Nat} {l : Polyline K} :
    ((nth (i + 1), l) ∈ forDrawing d ↔ d.lines[i]? = some l) ∧
      ((named (standardName i), l) ∈ forDrawing d ↔ d.lines[i]? = some l) := by
  have hnumbers : Function.Injective fun i => nth (i + 1) := fun i j h =>
    Nat.succ.inj (nth.inj h)
  have hnames : Function.Injective fun i => named (standardName i) := fun i j h =>
    standardName_injective (named.inj h)
  rw [forDrawing_of_linesOverlap hlines hoverlap, List.mem_append, List.mem_append,
    mem_map_zipIdx_iff hnumbers, mem_map_zipIdx_iff hnames]
  simp

end Selector

/-! ## Descriptions -/

namespace Specification

variable {context : Context K}

theorem meeting_mem_describe_clauses_iff {m : Meeting} :
    .ofDrawing (.meeting m) ∈ (describe context d).clauses ↔ m ∈ Meeting.describeAll context d := by
  simp [describe, DrawingFeature.describeAll]

theorem ofLine_mem_describe_clauses_iff {selector : Selector} {f : LineFeature} :
    .ofLine selector f ∈ (describe context d).clauses ↔
      ∃ l, (selector, l) ∈ Selector.forDrawing d ∧ f ∈ LineFeature.describeAll context l := by
  simp [describe]

/-- If some of the lines lie above each other, what is said of a line by its number is said of it by
its name too, and nothing else is. -/
theorem nth_iff_named_mem_describe_clauses (hlines : 2 ≤ d.lines.length)
    (hoverlap : d.linesOverlap = true) (i : Nat) (f : LineFeature) :
    .ofLine (.nth (i + 1)) f ∈ (describe context d).clauses ↔
      .ofLine (.named (standardName i)) f ∈ (describe context d).clauses := by
  simp only [ofLine_mem_describe_clauses_iff,
    (Selector.mem_forDrawing_of_linesOverlap hlines hoverlap).1,
    (Selector.mem_forDrawing_of_linesOverlap hlines hoverlap).2]

end Specification

end

/-- If a crossing is described of a drawing with finite coordinates, then some of its lines lie
above each other, so that what is said of a line by its number is said of it by its standard name
too; and the names in each crossing described are the standard names of two lines that cross. -/
theorem Specification.crossings_named (context : Context Binary64) {d : Drawing Binary64}
    (hd : ∀ l ∈ d.lines, ∀ p ∈ l.points, p.Finite) {m : Meeting}
    (hm : .ofDrawing (.meeting m) ∈ (describe context d).clauses) :
    d.linesOverlap = true ∧
      (∀ i f, .ofLine (.nth (i + 1)) f ∈ (describe context d).clauses ↔
        .ofLine (.named (standardName i)) f ∈ (describe context d).clauses) ∧
      ∀ m, .ofDrawing (.meeting m) ∈ (describe context d).clauses →
        ∃ i j a b, i < j ∧ d.lines[i]? = some a ∧ d.lines[j]? = some b ∧ a.crossings b ≠ [] ∧
          m.first = standardName i ∧ m.second = standardName j := by
  have hmeeting : ∀ m, .ofDrawing (.meeting m) ∈ (describe context d).clauses →
      ∃ i j a b, i < j ∧ d.lines[i]? = some a ∧ d.lines[j]? = some b ∧ a.crossings b ≠ [] ∧
        m.first = standardName i ∧ m.second = standardName j := by
    intro m hm
    obtain ⟨i, j, a, b, hij, ha, hb, hne, rfl⟩ :=
      Meeting.exists_of_mem_describeAll (meeting_mem_describe_clauses_iff.1 hm)
    exact ⟨i, j, a, b, hij, ha, hb, hne, rfl, rfl⟩
  obtain ⟨i, j, a, b, hij, ha, hb, hne, -⟩ := hmeeting m hm
  have hoverlap := Drawing.linesOverlap_of_crossings hd hij ha hb hne
  have hlines : 2 ≤ d.lines.length := by
    have := (List.getElem?_eq_some_iff.1 hb).1
    omega
  exact ⟨hoverlap, nth_iff_named_mem_describe_clauses hlines hoverlap, hmeeting⟩

/-- A line with a top, where another line starts. -/
theorem Specification.crossings_named_top :
    let top : Polyline Binary64 := .withTurningPoints [⟨-1, -1⟩, ⟨0, 0⟩, ⟨1, -1⟩]
    let d : Drawing Binary64 := ⟨[top, .ofPoints [⟨0, 0⟩, ⟨1, 1⟩]]⟩
    let clauses := (describe (.ofSettings .standard) d).clauses
    (∀ l ∈ d.lines, ∀ p ∈ l.points, p.Finite) ∧
      .ofDrawing (.meeting ⟨standardName 0, standardName 1, [.origin]⟩) ∈ clauses ∧
      d.linesOverlap = true ∧
      .ofLine (.nth 1) (.turning ⟨[(.maxima, .origin)]⟩) ∈ clauses ∧
      .ofLine (.named (standardName 0)) (.turning ⟨[(.maxima, .origin)]⟩) ∈ clauses := by
  intro top d clauses
  have hfinite : ∀ l ∈ d.lines, ∀ p ∈ l.points, p.Finite := by
    have h : ∀ l ∈ d.lines, ∀ p ∈ l.points,
        p.x.float.isFinite = true ∧ p.y.float.isFinite = true := by decide +kernel
    exact fun l hl p hp => ⟨(h l hl p hp).1, (h l hl p hp).2⟩
  have hmeeting : .ofDrawing (.meeting ⟨standardName 0, standardName 1, [.origin]⟩) ∈ clauses :=
    meeting_mem_describe_clauses_iff.2 (by decide +kernel)
  obtain ⟨hoverlap, hnames, -⟩ := crossings_named (.ofSettings .standard) hfinite hmeeting
  have hturning : Turning.describe? (.ofSettings .standard) top =
      some ⟨[(.maxima, .origin)]⟩ := by decide +kernel
  have hnumber : .ofLine (.nth 1) (.turning ⟨[(.maxima, .origin)]⟩) ∈ clauses := by
    refine ofLine_mem_describe_clauses_iff.2 ⟨top,
      (Selector.mem_forDrawing_of_linesOverlap le_rfl hoverlap).1.2 rfl, ?_⟩
    rw [LineFeature.describeAll, hturning]
    exact List.mem_append_right _ List.mem_cons_self
  exact ⟨hfinite, hmeeting, hoverlap, hnumber, (hnames 0 _).1 hnumber⟩

end CurveSketch
