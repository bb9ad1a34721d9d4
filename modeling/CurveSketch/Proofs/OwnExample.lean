import CurveSketch.Marking
import CurveSketch.Proofs.Extent
import CurveSketch.Proofs.RoundTrip
import CurveSketch.Proofs.SelfMatch

/-!
# An answer earns its own specification

The specification that is written for an answer is read back as it was written, and the answer's
drawing meets it : an answer marked against its own specification earns the response that goes with
it (`mark_specificationOf`). Answers have coordinates of at most `2 ^ 1000` in magnitude here, so
that every point that is described is finite, and has a sector as it is in one of the quadrants.
-/

namespace CurveSketch

/-! ## Answers within bounds -/

/-- A point with bounded coordinates. -/
structure DrawnPoint.Bounded (p : DrawnPoint) : Prop where
  x : CurveSketch.Bounded p.x
  y : CurveSketch.Bounded p.y

instance (p : DrawnPoint) : Decidable p.Bounded :=
  decidable_of_iff (CurveSketch.Bounded p.x ∧ CurveSketch.Bounded p.y)
    ⟨fun h => ⟨h.1, h.2⟩, fun h => ⟨h.x, h.y⟩⟩

theorem DrawnPoint.Bounded.within {p : DrawnPoint} (h : p.Bounded) : p.toPoint.Within 948 :=
  ⟨h.x.within, h.y.within⟩

/-- A curve with bounded points, maxima and minima. -/
structure Curve.Bounded (c : Curve) : Prop where
  points : ∀ p ∈ c.points, p.Bounded
  maxima : ∀ p ∈ c.maxima?.getD [], p.Bounded
  minima : ∀ p ∈ c.minima?.getD [], p.Bounded

namespace Curve

instance (c : Curve) : Decidable c.Bounded :=
  decidable_of_iff ((∀ p ∈ c.points, p.Bounded) ∧ (∀ p ∈ c.maxima?.getD [], p.Bounded) ∧
      ∀ p ∈ c.minima?.getD [], p.Bounded)
    ⟨fun h => ⟨h.1, h.2.1, h.2.2⟩, fun h => ⟨h.points, h.maxima, h.minima⟩⟩

theorem within_of_mem_flagged {kind : Extremum} {ps : Option (List DrawnPoint)}
    (h : ∀ p ∈ ps.getD [], p.Bounded) {t : TurningPoint Binary64} (ht : t ∈ flagged kind ps) :
    t.point.Within 948 := by
  obtain ⟨p, hp, rfl⟩ := List.mem_map.1 ht
  exact (h p hp).within

/-- The turning points of a bounded curve are within bounds, listed or not. -/
theorem Bounded.within {c : Curve} (h : c.Bounded) : c.toPolyline.Within 948 := by
  have hpoints : ∀ p ∈ c.points.map DrawnPoint.toPoint, p.Within 948 := by
    intro p hp
    obtain ⟨q, hq, rfl⟩ := List.mem_map.1 hp
    exact (h.points q hq).within
  unfold toPolyline
  split
  · exact .withTurningPoints hpoints
  · refine .make hpoints fun t ht => ?_
    rcases List.mem_append.1 ht with ht | ht
    · exact within_of_mem_flagged h.maxima ht
    · exact within_of_mem_flagged h.minima ht

end Curve

namespace Answer

theorem length_toDrawing (answer : Answer) :
    answer.toDrawing.lines.length = answer.curves.length := by
  rw [toDrawing, Drawing.length_canonical, List.length_map]

theorem within_of_mem_toDrawing {answer : Answer} (h : ∀ c ∈ answer.curves, c.Bounded)
    {l : Polyline Binary64} (hl : l ∈ answer.toDrawing.lines) : l.Within 948 := by
  obtain ⟨l', hl', rfl⟩ := Drawing.mem_canonical.1 hl
  obtain ⟨c, hc, rfl⟩ := List.mem_map.1 hl'
  exact (h c hc).within.leftToRight

/-- In an order with the quadrants every point looked at in a bounded answer has a sector. -/
theorem classified_toDrawing {answer : Answer} (h : ∀ c ∈ answer.curves, c.Bounded)
    {settings : Settings Binary64} {order : List Sector}
    (hquadrants : ∀ s t, quadrantOf s t ∈ order) :
    answer.toDrawing.Classified (.ofOrder settings order) where
  turning _ hl t ht :=
    Classifier.isSome_classify? hquadrants ((within_of_mem_toDrawing h hl).turning t ht).finite
  crossings _ ha _ _ _ hp :=
    Classifier.isSome_classify? hquadrants
      ((within_of_mem_toDrawing h ha).finite_of_mem_crossings hp)

end Answer

/-! ## Marking -/

/-- The response of a single shape whose specification is read, and met by the answer. -/
theorem mark_of_holds {R : Type} {context : Context Binary64} {answer : Answer} {text : String}
    {s : Specification} {response unmatched : R} (hparse : Specification.parse text = .ok s)
    (hholds : s.holds context answer.toDrawing = true) :
    mark ⟨[⟨text, response⟩], unmatched⟩ context answer = .ok response := by
  have hread : Solutions.readAll ⟨[⟨text, response⟩], unmatched⟩ = .ok [(s, response)] := by
    rw [Solutions.readAll, List.mapM_cons, hparse]
    rfl
  rw [mark, markDrawing, hread]
  simp [firstMatch, hholds]

/-- An answer with at least one curve, and coordinates of at most `2 ^ 1000` in magnitude, earns the
response that goes with the specification written for it, whatever the settings. Its curves are as
many as can be counted in 64 bits. -/
theorem mark_specificationOf {R : Type} (settings : Settings Binary64) (answer : Answer)
    (response unmatched : R) (hne : answer.curves ≠ [])
    (hcount : answer.curves.length < 0x10000000000000000)
    (hbounded : ∀ c ∈ answer.curves, c.Bounded) :
    mark ⟨[⟨specificationOf settings answer, response⟩], unmatched⟩ (.ofSettings settings) answer =
      .ok response := by
  have hlength := answer.length_toDrawing
  have hlines : answer.toDrawing.lines ≠ [] := by
    rw [← List.length_pos_iff, hlength]
    exact List.length_pos_iff.2 hne
  have hclassified : answer.toDrawing.Classified (.ofOrder settings Classifier.standardOrder) :=
    Answer.classified_toDrawing hbounded Classifier.quadrantOf_mem_standardOrder
  refine mark_of_holds ?_ (Specification.describe_holds hlines hclassified)
  exact Specification.parse_print_of_legible fun _ =>
    Specification.legible_of_mem_describe (hlength ▸ hcount)

/-- Two straight curves that cross, one of them with a maximum given where it starts. -/
theorem mark_specificationOf_crossed :
    let up : Curve :=
      ⟨[⟨none, -1, -1⟩, ⟨none, 1, 1⟩], none, none, none, none, none, none⟩
    let down : Curve :=
      ⟨[⟨none, -1, 1⟩, ⟨none, 1, -1⟩], some [⟨none, -1, 1⟩], none, none, none, none, none⟩
    let answer : Answer := ⟨2, 2, [up, down], none⟩
    mark ⟨[⟨specificationOf .standard answer, true⟩], false⟩ (.ofSettings .standard) answer =
      .ok true :=
  mark_specificationOf .standard _ true false (by decide) (by decide) (by decide +kernel)

end CurveSketch
