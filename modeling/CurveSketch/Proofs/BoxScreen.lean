import CurveSketch.Drawing
import CurveSketch.Proofs.CrossingList
import CurveSketch.Proofs.RoundedValue

/-!
# The screen of bounding boxes

A straight piece of one polyline is solved only against those pieces of the other whose bounding
boxes meet its own. Over the rationals the screen is no more than a shortcut : whatever crosses is
let through, so the crossings listed are those of all pieces with all pieces
(`Polyline.crossings_eq_plainCrossings`).

In binary64 the parameters of a crossing are rounded, and pieces that only just miss each other may
be reported to cross. There the screen is a guarantee : pieces that are let through have horizontal
coordinates in common, and so do the spans of their polylines (`Polyline.spansMeet_of_crossings`).
-/

namespace CurveSketch.Polyline

/-! ## Listing crossings -/

section

variable {K : Type} [Scalar K]

/-- The first point of a list is never dropped. -/
theorem separate_nil_eq_nil_iff {points : List (Point K)} :
    separate [] points = [] ↔ points = [] := by
  cases points <;> simp [separate]

theorem pieceCrossings_eq_nil_iff {a : Point K × Point K} {pieces : List (Point K × Point K)} :
    pieceCrossings a pieces = [] ↔ ∀ b ∈ pieces, pieceCrossing? a b = none := by
  rw [pieceCrossings, List.map_eq_nil_iff, ← List.length_eq_zero_iff, List.length_mergeSort,
    List.length_eq_zero_iff, List.filterMap_eq_nil_iff]

/-- No crossing is listed if no two pieces that the screen lets through cross. -/
theorem crossings_eq_nil_iff {l other : Polyline K} :
    l.crossings other = [] ↔ ∀ a ∈ neighbours l.points, ∀ b ∈ neighbours other.points,
      boxesMeet a b = true → pieceCrossing? a b = none := by
  simp only [crossings, separate_nil_eq_nil_iff, List.flatMap_eq_nil_iff,
    pieceCrossings_eq_nil_iff, List.mem_filter, and_imp]

/-- The points in which `l` crosses `other`, found by solving every piece of the one against every
piece of the other. -/
def plainCrossings (l other : Polyline K) : List (Point K) :=
  separate [] <| (neighbours l.points).flatMap fun a => pieceCrossings a (neighbours other.points)

end

/-! ## Exact arithmetic -/

/-- The screen lets through what crosses. -/
theorem pieceCrossings_filter_boxesMeet (a : Point Rat × Point Rat)
    (pieces : List (Point Rat × Point Rat)) :
    pieceCrossings a (pieces.filter (boxesMeet a)) = pieceCrossings a pieces := by
  have hscreen : ∀ b ∈ pieces, (if boxesMeet a b then pieceCrossing? a b else none) =
      pieceCrossing? a b := by
    intro b _
    cases hcrossing : pieceCrossing? a b with
    | none => exact ite_self none
    | some t => exact if_pos (pieceCrossing?_eq_some_iff.1 hcrossing).boxesMeet
  rw [pieceCrossings, pieceCrossings, List.filterMap_filter, List.filterMap_congr hscreen]

/-- Over the rationals, the crossings found behind the screen of bounding boxes are those found
without it. -/
theorem crossings_eq_plainCrossings (l other : Polyline Rat) :
    l.crossings other = l.plainCrossings other := by
  simp only [crossings, plainCrossings, pieceCrossings_filter_boxesMeet]

/-! ## Horizontal spans -/

section

variable {K : Type} [Scalar K]

/-- Boxes that meet have horizontal coordinates in common. -/
theorem le_of_boxesMeet {a b : Point K × Point K} (h : boxesMeet a b = true) :
    Scalar.min a.1.x a.2.x ≤ Scalar.max b.1.x b.2.x ∧
      Scalar.min b.1.x b.2.x ≤ Scalar.max a.1.x a.2.x := by
  simp only [boxesMeet, Bool.and_eq_true, decide_eq_true_eq] at h
  exact h.1

end

section

variable {a b x : Binary64} {s t : Binary64 × Binary64}

/-- A span is between two numbers. -/
structure IsSpan (s : Binary64 × Binary64) : Prop where
  low : s.1.float.isNaN = false
  high : s.2.float.isNaN = false

/-- A coordinate lies in a span. -/
structure Covers (s : Binary64 × Binary64) (x : Binary64) : Prop where
  number : x.float.isNaN = false
  low_le : s.1.value ≤ x.value
  le_high : x.value ≤ s.2.value

/-- A span that is widened by a coordinate covers it, and what it covered before. -/
theorem IsSpan.widen (hs : IsSpan s) (hx : x.float.isNaN = false) :
    IsSpan (Scalar.min s.1 x, Scalar.max s.2 x) ∧
      Covers (Scalar.min s.1 x, Scalar.max s.2 x) x ∧
      ∀ y, Covers s y → Covers (Scalar.min s.1 x, Scalar.max s.2 x) y := by
  obtain ⟨hlow, hmin⟩ := Binary64.value_min hs.low hx
  obtain ⟨hhigh, hmax⟩ := Binary64.value_max hs.high hx
  refine ⟨⟨hlow, hhigh⟩, ⟨hx, ?_, ?_⟩, fun y hy => ⟨hy.number, ?_, ?_⟩⟩
  · exact hmin.trans_le (min_le_right _ _)
  · exact (le_max_right _ _).trans_eq hmax.symm
  · exact hmin.trans_le ((min_le_left _ _).trans hy.low_le)
  · exact (hy.le_high.trans (le_max_left _ _)).trans_eq hmax.symm

theorem IsSpan.foldl (hs : IsSpan s) {points : List (Point Binary64)}
    (hpoints : ∀ p ∈ points, p.x.float.isNaN = false) :
    let s' := points.foldl (fun m p => (Scalar.min m.1 p.x, Scalar.max m.2 p.x)) s
    IsSpan s' ∧ (∀ y, Covers s y → Covers s' y) ∧ ∀ p ∈ points, Covers s' p.x := by
  induction points generalizing s with
  | nil => exact ⟨hs, fun _ hy => hy, nofun⟩
  | cons p points ih =>
    obtain ⟨hp, hrest⟩ := List.forall_mem_cons.1 hpoints
    obtain ⟨hwide, hcovers, hkeeps⟩ := hs.widen hp
    obtain ⟨hspan, hbefore, hafter⟩ := ih hwide hrest
    exact ⟨hspan, fun y hy => hbefore y (hkeeps y hy),
      List.forall_mem_cons.2 ⟨hbefore _ hcovers, hafter⟩⟩

/-- The span of a polyline covers its vertices. -/
theorem covers_of_span? {l : Polyline Binary64} (hl : ∀ p ∈ l.points, p.x.float.isNaN = false)
    (hs : l.span? = some s) : IsSpan s ∧ ∀ p ∈ l.points, Covers s p.x := by
  obtain ⟨first, hfirst, rfl⟩ := Option.map_eq_some_iff.1 hs
  have hx := hl first (List.mem_of_mem_head? hfirst)
  obtain ⟨hspan, -, hcovers⟩ := IsSpan.foldl (s := (first.x, first.x)) ⟨hx, hx⟩ hl
  exact ⟨hspan, hcovers⟩

/-- A span that covers two coordinates covers what is between them. -/
theorem Covers.between (ha : Covers s a) (hb : Covers s b) :
    Covers s (Scalar.min a b) ∧ Covers s (Scalar.max a b) := by
  obtain ⟨hlow, hmin⟩ := Binary64.value_min ha.number hb.number
  obtain ⟨hhigh, hmax⟩ := Binary64.value_max ha.number hb.number
  refine ⟨⟨hlow, ?_, ?_⟩, ⟨hhigh, ?_, ?_⟩⟩
  · exact (le_min ha.low_le hb.low_le).trans_eq hmin.symm
  · exact hmin.trans_le ((min_le_left _ _).trans ha.le_high)
  · exact ha.low_le.trans ((le_max_left _ _).trans_eq hmax.symm)
  · exact hmax.trans_le (max_le ha.le_high hb.le_high)

/-- The spans of two polylines meet if the screen lets a piece of the one through to a piece of the
other. -/
theorem spansMeet_of_boxesMeet (hs : IsSpan s) (ht : IsSpan t)
    {a b : Point Binary64 × Point Binary64} (ha : Covers s a.1.x ∧ Covers s a.2.x)
    (hb : Covers t b.1.x ∧ Covers t b.2.x) (h : boxesMeet a b = true) :
    Drawing.spansMeet s t = true := by
  obtain ⟨halow, hahigh⟩ := ha.1.between ha.2
  obtain ⟨hblow, hbhigh⟩ := hb.1.between hb.2
  obtain ⟨hab, hba⟩ := le_of_boxesMeet h
  rw [Binary64.le_iff_value halow.number hbhigh.number] at hab
  rw [Binary64.le_iff_value hblow.number hahigh.number] at hba
  rw [Drawing.spansMeet, Bool.and_eq_true, decide_eq_true_eq, decide_eq_true_eq,
    Binary64.le_iff_value hs.low ht.high, Binary64.le_iff_value ht.low hs.high]
  exact ⟨halow.low_le.trans (hab.trans hbhigh.le_high),
    hblow.low_le.trans (hba.trans hahigh.le_high)⟩

theorem exists_span?_of_mem {l : Polyline Binary64} {p : Point Binary64} (hp : p ∈ l.points) :
    ∃ s, l.span? = some s := by
  rw [span?]
  cases hpoints : l.points with
  | nil => exact absurd (hpoints ▸ hp) List.not_mem_nil
  | cons first rest => exact ⟨_, rfl⟩

/-- Polylines that are found to cross, rightly or by rounding, have spans that meet. -/
theorem spansMeet_of_crossings {l other : Polyline Binary64}
    (hl : ∀ p ∈ l.points, p.x.float.isNaN = false)
    (hother : ∀ p ∈ other.points, p.x.float.isNaN = false) (h : l.crossings other ≠ []) :
    ∃ s ∈ l.span?, ∃ t ∈ other.span?, Drawing.spansMeet s t = true := by
  obtain ⟨a, ha, b, hb, hboxes, -⟩ : ∃ a ∈ neighbours l.points, ∃ b ∈ neighbours other.points,
      boxesMeet a b = true ∧ pieceCrossing? a b ≠ none := by
    simpa [crossings_eq_nil_iff] using h
  have hends := mem_of_mem_neighbours ha
  have hends' := mem_of_mem_neighbours hb
  obtain ⟨s, hs⟩ := exists_span?_of_mem hends.1
  obtain ⟨t, ht⟩ := exists_span?_of_mem hends'.1
  obtain ⟨hspan, hcovers⟩ := covers_of_span? hl hs
  obtain ⟨hspan', hcovers'⟩ := covers_of_span? hother ht
  exact ⟨s, hs, t, ht, spansMeet_of_boxesMeet hspan hspan'
    ⟨hcovers _ hends.1, hcovers _ hends.2⟩ ⟨hcovers' _ hends'.1, hcovers' _ hends'.2⟩ hboxes⟩

end

end CurveSketch.Polyline
