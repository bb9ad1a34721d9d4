import CurveSketch.Segment
import Mathlib

/-!
# Crossings in exact arithmetic

Over the rationals, the equations for the crossing of two lines have a solution just if the lines
are not parallel, and it is where they have a point in common (`crossingParams_eq_some_iff`).

How far a point lies on the inner side of a boundary is a linear function of the point,
`Segment.inward`, and so is its place along the boundary, `Segment.foot`; together they determine
the point (`Segment.pointAt_foot_add_normal`). A piece crosses a boundary where the first vanishes,
provided it is not constant along the piece, the place is one that both reach
(`Segment.crossing?_eq_some_iff`), and it stops inside if the function is not negative at its end.
-/

namespace CurveSketch

namespace Point

theorem ext_iff {p q : Point Rat} : p = q ↔ p.x = q.x ∧ p.y = q.y := by
  cases p
  cases q
  exact Iff.of_eq (mk.injEq ..)

/-! ## Linear functions along a line -/

@[simp] theorem lerp_zero (a b : Point Rat) : a.lerp b 0 = a := by
  have hx : a.x * (1 - 0) + b.x * 0 = a.x := by ring
  have hy : a.y * (1 - 0) + b.y * 0 = a.y := by ring
  exact congrArg₂ mk hx hy

@[simp] theorem lerp_one (a b : Point Rat) : a.lerp b 1 = b := by
  have hx : a.x * (1 - 1) + b.x * 1 = b.x := by ring
  have hy : a.y * (1 - 1) + b.y * 1 = b.y := by ring
  exact congrArg₂ mk hx hy

@[simp] theorem lerp_self (a : Point Rat) (t : Rat) : a.lerp a t = a := by
  have hx : a.x * (1 - t) + a.x * t = a.x := by ring
  have hy : a.y * (1 - t) + a.y * t = a.y := by ring
  exact congrArg₂ mk hx hy

/-- A line travelled backwards. -/
theorem lerp_one_sub (a b : Point Rat) (t : Rat) : a.lerp b (1 - t) = b.lerp a t := by
  have hx : a.x * (1 - (1 - t)) + b.x * (1 - t) = b.x * (1 - t) + a.x * t := by ring
  have hy : a.y * (1 - (1 - t)) + b.y * (1 - t) = b.y * (1 - t) + a.y * t := by ring
  exact congrArg₂ mk hx hy

end Point

/-! ## Two lines -/

section

variable {p₁ p₂ p₃ p₄ : Point Rat}

/-- The determinant of the system for the crossing of two lines is the area that their directions
span. -/
theorem crossingDet_eq_cross (p₁ p₂ p₃ p₄ : Point Rat) :
    (p₄.x - p₃.x) * (p₁.y - p₂.y) - (p₁.x - p₂.x) * (p₄.y - p₃.y) =
      (p₂ - p₁).cross (p₄ - p₃) := by
  simp only [Point.cross, Point.x_sub, Point.y_sub]
  ring

/-- Only parallel lines do not cross. -/
theorem crossingParams_eq_none_iff :
    crossingParams p₁ p₂ p₃ p₄ = none ↔ (p₂ - p₁).cross (p₄ - p₃) = 0 := by
  simp only [crossingParams, crossingDet_eq_cross, beq_iff_eq]
  split
  · rename_i hzero
    exact iff_of_true rfl hzero
  · rename_i hne
    exact iff_of_false nofun hne

/-- Two lines cross where they have a point in common, unless they are parallel. -/
theorem crossingParams_eq_some_iff {t u : Rat} :
    crossingParams p₁ p₂ p₃ p₄ = some (t, u) ↔
      (p₂ - p₁).cross (p₄ - p₃) ≠ 0 ∧ p₁.lerp p₂ t = p₃.lerp p₄ u := by
  simp only [crossingParams, crossingDet_eq_cross, beq_iff_eq]
  split
  · rename_i hzero
    exact ⟨nofun, fun h => absurd hzero h.1⟩
  · rename_i hne
    rw [Option.some.injEq, Prod.mk.injEq, div_eq_iff hne, div_eq_iff hne, Point.ext_iff,
      and_iff_right hne]
    simp only [Point.cross, Point.lerp, Point.x_sub, Point.y_sub] at hne ⊢
    constructor
    · rintro ⟨ht, hu⟩
      constructor <;> refine mul_right_cancel₀ hne ?_
      · linear_combination (p₁.x - p₂.x) * ht - (p₃.x - p₄.x) * hu
      · linear_combination (p₁.y - p₂.y) * ht - (p₃.y - p₄.y) * hu
    · rintro ⟨hx, hy⟩
      constructor
      · linear_combination (p₃.y - p₄.y) * hx - (p₃.x - p₄.x) * hy
      · linear_combination (p₁.y - p₂.y) * hx - (p₁.x - p₂.x) * hy

end

namespace Segment

/-- How far a point lies on the inner side of the boundary's line, in lengths of its direction. -/
def inward (s : Segment Rat) (p : Point Rat) : Rat :=
  match s.extent.side with
  | .left => s.direction.cross (p - s.start)
  | .right => -s.direction.cross (p - s.start)

/-- The parameter of the boundary's line that a point is level with. -/
def foot (s : Segment Rat) (p : Point Rat) : Rat :=
  (p - s.start).dot s.direction / s.direction.dot s.direction

theorem facesInside_eq (s : Segment Rat) (p : Point Rat) :
    s.facesInside (p - s.start) = decide (0 ≤ s.inward p) := by
  unfold facesInside inward
  split <;> simp_all

theorem contains_iff {s : Segment Rat} {p : Point Rat} :
    s.contains p = true ↔ 0 ≤ s.inward p ∧ s.reaches (s.foot p) = true := by
  rw [contains, Bool.and_eq_true, facesInside_eq, decide_eq_true_iff]
  rfl

/-- The distance from a boundary changes evenly along a line. -/
theorem inward_lerp (s : Segment Rat) (a b : Point Rat) (t : Rat) :
    s.inward (a.lerp b t) = s.inward a * (1 - t) + s.inward b * t := by
  unfold inward
  split <;> simp only [Point.cross, Point.lerp, Point.x_sub, Point.y_sub] <;> ring

section

variable {s : Segment Rat} {a b : Point Rat} {t : Rat} (h0 : 0 ≤ t) (h1 : t ≤ 1)

include h0 h1

/-- Between two points on the inner side of a boundary a line stays on that side. -/
theorem inward_lerp_nonneg (ha : 0 ≤ s.inward a) (hb : 0 ≤ s.inward b) :
    0 ≤ s.inward (a.lerp b t) := by
  rw [inward_lerp]
  exact add_nonneg (mul_nonneg ha (sub_nonneg.2 h1)) (mul_nonneg hb h0)

/-- Between two points on the outer side of a boundary a line stays on that side. -/
theorem inward_lerp_neg (ha : s.inward a < 0) (hb : s.inward b < 0) :
    s.inward (a.lerp b t) < 0 := by
  rw [inward_lerp]
  rcases h0.eq_or_lt with rfl | hpos
  · linarith
  · linarith [mul_neg_of_neg_of_pos hb hpos, mul_nonneg (neg_nonneg.2 ha.le) (sub_nonneg.2 h1)]

end

theorem not_misses_iff {s : Segment Rat} {t : Rat} : s.misses t = false ↔ s.reaches t = true := by
  simp [misses, reaches, imp_iff_not_or]

theorem reaches_closed_iff {a b : Point Rat} {t : Rat} :
    (closed a b).reaches t = true ↔ 0 ≤ t ∧ t ≤ 1 := by
  simp [reaches, closed, Extent.boundedAtStart, Extent.boundedAtStop]

/-- The signed area of the turn from a boundary to a point. -/
def turn (s : Segment Rat) (p : Point Rat) : Rat :=
  s.direction.cross (p - s.start)

theorem inward_eq_inward_iff {s : Segment Rat} {p q : Point Rat} :
    s.inward p = s.inward q ↔ s.turn p = s.turn q := by
  unfold inward
  split
  · rfl
  · exact neg_inj

theorem inward_eq_zero_iff {s : Segment Rat} {p : Point Rat} : s.inward p = 0 ↔ s.turn p = 0 := by
  unfold inward
  split
  · rfl
  · exact neg_eq_zero

/-- Two points are equally far from a boundary's line if the way between them is parallel to it. -/
theorem inward_eq_inward_iff_cross_eq_zero {s : Segment Rat} {a b : Point Rat} :
    s.inward a = s.inward b ↔ s.direction.cross (b - a) = 0 := by
  have hcross : s.direction.cross (b - a) = s.turn b - s.turn a := by
    simp only [turn, Point.cross, Point.x_sub, Point.y_sub]
    ring
  rw [inward_eq_inward_iff, hcross, sub_eq_zero, eq_comm]

/-- The points of a boundary's line are neither inside nor outside. -/
theorem inward_pointAt (s : Segment Rat) (t : Rat) : s.inward (s.pointAt t) = 0 := by
  rw [inward_eq_zero_iff]
  simp only [turn, pointAt, Point.cross, Point.lerp, direction, Point.x_sub, Point.y_sub]
  ring

/-- The direction of a boundary, turned by a right angle to the inner side. -/
def normal (s : Segment Rat) : Point Rat :=
  match s.extent.side with
  | .left => ⟨-s.direction.y, s.direction.x⟩
  | .right => ⟨s.direction.y, -s.direction.x⟩

/-- The distance from a boundary grows along its normal. -/
theorem inward_add_normal (s : Segment Rat) (p : Point Rat) (a : Rat) :
    s.inward (p + s.normal.scale a) = s.inward p + a * s.direction.dot s.direction := by
  unfold inward normal
  split <;> simp only [Point.cross, Point.dot, Point.scale, Point.x_sub, Point.y_sub, Point.x_add,
    Point.y_add] <;> ring

section

variable {s : Segment Rat} (h : s.start ≠ s.stop)

include h

theorem direction_dot_pos : 0 < s.direction.dot s.direction := by
  refine (add_nonneg (mul_self_nonneg _) (mul_self_nonneg _)).lt_of_ne' fun hzero => h ?_
  obtain ⟨hx, hy⟩ := mul_self_add_mul_self_eq_zero.1 hzero
  exact Point.ext_iff.2 ⟨(sub_eq_zero.1 hx).symm, (sub_eq_zero.1 hy).symm⟩

/-- A point of a boundary's line is level with its own parameter. -/
theorem foot_pointAt (t : Rat) : s.foot (s.pointAt t) = t := by
  rw [foot, div_eq_iff (direction_dot_pos h).ne']
  simp only [pointAt, Point.dot, Point.lerp, direction, Point.x_sub, Point.y_sub]
  ring

/-- Every point is reached from its foot along the normal. -/
theorem pointAt_foot_add_normal (p : Point Rat) :
    s.pointAt (s.foot p) + s.normal.scale (s.inward p / s.direction.dot s.direction) = p := by
  have hlength := (direction_dot_pos h).ne'
  have hfoot : s.foot p * s.direction.dot s.direction = (p - s.start).dot s.direction :=
    div_mul_cancel₀ _ hlength
  have hinward := div_mul_cancel₀ (s.inward p) hlength
  generalize s.inward p / s.direction.dot s.direction = a at hinward ⊢
  unfold inward at hinward
  unfold normal
  split at hinward
  all_goals
    simp only [pointAt, Point.ext_iff, Point.cross, Point.dot, Point.lerp, Point.scale,
      Point.x_sub, Point.y_sub, Point.x_add, Point.y_add, direction] at hfoot hinward hlength ⊢
    constructor <;> refine mul_right_cancel₀ hlength ?_
  · linear_combination (s.stop.x - s.start.x) * hfoot - (s.stop.y - s.start.y) * hinward
  · linear_combination (s.stop.y - s.start.y) * hfoot + (s.stop.x - s.start.x) * hinward
  · linear_combination (s.stop.x - s.start.x) * hfoot + (s.stop.y - s.start.y) * hinward
  · linear_combination (s.stop.y - s.start.y) * hfoot - (s.stop.x - s.start.x) * hinward

/-- A point that is neither inside nor outside is on the boundary's line. -/
theorem pointAt_foot {p : Point Rat} (hp : s.inward p = 0) : s.pointAt (s.foot p) = p := by
  conv_rhs => rw [← pointAt_foot_add_normal h p, hp, zero_div]
  simp [Point.ext_iff, Point.scale]

end

theorem start_ne_stop_of_cross_ne_zero {s : Segment Rat} {d : Point Rat}
    (h : s.direction.cross d ≠ 0) : s.start ≠ s.stop := by
  intro heq
  refine h ?_
  simp only [Point.cross, direction, heq, Point.x_sub, Point.y_sub]
  ring

/-- Two boundaries cross where they have a point in common at parameters that both reach, unless
they are parallel. -/
theorem crossing?_eq_some_iff_exists {s other : Segment Rat} {c : Crossing Rat} :
    s.crossing? other = some c ↔ s.direction.cross other.direction ≠ 0 ∧
      (∃ t, s.pointAt t = other.pointAt c.param ∧ s.reaches t = true) ∧
      other.reaches c.param = true ∧ c.inside = decide (0 ≤ s.inward other.stop) := by
  obtain ⟨u, inside⟩ := c
  unfold crossing?
  split
  · rename_i hnone
    exact iff_of_false nofun fun h => h.1 (crossingParams_eq_none_iff.1 hnone)
  · rename_i t u' hsome
    obtain ⟨hcross, hpoint⟩ := crossingParams_eq_some_iff.1 hsome
    rw [facesInside_eq]
    constructor
    · intro h
      split at h
      · cases h
      · rename_i hreach
        obtain ⟨rfl, rfl⟩ := Crossing.mk.inj (Option.some.inj h)
        rw [Bool.or_eq_true, not_or, Bool.not_eq_true, Bool.not_eq_true, not_misses_iff,
          not_misses_iff] at hreach
        exact ⟨hcross, ⟨t, hpoint, hreach.1⟩, hreach.2, rfl⟩
    · rintro ⟨-, ⟨t', hpoint', hreach'⟩, hreach, hinside⟩
      have hsame := hsome.symm.trans (crossingParams_eq_some_iff.2 ⟨hcross, hpoint'⟩)
      obtain ⟨rfl, rfl⟩ := Prod.mk.inj (Option.some.inj hsame)
      obtain rfl : inside = _ := hinside
      rw [not_misses_iff.2 hreach', not_misses_iff.2 hreach]
      rfl

/-- Where a piece crosses a boundary. -/
theorem crossing?_eq_some_iff {s piece : Segment Rat} {c : Crossing Rat} :
    s.crossing? piece = some c ↔ s.inward piece.start ≠ s.inward piece.stop ∧
      s.inward (piece.pointAt c.param) = 0 ∧ s.reaches (s.foot (piece.pointAt c.param)) = true ∧
      piece.reaches c.param = true ∧ c.inside = decide (0 ≤ s.inward piece.stop) := by
  rw [crossing?_eq_some_iff_exists, ne_eq, ne_eq, inward_eq_inward_iff_cross_eq_zero]
  refine and_congr_right fun hcross => ?_
  have hdirection := start_ne_stop_of_cross_ne_zero hcross
  constructor
  · rintro ⟨⟨t, hpoint, hreach⟩, hrest⟩
    rw [← hpoint, foot_pointAt hdirection]
    exact ⟨inward_pointAt s t, hreach, hrest⟩
  · rintro ⟨hzero, hreach, hrest⟩
    exact ⟨⟨_, pointAt_foot hdirection hzero, hreach⟩, hrest⟩

end Segment

end CurveSketch
