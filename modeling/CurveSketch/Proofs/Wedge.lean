import CurveSketch.Proofs.TightRegion

/-!
# The region between two directions

`Region.quadrant` is bounded by a half-line in each of two directions, with the side towards the
other direction inside. In exact arithmetic it is the wedge between the directions as long as the
angle between them is not obtuse, and nothing but the origin if it is
(`Region.contains_quadrant_iff`).

To choose its inner side, a half-line tests whether it contains the other direction when its left
side is inside. What it contains is level with it, though, and a direction at an obtuse angle is
behind it, so that the test fails on both sides. Then the right side is taken, which is the wrong
one for one of the two half-lines (`Segment.facesInside_halfLineTowards_iff`).
-/

namespace CurveSketch

namespace Point

/-! ## Points in two directions -/

/-- The point reached from the origin by going `a` along `d` and `b` along `e`. -/
def combination (d e : Point Rat) (a b : Rat) : Point Rat :=
  d.scale a + e.scale b

/-- The point is reached by going along the two directions, and backwards along neither. -/
def Between (d e p : Point Rat) : Prop :=
  ∃ a b, 0 ≤ a ∧ 0 ≤ b ∧ p = combination d e a b

section

variable (d e : Point Rat) (a b : Rat)

theorem combination_eq : combination d e a b = ⟨d.x * a + e.x * b, d.y * a + e.y * b⟩ :=
  rfl

theorem cross_combination : d.cross (combination d e a b) = b * d.cross e := by
  simp only [cross, combination_eq]
  ring

theorem combination_dot : (combination d e a b).dot d = a * d.dot d + b * e.dot d := by
  simp only [dot, combination_eq]
  ring

theorem combination_zero_zero : combination d e 0 0 = .origin := by
  simp [combination_eq, origin]

theorem combination_comm : combination d e a b = combination e d b a :=
  congrArg₂ mk (add_comm _ _) (add_comm _ _)

theorem cross_comm : e.cross d = -d.cross e := by
  simp only [cross]
  ring

end

theorem cross_ne_zero_symm {d e : Point Rat} (h : d.cross e ≠ 0) : e.cross d ≠ 0 := by
  rw [cross_comm]
  exact neg_ne_zero.2 h

/-- Two directions that are not parallel lead everywhere. -/
theorem exists_eq_combination {d e : Point Rat} (h : d.cross e ≠ 0) (p : Point Rat) :
    ∃ a b, p = combination d e a b := by
  refine ⟨p.cross e / d.cross e, d.cross p / d.cross e, congrArg₂ mk ?_ ?_⟩
  all_goals
    simp only [scale, mul_div_assoc', ← add_div]
    rw [eq_div_iff h]
    simp only [cross]
    ring

/-- Backwards along one direction and forwards along another that is behind it, nothing but the
origin is level with the one. -/
theorem eq_zero_of_level {d e : Point Rat} {a b : Rat} (hd : 0 < d.dot d) (hbehind : e.dot d < 0)
    (ha : a ≤ 0) (hb : 0 ≤ b) (hlevel : 0 ≤ (combination d e a b).dot d) : a = 0 ∧ b = 0 := by
  rw [combination_dot] at hlevel
  have hda : a * d.dot d ≤ 0 := mul_nonpos_of_nonpos_of_nonneg ha hd.le
  have heb : b * e.dot d ≤ 0 := mul_nonpos_of_nonneg_of_nonpos hb hbehind.le
  have ha0 : a * d.dot d = 0 := by linarith
  have hb0 : b * e.dot d = 0 := by linarith
  exact ⟨(mul_eq_zero.1 ha0).resolve_right hd.ne', (mul_eq_zero.1 hb0).resolve_right hbehind.ne⟩

theorem dot_self_pos_of_cross_ne_zero {d e : Point Rat} (h : d.cross e ≠ 0) : 0 < d.dot d := by
  have hne : d.x ≠ 0 ∨ d.y ≠ 0 := by
    by_contra hzero
    push Not at hzero
    exact h (by simp [cross, hzero])
  simp only [dot]
  rcases hne with hx | hy
  · nlinarith [mul_self_pos.2 hx, mul_self_nonneg d.y]
  · nlinarith [mul_self_pos.2 hy, mul_self_nonneg d.x]

end Point

namespace Segment

/-! ## Half-lines towards a direction -/

section

variable {d e p : Point Rat}

/-- Towards a direction that is not behind it, a half-line has the side of the direction inside. -/
theorem contains_halfLineTowards_of_ahead (h : d.cross e ≠ 0) (hahead : 0 ≤ e.dot d) :
    (halfLineTowards .origin d e).contains p = true ↔
      0 ≤ d.cross p * d.cross e ∧ 0 ≤ p.dot d := by
  have hd := Point.dot_self_pos_of_cross_ne_zero h
  obtain ⟨side, heq, hinward⟩ := exists_halfLineTowards_eq_of_ahead hd h hahead
  rw [heq, contains_halfLine_origin_iff hd, hinward]

/-- Towards a direction behind it, a half-line has its right side inside. -/
theorem contains_halfLineTowards_of_behind (hd : 0 < d.dot d) (hbehind : e.dot d < 0) :
    (halfLineTowards .origin d e).contains p = true ↔ d.cross p ≤ 0 ∧ 0 ≤ p.dot d := by
  rw [halfLineTowards_eq hd, if_neg fun h => hbehind.not_ge h.2, contains_halfLine_origin_iff hd,
    inward_halfLine_right, Point.sub_origin, neg_nonneg]

/-- The direction that a half-line is towards is on its inner side unless it is behind the half-line
and on its left. -/
theorem facesInside_halfLineTowards_iff (h : d.cross e ≠ 0) :
    (halfLineTowards .origin d e).facesInside e = true ↔ 0 ≤ e.dot d ∨ d.cross e < 0 := by
  have hfaces : ∀ side, (halfLine .origin d side).facesInside e =
      decide (0 ≤ (halfLine .origin d side).inward e) := fun side => by
    rw [← facesInside_eq]
    exact congrArg _ e.sub_origin.symm
  rw [halfLineTowards_eq (Point.dot_self_pos_of_cross_ne_zero h), hfaces, decide_eq_true_iff]
  split
  · rename_i hleft
    rw [inward_halfLine_left, Point.sub_origin]
    exact iff_of_true hleft.1 (.inl hleft.2)
  · rename_i hright
    rw [inward_halfLine_right, Point.sub_origin, neg_nonneg]
    constructor
    · exact fun hle => .inr (lt_of_le_of_ne hle h)
    · rintro (hahead | hneg)
      · exact (not_le.1 fun hle => hright ⟨hle, hahead⟩).le
      · exact hneg.le

end

end Segment

namespace Region

/-! ## The wedge -/

variable {d e p : Point Rat}

theorem contains_quadrant : (quadrant d e).contains p = true ↔
    (Segment.halfLineTowards .origin d e).contains p = true ∧
      (Segment.halfLineTowards .origin e d).contains p = true := by
  rw [contains_iff, quadrant, List.forall_mem_cons, List.forall_mem_singleton]

/-- Between directions at an acute or right angle there is the wedge. -/
theorem contains_quadrant_of_not_obtuse (h : d.cross e ≠ 0) (hdot : 0 ≤ d.dot e) :
    (quadrant d e).contains p = true ↔ d.Between e p := by
  have hsquare : 0 < d.cross e * d.cross e := mul_self_pos.2 h
  have hsides : ∀ a b, d.cross (d.combination e a b) * d.cross e = b * (d.cross e * d.cross e) ∧
      e.cross (d.combination e a b) * e.cross d = a * (d.cross e * d.cross e) := fun a b => by
    rw [Point.cross_combination, Point.combination_comm, Point.cross_combination, e.cross_comm d]
    constructor <;> ring
  have h' := Point.cross_ne_zero_symm h
  rw [contains_quadrant, Segment.contains_halfLineTowards_of_ahead h (by rwa [Point.dot_comm]),
    Segment.contains_halfLineTowards_of_ahead h' hdot]
  constructor
  · rintro ⟨⟨hb, -⟩, ha, -⟩
    obtain ⟨a, b, rfl⟩ := Point.exists_eq_combination h p
    rw [(hsides a b).1, mul_nonneg_iff_of_pos_right hsquare] at hb
    rw [(hsides a b).2, mul_nonneg_iff_of_pos_right hsquare] at ha
    exact ⟨a, b, ha, hb, rfl⟩
  · rintro ⟨a, b, ha, hb, rfl⟩
    have hd := (Point.dot_self_pos_of_cross_ne_zero h).le
    have he := (Point.dot_self_pos_of_cross_ne_zero h').le
    rw [(hsides a b).1, (hsides a b).2, Point.combination_dot, Point.combination_comm,
      Point.combination_dot, d.dot_comm e]
    exact ⟨⟨mul_nonneg hb hsquare.le, add_nonneg (mul_nonneg ha hd) (mul_nonneg hb hdot)⟩,
      mul_nonneg ha hsquare.le, add_nonneg (mul_nonneg hb he) (mul_nonneg ha hdot)⟩

/-- Between directions at an obtuse angle there is the origin only: the one half-line has the wedge
on its outer side, and what is behind none of the two on the other side of the wedge is the
origin. -/
theorem contains_quadrant_of_obtuse (h : d.cross e ≠ 0) (hdot : d.dot e < 0) :
    (quadrant d e).contains p = true ↔ p = .origin := by
  have h' := Point.cross_ne_zero_symm h
  have hd := Point.dot_self_pos_of_cross_ne_zero h
  have he := Point.dot_self_pos_of_cross_ne_zero h'
  rw [contains_quadrant, Segment.contains_halfLineTowards_of_behind hd (by rwa [Point.dot_comm]),
    Segment.contains_halfLineTowards_of_behind he hdot]
  constructor
  · rintro ⟨⟨hb, hlevel⟩, ha, hlevel'⟩
    obtain ⟨a, b, rfl⟩ := Point.exists_eq_combination h p
    rw [Point.cross_combination] at hb
    rw [Point.combination_comm, Point.cross_combination, d.cross_comm e, mul_neg, neg_nonpos] at ha
    have hzero : a = 0 ∧ b = 0 := by
      rcases h.lt_or_gt with hneg | hpos
      · exact Point.eq_zero_of_level hd (by rwa [Point.dot_comm])
          (nonpos_of_mul_nonneg_left ha hneg) (nonneg_of_mul_nonpos_left hb hneg) hlevel
      · rw [Point.combination_comm] at hlevel'
        exact (Point.eq_zero_of_level he hdot (nonpos_of_mul_nonpos_left hb hpos)
          (nonneg_of_mul_nonneg_left ha hpos) hlevel').symm
    rw [hzero.1, hzero.2, Point.combination_zero_zero]
  · rintro rfl
    have hzero : ∀ q : Point Rat, q.cross .origin = 0 ∧ Point.origin.dot q = 0 := fun q => by
      constructor <;> simp [Point.cross, Point.dot, Point.origin]
    rw [(hzero d).1, (hzero d).2, (hzero e).1, (hzero e).2]
    exact ⟨⟨le_rfl, le_rfl⟩, le_rfl, le_rfl⟩

/-- The region between two directions is the wedge between them, unless their angle is obtuse : then
it is the origin alone, as the half-line that has the other direction on its left does not have that
direction inside. -/
theorem contains_quadrant_iff (d e : Point Rat) (h : d.cross e ≠ 0) :
    (∀ p, (quadrant d e).contains p = true ↔
        0 ≤ d.dot e ∧ d.Between e p ∨ d.dot e < 0 ∧ p = .origin) ∧
      ((Segment.halfLineTowards .origin d e).facesInside e = true ↔
        0 ≤ d.dot e ∨ d.cross e < 0) ∧
      ((Segment.halfLineTowards .origin e d).facesInside d = true ↔
        0 ≤ d.dot e ∨ 0 < d.cross e) := by
  have h' := Point.cross_ne_zero_symm h
  refine ⟨fun p => ?_, ?_, ?_⟩
  · rcases le_or_gt 0 (d.dot e) with hdot | hdot
    · rw [contains_quadrant_of_not_obtuse h hdot, or_iff_left fun h => hdot.not_gt h.1,
        and_iff_right hdot]
    · rw [contains_quadrant_of_obtuse h hdot, or_iff_right fun h => hdot.not_ge h.1,
        and_iff_right hdot]
  · rw [Segment.facesInside_halfLineTowards_iff h, Point.dot_comm]
  · rw [Segment.facesInside_halfLineTowards_iff h', d.cross_comm e, neg_lt_zero]

/-- A skew wedge contains what lies between its directions. -/
theorem contains_quadrant_skew : (⟨2, 1⟩ : Point Rat).cross ⟨-1, 3⟩ ≠ 0 ∧
    (quadrant ⟨2, 1⟩ ⟨-1, 3⟩).contains (⟨1, 4⟩ : Point Rat) = true := by
  have hcross : (⟨2, 1⟩ : Point Rat).cross ⟨-1, 3⟩ ≠ 0 := by
    norm_num [Point.cross]
  refine ⟨hcross, ((contains_quadrant_iff _ _ hcross).1 _).2 (.inl ⟨?_, 1, 1, ?_⟩)⟩
  · norm_num [Point.dot]
  · norm_num [Point.combination_eq]

/-- Between these directions there is a point that the region between them does not have. -/
theorem quadrant_loses_wedge : (⟨1, 0⟩ : Point Rat).cross ⟨-1, 1⟩ ≠ 0 ∧
    (⟨1, 0⟩ : Point Rat).Between ⟨-1, 1⟩ ⟨0, 1⟩ ∧
    (quadrant ⟨1, 0⟩ ⟨-1, 1⟩).contains (⟨0, 1⟩ : Point Rat) = false ∧
    (Segment.halfLineTowards .origin (⟨1, 0⟩ : Point Rat) ⟨-1, 1⟩).facesInside ⟨-1, 1⟩ =
      false := by
  refine ⟨by norm_num [Point.cross], ⟨1, 1, zero_le_one, zero_le_one, ?_⟩, ?_, ?_⟩
  · norm_num [Point.combination_eq]
  · decide +kernel
  · decide +kernel

end Region

end CurveSketch
