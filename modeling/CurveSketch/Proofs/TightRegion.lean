import CurveSketch.Sector
import CurveSketch.Proofs.ExactCrossing

/-!
# Regions whose boundaries fit together

A region is given by directed boundaries, and a point is in it if each of them contains the point.
The regions of sectors are tight: a point is in them if it is on the inner side of every boundary,
and also if it lies on the line of a boundary, at a place that the boundary reaches. So each
boundary is an edge of the region, no more and no less. For a tight region, a piece crosses a
boundary exactly where it is on the line of the boundary and in the region
(`Region.Tight.mem_crossings_iff`).

In exact arithmetic and with positive slops, the region of every sector is tight
(`Sector.tight_region`).
-/

namespace CurveSketch

namespace Region

/-- A region with each boundary an edge of it. -/
structure Tight (r : Region Rat) : Prop where
  /-- A point on the inner side of every boundary is in the region. -/
  contains_of_inward : ∀ {p}, (∀ b ∈ r.boundaries, 0 ≤ b.inward p) → r.contains p = true
  /-- A point on a boundary is in the region. -/
  contains_of_reaches : ∀ {b}, b ∈ r.boundaries → ∀ {p}, b.inward p = 0 →
    b.reaches (b.foot p) = true → r.contains p = true

theorem contains_iff {K : Type} [Scalar K] {r : Region K} {p : Point K} :
    r.contains p = true ↔ ∀ b ∈ r.boundaries, b.contains p = true :=
  List.all_eq_true

namespace Tight

variable {r : Region Rat}

/-- A tight region is what its boundaries have on their inner sides. -/
theorem contains_iff (h : r.Tight) {p : Point Rat} :
    r.contains p = true ↔ ∀ b ∈ r.boundaries, 0 ≤ b.inward p :=
  ⟨fun hp b hb => (Segment.contains_iff.1 (Region.contains_iff.1 hp b hb)).1, h.contains_of_inward⟩

/-- A piece crosses a boundary of a tight region where it is on its line and in the region, unless
it runs along the line. -/
theorem crossing?_eq_some_iff (h : r.Tight) {b : Segment Rat} (hb : b ∈ r.boundaries)
    {piece : Segment Rat} {c : Crossing Rat} :
    b.crossing? piece = some c ↔ b.inward piece.start ≠ b.inward piece.stop ∧
      b.inward (piece.pointAt c.param) = 0 ∧ r.contains (piece.pointAt c.param) = true ∧
      piece.reaches c.param = true ∧ c.inside = decide (0 ≤ b.inward piece.stop) := by
  rw [Segment.crossing?_eq_some_iff]
  refine and_congr_right fun _ => and_congr_right fun hzero => and_congr_left fun _ => ?_
  exact ⟨h.contains_of_reaches hb hzero, fun hp =>
    (Segment.contains_iff.1 (Region.contains_iff.1 hp b hb)).2⟩

/-- The crossings of a piece with the boundaries of a tight region. -/
theorem mem_crossings_iff (h : r.Tight) {piece : Segment Rat} {c : Crossing Rat} :
    c ∈ r.crossings piece ↔ ∃ b ∈ r.boundaries, b.inward piece.start ≠ b.inward piece.stop ∧
      b.inward (piece.pointAt c.param) = 0 ∧ r.contains (piece.pointAt c.param) = true ∧
      piece.reaches c.param = true ∧ c.inside = decide (0 ≤ b.inward piece.stop) := by
  rw [crossings, List.mem_mergeSort, List.mem_filterMap]
  exact exists_congr fun b => and_congr_right fun hb => h.crossing?_eq_some_iff hb

end Tight

end Region

/-! ## Boundaries along the axes of a frame -/

namespace Segment

theorem direction_halfLine (o d : Point Rat) (side : Side) : (halfLine o d side).direction = d := by
  have hx : o.x + d.x - o.x = d.x := by ring
  have hy : o.y + d.y - o.y = d.y := by ring
  exact congrArg₂ Point.mk hx hy

theorem reaches_halfLine_iff {o d : Point Rat} {side : Side} {t : Rat} :
    (halfLine o d side).reaches t = true ↔ 0 ≤ t := by
  have h : (halfLine o d side).reaches t = (decide (0 ≤ t) && true) := rfl
  rw [h, Bool.and_true, decide_eq_true_iff]

/-- The points that a half-line reaches. -/
theorem reaches_foot_halfLine {o d p : Point Rat} {side : Side} (hd : 0 < d.dot d) :
    (halfLine o d side).reaches ((halfLine o d side).foot p) = true ↔ 0 ≤ (p - o).dot d := by
  rw [reaches_halfLine_iff, foot, direction_halfLine, le_div_iff₀ hd, zero_mul]
  rfl

/-- The points that a closed boundary reaches. -/
theorem reaches_foot_closed {a b p : Point Rat} (h : 0 < (b - a).dot (b - a)) :
    (closed a b).reaches ((closed a b).foot p) = true ↔
      0 ≤ (p - a).dot (b - a) ∧ (p - a).dot (b - a) ≤ (b - a).dot (b - a) := by
  have hfoot : (closed a b).foot p = (p - a).dot (b - a) / (b - a).dot (b - a) := rfl
  rw [reaches_closed_iff, hfoot, le_div_iff₀ h, zero_mul, div_le_one h]

theorem inward_halfLine_left (o d p : Point Rat) :
    (halfLine o d .left).inward p = d.cross (p - o) :=
  congrArg (Point.cross · (p - o)) (direction_halfLine o d .left)

theorem inward_halfLine_right (o d p : Point Rat) :
    (halfLine o d .right).inward p = -d.cross (p - o) :=
  congrArg (fun q : Point Rat => -q.cross (p - o)) (direction_halfLine o d .right)

theorem inward_fullLine_left (o d p : Point Rat) :
    (fullLine o d .left).inward p = d.cross (p - o) :=
  inward_halfLine_left o d p

theorem inward_fullLine_right (o d p : Point Rat) :
    (fullLine o d .right).inward p = -d.cross (p - o) :=
  inward_halfLine_right o d p

end Segment

theorem Point.dot_comm (d e : Point Rat) : e.dot d = d.dot e := by
  simp only [Point.dot]
  ring

/-- Displacements at right angles, neither of them zero. -/
structure Point.Perpendicular (d e : Point Rat) : Prop where
  dot_eq_zero : d.dot e = 0
  left_pos : 0 < d.dot d
  right_pos : 0 < e.dot e

theorem Point.Perpendicular.symm {d e : Point Rat} (h : d.Perpendicular e) : e.Perpendicular d where
  dot_eq_zero := (d.dot_comm e).trans h.dot_eq_zero
  left_pos := h.right_pos
  right_pos := h.left_pos

theorem Point.sub_origin (p : Point Rat) : p - Point.origin = p :=
  congrArg₂ Point.mk (sub_zero p.x) (sub_zero p.y)

theorem Point.origin_add (p : Point Rat) : Point.origin + p = p :=
  congrArg₂ Point.mk (zero_add p.x) (zero_add p.y)

theorem Segment.contains_halfLine_origin_iff {d p : Point Rat} (hd : 0 < d.dot d) {side : Side} :
    (Segment.halfLine .origin d side).contains p = true ↔
      0 ≤ (Segment.halfLine .origin d side).inward p ∧ 0 ≤ p.dot d := by
  rw [contains_iff, reaches_foot_halfLine hd, Point.sub_origin]

/-- The left side of a half-line is taken for a direction on its left that is not behind it. -/
theorem Segment.halfLineTowards_eq {d e : Point Rat} (hd : 0 < d.dot d) :
    Segment.halfLineTowards .origin d e =
      Segment.halfLine .origin d (if 0 ≤ d.cross e ∧ 0 ≤ e.dot d then .left else .right) := by
  have htest : (Segment.halfLine Point.origin d .left).contains (Point.origin + e) = true ↔
      0 ≤ d.cross e ∧ 0 ≤ e.dot d := by
    rw [contains_halfLine_origin_iff hd, inward_halfLine_left, Point.sub_origin, Point.origin_add]
  unfold Segment.halfLineTowards
  by_cases h : 0 ≤ d.cross e ∧ 0 ≤ e.dot d
  · rw [if_pos h, if_pos (htest.2 h)]
  · rw [if_neg h, if_neg fun h' => h (htest.1 h')]

/-- Towards a direction that is not behind it, a half-line has the side of that direction inside. -/
theorem Segment.exists_halfLineTowards_eq_of_ahead {d e : Point Rat} (hd : 0 < d.dot d)
    (h : d.cross e ≠ 0) (hahead : 0 ≤ e.dot d) :
    ∃ side, Segment.halfLineTowards .origin d e = Segment.halfLine .origin d side ∧
      ∀ p, 0 ≤ (Segment.halfLine .origin d side).inward p ↔ 0 ≤ d.cross p * d.cross e := by
  refine ⟨_, halfLineTowards_eq hd, fun p => ?_⟩
  rcases h.lt_or_gt with hneg | hpos
  · rw [if_neg fun h' => hneg.not_ge h'.1, inward_halfLine_right, Point.sub_origin,
      ← mul_nonneg_iff_of_pos_right (neg_pos.2 hneg), neg_mul_neg]
  · rw [if_pos ⟨hpos.le, hahead⟩, inward_halfLine_left, Point.sub_origin,
      mul_nonneg_iff_of_pos_right hpos]

/-- A half-line towards a perpendicular has on its inner side what is in the direction of the
perpendicular. -/
theorem Segment.exists_halfLineTowards_eq {d e : Point Rat} (h : d.Perpendicular e) :
    ∃ side, Segment.halfLineTowards .origin d e = Segment.halfLine .origin d side ∧
      ∀ p, 0 ≤ (Segment.halfLine .origin d side).inward p ↔ 0 ≤ p.dot e := by
  -- the two turns from `d` have the same sign when the point is on the same side as `e`
  have hprod : ∀ p : Point Rat, d.cross p * d.cross e = d.dot d * p.dot e := by
    intro p
    have hdot := h.dot_eq_zero
    simp only [Point.cross, Point.dot] at hdot ⊢
    linear_combination -(p.x * d.x + p.y * d.y) * hdot
  have hne : d.cross e ≠ 0 := fun hzero => by
    have := hprod e
    rw [hzero, mul_zero] at this
    exact (mul_pos h.left_pos h.right_pos).ne this
  obtain ⟨side, heq, hinward⟩ :=
    exists_halfLineTowards_eq_of_ahead h.left_pos hne h.symm.dot_eq_zero.ge
  refine ⟨side, heq, fun p => ?_⟩
  rw [hinward, hprod, mul_nonneg_iff_of_pos_left h.left_pos]

/-- A half-line towards a perpendicular contains what is in the direction of both. -/
theorem Segment.contains_halfLineTowards_iff {d e p : Point Rat} (h : d.Perpendicular e) :
    (Segment.halfLineTowards .origin d e).contains p = true ↔ 0 ≤ p.dot d ∧ 0 ≤ p.dot e := by
  obtain ⟨side, heq, hinward⟩ := exists_halfLineTowards_eq h
  rw [heq, contains_halfLine_origin_iff h.left_pos, hinward, and_comm]

/-- What a boundary does to points : it is a positive multiple of `height` away from them, and
reaches as far as those with the property `level`. -/
structure Segment.Edge (b : Segment Rat) (height : Point Rat → Rat) (level : Point Rat → Prop) :
    Prop where
  inward : ∃ k, 0 < k ∧ ∀ p, b.inward p = k * height p
  reaches : ∀ p, b.reaches (b.foot p) = true ↔ level p

namespace Segment

theorem Edge.inward_nonneg_iff {b : Segment Rat} {height : Point Rat → Rat}
    {level : Point Rat → Prop} (h : b.Edge height level) {p : Point Rat} :
    0 ≤ b.inward p ↔ 0 ≤ height p := by
  obtain ⟨k, hk, hinward⟩ := h.inward
  rw [hinward, mul_nonneg_iff_of_pos_left hk]

theorem Edge.inward_eq_zero_iff {b : Segment Rat} {height : Point Rat → Rat}
    {level : Point Rat → Prop} (h : b.Edge height level) {p : Point Rat} :
    b.inward p = 0 ↔ height p = 0 := by
  obtain ⟨k, hk, hinward⟩ := h.inward
  rw [hinward, mul_eq_zero, or_iff_right hk.ne']

theorem Edge.of_eq {b : Segment Rat} {height height' : Point Rat → Rat} {level : Point Rat → Prop}
    (h : b.Edge height level) (heq : ∀ p, height p = height' p) : b.Edge height' level :=
  (funext heq : height = height') ▸ h

/-- The edge across a unit axis at the height `k`, of half-length `s`. -/
theorem edge_closed {axis : Point Rat} (hunit : axis.dot axis = 1) (k : Rat) {s : Rat}
    (hs : 0 < s) {a b : Point Rat} (ha : a = ⟨k * axis.x - s * axis.y, k * axis.y + s * axis.x⟩)
    (hb : b = ⟨k * axis.x + s * axis.y, k * axis.y - s * axis.x⟩) :
    (closed a b).Edge (fun p => p.dot axis - k)
      fun p => -s ≤ axis.cross p ∧ axis.cross p ≤ s := by
  simp only [Point.dot] at hunit
  have hlength : (b - a).dot (b - a) = 2 * s * (2 * s) := by
    rw [ha, hb]
    simp only [Point.dot, Point.x_sub, Point.y_sub]
    linear_combination 4 * s * s * hunit
  have hfoot : ∀ p, (p - a).dot (b - a) = 2 * s * (s - axis.cross p) := fun p => by
    rw [ha, hb]
    simp only [Point.dot, Point.cross, Point.x_sub, Point.y_sub]
    linear_combination 2 * s * s * hunit
  have htwo : 0 < 2 * s := by linarith
  refine ⟨⟨2 * s, htwo, fun p => ?_⟩, fun p => ?_⟩
  · rw [ha, hb]
    simp only [inward, closed, Extent.side, direction, Point.cross, Point.dot, Point.x_sub,
      Point.y_sub]
    linear_combination -2 * s * k * hunit
  · rw [reaches_foot_closed (hlength ▸ mul_pos htwo htwo), hlength, hfoot,
      mul_nonneg_iff_of_pos_left htwo, mul_le_mul_iff_right₀ htwo]
    constructor
    · rintro ⟨h, h'⟩
      exact ⟨by linarith, by linarith⟩
    · rintro ⟨h, h'⟩
      exact ⟨by linarith, by linarith⟩

/-- The edge along a unit axis, from a place level with the origin. -/
theorem edge_halfLine {axis : Point Rat} (hunit : axis.dot axis = 1) {o : Point Rat}
    (ho : o.dot axis = 0) (side : Side) :
    (halfLine o axis side).Edge (halfLine o axis side).inward fun p => 0 ≤ p.dot axis := by
  refine ⟨⟨1, one_pos, fun p => (one_mul _).symm⟩, fun p => ?_⟩
  have hdot : (p - o).dot axis = p.dot axis - o.dot axis := by
    simp only [Point.dot, Point.x_sub, Point.y_sub]
    ring
  rw [reaches_foot_halfLine (hunit ▸ one_pos), hdot, ho, sub_zero]

end Segment

/-! ## Shapes -/

namespace Point

theorem unit_right : (right : Point Rat).dot right = 1 := by decide +kernel

theorem unit_left : (left : Point Rat).dot left = 1 := by decide +kernel

theorem unit_up : (up : Point Rat).dot up = 1 := by decide +kernel

theorem unit_down : (down : Point Rat).dot down = 1 := by decide +kernel

end Point

namespace Region

/-- The boundaries of a region are the edges of a set of points. -/
structure Bounds (r : Region Rat) (P : Point Rat → Prop) : Prop where
  /-- Points on the inner side of every boundary are in the set. -/
  of_inward : ∀ p, (∀ b ∈ r.boundaries, 0 ≤ b.inward p) → P p
  /-- Points on a boundary are in the set. -/
  of_reaches : ∀ b ∈ r.boundaries, ∀ p, b.inward p = 0 → b.reaches (b.foot p) = true → P p
  /-- Every boundary contains the set. -/
  contains : ∀ p, P p → ∀ b ∈ r.boundaries, 0 ≤ b.inward p ∧ b.reaches (b.foot p) = true

theorem Bounds.contains_of {r : Region Rat} {P : Point Rat → Prop} (h : r.Bounds P) {p : Point Rat}
    (hp : P p) : r.contains p = true :=
  contains_iff.2 fun b hb => Segment.contains_iff.2 (h.contains p hp b hb)

theorem Bounds.tight {r : Region Rat} {P : Point Rat → Prop} (h : r.Bounds P) : r.Tight where
  contains_of_inward hp := h.contains_of (h.of_inward _ hp)
  contains_of_reaches hb _ hzero hreaches := h.contains_of (h.of_reaches _ hb _ hzero hreaches)

theorem Bounds.contains_iff {r : Region Rat} {P : Point Rat → Prop} (h : r.Bounds P)
    {p : Point Rat} : r.contains p = true ↔ P p :=
  ⟨fun hp => h.of_inward p (h.tight.contains_iff.1 hp), h.contains_of⟩

/-- A quadrant between perpendicular axes has what is in the direction of both. -/
theorem bounds_quadrant {d e : Point Rat} (h : d.Perpendicular e) :
    (quadrant d e).Bounds fun p => 0 ≤ p.dot d ∧ 0 ≤ p.dot e := by
  obtain ⟨side, hfirst, hinward⟩ := Segment.exists_halfLineTowards_eq h
  obtain ⟨side', hsecond, hinward'⟩ := Segment.exists_halfLineTowards_eq h.symm
  have hreaches : ∀ p, (Segment.halfLine .origin d side).reaches
      ((Segment.halfLine .origin d side).foot p) = true ↔ 0 ≤ p.dot d := fun p => by
    rw [Segment.reaches_foot_halfLine h.left_pos, Point.sub_origin]
  have hreaches' : ∀ p, (Segment.halfLine .origin e side').reaches
      ((Segment.halfLine .origin e side').foot p) = true ↔ 0 ≤ p.dot e := fun p => by
    rw [Segment.reaches_foot_halfLine h.right_pos, Point.sub_origin]
  rw [quadrant, hfirst, hsecond]
  refine ⟨fun p hp => ?_, List.forall_mem_cons.2 ⟨fun p hzero hfoot => ?_,
    List.forall_mem_singleton.2 fun p hzero hfoot => ?_⟩, fun p hp => ?_⟩
  · simp only [List.forall_mem_cons, hinward, hinward'] at hp
    exact ⟨hp.2.1, hp.1⟩
  · exact ⟨(hreaches p).1 hfoot, (hinward p).1 hzero.ge⟩
  · exact ⟨(hinward' p).1 hzero.ge, (hreaches' p).1 hfoot⟩
  · simp only [List.forall_mem_cons, hinward, hinward', hreaches, hreaches']
    exact ⟨hp.symm, hp, nofun⟩

/-- The boundaries of a band along a unit axis are edges of it : its base, and the half-lines on its
left and on its right. -/
theorem edges_axisBand {axis : Point Rat} (hunit : axis.dot axis = 1) {slop : Rat}
    (hslop : 0 < slop) :
    (Segment.closed (Point.scale ⟨-axis.y, axis.x⟩ slop) (Point.scale ⟨axis.y, -axis.x⟩ slop)).Edge
        (fun p => p.dot axis - 0) (fun p => -slop ≤ axis.cross p ∧ axis.cross p ≤ slop) ∧
      (Segment.halfLine (Point.scale ⟨-axis.y, axis.x⟩ slop) axis .right).Edge
        (fun p => slop - axis.cross p) (fun p => 0 ≤ p.dot axis) ∧
      (Segment.halfLine (Point.scale ⟨axis.y, -axis.x⟩ slop) axis .left).Edge
        (fun p => axis.cross p + slop) fun p => 0 ≤ p.dot axis := by
  simp only [Point.dot] at hunit
  refine ⟨Segment.edge_closed hunit 0 hslop (by simp [Point.scale, mul_comm])
    (by simp [Point.scale, mul_comm]), ?_, ?_⟩
  · refine (Segment.edge_halfLine hunit ?_ .right).of_eq fun p => ?_
    · simp only [Point.dot, Point.scale]
      ring
    · rw [Segment.inward_halfLine_right]
      simp only [Point.cross, Point.scale, Point.x_sub, Point.y_sub]
      linear_combination slop * hunit
  · refine (Segment.edge_halfLine hunit ?_ .left).of_eq fun p => ?_
    · simp only [Point.dot, Point.scale]
      ring
    · rw [Segment.inward_halfLine_left]
      simp only [Point.cross, Point.scale, Point.x_sub, Point.y_sub]
      linear_combination slop * hunit

/-- A band along a unit axis has what is in its direction, and no further than the slop from it. -/
theorem bounds_axisBand {axis left right : Point Rat} (hunit : axis.dot axis = 1)
    (hleft : left = ⟨-axis.y, axis.x⟩) (hright : right = ⟨axis.y, -axis.x⟩) {slop : Rat}
    (hslop : 0 < slop) : (axisBand left right axis slop).Bounds fun p =>
      0 ≤ p.dot axis ∧ -slop ≤ axis.cross p ∧ axis.cross p ≤ slop := by
  subst hleft hright
  obtain ⟨hbase, hleft, hright⟩ := edges_axisBand hunit hslop
  refine ⟨fun p hp => ?_, ?_, fun p hp => ?_⟩
  · simp only [axisBand, List.forall_mem_cons, hbase.inward_nonneg_iff, hleft.inward_nonneg_iff,
      hright.inward_nonneg_iff] at hp
    obtain ⟨hheight, hupper, hlower, -⟩ := hp
    exact ⟨by linarith, by linarith, by linarith⟩
  · refine List.forall_mem_cons.2 ⟨fun p hzero hreaches => ?_, List.forall_mem_cons.2
      ⟨fun p hzero hreaches => ?_, List.forall_mem_singleton.2 fun p hzero hreaches => ?_⟩⟩
    · rw [hbase.inward_eq_zero_iff] at hzero
      exact ⟨by linarith, (hbase.reaches p).1 hreaches⟩
    · rw [hleft.inward_eq_zero_iff] at hzero
      exact ⟨(hleft.reaches p).1 hreaches, by linarith, by linarith⟩
    · rw [hright.inward_eq_zero_iff] at hzero
      exact ⟨(hright.reaches p).1 hreaches, by linarith, by linarith⟩
  · obtain ⟨hheight, hlower, hupper⟩ := hp
    simp only [axisBand, List.forall_mem_cons, hbase.inward_nonneg_iff, hleft.inward_nonneg_iff,
      hright.inward_nonneg_iff, hbase.reaches, hleft.reaches, hright.reaches]
    exact ⟨⟨by linarith, hlower, hupper⟩, ⟨by linarith, hheight⟩, ⟨by linarith, hheight⟩,
      List.forall_mem_nil _⟩

/-- The square around the origin has what is no further than its size from either axis. -/
theorem bounds_square {size : Rat} (hsize : 0 < size) : (square size).Bounds fun p =>
    (-size ≤ p.x ∧ p.x ≤ size) ∧ -size ≤ p.y ∧ p.y ≤ size := by
  have htop := Segment.edge_closed Point.unit_down (-size) hsize (a := ⟨size, size⟩)
    (b := ⟨-size, size⟩) (by simp [Point.down]) (by simp [Point.down])
  have hleft := Segment.edge_closed Point.unit_right (-size) hsize (a := ⟨-size, size⟩)
    (b := ⟨-size, -size⟩) (by simp [Point.right]) (by simp [Point.right])
  have hbottom := Segment.edge_closed Point.unit_up (-size) hsize (a := ⟨-size, -size⟩)
    (b := ⟨size, -size⟩) (by simp [Point.up]) (by simp [Point.up])
  have hright := Segment.edge_closed Point.unit_left (-size) hsize (a := ⟨size, -size⟩)
    (b := ⟨size, size⟩) (by simp [Point.left]) (by simp [Point.left])
  have hdot : ∀ p : Point Rat, p.dot .down = -p.y ∧ p.dot .right = p.x ∧ p.dot .up = p.y ∧
      p.dot .left = -p.x := fun p => by
    simp [Point.dot, Point.down, Point.right, Point.up, Point.left]
  have hcross : ∀ p : Point Rat, Point.down.cross p = p.x ∧ Point.right.cross p = p.y ∧
      Point.up.cross p = -p.x ∧ Point.left.cross p = -p.y := fun p => by
    simp [Point.cross, Point.down, Point.right, Point.up, Point.left]
  simp only [hdot, hcross] at htop hleft hbottom hright
  refine ⟨fun p hp => ?_, ?_, fun p hp => ?_⟩
  · simp only [square, List.forall_mem_cons, htop.inward_nonneg_iff, hleft.inward_nonneg_iff,
      hbottom.inward_nonneg_iff, hright.inward_nonneg_iff] at hp
    obtain ⟨htop, hleft, hbottom, hright, -⟩ := hp
    exact ⟨⟨by linarith, by linarith⟩, by linarith, by linarith⟩
  · refine List.forall_mem_cons.2 ⟨fun p hzero hreaches => ?_, List.forall_mem_cons.2
      ⟨fun p hzero hreaches => ?_, List.forall_mem_cons.2 ⟨fun p hzero hreaches => ?_,
        List.forall_mem_singleton.2 fun p hzero hreaches => ?_⟩⟩⟩
    · rw [htop.inward_eq_zero_iff] at hzero
      exact ⟨(htop.reaches p).1 hreaches, by linarith, by linarith⟩
    · rw [hleft.inward_eq_zero_iff] at hzero
      exact ⟨⟨by linarith, by linarith⟩, (hleft.reaches p).1 hreaches⟩
    · rw [hbottom.inward_eq_zero_iff] at hzero
      obtain ⟨hlower, hupper⟩ := (hbottom.reaches p).1 hreaches
      exact ⟨⟨by linarith, by linarith⟩, by linarith, by linarith⟩
    · rw [hright.inward_eq_zero_iff] at hzero
      obtain ⟨hlower, hupper⟩ := (hright.reaches p).1 hreaches
      exact ⟨⟨by linarith, by linarith⟩, by linarith, by linarith⟩
  · obtain ⟨⟨hxlow, hxhigh⟩, hylow, hyhigh⟩ := hp
    simp only [square, List.forall_mem_cons, htop.inward_nonneg_iff, hleft.inward_nonneg_iff,
      hbottom.inward_nonneg_iff, hright.inward_nonneg_iff, htop.reaches, hleft.reaches,
      hbottom.reaches, hright.reaches]
    exact ⟨⟨by linarith, hxlow, hxhigh⟩, ⟨by linarith, hylow, hyhigh⟩,
      ⟨by linarith, by linarith, by linarith⟩, ⟨by linarith, by linarith, by linarith⟩,
      List.forall_mem_nil _⟩

/-- A half plane is what its boundary has on its inner side. -/
theorem tight_fullLine (o d : Point Rat) (side : Side) :
    (Region.mk [Segment.fullLine o d side]).Tight := by
  have hcontains : ∀ {p : Point Rat}, 0 ≤ (Segment.fullLine o d side).inward p →
      (Region.mk [Segment.fullLine o d side]).contains p = true := by
    intro p hp
    rw [contains_iff]
    simpa only [List.forall_mem_singleton, Segment.contains_iff] using ⟨hp, rfl⟩
  refine ⟨fun hp => hcontains (hp _ List.mem_cons_self), fun hb p hzero _ => ?_⟩
  obtain rfl := List.mem_singleton.1 hb
  exact hcontains hzero.ge

theorem tight_everywhere : (everywhere : Region Rat).Tight :=
  ⟨fun _ => rfl, fun _ _ _ _ => rfl⟩

end Region

/-! ## Sectors -/

/-- The tolerances that regions are made with are positive. -/
structure Settings.PositiveSlops (s : Settings Rat) : Prop where
  axisSlop : 0 < s.axisSlop
  originSlop : 0 < s.originSlop
  relaxedOriginSlop : 0 < s.relaxedOriginSlop

theorem Sector.tight_region {settings : Settings Rat} (h : settings.PositiveSlops) (s : Sector) :
    (s.region settings).Tight := by
  cases s
  case topLeft => exact (Region.bounds_quadrant (by constructor <;> decide +kernel)).tight
  case topRight => exact (Region.bounds_quadrant (by constructor <;> decide +kernel)).tight
  case bottomLeft => exact (Region.bounds_quadrant (by constructor <;> decide +kernel)).tight
  case bottomRight => exact (Region.bounds_quadrant (by constructor <;> decide +kernel)).tight
  case onAxisWithPositiveX =>
    exact (Region.bounds_axisBand Point.unit_right rfl rfl h.axisSlop).tight
  case onAxisWithNegativeX =>
    exact (Region.bounds_axisBand Point.unit_left rfl rfl h.axisSlop).tight
  case onAxisWithPositiveY =>
    exact (Region.bounds_axisBand Point.unit_up rfl rfl h.axisSlop).tight
  case onAxisWithNegativeY =>
    exact (Region.bounds_axisBand Point.unit_down rfl rfl h.axisSlop).tight
  case origin => exact (Region.bounds_square h.originSlop).tight
  case relaxedOrigin => exact (Region.bounds_square h.relaxedOriginSlop).tight
  case leftHalf => exact Region.tight_fullLine _ _ _
  case rightHalf => exact Region.tight_fullLine _ _ _
  case topHalf => exact Region.tight_fullLine _ _ _
  case bottomHalf => exact Region.tight_fullLine _ _ _
  case anywhere => exact Region.tight_everywhere

end CurveSketch
