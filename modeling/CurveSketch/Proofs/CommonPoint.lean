import CurveSketch.Proofs.ExactCrossing

/-!
# The common point of two boundaries

A boundary is carried by a line, of which it is a segment, a half-line or the whole, and the line
has a closed half plane on its inner side. Over the rationals, two boundaries cross just if they
are not parallel and the one point that their lines have in common belongs to both. The crossing
that is found is that point, at its parameter along the other boundary, with a note whether the
other boundary stops in the inner half plane (`Segment.crossing?_at_common_point`).

Here lines and half planes are the points reached from the start of a boundary along its direction
and its normal, so that the equations that are solved for a crossing are no part of what is said.
-/

namespace CurveSketch

/-! ## Parallel displacements -/

namespace Point

variable {a b : Point Rat}

/-- One of two displacements is a multiple of the other; so the zero displacement is parallel to
all. -/
def Parallel (a b : Point Rat) : Prop :=
  (∃ k, b = a.scale k) ∨ ∃ k, a = b.scale k

/-- Displacements are parallel if they span no area. -/
theorem parallel_iff_cross_eq_zero : a.Parallel b ↔ a.cross b = 0 := by
  constructor
  · rintro (⟨k, rfl⟩ | ⟨k, rfl⟩)
    · simp only [cross, scale]
      ring
    · simp only [cross, scale]
      ring
  · intro h
    by_cases hzero : a.dot a = 0
    · obtain ⟨hx, hy⟩ := mul_self_add_mul_self_eq_zero.1 hzero
      exact .inr ⟨0, Point.ext_iff.2 ⟨hx.trans (mul_zero b.x).symm, hy.trans (mul_zero b.y).symm⟩⟩
    · -- the factor is that of the projection of `b` to `a`
      have hfactor := div_mul_cancel₀ (a.dot b) hzero
      refine .inl ⟨a.dot b / a.dot a, Point.ext_iff.2 ⟨?_, ?_⟩⟩
      all_goals
        refine mul_right_cancel₀ hzero ?_
        generalize a.dot b / a.dot a = k at hfactor ⊢
        simp only [cross, dot, scale] at h hfactor ⊢
      · linear_combination -a.x * hfactor - a.y * h
      · linear_combination -a.y * hfactor + a.x * h

end Point

/-- The parameters that belong to a boundary. -/
def Extent.params : Extent → Set Rat
  | closed => Set.Icc 0 1
  | halfLine _ => Set.Ici 0
  | fullLine _ => Set.univ

namespace Segment

variable {s other : Segment Rat} {p : Point Rat} {t u : Rat}

/-! ## The line of a boundary -/

/-- The line that carries a boundary. -/
def carrier (s : Segment Rat) : Set (Point Rat) :=
  {p | ∃ t, p = s.start + s.direction.scale t}

/-- The points of a boundary. -/
def points (s : Segment Rat) : Set (Point Rat) :=
  {p | ∃ t ∈ s.extent.params, p = s.start + s.direction.scale t}

/-- The closed half plane on the inner side of a boundary's line. -/
def innerHalf (s : Segment Rat) : Set (Point Rat) :=
  {p | ∃ q ∈ s.carrier, ∃ a, 0 ≤ a ∧ p = q + s.normal.scale a}

theorem pointAt_eq (s : Segment Rat) (t : Rat) : s.pointAt t = s.start + s.direction.scale t := by
  refine Point.ext_iff.2 ⟨?_, ?_⟩
  · change s.start.x * (1 - t) + s.stop.x * t = s.start.x + (s.stop.x - s.start.x) * t
    ring
  · change s.start.y * (1 - t) + s.stop.y * t = s.start.y + (s.stop.y - s.start.y) * t
    ring

theorem pointAt_mem_carrier (s : Segment Rat) (t : Rat) : s.pointAt t ∈ s.carrier :=
  ⟨t, pointAt_eq s t⟩

theorem reaches_iff_mem_params : s.reaches t = true ↔ t ∈ s.extent.params := by
  unfold reaches
  cases s.extent <;> simp [Extent.boundedAtStart, Extent.boundedAtStop, Extent.params]

/-- The inner half plane has the points that are not outside. -/
theorem mem_innerHalf_iff (h : s.start ≠ s.stop) : p ∈ s.innerHalf ↔ 0 ≤ s.inward p := by
  have hlength := direction_dot_pos h
  constructor
  · rintro ⟨q, ⟨t, rfl⟩, a, ha, rfl⟩
    rw [← pointAt_eq, inward_add_normal, inward_pointAt, zero_add]
    exact mul_nonneg ha hlength.le
  · intro hp
    exact ⟨_, pointAt_mem_carrier s _, _, div_nonneg hp hlength.le,
      (pointAt_foot_add_normal h p).symm⟩

/-! ## Crossings -/

/-- Two lines that are not parallel have one point in common. -/
theorem carrier_inter_carrier (hcross : s.direction.cross other.direction ≠ 0)
    (hpoint : s.pointAt t = other.pointAt u) : s.carrier ∩ other.carrier = {other.pointAt u} := by
  refine Set.Subset.antisymm ?_ (Set.singleton_subset_iff.2
    ⟨hpoint ▸ pointAt_mem_carrier s t, pointAt_mem_carrier other u⟩)
  rintro q ⟨⟨t', hq⟩, u', hq'⟩
  rw [← pointAt_eq] at hq hq'
  have hparams : crossingParams s.start s.stop other.start other.stop = some (t, u) :=
    crossingParams_eq_some_iff.2 ⟨hcross, hpoint⟩
  have hparams' : crossingParams s.start s.stop other.start other.stop = some (t', u') :=
    crossingParams_eq_some_iff.2 ⟨hcross, hq.symm.trans hq'⟩
  obtain ⟨-, rfl⟩ := Prod.mk.inj (Option.some.inj (hparams.symm.trans hparams'))
  exact hq'

/-- A crossing is the one point that the lines of the boundaries have in common. -/
theorem carrier_inter_carrier_of_crossing? {c : Crossing Rat} (h : s.crossing? other = some c) :
    s.carrier ∩ other.carrier = {other.pointAt c.param} ∧ other.pointAt c.param ∈ s.points ∧
      other.pointAt c.param ∈ other.points := by
  obtain ⟨hcross, ⟨t, hpoint, hreach⟩, hreach', -⟩ := crossing?_eq_some_iff_exists.1 h
  exact ⟨carrier_inter_carrier hcross hpoint,
    hpoint ▸ ⟨t, reaches_iff_mem_params.1 hreach, pointAt_eq s t⟩,
    c.param, reaches_iff_mem_params.1 hreach', pointAt_eq other c.param⟩

/-- Boundaries that are not parallel cross in every point that they have in common. -/
theorem exists_crossing? (hcross : s.direction.cross other.direction ≠ 0) (hp : p ∈ s.points)
    (hp' : p ∈ other.points) : ∃ c, s.crossing? other = some c := by
  obtain ⟨t, ht, hpoint⟩ := hp
  obtain ⟨u, hu, hpoint'⟩ := hp'
  rw [← pointAt_eq] at hpoint hpoint'
  exact ⟨⟨u, _⟩, crossing?_eq_some_iff_exists.2 ⟨hcross,
    ⟨t, hpoint.symm.trans hpoint', reaches_iff_mem_params.2 ht⟩, reaches_iff_mem_params.2 hu, rfl⟩⟩

/-- In exact arithmetic, two boundaries cross just if they are not parallel and the one common point
of their lines belongs to both. The crossing is that point, and it is noted whether the other
boundary stops in the inner half plane. -/
theorem crossing?_at_common_point (s other : Segment Rat) :
    ((s.crossing? other).isSome = true ↔ ¬s.direction.Parallel other.direction ∧
      ∃ p, s.carrier ∩ other.carrier = {p} ∧ p ∈ s.points ∧ p ∈ other.points) ∧
    ∀ c, s.crossing? other = some c →
      s.carrier ∩ other.carrier = {other.pointAt c.param} ∧ other.pointAt c.param ∈ s.points ∧
        other.pointAt c.param ∈ other.points ∧ (c.inside = true ↔ other.stop ∈ s.innerHalf) := by
  rw [Point.parallel_iff_cross_eq_zero, Option.isSome_iff_exists]
  refine ⟨⟨?_, ?_⟩, fun c hc => ?_⟩
  · rintro ⟨c, hc⟩
    exact ⟨(crossing?_eq_some_iff_exists.1 hc).1, _, carrier_inter_carrier_of_crossing? hc⟩
  · rintro ⟨hcross, p, -, hp, hp'⟩
    exact exists_crossing? hcross hp hp'
  · obtain ⟨hcross, -, -, hinside⟩ := crossing?_eq_some_iff_exists.1 hc
    obtain ⟨hcommon, hs, hother⟩ := carrier_inter_carrier_of_crossing? hc
    refine ⟨hcommon, hs, hother, ?_⟩
    rw [mem_innerHalf_iff (start_ne_stop_of_cross_ne_zero hcross), hinside, decide_eq_true_iff]

/-- A half-line upwards with the left inside, crossed a quarter of the way by a segment that stops to
the right of it. -/
theorem crossing?_at_common_point_leaving :
    let s : Segment Rat := .halfLine .origin .up .left
    let other : Segment Rat := .closed ⟨-1, 1⟩ ⟨3, 3⟩
    s.crossing? other = some ⟨1 / 4, false⟩ ∧ ¬s.direction.Parallel other.direction ∧
      s.carrier ∩ other.carrier = {⟨0, 3 / 2⟩} ∧ ⟨0, 3 / 2⟩ ∈ s.points ∧ ⟨0, 3 / 2⟩ ∈ other.points ∧
      other.stop ∉ s.innerHalf := by
  intro s other
  have hcrossing : s.crossing? other = some ⟨1 / 4, false⟩ :=
    crossing?_eq_some_iff.2 (by decide +kernel)
  have hpoint : other.pointAt (1 / 4) = ⟨0, 3 / 2⟩ := Point.ext_iff.2 (by decide +kernel)
  obtain ⟨hcrosses, hat⟩ := crossing?_at_common_point s other
  obtain ⟨hcommon, hs, hother, hinside⟩ := hat _ hcrossing
  rw [hpoint] at hcommon hs hother
  exact ⟨hcrossing, (hcrosses.1 (hcrossing ▸ rfl)).1, hcommon, hs, hother,
    fun hmem => Bool.false_ne_true (hinside.2 hmem)⟩

end Segment

end CurveSketch
