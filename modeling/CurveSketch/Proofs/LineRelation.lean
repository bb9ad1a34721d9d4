import CurveSketch.Proofs.BetweenCrossings
import CurveSketch.Proofs.Trace

/-!
# Polylines inside, outside and across a region

How a polyline lies to a region is read off its vertices and the boundaries that its pieces cross,
while what is meant are the points it passes through (`Visits`). For a tight region the two agree
(`Region.Tight.relationSound`). Such a region is convex, so a piece between two of its points stays
in it. A boundary is crossed in a point of the region. And a piece that starts outside of the region
and comes into it crosses a boundary on the way, be it only to graze a corner.
-/

namespace CurveSketch

namespace Region

theorem crosses_iff {K : Type} [Scalar K] {r : Region K} {piece : Segment K} :
    r.crosses piece = true ↔ ∃ c, c ∈ r.crossings piece := by
  simp only [crosses, crossings, List.any_eq_true, List.mem_mergeSort, List.mem_filterMap,
    Segment.crosses, Option.isSome_iff_exists]
  constructor
  · rintro ⟨s, hs, c, hc⟩
    exact ⟨c, s, hs, hc⟩
  · rintro ⟨c, s, hs, hc⟩
    exact ⟨s, hs, c, hc⟩

namespace Tight

variable {r : Region Rat} {a b : Point Rat} {t : Rat}

/-- A tight region is convex. -/
theorem contains_lerp (h : r.Tight) (ha : r.contains a = true) (hb : r.contains b = true)
    (h0 : 0 ≤ t) (h1 : t ≤ 1) : r.contains (a.lerp b t) = true := by
  rw [h.contains_iff] at ha hb ⊢
  exact fun s hs => Segment.inward_lerp_nonneg h0 h1 (ha s hs) (hb s hs)

/-- Where a piece crosses a boundary it is in the region. -/
theorem exists_contains_of_crosses (h : r.Tight) (hcrosses : r.crosses (.closed a b) = true) :
    ∃ t, 0 ≤ t ∧ t ≤ 1 ∧ r.contains (a.lerp b t) = true := by
  obtain ⟨c, hc⟩ := crosses_iff.1 hcrosses
  obtain ⟨-, -, -, -, hcontains, hreaches, -⟩ := h.mem_crossings_iff.1 hc
  obtain ⟨h0, h1⟩ := Segment.reaches_closed_iff.1 hreaches
  exact ⟨c.param, h0, h1, hcontains⟩

/-- A piece that comes into the region from outside crosses a boundary. -/
theorem crosses_of_contains_lerp (h : r.Tight) (ha : r.contains a ≠ true) (h0 : 0 ≤ t) (h1 : t ≤ 1)
    (ht : r.contains (a.lerp b t) = true) : r.crosses (.closed a b) = true := by
  have hstart : r.contains (a.lerp b 0) ≠ true := by rwa [Point.lerp_zero]
  have hpos : 0 < t := h0.lt_of_ne fun hzero => hstart (hzero ▸ ht)
  obtain ⟨c, hc, -⟩ := h.exists_entering le_rfl hpos h1 hstart ht
  exact crosses_iff.2 ⟨c, hc⟩

/-- A polyline has a point in the region just if it has a vertex there or crosses a boundary. -/
theorem exists_visited_iff (h : r.Tight) {points : List (Point Rat)} :
    (∃ p, Visits points p ∧ r.contains p = true) ↔
      (∃ p ∈ points, r.contains p = true) ∨
        ∃ piece ∈ neighbours points, r.crosses (.closed piece.1 piece.2) = true := by
  constructor
  · rintro ⟨p, hp | ⟨piece, hpiece, t, h0, h1, rfl⟩, hcontains⟩
    · exact .inl ⟨p, hp, hcontains⟩
    · by_cases hstart : r.contains piece.1 = true
      · exact .inl ⟨piece.1, (mem_of_mem_neighbours hpiece).1, hstart⟩
      · exact .inr ⟨piece, hpiece, h.crosses_of_contains_lerp hstart h0 h1 hcontains⟩
  · rintro (⟨p, hp, hcontains⟩ | ⟨piece, hpiece, hcrosses⟩)
    · exact ⟨p, .inl hp, hcontains⟩
    · obtain ⟨t, h0, h1, hcontains⟩ := h.exists_contains_of_crosses hcrosses
      exact ⟨_, .inr ⟨piece, hpiece, t, h0, h1, rfl⟩, hcontains⟩

/-- A polyline with all vertices in the region stays in it. -/
theorem contains_of_visits (h : r.Tight) {points : List (Point Rat)}
    (hall : ∀ p ∈ points, r.contains p = true) {p : Point Rat} (hp : Visits points p) :
    r.contains p = true := by
  rcases hp with hp | ⟨piece, hpiece, t, h0, h1, rfl⟩
  · exact hall p hp
  · have hends := mem_of_mem_neighbours hpiece
    exact h.contains_lerp (hall _ hends.1) (hall _ hends.2) h0 h1

end Tight

/-! ## The relation -/

/-- The relation found between a region and a polyline says which of the points that the polyline
passes through are in the region. -/
structure RelationSound (r : Region Rat) (l : Polyline Rat) : Prop where
  /-- Outside: none of them, and in no other case. -/
  outside_iff : r.relation l = .outside ↔ ∀ p, Visits l.points p → r.contains p = false
  /-- Inside: all of them. -/
  inside : r.relation l = .inside → ∀ p, Visits l.points p → r.contains p = true
  /-- Otherwise: some. -/
  intersects : r.relation l = .intersects → ∃ p, Visits l.points p ∧ r.contains p = true

variable {r : Region Rat} {l : Polyline Rat}

theorem contains_of_relation_eq_inside (h : r.relation l = .inside) {p : Point Rat}
    (hp : p ∈ l.points) : r.contains p = true := by
  rw [relation] at h
  split_ifs at h with hinside
  exact List.all_eq_true.1 (Bool.and_eq_true_iff.1 hinside).1 p hp

theorem relation_eq_outside_iff (hl : l.points ≠ []) : r.relation l = .outside ↔
    ¬((∃ p ∈ l.points, r.contains p = true) ∨
      ∃ piece ∈ neighbours l.points, r.crosses (.closed piece.1 piece.2) = true) := by
  rw [← List.any_eq_true, ← List.any_eq_true, ← Bool.or_eq_true, relation]
  split_ifs with hinside hsome
  · -- a polyline with all vertices inside has one
    obtain ⟨p, hp⟩ := List.exists_mem_of_ne_nil _ hl
    have hvertex : l.points.any r.contains = true :=
      List.any_eq_true.2 ⟨p, hp, List.all_eq_true.1 (Bool.and_eq_true_iff.1 hinside).1 p hp⟩
    exact iff_of_false nofun fun hnone => hnone (Bool.or_eq_true_iff.2 (.inl hvertex))
  · exact iff_of_false nofun fun hnone => hnone hsome
  · exact iff_of_true rfl hsome

theorem Tight.relationSound (h : r.Tight) (hl : l.points ≠ []) : r.RelationSound l where
  outside_iff := by
    rw [relation_eq_outside_iff hl, ← h.exists_visited_iff, not_exists]
    exact forall_congr' fun p => by rw [not_and, Bool.not_eq_true]
  inside hinside _ hp := h.contains_of_visits (fun _ => contains_of_relation_eq_inside hinside) hp
  intersects hintersects := by
    rw [h.exists_visited_iff]
    by_contra hnone
    rw [(relation_eq_outside_iff hl).2 hnone] at hintersects
    cases hintersects

end Region

/-- In exact arithmetic and with positive slops, how a polyline lies to the region of a sector, or
to one side of a vertical line, is told soundly. -/
theorem Sector.relation_sound {settings : Settings Rat} (h : settings.PositiveSlops)
    {l : Polyline Rat} (hl : l.points ≠ []) :
    (∀ s : Sector, (s.region settings).RelationSound l) ∧
      ∀ x : Rat, (Region.leftOf x).RelationSound l ∧ (Region.rightOf x).RelationSound l := by
  refine ⟨fun s => (tight_region h s).relationSound hl, fun x => ⟨?_, ?_⟩⟩
  · exact (Region.tight_fullLine _ _ _).relationSound hl
  · exact (Region.tight_fullLine _ _ _).relationSound hl

/-- A piece past the origin that has no more than a corner in common with it. -/
theorem Sector.relation_sound_grazed_origin :
    let settings : Settings Rat := ⟨1 / 50, 1 / 4, 1 / 10, 4, 5, 2 / 5⟩
    let l : Polyline Rat := .ofPoints [⟨3 / 8, 1 / 8⟩, ⟨1 / 8, 3 / 8⟩]
    settings.PositiveSlops ∧ l.points ≠ [] ∧
      (origin.region settings).relation l = .intersects ∧
      (∃ p, Visits l.points p ∧ (origin.region settings).contains p = true) ∧
      (bottomLeft.region settings).relation l = .outside ∧
      ∀ p, Visits l.points p → (bottomLeft.region settings).contains p = false := by
  intro settings l
  have hslops : settings.PositiveSlops := by constructor <;> decide +kernel
  have hl : l.points ≠ [] := by decide
  have hcorner : (origin.region settings).relation l = .intersects := by decide +kernel
  have houtside : (bottomLeft.region settings).relation l = .outside := by decide +kernel
  obtain ⟨hsound, -⟩ := relation_sound hslops hl
  exact ⟨hslops, hl, hcorner, (hsound .origin).intersects hcorner, houtside,
    (hsound .bottomLeft).outside_iff.1 houtside⟩

end CurveSketch
