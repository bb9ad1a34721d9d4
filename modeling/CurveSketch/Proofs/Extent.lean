import CurveSketch.Drawing
import CurveSketch.Proofs.Quadrant

/-!
# Coordinates within bounds

What is looked at in a drawing is its vertices, its turning points and the crossings of its lines.
A turning point that is found is a vertex, and a crossing lies between two vertices of a straight
piece. If the coordinates are at most `2 ^ 1000` in magnitude, then no operation on the way to a
crossing overflows (`within_lerp`), so crossings are finite as the vertices are
(`Polyline.Within.finite_of_mem_crossings`).
-/

namespace CurveSketch

open Binary64 (Within)

/-! ## Bounded coordinates -/

/-- The greatest magnitude of a coordinate, the thousandth power of two. -/
def coordinateLimit : Float :=
  .ofNat (2 ^ 1000)

/-- A coordinate of at most the greatest magnitude; so it is finite. -/
def Bounded (x : Float) : Prop :=
  -coordinateLimit ≤ x ∧ x ≤ coordinateLimit

instance (x : Float) : Decidable (Bounded x) :=
  inferInstanceAs (Decidable (-coordinateLimit ≤ x ∧ x ≤ coordinateLimit))

theorem toBits_coordinateLimit : coordinateLimit.toModel.toBits = 0x7E70000000000000 := by
  decide +kernel

theorem toBits_neg_coordinateLimit :
    (-coordinateLimit).toModel.toBits = 0xFE70000000000000 := by
  decide +kernel

theorem unpack_coordinateLimit :
    coordinateLimit.toModel.unpack = .finite .positive (2 ^ 52) 948 (by decide) := by
  rw [Float.Model.unpack, toBits_coordinateLimit]
  rfl

theorem unpack_neg_coordinateLimit :
    (-coordinateLimit).toModel.unpack = .finite .negative (2 ^ 52) 948 (by decide) := by
  rw [Float.Model.unpack, toBits_neg_coordinateLimit]
  rfl

theorem Bounded.within {x : Float} (h : Bounded x) : Within 948 (.ofFloat x) := by
  have hlow : (-coordinateLimit).toModel.unpack.le x.toModel.unpack = true :=
    of_decide_eq_true h.1
  have hhigh : x.toModel.unpack.le coordinateLimit.toModel.unpack = true :=
    of_decide_eq_true h.2
  rw [unpack_neg_coordinateLimit] at hlow
  rw [unpack_coordinateLimit] at hhigh
  exact Rounding.within_of_le hlow hhigh

/-- A point with coordinates within `2 ^ (53 + k)`. -/
structure Point.Within (k : Int) (p : Point Binary64) : Prop where
  x : Binary64.Within k p.x
  y : Binary64.Within k p.y

theorem Point.Within.finite {k : Int} {p : Point Binary64} (h : p.Within k) : p.Finite :=
  ⟨h.x.isFinite, h.y.isFinite⟩

theorem within_one_sub {t : Binary64} (hlow : 0 ≤ t) (hhigh : t ≤ 1) : Within (-50) (1 - t) := by
  have hone : Within (-52) (1 : Binary64) := Binary64.within_of_unit (by decide) (by decide)
  exact hone.sub (Binary64.within_of_unit hlow hhigh) (by decide) (by decide) (by decide)

theorem within_part {a t : Binary64} (ha : Within 948 a) (ht : Within (-50) t) :
    Within 952 (a * t) :=
  ha.mul ht (by decide) (by decide) (by decide)

/-- Between two bounded coordinates no operation overflows. -/
theorem within_lerp {a b t : Binary64} (ha : Within 948 a) (hb : Within 948 b) (hlow : 0 ≤ t)
    (hhigh : t ≤ 1) : Within 954 (a * (1 - t) + b * t) := by
  have hleft := within_part ha (within_one_sub hlow hhigh)
  have hright := within_part hb ((Binary64.within_of_unit hlow hhigh).mono (by decide))
  exact hleft.add hright (by decide) (by decide) (by decide)

theorem Point.Within.lerp {a b : Point Binary64} {t : Binary64} (ha : a.Within 948)
    (hb : b.Within 948) (hlow : 0 ≤ t) (hhigh : t ≤ 1) : (a.lerp b t).Within 954 :=
  ⟨within_lerp ha.x hb.x hlow hhigh, within_lerp ha.y hb.y hlow hhigh⟩

/-! ## Points of polylines -/

section

variable {K : Type} [Scalar K]

namespace Polyline

/-- Points too close to others are dropped, and none is added. -/
theorem separate_sublist (kept points : List (Point K)) :
    (separate kept points).Sublist points := by
  induction points generalizing kept with
  | nil => exact .slnil
  | cons p points ih =>
    rw [separate]
    split
    · exact .cons_cons p (ih _)
    · exact .cons p (ih _)

/-- A crossing lies on a straight piece of the first line. -/
theorem exists_of_mem_crossings {a b : Polyline K} {p : Point K} (h : p ∈ a.crossings b) :
    ∃ u ∈ a.points, ∃ v ∈ a.points, ∃ t : K, 0 ≤ t ∧ t ≤ 1 ∧ p = u.lerp v t := by
  obtain ⟨piece, hpiece, hp⟩ := List.mem_flatMap.1 ((separate_sublist _ _).subset h)
  obtain ⟨t, ht, rfl⟩ := List.mem_map.1 hp
  obtain ⟨other, -, hcrossing⟩ := List.mem_filterMap.1 (List.mem_mergeSort.1 ht)
  have hon : onPiece t = true := by
    unfold pieceCrossing? at hcrossing
    split at hcrossing
    · exact absurd hcrossing nofun
    · split_ifs at hcrossing with hboth
      obtain rfl := Option.some.inj hcrossing
      exact (Bool.and_eq_true _ _ ▸ hboth).1
  rw [onPiece, Bool.and_eq_true, decide_eq_true_eq, decide_eq_true_eq] at hon
  have hends := mem_of_mem_neighbours hpiece
  exact ⟨piece.1, hends.1, piece.2, hends.2, t, hon.1, hon.2, rfl⟩

/-- A turning point that is found is a vertex. -/
theorem mem_of_mem_turnsAfter {rise : K} {top last : Point K} {points : List (Point K)}
    {t : TurningPoint K} (h : t ∈ turnsAfter rise top last points) :
    t.point = top ∨ t.point ∈ points := by
  induction points generalizing rise top last with
  | nil => exact absurd h List.not_mem_nil
  | cons p points ih =>
    simp only [turnsAfter] at h
    have hrest : ∀ {rise : K}, t ∈ turnsAfter rise (if last.y == p.y then top else p) p points →
        t.point = top ∨ t.point ∈ p :: points := by
      intro rise h
      rcases ih h with h | h
      · split at h
        · exact .inl h
        · exact .inr (h ▸ List.mem_cons_self)
      · exact .inr (List.mem_cons_of_mem _ h)
    generalize (if last.y == p.y then top else p) = next at h hrest
    split_ifs at h
    · exact hrest h
    · rcases List.mem_cons.1 h with rfl | h
      · exact .inl rfl
      · exact hrest h
    · rcases List.mem_cons.1 h with rfl | h
      · exact .inl rfl
      · exact hrest h
    · exact hrest h

/-- The turning points of a list of vertices are among them. -/
theorem mem_of_mem_turns {points : List (Point K)} {t : TurningPoint K} (h : t ∈ turns points) :
    t.point ∈ points := by
  cases points with
  | nil => exact absurd h List.not_mem_nil
  | cons p points =>
    rcases mem_of_mem_turnsAfter h with h | h
    · exact h ▸ List.mem_cons_self
    · exact List.mem_cons_of_mem _ h

theorem mem_points_leftToRight {l : Polyline K} {p : Point K} :
    p ∈ l.leftToRight.points ↔ p ∈ l.points := by
  unfold leftToRight
  split
  · exact List.mem_reverse
  · exact Iff.rfl

theorem turning_leftToRight (l : Polyline K) : l.leftToRight.turning = l.turning := by
  unfold leftToRight
  split <;> rfl

end Polyline

/-- The lines of a canonical drawing are those given, each drawn from left to right. -/
theorem Drawing.mem_canonical {lines : List (Polyline K)} {l : Polyline K} :
    l ∈ (canonical lines).lines ↔ ∃ l' ∈ lines, l'.leftToRight = l := by
  rw [canonical, List.mem_mergeSort, List.mem_map]

theorem Drawing.length_canonical (lines : List (Polyline K)) :
    (canonical lines).lines.length = lines.length := by
  rw [canonical, List.length_mergeSort, List.length_map]

end

/-! ## Polylines within bounds -/

/-- A polyline with vertices and turning points within `2 ^ (53 + k)`. -/
structure Polyline.Within (k : Int) (l : Polyline Binary64) : Prop where
  points : ∀ p ∈ l.points, p.Within k
  turning : ∀ t ∈ l.turning, t.point.Within k

namespace Polyline.Within

variable {k : Int}

theorem make {points : List (Point Binary64)} {turning : List (TurningPoint Binary64)}
    (hpoints : ∀ p ∈ points, p.Within k) (hturning : ∀ t ∈ turning, t.point.Within k) :
    (Polyline.make points turning).Within k :=
  ⟨hpoints, fun t ht => hturning t (List.mem_mergeSort.1 ht)⟩

theorem withTurningPoints {points : List (Point Binary64)} (h : ∀ p ∈ points, p.Within k) :
    (Polyline.withTurningPoints points).Within k :=
  make h fun _ ht => h _ (mem_of_mem_turns ht)

theorem leftToRight {l : Polyline Binary64} (h : l.Within k) : l.leftToRight.Within k := by
  refine ⟨fun p hp => h.points p (mem_points_leftToRight.1 hp), fun t ht => ?_⟩
  rw [turning_leftToRight] at ht
  exact h.turning t ht

theorem finite_of_mem_crossings {a b : Polyline Binary64} (h : a.Within 948) {p : Point Binary64}
    (hp : p ∈ a.crossings b) : p.Finite := by
  obtain ⟨u, hu, v, hv, t, hlow, hhigh, rfl⟩ := exists_of_mem_crossings hp
  exact ((h.points u hu).lerp (h.points v hv) hlow hhigh).finite

end Polyline.Within

end CurveSketch
