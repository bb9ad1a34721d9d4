import CurveSketch.Classifier
import CurveSketch.Proofs.Binary64

/-!
# The quadrants cover the plane

Every point with finite coordinates is in one of the four quadrants, boundaries included, in
binary64 arithmetic. The boundaries of a quadrant are half-lines along the axes, so each product in
a containment test has a factor `0`, `1` or `-1`, and the sign of the test is that of a coordinate
whatever is rounded. A classifier over the quadrants therefore finds a sector for every finite point
(`Classifier.isSome_classify?`).
-/

namespace CurveSketch

open Float.Model.UnpackedFloat (Sign)
open Binary64 (HasSign)

/-- A point with finite coordinates. -/
structure Point.Finite (p : Point Binary64) : Prop where
  x : p.x.float.isFinite = true
  y : p.y.float.isFinite = true

namespace Segment

/-- The side on which the turn from a boundary has a sign. -/
def sideOf : Sign → Side
  | .positive => .left
  | .negative => .right

/-- A half-line contains the points that its turn and its foot have the signs for. -/
theorem contains_of_hasSign {b : Segment Binary64} {p : Point Binary64} {s : Sign}
    (hextent : b.extent = .halfLine (sideOf s))
    (hturn : HasSign s (b.direction.cross (p - b.start)))
    (hfoot : HasSign .positive ((p - b.start).dot b.direction)) {m : Nat} {e : Int} {hm : 0 < m}
    (hlength : (b.direction.dot b.direction).float.toModel.unpack = .finite .positive m e hm) :
    b.contains p = true := by
  have hfaces : b.facesInside (p - b.start) = true := by
    rw [facesInside, hextent]
    cases s with
    | positive => exact decide_eq_true (Binary64.zero_le_iff.2 hturn)
    | negative => exact decide_eq_true (Binary64.le_zero_iff.2 hturn)
  have hreaches : b.reaches ((p - b.start).dot b.direction / b.direction.dot b.direction) =
      true := by
    rw [reaches, hextent]
    simpa [Extent.boundedAtStart, Extent.boundedAtStop] using
      Binary64.zero_le_iff.2 (hfoot.div hlength)
  simp only [contains, hfaces, hreaches, Bool.and_self]

/-- A direction along the horizontal axis, towards the side with a sign. -/
structure AlongX (s : Sign) (d : Point Binary64) : Prop where
  x : HasSign s d.x
  y : ∀ t, HasSign t d.y
  finite : d.Finite

/-- A direction along the vertical axis, towards the side with a sign. -/
structure AlongY (t : Sign) (d : Point Binary64) : Prop where
  x : ∀ s, HasSign s d.x
  y : HasSign t d.y
  finite : d.Finite

theorem AlongX.hasSign_cross {s t : Sign} {d q : Point Binary64} (hd : AlongX s d)
    (hq : q.Finite) (hy : HasSign t q.y) : HasSign (s * t) (d.cross q) := by
  have hzero : HasSign (-(s * t)) (d.y * q.x) := by
    rcases Binary64.hasSign_or hq.x with hx | hx
    · exact Binary64.hasSign_zero_mul hd.y hx hd.finite.y hq.x _
    · exact Binary64.hasSign_zero_mul hd.y hx hd.finite.y hq.x _
  exact (hd.x.mul hy hd.finite.x hq.y).sub hzero

theorem AlongX.hasSign_dot {s t : Sign} {d q : Point Binary64} (hd : AlongX s d)
    (hq : q.Finite) (hx : HasSign s q.x) (hy : HasSign t q.y) :
    HasSign .positive (q.dot d) := by
  have hsquare : s * s = .positive := by cases s <;> rfl
  have hmul := hx.mul hd.x hq.x hd.finite.x
  have hzero := hy.mul (hd.y t) hq.y hd.finite.y
  have hsquare' : t * t = .positive := by cases t <;> rfl
  rw [hsquare] at hmul
  rw [hsquare'] at hzero
  exact hmul.add hzero

theorem AlongY.hasSign_cross {s t : Sign} {d q : Point Binary64} (hd : AlongY t d)
    (hq : q.Finite) (hx : HasSign s q.x) : HasSign (-(t * s)) (d.cross q) := by
  have hzero : HasSign (-(t * s)) (d.x * q.y) := by
    rcases Binary64.hasSign_or hq.y with hy | hy
    · exact Binary64.hasSign_zero_mul hd.x hy hd.finite.x hq.y _
    · exact Binary64.hasSign_zero_mul hd.x hy hd.finite.x hq.y _
  have hneg : - -(t * s) = t * s := by cases t <;> cases s <;> rfl
  exact hzero.sub (hneg.symm ▸ hd.y.mul hx hd.finite.y hq.x)

theorem AlongY.hasSign_dot {s t : Sign} {d q : Point Binary64} (hd : AlongY t d)
    (hq : q.Finite) (hx : HasSign s q.x) (hy : HasSign t q.y) :
    HasSign .positive (q.dot d) := by
  have hsquare : s * s = .positive := by cases s <;> rfl
  have hsquare' : t * t = .positive := by cases t <;> rfl
  have hzero := hx.mul (hd.x s) hq.x hd.finite.x
  have hmul := hy.mul hd.y hq.y hd.finite.y
  rw [hsquare] at hzero
  rw [hsquare'] at hmul
  exact hzero.add hmul

end Segment

/-! ## Quadrants -/

/-- A finite point with coordinates of given signs. -/
structure Point.InQuadrant (s t : Sign) (p : Point Binary64) : Prop extends p.Finite where
  signX : HasSign s p.x
  signY : HasSign t p.y

theorem Point.Finite.inQuadrant {p : Point Binary64} (h : p.Finite) :
    ∃ s t, p.InQuadrant s t := by
  rcases Binary64.hasSign_or h.x with hx | hx <;> rcases Binary64.hasSign_or h.y with hy | hy
  all_goals exact ⟨_, _, ⟨h, hx, hy⟩⟩

/-- Nothing changes in taking the displacement from the origin. -/
theorem Point.InQuadrant.sub_origin {s t : Sign} {p : Point Binary64} (h : p.InQuadrant s t) :
    (p - .origin).InQuadrant s t := by
  have hx := (Binary64.within_of_isFinite h.x).sub_zero (by decide) le_rfl
  have hy := (Binary64.within_of_isFinite h.y).sub_zero (by decide) le_rfl
  exact ⟨⟨hx.isFinite, hy.isFinite⟩, h.signX.sub trivial, h.signY.sub trivial⟩

namespace Segment

theorem contains_of_alongX {b : Segment Binary64} {p : Point Binary64} {s t : Sign}
    (hp : p.InQuadrant s t) (hstart : b.start = .origin)
    (hextent : b.extent = .halfLine (sideOf (s * t))) (hd : AlongX s b.direction)
    {m : Nat} {e : Int} {hm : 0 < m}
    (hlength : (b.direction.dot b.direction).float.toModel.unpack = .finite .positive m e hm) :
    b.contains p = true := by
  have hq := hp.sub_origin
  rw [← hstart] at hq
  exact contains_of_hasSign hextent (hd.hasSign_cross hq.toFinite hq.signY)
    (hd.hasSign_dot hq.toFinite hq.signX hq.signY) hlength

theorem contains_of_alongY {b : Segment Binary64} {p : Point Binary64} {s t : Sign}
    (hp : p.InQuadrant s t) (hstart : b.start = .origin)
    (hextent : b.extent = .halfLine (sideOf (-(t * s)))) (hd : AlongY t b.direction)
    {m : Nat} {e : Int} {hm : 0 < m}
    (hlength : (b.direction.dot b.direction).float.toModel.unpack = .finite .positive m e hm) :
    b.contains p = true := by
  have hq := hp.sub_origin
  rw [← hstart] at hq
  exact contains_of_hasSign hextent (hd.hasSign_cross hq.toFinite hq.signX)
    (hd.hasSign_dot hq.toFinite hq.signX hq.signY) hlength

end Segment

/-- The quadrants, by the signs of their coordinates. -/
def quadrantOf : Sign → Sign → Sector
  | .positive, .positive => .topRight
  | .negative, .positive => .topLeft
  | .negative, .negative => .bottomLeft
  | .positive, .negative => .bottomRight

set_option maxRecDepth 1000 in
theorem contains_quadrantOf (settings : Settings Binary64) {s t : Sign} {p : Point Binary64}
    (hp : p.InQuadrant s t) : ((quadrantOf s t).region settings).contains p = true := by
  cases s <;> cases t
  all_goals
    refine List.all_eq_true.2 fun b hb => ?_
    rcases List.mem_cons.1 hb with rfl | hb
    · exact Segment.contains_of_alongX hp rfl rfl ⟨rfl, fun _ => trivial, rfl, rfl⟩ rfl
    · obtain rfl := List.mem_singleton.1 hb
      exact Segment.contains_of_alongY hp rfl rfl ⟨fun _ => trivial, rfl, rfl, rfl⟩ rfl

/-! ## Classification -/

namespace Classifier

variable {K : Type} [Scalar K]

theorem mem_entries_ofOrder {settings : Settings K} {order : List Sector}
    {entry : Sector × Region K} :
    entry ∈ (ofOrder settings order).entries ↔
      entry.1 ∈ order ∧ entry.2 = entry.1.region settings := by
  obtain ⟨s, region⟩ := entry
  simp only [ofOrder, List.mem_map, List.mem_eraseDups, Prod.mk.injEq]
  constructor
  · rintro ⟨s', hs', rfl, rfl⟩
    exact ⟨hs', rfl⟩
  · rintro ⟨hs, hregion⟩
    exact ⟨s, hs, rfl, hregion.symm⟩

/-- The sectors that a point is in are those of the order whose region has it. -/
theorem mem_classifyAll_ofOrder {settings : Settings K} {order : List Sector} {p : Point K}
    {s : Sector} :
    s ∈ (ofOrder settings order).classifyAll p ↔
      s ∈ order ∧ (s.region settings).contains p = true := by
  rw [classifyAll, sectorsWhere, SectorSet.mem_ofList, List.mem_map]
  constructor
  · rintro ⟨entry, hentry, rfl⟩
    obtain ⟨hentry, hp⟩ := List.mem_filter.1 hentry
    obtain ⟨hs, hregion⟩ := mem_entries_ofOrder.1 hentry
    exact ⟨hs, hregion ▸ hp⟩
  · rintro ⟨hs, hp⟩
    exact ⟨(s, s.region settings), List.mem_filter.2 ⟨mem_entries_ofOrder.2 ⟨hs, rfl⟩, hp⟩, rfl⟩

/-- The sector found contains the point. -/
theorem contains_of_classify? {settings : Settings K} {order : List Sector} {p : Point K}
    {s : Sector} (h : (ofOrder settings order).classify? p = some s) :
    (s.region settings).contains p = true := by
  obtain ⟨entry, hentry, rfl⟩ := Option.map_eq_some_iff.1 h
  have hregion := (mem_entries_ofOrder.1 (List.mem_of_find?_eq_some hentry)).2
  have hcontains : entry.2.contains p = true := by
    simpa using List.find?_some hentry
  rwa [hregion] at hcontains

/-- A point in the region of a sector of the order has a sector. -/
theorem isSome_classify?_of_contains {settings : Settings K} {order : List Sector} {p : Point K}
    {s : Sector} (hs : s ∈ order) (hp : (s.region settings).contains p = true) :
    ((ofOrder settings order).classify? p).isSome = true := by
  rw [classify?, Option.isSome_map, List.find?_isSome]
  exact ⟨(s, s.region settings), mem_entries_ofOrder.2 ⟨hs, rfl⟩, hp⟩

/-- Every finite point has a sector in an order with the quadrants. -/
theorem isSome_classify? {settings : Settings Binary64} {order : List Sector}
    (hquadrants : ∀ s t, quadrantOf s t ∈ order) {p : Point Binary64} (hp : p.Finite) :
    ((ofOrder settings order).classify? p).isSome = true := by
  obtain ⟨s, t, hquadrant⟩ := hp.inQuadrant
  exact isSome_classify?_of_contains (hquadrants s t) (contains_quadrantOf settings hquadrant)

theorem quadrantOf_mem_standardOrder (s t : Sign) : quadrantOf s t ∈ standardOrder := by
  cases s <;> cases t <;> decide

end Classifier

end CurveSketch
