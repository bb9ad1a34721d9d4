import CurveSketch.Polyline
import CurveSketch.Proofs.Reflection

/-!
# Signed sizes

The signed size of a polyline is found from the corners of its bounding box, which are folded over
all vertices, and from the position of the first vertex to the middle of the box. Over the
rationals, if neither coordinate ever turns back along the polyline (`OneWay`), its ends lie in
opposite corners, and the size is the way from the first vertex to the last
(`Polyline.size_eq_sub`).

So the reflection in the vertical axis, the vertices being read backwards, turns over the sign of
the height alone, and the half turn about the origin keeps the size (`Polyline.size_of_oneWay`).
-/

namespace CurveSketch

/-! ## Coordinates that never turn back -/

/-- A coordinate never turns back along a list of points: it nowhere falls, or it nowhere rises. -/
def OneWay (coordinate : Point Rat → Rat) (points : List (Point Rat)) : Prop :=
  points.Pairwise (fun p q => coordinate p ≤ coordinate q) ∨
    points.Pairwise fun p q => coordinate q ≤ coordinate p

instance (coordinate : Point Rat → Rat) (points : List (Point Rat)) :
    Decidable (OneWay coordinate points) :=
  inferInstanceAs (Decidable (_ ∨ _))

namespace OneWay

variable {coordinate : Point Rat → Rat} {points : List (Point Rat)} {first last : Point Rat}

theorem reverse (h : OneWay coordinate points) : OneWay coordinate points.reverse :=
  h.symm.imp List.pairwise_reverse.2 List.pairwise_reverse.2

/-- A map that multiplies the coordinate by a factor keeps it from turning back. -/
theorem map {f : Point Rat → Point Rat} {factor : Rat}
    (hf : ∀ p, coordinate (f p) = factor * coordinate p) (h : OneWay coordinate points) :
    OneWay coordinate (points.map f) := by
  simp only [OneWay, List.pairwise_map, hf]
  rcases le_total 0 factor with hfactor | hfactor
  · exact h.imp (.imp fun hle => mul_le_mul_of_nonneg_left hle hfactor)
      (.imp fun hle => mul_le_mul_of_nonneg_left hle hfactor)
  · exact h.symm.imp (.imp fun hle => mul_le_mul_of_nonpos_left hle hfactor)
      (.imp fun hle => mul_le_mul_of_nonpos_left hle hfactor)

/-- A coordinate that never turns back has all values between those at the ends. -/
theorem exists_bounds (h : OneWay coordinate points) (hhead : points.head? = some first)
    (hlast : points.getLast? = some last) : ∃ low high : Rat,
      (coordinate first = low ∧ coordinate last = high ∨
        coordinate first = high ∧ coordinate last = low) ∧
      ∀ p ∈ points, low ≤ coordinate p ∧ coordinate p ≤ high := by
  rcases h with h | h
  · refine ⟨coordinate first, coordinate last, .inl ⟨rfl, rfl⟩, fun p hp => ⟨?_, ?_⟩⟩
    · exact (eq_or_rel_of_head? h hhead hp).elim (fun heq => heq ▸ le_rfl) id
    · exact (eq_or_rel_of_getLast? h hlast hp).elim (fun heq => heq ▸ le_rfl) id
  · refine ⟨coordinate last, coordinate first, .inr ⟨rfl, rfl⟩, fun p hp => ⟨?_, ?_⟩⟩
    · exact (eq_or_rel_of_getLast? h hlast hp).elim (fun heq => heq ▸ le_rfl) id
    · exact (eq_or_rel_of_head? h hhead hp).elim (fun heq => heq ▸ le_rfl) id

end OneWay

/-! ## The signed length of a list of values -/

/-- A fold that starts among values which all give way to one of them ends there. -/
theorem foldl_eq_of_forall {α : Type} {op : α → α → α} {S : α → Prop} {best : α}
    (hop : ∀ a b, S a → S b → S (op a b)) (hleft : ∀ a, S a → op best a = best)
    (hright : ∀ a, S a → op a best = best) {l : List α} (hl : ∀ a ∈ l, S a) {start : α}
    (hstart : S start) (hmem : best ∈ start :: l) : l.foldl op start = best := by
  induction l generalizing start with
  | nil => exact (List.mem_singleton.1 hmem).symm
  | cons a l ih =>
    obtain ⟨ha, hl⟩ := List.forall_mem_cons.1 hl
    refine ih hl (hop _ _ hstart ha) ?_
    rcases List.mem_cons.1 hmem with rfl | hmem
    · rw [hleft a ha]
      exact List.mem_cons_self
    · rcases List.mem_cons.1 hmem with rfl | hmem
      · rw [hright start hstart]
        exact List.mem_cons_self
      · exact List.mem_cons_of_mem _ hmem

theorem foldl_min_eq {l : List Rat} {low start : Rat} (hl : ∀ a ∈ l, low ≤ a)
    (hstart : low ≤ start) (hmem : low ∈ l) : l.foldl Scalar.min start = low := by
  refine foldl_eq_of_forall (fun a b ha hb => ?_) (fun a ha => ?_) (fun a ha => ?_) hl hstart
    (List.mem_cons_of_mem start hmem)
  · rw [Scalar.min_rat]
    split <;> assumption
  · exact if_neg (not_lt.2 ha)
  · rw [Scalar.min_rat]
    split
    · rfl
    · exact (not_lt.1 ‹_›).antisymm ha

theorem foldl_max_eq {l : List Rat} {high start : Rat} (hl : ∀ a ∈ l, a ≤ high)
    (hstart : start ≤ high) (hmem : high ∈ l) : l.foldl Scalar.max start = high := by
  refine foldl_eq_of_forall (fun a b ha hb => ?_) (fun a ha => ?_) (fun a ha => ?_) hl hstart
    (List.mem_cons_of_mem start hmem)
  · rw [Scalar.max_rat]
    split <;> assumption
  · exact if_neg (not_lt.2 ha)
  · rw [Scalar.max_rat]
    split
    · rfl
    · exact ha.antisymm (not_lt.1 ‹_›)

/-- The signed length of the interval that values span: it is positive when `start` is below the
middle of the interval. -/
def signedLength (start : Rat) (values : List Rat) : Rat :=
  let low := values.foldl Scalar.min Scalar.largest
  let high := values.foldl Scalar.max (-Scalar.largest)
  if start < (low + high) * Scalar.half then high - low else -(high - low)

/-- Seen from one of its ends, the signed length of an interval leads to the other. -/
theorem signedLength_eq_sub {values : List Rat} {a b low high : Rat}
    (h : a = low ∧ b = high ∨ a = high ∧ b = low) (ha : a ∈ values) (hb : b ∈ values)
    (hbounds : ∀ v ∈ values, low ≤ v ∧ v ≤ high)
    (hrange : ∀ v ∈ values, -Scalar.largest ≤ v ∧ v ≤ Scalar.largest) :
    signedLength a values = b - a := by
  have hhalf : (Scalar.half : Rat) = 1 / 2 := rfl
  obtain ⟨hlow, hhigh⟩ : low ∈ values ∧ high ∈ values := by
    rcases h with ⟨rfl, rfl⟩ | ⟨rfl, rfl⟩
    · exact ⟨ha, hb⟩
    · exact ⟨hb, ha⟩
  have hle : low ≤ high := (hbounds low hlow).2
  have hleast : values.foldl Scalar.min Scalar.largest = low :=
    foldl_min_eq (fun v hv => (hbounds v hv).1) (hrange low hlow).2 hlow
  have hgreatest : values.foldl Scalar.max (-Scalar.largest) = high :=
    foldl_max_eq (fun v hv => (hbounds v hv).2) (hrange high hhigh).1 hhigh
  rw [signedLength, hleast, hgreatest, hhalf]
  rcases h with ⟨rfl, rfl⟩ | ⟨rfl, rfl⟩
  · split <;> linarith
  · split <;> linarith

/-- The signed length of a coordinate that never turns back is the way between its ends. -/
theorem OneWay.signedLength_eq {coordinate : Point Rat → Rat} {points : List (Point Rat)}
    {first last : Point Rat} (h : OneWay coordinate points) (hhead : points.head? = some first)
    (hlast : points.getLast? = some last)
    (hrange : ∀ p ∈ points, -Scalar.largest ≤ coordinate p ∧ coordinate p ≤ Scalar.largest) :
    signedLength (coordinate first) (points.map coordinate) =
      coordinate last - coordinate first := by
  obtain ⟨low, high, hends, hbounds⟩ := h.exists_bounds hhead hlast
  exact signedLength_eq_sub hends (List.mem_map_of_mem (List.mem_of_head? hhead))
    (List.mem_map_of_mem (List.mem_of_getLast? hlast)) (List.forall_mem_map.2 hbounds)
    (List.forall_mem_map.2 hrange)

/-! ## The signed size of a polyline -/

namespace Polyline

variable {l : Polyline Rat} {first last : Point Rat}

/-- A corner is folded along each axis by itself. -/
theorem foldl_corner_eq (op : Rat → Rat → Rat) (start : Point Rat) (points : List (Point Rat)) :
    points.foldl (fun m p => (⟨op m.x p.x, op m.y p.y⟩ : Point Rat)) start =
      ⟨(points.map Point.x).foldl op start.x, (points.map Point.y).foldl op start.y⟩ := by
  induction points generalizing start with
  | nil => rfl
  | cons p points ih => exact ih _

theorem lowerCorner_eq (points : List (Point Rat)) : lowerCorner points =
    ⟨(points.map Point.x).foldl Scalar.min Scalar.largest,
      (points.map Point.y).foldl Scalar.min Scalar.largest⟩ :=
  foldl_corner_eq Scalar.min _ points

theorem upperCorner_eq (points : List (Point Rat)) : upperCorner points =
    ⟨(points.map Point.x).foldl Scalar.max (-Scalar.largest),
      (points.map Point.y).foldl Scalar.max (-Scalar.largest)⟩ :=
  foldl_corner_eq Scalar.max _ points

/-- The signed size is measured along each axis by itself. -/
theorem size_eq_signedLength (hhead : l.points.head? = some first) :
    l.size = ⟨signedLength first.x (l.points.map Point.x),
      signedLength first.y (l.points.map Point.y)⟩ := by
  obtain ⟨rest, hpoints⟩ := List.head?_eq_some_iff.1 hhead
  simp only [size, lowerCorner_eq, upperCorner_eq, hpoints, signedLength, Point.scale, Point.x_add,
    Point.y_add, Point.x_sub, Point.y_sub]

/-- The signed size of a polyline along which neither coordinate turns back is the way from its
first vertex to its last. -/
theorem size_eq_sub (hx : OneWay Point.x l.points) (hy : OneWay Point.y l.points)
    (hrange : ∀ p ∈ l.points, p.InRange) (hhead : l.points.head? = some first)
    (hlast : l.points.getLast? = some last) : l.size = last - first := by
  rw [size_eq_signedLength hhead,
    hx.signedLength_eq hhead hlast fun p hp => ⟨(hrange p hp).left, (hrange p hp).right⟩,
    hy.signedLength_eq hhead hlast fun p hp => ⟨(hrange p hp).bottom, (hrange p hp).top⟩]
  rfl

/-- The image of such a polyline, read backwards, has the same width, and its height is kept or
turned over. -/
theorem size_of_reflected {f : Point Rat → Point Rat} {factor : Rat} (hf : Flips f factor)
    (hne : l.points ≠ []) (hx : OneWay Point.x l.points) (hy : OneWay Point.y l.points)
    (hrange : ∀ p ∈ l.points, p.InRange) {image : Polyline Rat}
    (himage : image.points = reflected f l.points) :
    image.size = ⟨l.size.x, -factor * l.size.y⟩ := by
  have hhead := List.head?_eq_some_head hne
  have hlast := List.getLast?_eq_some_getLast hne
  have hx' : OneWay Point.x image.points :=
    himage ▸ (hx.map fun p => (hf.x p).trans (neg_one_mul p.x).symm).reverse
  have hy' : OneWay Point.y image.points := himage ▸ (hy.map hf.y).reverse
  have hrange' : ∀ p ∈ image.points, p.InRange := by
    rw [himage]
    intro p hp
    obtain ⟨q, hq, rfl⟩ := mem_reflected.1 hp
    exact hf.inRange (hrange q hq)
  have hhead' : image.points.head? = some (f (l.points.getLast hne)) := by
    rw [himage, reflected, List.head?_reverse, List.getLast?_map, hlast, Option.map_some]
  have hlast' : image.points.getLast? = some (f (l.points.head hne)) := by
    rw [himage, reflected, List.getLast?_reverse, List.head?_map, hhead, Option.map_some]
  rw [size_eq_sub hx' hy' hrange' hhead' hlast', size_eq_sub hx hy hrange hhead hlast, hf.sub_eq]

/-- In exact arithmetic, if neither coordinate turns back along a polyline within the finite range,
its signed size is the way from its first vertex to its last. Mirrored and read backwards it has
the same width and the height turned over; turned half way round and read backwards it has the
same size. -/
theorem size_of_oneWay (l : Polyline Rat) (hne : l.points ≠ []) (hx : OneWay Point.x l.points)
    (hy : OneWay Point.y l.points) (hrange : ∀ p ∈ l.points, p.InRange) :
    l.size = l.points.getLast hne - l.points.head hne ∧ ∀ image : Polyline Rat,
      (image.points = reflected Point.mirrored l.points →
        image.size = ⟨l.size.x, -l.size.y⟩) ∧
      (image.points = reflected Point.halfTurned l.points → image.size = l.size) := by
  refine ⟨size_eq_sub hx hy hrange (List.head?_eq_some_head hne)
    (List.getLast?_eq_some_getLast hne), fun image => ⟨fun himage => ?_, fun himage => ?_⟩⟩
  · rw [size_of_reflected Flips.mirrored hne hx hy hrange himage, neg_one_mul]
  · rw [size_of_reflected Flips.halfTurned hne hx hy hrange himage, neg_neg, one_mul]

/-- A polyline that falls to the left, with an upright and a level piece. -/
theorem size_of_oneWay_falling :
    let l : Polyline Rat := .ofPoints [⟨3, 5⟩, ⟨3, 2⟩, ⟨1, 2⟩, ⟨-4, -1⟩]
    (OneWay Point.x l.points ∧ OneWay Point.y l.points ∧ ∀ p ∈ l.points, p.InRange) ∧
      l.size = ⟨-7, -6⟩ ∧
      (ofPoints (reflected Point.mirrored l.points)).size = ⟨-7, 6⟩ ∧
      (ofPoints (reflected Point.halfTurned l.points)).size = ⟨-7, -6⟩ := by
  intro l
  have hne : l.points ≠ [] := List.cons_ne_nil _ _
  have hx : OneWay Point.x l.points := by decide +kernel
  have hy : OneWay Point.y l.points := by decide +kernel
  have hrange : ∀ p ∈ l.points, p.InRange := by decide +kernel
  obtain ⟨hsize, himage⟩ := size_of_oneWay l hne hx hy hrange
  have hway : (⟨-4, -1⟩ - ⟨3, 5⟩ : Point Rat) = ⟨-7, -6⟩ := Point.ext_iff.2 (by decide +kernel)
  replace hsize : l.size = ⟨-7, -6⟩ := hsize.trans hway
  refine ⟨⟨hx, hy, hrange⟩, hsize, ((himage _).1 rfl).trans ?_, ((himage _).2 rfl).trans hsize⟩
  rw [hsize]
  exact Point.ext_iff.2 (by decide +kernel)

end Polyline

end CurveSketch
