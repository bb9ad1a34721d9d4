import CurveSketch.Proofs.VertexSector
import CurveSketch.Proofs.VerticalCut

/-!
# The sector of a point

In exact arithmetic, the region of each sector is the set of points that the sector asks for by
coordinates (`Sector.contains_region_iff_covers`): its boundaries, with the sides chosen for them
and the strips they are cut down to, say no more and no less.

A point is classified by priority. Whether the classifier looks for the first sector of the order
whose region has the point, or picks the most important one of all sectors that the point is in, it
finds the same one, and in an order with the quadrants it finds one for every finite point
(`Classifier.found_by_priority`). Nothing of this depends on the tolerances.
-/

namespace CurveSketch

/-! ## Regions by coordinates -/

theorem Sector.contains_relaxedOrigin_iff {settings : Settings Rat}
    (h : 0 < settings.relaxedOriginSlop) {p : Point Rat} :
    (relaxedOrigin.region settings).contains p = true ↔ relaxedOrigin.Covers settings p :=
  (Region.bounds_square h).contains_iff.trans (by simp [Covers, abs_le])

theorem Region.contains_beside_iff (side : Side) (x : Rat) (p : Point Rat) :
    (beside side x).contains p = true ↔ side.Covers x p.x := by
  rw [contains_iff, boundaries_beside, List.forall_mem_singleton, contains_verticalLine_iff]

/-- In exact arithmetic and with positive slops, every region is the set of points it is named
for. -/
theorem Sector.contains_region_iff_covers {settings : Settings Rat} (h : settings.PositiveSlops)
    (p : Point Rat) :
    (∀ s : Sector, (s.region settings).contains p = true ↔ s.Covers settings p) ∧
      (∀ x : Rat, (Region.leftOf x).contains p = true ↔ p.x ≤ x) ∧
      ∀ x : Rat, (Region.rightOf x).contains p = true ↔ x ≤ p.x := by
  refine ⟨fun s => ?_, fun x => Region.contains_beside_iff .left x p,
    fun x => Region.contains_beside_iff .right x p⟩
  by_cases hs : s = .relaxedOrigin
  · subst hs
    exact contains_relaxedOrigin_iff h.relaxedOriginSlop
  · exact contains_region_iff h.axisSlop h.originSlop hs

/-- A point just below the horizontal axis, with the usual tolerances. -/
theorem Sector.contains_region_iff_covers_below_axis :
    let settings : Settings Rat := ⟨1 / 50, 1 / 20, 1 / 10, 4, 5, 2 / 5⟩
    let p : Point Rat := ⟨1 / 15, -1 / 60⟩
    settings.PositiveSlops ∧
      (∀ s : Sector, (s.region settings).contains p = true ↔ s.Covers settings p) ∧
      ((relaxedOrigin.region settings).contains p = true ↔ |p.x| ≤ 1 / 10 ∧ |p.y| ≤ 1 / 10) := by
  intro settings p
  have hslops : settings.PositiveSlops := by constructor <;> decide +kernel
  obtain ⟨hregion, -, -⟩ := contains_region_iff_covers hslops p
  exact ⟨hslops, hregion, hregion .relaxedOrigin⟩

/-! ## Classifying by priority -/

/-- Of equal elements the first decides a search. -/
theorem find?_eraseDups {α : Type} [BEq α] [LawfulBEq α] (test : α → Bool) (l : List α) :
    l.eraseDups.find? test = l.find? test := by
  match l with
  | [] => rfl
  | a :: rest =>
    have hshorter : (rest.filter fun b => !b == a).length < rest.length + 1 :=
      Nat.lt_succ_of_le (List.length_filter_le _ rest)
    rw [List.eraseDups_cons, List.find?_cons, List.find?_cons, find?_eraseDups, List.find?_filter]
    cases ha : test a with
    | true => rfl
    | false =>
      refine congrArg (rest.find? ·) (funext fun b => ?_)
      by_cases hb : b = a
      · simp [hb, ha]
      · simp [hb]
termination_by l.length

namespace Classifier

variable {K : Type} [Scalar K] (settings : Settings K) (order : List Sector) (p : Point K)

/-- The sector found is the first of the order whose region has the point, listed again or not. -/
theorem classify?_eq_find? :
    (ofOrder settings order).classify? p =
      order.find? fun s => (s.region settings).contains p := by
  rw [classify?_ofOrder, find?_eraseDups]

/-- The sector found is the most important of those that the point is in. -/
theorem classify?_eq_mostImportant? :
    (ofOrder settings order).classify? p =
      (ofOrder settings order).mostImportant? ((ofOrder settings order).classifyAll p) := by
  rw [classify?_ofOrder, mostImportant?, order_ofOrder]
  refine List.find?_congr fun s hs => ?_
  rw [Bool.eq_iff_iff, List.contains_iff_mem, mem_classifyAll_ofOrder]
  exact (and_iff_right (List.mem_eraseDups.1 hs)).symm

/-- The sectors that share the plane between them. -/
def quadrants : List Sector :=
  [.topLeft, .topRight, .bottomLeft, .bottomRight]

theorem quadrantOf_mem_quadrants (s t : Float.Model.UnpackedFloat.Sign) :
    quadrantOf s t ∈ quadrants := by
  cases s <;> cases t <;> decide

theorem quadrants_subset_standardOrder : quadrants ⊆ standardOrder := by
  decide

/-- Classifying by priority: in one step and in two steps the same sector is found, the first of the
order that has the point, and in an order with the quadrants, as the standard order is one, every
point with finite coordinates has a sector. -/
theorem found_by_priority (settings : Settings Binary64) (order : List Sector)
    (p : Point Binary64) :
    let c := ofOrder settings order
    c.classify? p = c.mostImportant? (c.classifyAll p) ∧
      c.classify? p = order.find? (fun s => (s.region settings).contains p) ∧
      (quadrants ⊆ order → p.Finite → (c.classify? p).isSome = true) ∧
      quadrants ⊆ standardOrder :=
  ⟨classify?_eq_mostImportant? settings order p, classify?_eq_find? settings order p,
    fun hquadrants hp => isSome_classify? (fun s t => hquadrants (quadrantOf_mem_quadrants s t)) hp,
    quadrants_subset_standardOrder⟩

/-- Tolerances that are no numbers, the quadrants in another order and one of them twice, and the
point next to the origin on the left of the vertical axis. -/
theorem found_by_priority_beside_origin :
    let nan := Binary64.ofFloat (0.0 / 0.0)
    let settings : Settings Binary64 := ⟨nan, nan, nan, nan, 0, nan⟩
    let order : List Sector :=
      [.origin, .bottomRight, .topLeft, .bottomRight, .bottomLeft, .topRight]
    let p : Point Binary64 := ⟨-5e-324, 0⟩
    let c := ofOrder settings order
    quadrants ⊆ order ∧ p.Finite ∧ (c.classify? p).isSome = true ∧
      c.classify? p = c.mostImportant? (c.classifyAll p) := by
  intro nan settings order p c
  obtain ⟨htwo, -, hsome, -⟩ := found_by_priority settings order p
  have hquadrants : quadrants ⊆ order := by decide
  have hp : p.Finite := ⟨by decide +kernel, by decide +kernel⟩
  exact ⟨hquadrants, hp, hsome hquadrants hp, htwo⟩

end Classifier

end CurveSketch
