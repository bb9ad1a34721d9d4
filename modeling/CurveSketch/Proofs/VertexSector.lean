import CurveSketch.Proofs.BetweenCrossings
import CurveSketch.Proofs.Collapse
import CurveSketch.Proofs.SelfMatch

/-!
# The path of a line names its vertices

A vertex is classified in two ways: by priority, as the first sector of the order whose region has
it, and in the path of a line, as the most important member of the set of all its sectors, after
opposed pairs are taken out of the set. In exact arithmetic and the standard order the two agree, as
long as the origin is no smaller than the axes are wide
(`Classifier.exists_classify?_eq_mostImportant?`): opposed quadrants meet in a half axis, opposed
half axes in the origin, and both are more important, so that the sector found by priority has no
opposite in the set. The path of a line therefore begins and ends with the sectors of its ends, and
has the sectors of all its vertices in order (`Classifier.sectorPath_of_vertices`).
-/

namespace CurveSketch

/-! ## Sectors by coordinates -/

namespace Sector

/-- What a sector asks of the coordinates of its points. -/
def Covers (settings : Settings Rat) (p : Point Rat) : Sector → Prop
  | topLeft => p.x ≤ 0 ∧ 0 ≤ p.y
  | topRight => 0 ≤ p.x ∧ 0 ≤ p.y
  | bottomLeft => p.x ≤ 0 ∧ p.y ≤ 0
  | bottomRight => 0 ≤ p.x ∧ p.y ≤ 0
  | onAxisWithPositiveX => 0 ≤ p.x ∧ |p.y| ≤ settings.axisSlop
  | onAxisWithNegativeX => p.x ≤ 0 ∧ |p.y| ≤ settings.axisSlop
  | onAxisWithPositiveY => 0 ≤ p.y ∧ |p.x| ≤ settings.axisSlop
  | onAxisWithNegativeY => p.y ≤ 0 ∧ |p.x| ≤ settings.axisSlop
  | origin => |p.x| ≤ settings.originSlop ∧ |p.y| ≤ settings.originSlop
  | relaxedOrigin => |p.x| ≤ settings.relaxedOriginSlop ∧ |p.y| ≤ settings.relaxedOriginSlop
  | leftHalf => p.x ≤ 0
  | rightHalf => 0 ≤ p.x
  | topHalf => 0 ≤ p.y
  | bottomHalf => p.y ≤ 0
  | anywhere => True

variable {settings : Settings Rat} {p : Point Rat}

/-- The region of a sector has the points that the sector asks for. -/
theorem contains_region_iff (haxis : 0 < settings.axisSlop) (horigin : 0 < settings.originSlop)
    {s : Sector} (hs : s ≠ .relaxedOrigin) :
    (s.region settings).contains p = true ↔ s.Covers settings p := by
  have hquadrant : ∀ {d e : Point Rat}, d.Perpendicular e →
      ((Region.quadrant d e).contains p = true ↔ 0 ≤ p.dot d ∧ 0 ≤ p.dot e) :=
    fun h => (Region.bounds_quadrant h).contains_iff
  have hband : ∀ {axis left right : Point Rat}, axis.dot axis = 1 → left = ⟨-axis.y, axis.x⟩ →
      right = ⟨axis.y, -axis.x⟩ →
      ((Region.axisBand left right axis settings.axisSlop).contains p = true ↔
        0 ≤ p.dot axis ∧ |axis.cross p| ≤ settings.axisSlop) :=
    fun hunit hleft hright =>
      (Region.bounds_axisBand hunit hleft hright haxis).contains_iff.trans (by rw [abs_le])
  have hhalf : ∀ (d : Point Rat) (side : Side),
      (Region.mk [Segment.fullLine .origin d side]).contains p = true ↔
        0 ≤ (Segment.fullLine .origin d side).inward p := fun d side => by
    rw [(Region.tight_fullLine _ _ _).contains_iff, List.forall_mem_singleton]
  cases s with
  | topLeft =>
    exact (hquadrant (d := .left) (e := .up) (by constructor <;> decide +kernel)).trans
      (by simp [Covers, Point.dot, Point.left, Point.up])
  | topRight =>
    exact (hquadrant (by constructor <;> decide +kernel)).trans
      (by simp [Covers, Point.dot, Point.right, Point.up])
  | bottomLeft =>
    exact (hquadrant (by constructor <;> decide +kernel)).trans
      (by simp [Covers, Point.dot, Point.left, Point.down])
  | bottomRight =>
    exact (hquadrant (by constructor <;> decide +kernel)).trans
      (by simp [Covers, Point.dot, Point.right, Point.down])
  | onAxisWithPositiveX =>
    exact (hband Point.unit_right rfl rfl).trans
      (by simp [Covers, Point.dot, Point.cross, Point.right])
  | onAxisWithNegativeX =>
    exact (hband Point.unit_left rfl rfl).trans
      (by simp [Covers, Point.dot, Point.cross, Point.left])
  | onAxisWithPositiveY =>
    exact (hband Point.unit_up rfl rfl).trans
      (by simp [Covers, Point.dot, Point.cross, Point.up])
  | onAxisWithNegativeY =>
    exact (hband Point.unit_down rfl rfl).trans
      (by simp [Covers, Point.dot, Point.cross, Point.down])
  | origin => exact (Region.bounds_square horigin).contains_iff.trans (by simp [Covers, abs_le])
  | relaxedOrigin => exact absurd rfl hs
  | leftHalf =>
    exact (hhalf .up .left).trans (by
      simp [Segment.inward_fullLine_left, Covers, Point.cross, Point.up, Point.origin])
  | rightHalf =>
    exact (hhalf .up .right).trans (by
      simp [Segment.inward_fullLine_right, Covers, Point.cross, Point.up, Point.origin])
  | topHalf =>
    exact (hhalf .right .left).trans (by
      simp [Segment.inward_fullLine_left, Covers, Point.cross, Point.right, Point.origin])
  | bottomHalf =>
    exact (hhalf .right .right).trans (by
      simp [Segment.inward_fullLine_right, Covers, Point.cross, Point.right, Point.origin])
  | anywhere => exact iff_of_true rfl trivial

/-- A point in two opposed sectors is in one that is more important than both. -/
theorem exists_prior_of_opposed (haxis : 0 < settings.axisSlop)
    (hle : settings.axisSlop ≤ settings.originSlop) {s t : Sector}
    (hst : (s, t) ∈ SectorSet.opposed) (hs : s.Covers settings p) (ht : t.Covers settings p) :
    ∃ u ∈ Classifier.standardOrder, u.Covers settings p ∧
      Classifier.standardOrder.idxOf u < Classifier.standardOrder.idxOf s ∧
      Classifier.standardOrder.idxOf u < Classifier.standardOrder.idxOf t := by
  have hzero : ∀ {k : Rat}, k ≤ 0 → 0 ≤ k → |k| ≤ settings.axisSlop := fun h h' => by
    rw [le_antisymm h h', abs_zero]
    exact haxis.le
  simp only [SectorSet.opposed, List.mem_cons, Prod.mk.injEq, List.not_mem_nil, or_false] at hst
  rcases hst with ⟨rfl, rfl⟩ | ⟨rfl, rfl⟩ | ⟨rfl, rfl⟩ | ⟨rfl, rfl⟩ | ⟨rfl, rfl⟩ | ⟨rfl, rfl⟩
  · exact ⟨onAxisWithPositiveX, by decide, ⟨hs.1, hzero ht.2 hs.2⟩, by decide, by decide⟩
  · exact ⟨onAxisWithNegativeX, by decide, ⟨hs.1, hzero ht.2 hs.2⟩, by decide, by decide⟩
  · exact ⟨onAxisWithPositiveY, by decide, ⟨hs.2, hzero ht.1 hs.1⟩, by decide, by decide⟩
  · exact ⟨onAxisWithNegativeY, by decide, ⟨hs.2, hzero ht.1 hs.1⟩, by decide, by decide⟩
  · exact ⟨origin, by decide, ⟨(hzero ht.1 hs.1).trans hle, hs.2.trans hle⟩, by decide, by decide⟩
  · exact ⟨origin, by decide, ⟨hs.2.trans hle, (hzero ht.1 hs.1).trans hle⟩, by decide, by decide⟩

end Sector

/-! ## The first sector of the order -/

/-- The element found is the first of those that pass. -/
theorem idxOf_le_of_find?_eq_some {α : Type} [BEq α] [LawfulBEq α] {l : List α} {p : α → Bool}
    {a b : α} (h : l.find? p = some a) (hb : p b = true) : l.idxOf a ≤ l.idxOf b := by
  induction l with
  | nil => exact absurd h nofun
  | cons c rest ih =>
    by_cases hc : p c = true
    · obtain rfl : c = a := by simpa [hc] using h
      simp
    · have hca : c ≠ a := fun heq => hc (heq ▸ List.find?_some h)
      have hcb : c ≠ b := fun heq => hc (heq ▸ hb)
      rw [List.find?_cons_of_neg hc] at h
      rw [List.idxOf_cons_ne _ hca, List.idxOf_cons_ne _ hcb]
      exact Nat.succ_le_succ (ih h)

/-- The first element that passes a test is also the first that passes a stricter one, if it
does. -/
theorem find?_eq_some_of_imp {α : Type} {l : List α} {p q : α → Bool} {a : α}
    (h : l.find? p = some a) (himp : ∀ b, q b = true → p b = true) (ha : q a = true) :
    l.find? q = some a := by
  obtain ⟨-, before, after, rfl, hbefore⟩ := List.find?_eq_some_iff_append.1 h
  refine List.find?_eq_some_iff_append.2 ⟨ha, before, after, rfl, fun b hb => ?_⟩
  rw [Bool.not_eq_true']
  exact Bool.eq_false_iff.2 fun hq => by simpa [himp b hq] using hbefore b hb

namespace SectorSet

theorem mem_withoutOpposed {sectors : SectorSet} {s : Sector} :
    s ∈ sectors.withoutOpposed ↔ s ∈ sectors ∧
      ∀ t u, (t, u) ∈ opposed → t ∈ sectors → u ∈ sectors → t ≠ s ∧ u ≠ s := by
  simp [withoutOpposed]

end SectorSet

namespace Classifier

variable {K : Type} [Scalar K]

theorem order_ofOrder (settings : Settings K) (order : List Sector) :
    (ofOrder settings order).order = order.eraseDups :=
  List.map_map.trans (List.map_id _)

theorem classify?_ofOrder (settings : Settings K) (order : List Sector) (p : Point K) :
    (ofOrder settings order).classify? p =
      order.eraseDups.find? fun s => (s.region settings).contains p := by
  rw [classify?, ofOrder, List.find?_map, Option.map_map]
  exact Option.map_id'

variable {settings : Settings Rat}

theorem ne_relaxedOrigin_of_mem {s : Sector} (h : s ∈ standardOrder) : s ≠ .relaxedOrigin := by
  rintro rfl
  exact absurd h (by decide)

/-- Every point is in a quadrant. -/
theorem exists_covers (settings : Settings Rat) (p : Point Rat) :
    ∃ s ∈ standardOrder, s.Covers settings p := by
  rcases le_total 0 p.x with hx | hx <;> rcases le_total 0 p.y with hy | hy
  · exact ⟨.topRight, by decide, hx, hy⟩
  · exact ⟨.bottomRight, by decide, hx, hy⟩
  · exact ⟨.topLeft, by decide, hx, hy⟩
  · exact ⟨.bottomLeft, by decide, hx, hy⟩

section

variable (haxis : 0 < settings.axisSlop) (hle : settings.axisSlop ≤ settings.originSlop)

include haxis hle

/-- The sector found by priority is the most important of those that have no opposite. -/
theorem exists_classify?_eq_mostImportant? (p : Point Rat) :
    let c := ofOrder settings standardOrder
    ∃ s ∈ (c.classifyAll p).withoutOpposed, c.classify? p = some s ∧
      c.mostImportant? (c.classifyAll p).withoutOpposed = some s := by
  intro c
  have hcovers : ∀ {s : Sector}, s ∈ standardOrder →
      ((s.region settings).contains p = true ↔ s.Covers settings p) := fun hs =>
    Sector.contains_region_iff haxis (haxis.trans_le hle) (ne_relaxedOrigin_of_mem hs)
  have hmem : ∀ {s : Sector}, s ∈ c.classifyAll p ↔ s ∈ standardOrder ∧ s.Covers settings p :=
    mem_classifyAll_ofOrder.trans (and_congr_right hcovers)
  obtain ⟨q, hq, hquadrant⟩ := exists_covers settings p
  obtain ⟨s, hs⟩ := Option.isSome_iff_exists.1
    (isSome_classify?_of_contains hq ((hcovers hq).2 hquadrant))
  have hfind : standardOrder.find? (fun s => (s.region settings).contains p) = some s :=
    (classify?_ofOrder settings standardOrder p).symm.trans hs
  have horder : s ∈ standardOrder := List.mem_of_find?_eq_some hfind
  have hkept : s ∈ (c.classifyAll p).withoutOpposed := by
    refine SectorSet.mem_withoutOpposed.2 ⟨hmem.2 ⟨horder, (hcovers horder).1
      (contains_of_classify? hs)⟩, fun t u htu ht hu => ?_⟩
    obtain ⟨prior, hprior, hp, hlt, hlt'⟩ := Sector.exists_prior_of_opposed haxis hle htu
      (hmem.1 ht).2 (hmem.1 hu).2
    have hfirst := idxOf_le_of_find?_eq_some hfind (b := prior) ((hcovers hprior).2 hp)
    constructor
    · rintro rfl
      exact absurd hlt hfirst.not_gt
    · rintro rfl
      exact absurd hlt' hfirst.not_gt
  refine ⟨s, hkept, hs, ?_⟩
  rw [mostImportant?, order_ofOrder]
  refine find?_eq_some_of_imp hfind (fun b hb => ?_) (List.contains_iff_mem.2 hkept)
  have hb := hmem.1 (SectorSet.mem_withoutOpposed.1 (List.contains_iff_mem.1 hb)).1
  exact (hcovers hb.1).2 hb.2

end

/-! ## The path -/

theorem sublist_setsAfter (c : Classifier K) (last : Point K) (points : List (Point K)) :
    (points.map c.classifyAll).Sublist (c.setsAfter last points) := by
  induction points generalizing last with
  | nil => exact .slnil
  | cons p rest ih =>
    exact ((ih p).cons_cons _).trans (List.sublist_append_right _ _)

/-- The sets of the vertices are among the sets met. -/
theorem sublist_rawSets (c : Classifier K) (l : Polyline K) :
    (l.points.map c.classifyAll).Sublist (c.rawSets l) := by
  unfold rawSets
  cases l.points with
  | nil => exact .slnil
  | cons p rest => exact (sublist_setsAfter c p rest).cons_cons _

theorem head?_rawSets (c : Classifier K) (l : Polyline K) :
    (c.rawSets l).head? = l.points.head?.map c.classifyAll := by
  unfold rawSets
  cases l.points <;> rfl

theorem getLast?_cons_setsAfter (c : Classifier K) (last : Point K) (points : List (Point K)) :
    (c.classifyAll last :: c.setsAfter last points).getLast? =
      (last :: points).getLast?.map c.classifyAll := by
  induction points generalizing last with
  | nil => rfl
  | cons p rest ih =>
    rw [setsAfter, ← List.cons_append, List.getLast?_append_cons, ih, List.getLast?_cons_cons]

theorem getLast?_rawSets (c : Classifier K) (l : Polyline K) :
    (c.rawSets l).getLast? = l.points.getLast?.map c.classifyAll := by
  unfold rawSets
  cases l.points with
  | nil => rfl
  | cons p rest => exact getLast?_cons_setsAfter c p rest

/-- The sector that stands for a set in the path. -/
def leading? (c : Classifier K) (sectors : SectorSet) : Option Sector :=
  c.mostImportant? sectors.withoutOpposed

/-- The path is read off all the sets met, with repetitions dropped once. -/
theorem sectorPath_eq (c : Classifier K) (l : Polyline K) :
    c.sectorPath l = collapse ((c.rawSets l).filterMap c.leading?) := by
  rw [sectorPath, sectorSets, collapse_filterMap_collapse, List.filterMap_map]
  rfl

/-- If every vertex has a sector picked from its set, the path has the sectors of the ends at its
ends, and those of all vertices in order. -/
theorem sectorPath_of_leading {c : Classifier K} {pick : Point K → Sector}
    (h : ∀ p, c.leading? (c.classifyAll p) = some (pick p)) (l : Polyline K) :
    (c.sectorPath l).head? = l.points.head?.map pick ∧
    (c.sectorPath l).getLast? = l.points.getLast?.map pick ∧
    ∃ place : Nat → Nat, Monotone place ∧ ∀ i p, l.points[i]? = some p →
      (c.sectorPath l)[place i]? = some (pick p) := by
  rw [sectorPath_eq, head?_collapse, getLast?_collapse]
  refine ⟨?_, ?_, ?_⟩
  · cases hp : l.points.head? with
    | none =>
      rw [rawSets, List.head?_eq_none_iff.1 hp]
      rfl
    | some p =>
      obtain ⟨rest, hrest⟩ := List.head?_eq_some_iff.1
        ((head?_rawSets c l).trans (congrArg (Option.map c.classifyAll) hp))
      rw [hrest, List.filterMap_cons_some (h p)]
      rfl
  · cases hp : l.points.getLast? with
    | none =>
      rw [rawSets, List.getLast?_eq_none_iff.1 hp]
      rfl
    | some p =>
      obtain ⟨front, hfront⟩ := List.getLast?_eq_some_iff.1
        ((getLast?_rawSets c l).trans (congrArg (Option.map c.classifyAll) hp))
      rw [hfront, List.filterMap_append, List.filterMap_cons_some (h p), List.filterMap_nil,
        List.getLast?_concat]
      rfl
  · have hsome : c.leading? ∘ c.classifyAll = some ∘ pick := funext h
    have hsub := (sublist_rawSets c l).filterMap c.leading?
    rw [List.filterMap_map, hsome, List.filterMap_eq_map] at hsub
    obtain ⟨place, hmono, hplace⟩ := exists_place_of_sublist hsub
    exact ⟨place, hmono, fun i p hp => hplace i _ (by rw [List.getElem?_map, hp]; rfl)⟩

/-- In exact arithmetic and the standard order, with an origin no smaller than the axes are wide,
the path of a line has the sectors of the vertices in order, those of the ends at its ends, and no
sector twice in a row. -/
theorem sectorPath_of_vertices (settings : Settings Rat) (haxis : 0 < settings.axisSlop)
    (hle : settings.axisSlop ≤ settings.originSlop) (l : Polyline Rat) (hl : l.points ≠ []) :
    let c := ofOrder settings standardOrder
    (∀ p, ∃ s ∈ (c.classifyAll p).withoutOpposed, c.classify? p = some s ∧
      c.mostImportant? (c.classifyAll p).withoutOpposed = some s) ∧
    c.sectorPath l ≠ [] ∧
    (c.sectorPath l).head? = l.points.head?.bind c.classify? ∧
    (c.sectorPath l).getLast? = l.points.getLast?.bind c.classify? ∧
    (c.sectorPath l).IsChain (· ≠ ·) ∧
    ∃ place : Nat → Nat, Monotone place ∧ ∀ i p, l.points[i]? = some p →
      ∃ s, c.classify? p = some s ∧ (c.sectorPath l)[place i]? = some s := by
  intro c
  have hagree := exists_classify?_eq_mostImportant? haxis hle
  choose pick _ hclassify hpick using exists_classify?_eq_mostImportant? haxis hle
  obtain ⟨hhead, hlast, place, hmono, hplace⟩ := sectorPath_of_leading hpick l
  have hbind : ∀ p? : Option (Point Rat), p?.map pick = p?.bind c.classify? := fun p? => by
    cases p? with
    | none => rfl
    | some p => exact (hclassify p).symm
  refine ⟨hagree, fun hnil => hl ?_, hhead.trans (hbind _), hlast.trans (hbind _),
    isChain_collapse _, place, hmono, fun i p hp => ⟨pick p, hclassify p, hplace i p hp⟩⟩
  rw [hnil, List.head?_nil, eq_comm, Option.map_eq_none_iff] at hhead
  exact List.head?_eq_none_iff.1 hhead

/-- A line with the usual tolerances, from the left of the vertical axis to a place near the
horizontal axis and on to the lower right. -/
theorem sectorPath_of_vertices_falling :
    let settings : Settings Rat := ⟨1 / 50, 1 / 20, 1 / 10, 4, 5, 2 / 5⟩
    let c := ofOrder settings standardOrder
    let l : Polyline Rat := .ofPoints [⟨-1, 1⟩, ⟨1, 1 / 100⟩, ⟨2, -1⟩]
    0 < settings.axisSlop ∧ settings.axisSlop ≤ settings.originSlop ∧ l.points ≠ [] ∧
      (c.sectorPath l).head? = some .topLeft ∧ (c.sectorPath l).getLast? = some .bottomRight ∧
      ∃ place : Nat → Nat, place 0 ≤ place 1 ∧
        (c.sectorPath l)[place 1]? = some .onAxisWithPositiveX := by
  intro settings c l
  have haxis : 0 < settings.axisSlop := by decide +kernel
  have hle : settings.axisSlop ≤ settings.originSlop := by decide +kernel
  have hl : l.points ≠ [] := by decide
  obtain ⟨-, -, hhead, hlast, -, place, hmono, hplace⟩ :=
    sectorPath_of_vertices settings haxis hle l hl
  have hfirst : c.classify? ⟨-1, 1⟩ = some .topLeft := by decide +kernel
  have hsecond : c.classify? ⟨1, 1 / 100⟩ = some .onAxisWithPositiveX := by decide +kernel
  have hthird : c.classify? ⟨2, -1⟩ = some .bottomRight := by decide +kernel
  obtain ⟨s, hs, hpath⟩ := hplace 1 ⟨1, 1 / 100⟩ rfl
  obtain rfl : Sector.onAxisWithPositiveX = s := Option.some.inj (hsecond.symm.trans hs)
  exact ⟨haxis, hle, hl, hhead.trans hfirst, hlast.trans hthird, place, hmono (Nat.zero_le 1),
    hpath⟩

end Classifier

end CurveSketch
