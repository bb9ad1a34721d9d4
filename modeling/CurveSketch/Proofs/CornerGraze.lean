import CurveSketch.Proofs.BetweenCrossings

/-!
# Grazed corners

A piece that meets a region in one point only grazes a corner of it : all boundaries that it crosses
are crossed there, in one event. The lane of the region takes over what each crossing says, in the
order of the boundaries, and keeps what the last one says. So the region counts as entered if the
piece stops on the inner side of the last boundary it crosses (`Region.Graze.inside_after_iff`). Of
the two directions in which the piece can be drawn, this is one : the sector is recorded in one
direction, and not in the other (`Classifier.recorded_in_one_direction`).
-/

namespace CurveSketch

/-- Where a piece strictly inside meets the line of a boundary that it is not along, its ends are on
different sides. -/
theorem Segment.inward_nonneg_iff_neg {s : Segment Rat} {a b : Point Rat} {w : Rat}
    (hne : s.inward a ≠ s.inward b) (h0 : 0 < w) (h1 : w < 1)
    (hzero : s.inward (a.lerp b w) = 0) : 0 ≤ s.inward a ↔ s.inward b < 0 := by
  have hw : 0 < 1 - w := sub_pos.2 h1
  rw [inward_lerp] at hzero
  have hstart : s.inward a * (1 - w) = -(s.inward b * w) := eq_neg_of_add_eq_zero_left hzero
  have hstop : s.inward b ≠ 0 := fun hb => by
    rw [hb, zero_mul, neg_zero, mul_eq_zero_iff_right hw.ne'] at hstart
    exact hne (hstart.trans hb.symm)
  calc 0 ≤ s.inward a ↔ 0 ≤ s.inward a * (1 - w) := (mul_nonneg_iff_of_pos_right hw).symm
    _ ↔ 0 ≤ -s.inward b * w := by rw [hstart, neg_mul]
    _ ↔ s.inward b ≤ 0 := (mul_nonneg_iff_of_pos_right h0).trans neg_nonneg
    _ ↔ s.inward b < 0 := hstop.le_iff_lt

namespace Region

/-- A piece that has one point of a region, strictly inside the piece. -/
structure Graze (r : Region Rat) (a b : Point Rat) (w : Rat) : Prop where
  pos : 0 < w
  lt_one : w < 1
  contains_iff : ∀ v, 0 ≤ v → v ≤ 1 → (r.contains (a.lerp b v) = true ↔ v = w)

namespace Graze

variable {r : Region Rat} {a b : Point Rat} {w : Rat}

/-- Drawn backwards, the piece meets the region in the same point. -/
theorem reverse (h : r.Graze a b w) : r.Graze b a (1 - w) where
  pos := sub_pos.2 h.lt_one
  lt_one := sub_lt_self 1 h.pos
  contains_iff v h0 h1 := by
    rw [← Point.lerp_one_sub, h.contains_iff (1 - v) (by linarith) (by linarith)]
    constructor <;> intro h <;> linarith

/-- All crossings are at the one point. -/
theorem param_eq (h : r.Graze a b w) (htight : r.Tight) {c : Crossing Rat}
    (hc : c ∈ r.crossings (.closed a b)) : c.param = w := by
  obtain ⟨-, -, -, -, hcontains, hreaches, -⟩ := htight.mem_crossings_iff.1 hc
  obtain ⟨h0, h1⟩ := Segment.reaches_closed_iff.1 hreaches
  exact (h.contains_iff _ h0 h1).1 hcontains

theorem not_contains_start (h : r.Graze a b w) : r.contains a = false := by
  have hstart := (h.contains_iff 0 le_rfl zero_le_one).not.2 h.pos.ne
  rw [Point.lerp_zero] at hstart
  exact Bool.eq_false_iff.2 hstart

/-- Crossings at one point stay in the order of the boundaries. -/
theorem crossings_eq (h : r.Graze a b w) (htight : r.Tight) :
    r.crossings (.closed a b) = r.boundaries.filterMap (·.crossing? (.closed a b)) := by
  refine List.mergeSort_of_pairwise (List.pairwise_of_forall_mem_list fun c hc d hd => ?_)
  have hparam : ∀ c ∈ r.boundaries.filterMap (·.crossing? (.closed a b)), c.param = w :=
    fun c hc => h.param_eq htight (List.mem_mergeSort.2 hc)
  rw [hparam c hc, hparam d hd]
  exact decide_eq_true le_rfl

end Graze

/-- The last of the boundaries that a piece crosses. -/
def lastCrossed? {K : Type} [Scalar K] (r : Region K) (piece : Segment K) : Option (Segment K) :=
  r.boundaries.reverse.find? (·.crosses piece)

/-- What the crossings say last is what the last boundary crossed says. -/
theorem getLast?_filterMap_crossing? {K : Type} [Scalar K] (r : Region K) (piece : Segment K) :
    (r.boundaries.filterMap (·.crossing? piece)).getLast? =
      (r.lastCrossed? piece).bind (·.crossing? piece) := by
  rw [← List.head?_reverse, ← List.filterMap_reverse, lastCrossed?]
  induction r.boundaries.reverse with
  | nil => rfl
  | cons s rest ih =>
    cases hs : s.crossing? piece with
    | none => simpa [hs, Segment.crosses] using ih
    | some c => simp [hs, Segment.crosses]

/-- A piece crosses the same boundaries in both directions. -/
theorem Tight.crosses_reverse {r : Region Rat} (h : r.Tight) (a b : Point Rat) {s : Segment Rat}
    (hs : s ∈ r.boundaries) : s.crosses (.closed b a) = s.crosses (.closed a b) := by
  have hback : ∀ a b, s.crosses (.closed a b) = true → s.crosses (.closed b a) = true := by
    intro a b hcrosses
    obtain ⟨c, hc⟩ := Option.isSome_iff_exists.1 hcrosses
    obtain ⟨hne, hzero, hcontains, hreaches, -⟩ := (h.crossing?_eq_some_iff hs).1 hc
    obtain ⟨h0, h1⟩ := Segment.reaches_closed_iff.1 hreaches
    have hpoint : (Segment.closed b a).pointAt (1 - c.param) =
        (Segment.closed a b).pointAt c.param := Point.lerp_one_sub b a c.param
    refine Option.isSome_iff_exists.2 ⟨⟨1 - c.param, _⟩, (h.crossing?_eq_some_iff hs).2
      ⟨hne.symm, ?_, ?_, Segment.reaches_closed_iff.2 ⟨?_, ?_⟩, rfl⟩⟩
    · exact (congrArg s.inward hpoint).trans hzero
    · exact (congrArg r.contains hpoint).trans hcontains
    · exact sub_nonneg.2 h1
    · exact sub_le_self 1 h0
  exact Bool.eq_iff_iff.2 ⟨hback b a, hback a b⟩

theorem Tight.lastCrossed?_reverse {r : Region Rat} (h : r.Tight) (a b : Point Rat) :
    r.lastCrossed? (.closed b a) = r.lastCrossed? (.closed a b) := by
  have hcongr : ∀ l : List (Segment Rat), (∀ s ∈ l, s ∈ r.boundaries) →
      l.find? (·.crosses (.closed b a)) = l.find? (·.crosses (.closed a b)) := by
    intro l hl
    induction l with
    | nil => rfl
    | cons s l ih =>
      obtain ⟨hs, hl⟩ := List.forall_mem_cons.1 hl
      rw [List.find?_cons, List.find?_cons, h.crosses_reverse a b hs, ih hl]
  exact hcongr _ fun s hs => List.mem_reverse.1 hs

namespace Graze

variable {r : Region Rat} {a b : Point Rat} {w : Rat}

/-- A grazing piece crosses a boundary, and does so with its ends on different sides. -/
theorem exists_lastCrossed (h : r.Graze a b w) (htight : r.Tight) :
    ∃ last, r.lastCrossed? (.closed a b) = some last ∧
      (r.crossings (.closed a b)).getLast? = some ⟨w, decide (0 ≤ last.inward b)⟩ ∧
      (0 ≤ last.inward a ↔ last.inward b < 0) := by
  have hstart : r.contains (a.lerp b 0) ≠ true := by
    rw [Point.lerp_zero, h.not_contains_start]
    exact nofun
  have hw := (h.contains_iff w h.pos.le h.lt_one.le).2 rfl
  obtain ⟨c, hc, -⟩ := htight.exists_entering le_rfl h.pos h.lt_one.le hstart hw
  obtain ⟨d, hd⟩ : ∃ d, (r.crossings (.closed a b)).getLast? = some d :=
    Option.isSome_iff_exists.1 (List.getLast?_isSome.2 (List.ne_nil_of_mem hc))
  have hparam := h.param_eq htight (List.mem_of_getLast? hd)
  have hlast := hd
  rw [h.crossings_eq htight, getLast?_filterMap_crossing?, Option.bind_eq_some_iff] at hlast
  obtain ⟨last, hlast, hcrossing⟩ := hlast
  have hmem : last ∈ r.boundaries := List.mem_reverse.1 (List.mem_of_find?_eq_some hlast)
  obtain ⟨hne, hzero, -, -, hinside⟩ := (htight.crossing?_eq_some_iff hmem).1 hcrossing
  refine ⟨last, hlast, ?_, Segment.inward_nonneg_iff_neg hne h.pos h.lt_one (hparam ▸ hzero)⟩
  obtain ⟨t, inside⟩ := d
  rw [hd]
  exact congrArg some (congrArg₂ Crossing.mk hparam hinside)

/-- The flag of a grazed region, once the crossings up to a parameter are passed. -/
theorem inside_after_iff (h : r.Graze a b w) (htight : r.Tight) {last : Segment Rat}
    (hlast : r.lastCrossed? (.closed a b) = some last) (s : Sector) (t : Rat) :
    (Lane.after t ⟨s, r.contains a, r.crossings (.closed a b)⟩).inside = true ↔
      w ≤ t ∧ 0 ≤ last.inward b := by
  obtain ⟨last', hlast', hcrossing, -⟩ := h.exists_lastCrossed htight
  obtain rfl := Option.some.inj (hlast.symm.trans hlast')
  simp only [Lane.after]
  by_cases hwt : w ≤ t
  · have hall : ((r.crossings (.closed a b)).filter fun c => decide (c.param ≤ t)) =
        r.crossings (.closed a b) := List.filter_eq_self.2 fun c hc =>
      decide_eq_true (h.param_eq htight hc ▸ hwt)
    rw [hall, hcrossing, and_iff_right hwt]
    exact decide_eq_true_iff
  · have hnone : ((r.crossings (.closed a b)).filter fun c => decide (c.param ≤ t)) = [] :=
      List.filter_eq_nil_iff.2 fun c hc hct =>
        hwt (h.param_eq htight hc ▸ of_decide_eq_true hct)
    rw [hnone, h.not_contains_start]
    exact iff_of_false Bool.false_ne_true fun h => hwt h.1

end Graze

end Region

namespace Classifier

variable {settings : Settings Rat} {order : List Sector} {a b : Point Rat} {s : Sector} {w : Rat}

/-- Some set that is recorded on the way along a piece has a sector. -/
def Records {K : Type} [Scalar K] (c : Classifier K) (piece : Segment K) (s : Sector) : Prop :=
  ∃ set ∈ c.pieceSets piece, s ∈ set

theorem records_iff_of_graze (h : settings.PositiveSlops) (hs : s ∈ order)
    (hgraze : (s.region settings).Graze a b w) {last : Segment Rat}
    (hlast : (s.region settings).lastCrossed? (.closed a b) = some last) :
    (ofOrder settings order).Records (.closed a b) s ↔ 0 ≤ last.inward b := by
  have htight := Sector.tight_region h s
  have hevents := events_lanes settings order (.closed a b)
  constructor
  · rintro ⟨set, hset, hmem⟩
    obtain ⟨stop, hstop, rfl⟩ := List.mem_map.1 hset
    obtain ⟨lane, hlane, hinside, rfl⟩ := Lane.mem_current.1 hmem
    rw [hevents.state stop hstop] at hlane
    obtain ⟨start, hstart, rfl⟩ := List.mem_map.1 hlane
    obtain ⟨s, -, rfl⟩ := mem_lanes_ofOrder.1 hstart
    exact ((hgraze.inside_after_iff htight hlast s stop.1).1 hinside).2
  · intro hstops
    obtain ⟨last', -, hcrossing, -⟩ := hgraze.exists_lastCrossed htight
    have hlane : ⟨s, (s.region settings).contains a, (s.region settings).crossings (.closed a b)⟩ ∈
        (ofOrder settings order).lanes (.closed a b) := mem_lanes_of_mem hs (.closed a b)
    obtain ⟨e, he, hparam⟩ := hevents.complete _ hlane _ (List.mem_of_getLast? hcrossing)
    have hparam : e.1 = w := hparam
    refine ⟨_, List.mem_map_of_mem he, Lane.mem_current.2 ⟨_, ?_,
      (hgraze.inside_after_iff htight hlast s e.1).2 ⟨hparam.ge, hstops⟩, rfl⟩⟩
    rw [hevents.state e he]
    exact List.mem_map_of_mem hlane

/-- A sector whose corner is grazed is recorded in one of the two directions of travel, the one in
which the piece stops on the inner side of the last boundary it crosses. -/
theorem recorded_in_one_direction (settings : Settings Rat) (h : settings.PositiveSlops)
    (order : List Sector) {s : Sector} (hs : s ∈ order) {a b : Point Rat} {w : Rat}
    (hgraze : (s.region settings).Graze a b w) :
    ∃ last, (s.region settings).lastCrossed? (.closed a b) = some last ∧
      ((ofOrder settings order).Records (.closed a b) s ↔ 0 ≤ last.inward b) ∧
      ((ofOrder settings order).Records (.closed b a) s ↔
        ¬(ofOrder settings order).Records (.closed a b) s) := by
  have htight := Sector.tight_region h s
  obtain ⟨last, hlast, -, hsides⟩ := hgraze.exists_lastCrossed htight
  have hback : (s.region settings).lastCrossed? (.closed b a) = some last :=
    (htight.lastCrossed?_reverse a b).trans hlast
  have hforth := records_iff_of_graze h hs hgraze hlast
  refine ⟨last, hlast, hforth, ?_⟩
  rw [hforth, records_iff_of_graze h hs hgraze.reverse hback, hsides, not_le]

/-- A piece past the upper right corner of the square that counts as the origin. -/
theorem graze_origin :
    (Sector.origin.region ⟨1 / 50, 1 / 4, 1 / 10, 4, 5, 2 / 5⟩).Graze ⟨3 / 8, 1 / 8⟩
      ⟨1 / 8, 3 / 8⟩ (1 / 2) where
  pos := by decide +kernel
  lt_one := by decide +kernel
  contains_iff v _ _ := by
    have hsquare := Region.bounds_square (show (0 : Rat) < 1 / 4 by decide +kernel)
    refine hsquare.contains_iff.trans ?_
    simp only [Point.lerp]
    constructor
    · rintro ⟨⟨-, hx⟩, -, hy⟩
      linarith
    · rintro rfl
      norm_num

/-- Drawn to the left, the piece stops on the inner side of the last boundary it crosses, so the
origin is recorded. -/
theorem records_grazed_origin :
    let settings : Settings Rat := ⟨1 / 50, 1 / 4, 1 / 10, 4, 5, 2 / 5⟩
    settings.PositiveSlops ∧ Sector.origin ∈ standardOrder ∧
      (Sector.origin.region settings).Graze ⟨3 / 8, 1 / 8⟩ ⟨1 / 8, 3 / 8⟩ (1 / 2) ∧
      (ofOrder settings standardOrder).Records (.closed ⟨3 / 8, 1 / 8⟩ ⟨1 / 8, 3 / 8⟩) .origin := by
  intro settings
  have hslops : settings.PositiveSlops := by constructor <;> decide +kernel
  have horder : Sector.origin ∈ standardOrder := by decide
  have hcrosses : (Segment.closed ⟨1 / 4, -(1 / 4)⟩ ⟨1 / 4, 1 / 4⟩ : Segment Rat).crosses
      (.closed ⟨3 / 8, 1 / 8⟩ ⟨1 / 8, 3 / 8⟩) = true := by decide +kernel
  refine ⟨hslops, horder, graze_origin, ?_⟩
  exact (records_iff_of_graze hslops horder graze_origin (List.find?_cons_of_pos hcrosses)).2
    (by decide +kernel)

/-- The same piece, in both directions. -/
theorem recorded_in_one_direction_origin :
    let settings : Settings Rat := ⟨1 / 50, 1 / 4, 1 / 10, 4, 5, 2 / 5⟩
    let c := ofOrder settings standardOrder
    settings.PositiveSlops ∧ Sector.origin ∈ standardOrder ∧
      (Sector.origin.region settings).Graze ⟨3 / 8, 1 / 8⟩ ⟨1 / 8, 3 / 8⟩ (1 / 2) ∧
      (c.Records (.closed ⟨1 / 8, 3 / 8⟩ ⟨3 / 8, 1 / 8⟩) .origin ↔
        ¬c.Records (.closed ⟨3 / 8, 1 / 8⟩ ⟨1 / 8, 3 / 8⟩) .origin) := by
  intro settings c
  have hslops : settings.PositiveSlops := by constructor <;> decide +kernel
  have horder : Sector.origin ∈ standardOrder := by decide
  obtain ⟨last, -, -, hboth⟩ := recorded_in_one_direction settings hslops standardOrder horder
    graze_origin
  exact ⟨hslops, horder, graze_origin, hboth⟩

end Classifier

end CurveSketch
