import CurveSketch.Proofs.CrossingMerge
import CurveSketch.Proofs.KeyOrder
import CurveSketch.Proofs.Quadrant
import CurveSketch.Proofs.TightRegion

/-!
# The sectors between crossings

At each event on the way along a piece, a lane takes over what the crossing says about the end of
the piece : whether it is on the inner side of the one boundary that is crossed. In exact arithmetic
this is right about the region as a whole and about the stretch up to the next event, unless the
piece crosses two boundaries of the region at once (`Classifier.stretch_between_crossings`).

The region is convex, so a piece that leaves it between two of its points crosses a boundary there
with its end outside (`Region.Tight.exists_leaving`), and one that enters it crosses a boundary with
its end inside (`Region.Tight.exists_entering`). Between two events there are no crossings, so the
stretch is in the region as a whole or not at all, and the last crossing before it tells which.
-/

namespace CurveSketch

/-- The crossings of a region with a piece are listed in order. -/
theorem Lane.ordered_crossings (s : Sector) (inside : Bool) (r : Region Rat) (piece : Segment Rat) :
    Lane.Ordered (id : Rat → Rat) (fun _ => True) ⟨s, inside, r.crossings piece⟩ :=
  Lane.ordered_crossings_of_ranked .rat s inside fun _ _ => trivial

/-! ## Ways into a region and out of it -/

namespace Segment

/-- The parameter at which a line that leaves the inner side of a boundary does so. -/
def leavingParam (s : Segment Rat) (a b : Point Rat) : Rat :=
  s.inward a / (s.inward a - s.inward b)

theorem inward_leavingParam {s : Segment Rat} {a b : Point Rat} (h : s.inward b < s.inward a) :
    s.inward (a.lerp b (s.leavingParam a b)) = 0 := by
  have hpos : s.inward a - s.inward b ≠ 0 := (sub_pos.2 h).ne'
  rw [inward_lerp, leavingParam]
  field_simp
  ring

theorem inward_nonneg_iff_le_leavingParam {s : Segment Rat} {a b : Point Rat}
    (h : s.inward b < s.inward a) {v : Rat} :
    0 ≤ s.inward (a.lerp b v) ↔ v ≤ s.leavingParam a b := by
  rw [inward_lerp, leavingParam, le_div_iff₀ (sub_pos.2 h)]
  constructor <;> intro h' <;> linarith

/-- A line that gets from the inner side of a boundary to the outer side leads outwards. -/
theorem inward_lt_inward_of_lt {s : Segment Rat} {a b : Point Rat} {v w : Rat} (hvw : v < w)
    (h : s.inward (a.lerp b w) < s.inward (a.lerp b v)) : s.inward b < s.inward a := by
  rw [inward_lerp, inward_lerp] at h
  nlinarith

/-- What is on the inner side at two parameters is so in between. -/
theorem inward_nonneg_of_between {s : Segment Rat} {a b : Point Rat} {v u w : Rat} (hvu : v ≤ u)
    (huw : u ≤ w) (hv : 0 ≤ s.inward (a.lerp b v)) (hw : 0 ≤ s.inward (a.lerp b w)) :
    0 ≤ s.inward (a.lerp b u) := by
  rw [inward_lerp] at hv hw ⊢
  rcases hvu.eq_or_lt with rfl | hvu
  · exact hv
  · nlinarith [mul_nonneg hv (sub_nonneg.2 huw), mul_nonneg hw (sub_nonneg.2 hvu.le)]

end Segment

namespace Region.Tight

variable {r : Region Rat} {a b : Point Rat}

/-- A line that is in a tight region, and later is not, reaches in between a boundary of the region
that it leads out of. -/
theorem exists_boundary (h : r.Tight) {v w : Rat} (hvw : v < w)
    (hv : r.contains (a.lerp b v) = true) (hw : r.contains (a.lerp b w) ≠ true) :
    ∃ s ∈ r.boundaries, s.inward b < s.inward a ∧ ∃ u, v ≤ u ∧ u < w ∧
      s.inward (a.lerp b u) = 0 ∧ r.contains (a.lerp b u) = true := by
  rw [h.contains_iff] at hv
  rw [ne_eq, h.contains_iff] at hw
  have hleads : ∀ s ∈ r.boundaries, s.inward (a.lerp b w) < 0 → s.inward b < s.inward a :=
    fun s hs hneg => Segment.inward_lt_inward_of_lt hvw (hneg.trans_le (hv s hs))
  have hleft : {s | s ∈ r.boundaries ∧ s.inward (a.lerp b w) < 0}.Nonempty := by
    push Not at hw
    exact hw
  -- of the boundaries that are left, the one left first
  obtain ⟨s, ⟨hs, hneg⟩, hfirst⟩ := Set.exists_min_image _ (·.leavingParam a b)
    (r.boundaries.finite_toSet.subset fun s hs => hs.1) hleft
  have hlt := hleads s hs hneg
  have hvu : v ≤ s.leavingParam a b :=
    (Segment.inward_nonneg_iff_le_leavingParam hlt).1 (hv s hs)
  have huw : s.leavingParam a b < w := by
    rwa [← not_le, ← Segment.inward_nonneg_iff_le_leavingParam hlt, not_le]
  refine ⟨s, hs, hlt, _, hvu, huw, Segment.inward_leavingParam hlt,
    h.contains_iff.2 fun s' hs' => ?_⟩
  rcases lt_or_ge (s'.inward (a.lerp b w)) 0 with hneg' | hnonneg
  · exact (Segment.inward_nonneg_iff_le_leavingParam (hleads s' hs' hneg')).2
      (hfirst s' ⟨hs', hneg'⟩)
  · exact Segment.inward_nonneg_of_between hvu huw.le (hv s' hs') hnonneg

/-- A piece that is in a tight region, and later is not, crosses a boundary in between, and stops
outside of it. -/
theorem exists_leaving (h : r.Tight) {v w : Rat} (h0 : 0 ≤ v) (hvw : v < w) (h1 : w ≤ 1)
    (hv : r.contains (a.lerp b v) = true) (hw : r.contains (a.lerp b w) ≠ true) :
    ∃ c ∈ r.crossings (.closed a b), v ≤ c.param ∧ c.param < w ∧ c.inside = false := by
  obtain ⟨s, hs, hlt, u, hvu, huw, hzero, hu⟩ := h.exists_boundary hvw hv hw
  have hstop : s.inward b < 0 := by
    rw [Segment.inward_lerp] at hzero
    nlinarith
  refine ⟨⟨u, false⟩, h.mem_crossings_iff.2 ⟨s, hs, hlt.ne', hzero, hu, ?_, ?_⟩, hvu, huw, rfl⟩
  · exact Segment.reaches_closed_iff.2 ⟨h0.trans hvu, huw.le.trans h1⟩
  · exact (decide_eq_false hstop.not_ge).symm

/-- A piece that is outside of a tight region, and later is not, crosses a boundary in between, and
stops inside of it. -/
theorem exists_entering (h : r.Tight) {v w : Rat} (h0 : 0 ≤ v) (hvw : v < w) (h1 : w ≤ 1)
    (hv : r.contains (a.lerp b v) ≠ true) (hw : r.contains (a.lerp b w) = true) :
    ∃ c ∈ r.crossings (.closed a b), v < c.param ∧ c.param ≤ w ∧ c.inside = true := by
  -- travelled backwards, the line leaves the region
  rw [← sub_sub_cancel 1 v, Point.lerp_one_sub] at hv
  rw [← sub_sub_cancel 1 w, Point.lerp_one_sub] at hw
  obtain ⟨s, hs, hlt, u, hwu, huv, hzero, hu⟩ :=
    h.exists_boundary (sub_lt_sub_left hvw 1) hw hv
  rw [← Point.lerp_one_sub] at hzero hu
  have hstop : 0 ≤ s.inward b := by
    rw [Segment.inward_lerp] at hzero
    nlinarith
  refine ⟨⟨1 - u, true⟩, h.mem_crossings_iff.2 ⟨s, hs, hlt.ne, hzero, hu, ?_, ?_⟩, ?_, ?_, rfl⟩
  · exact Segment.reaches_closed_iff.2 ⟨by linarith, by linarith⟩
  · exact (decide_eq_true hstop).symm
  · change v < 1 - u
    linarith
  · change 1 - u ≤ w
    linarith

/-- A piece that stops outside of a boundary is not in the region beyond the crossing. -/
theorem not_contains_beyond (h : r.Tight) {c : Crossing Rat}
    (hc : c ∈ r.crossings (.closed a b)) (hinside : c.inside = false) {w : Rat} (hw : c.param < w) :
    r.contains (a.lerp b w) ≠ true := by
  obtain ⟨s, hs, hne, hzero, -, hreaches, hside⟩ := h.mem_crossings_iff.1 hc
  obtain ⟨h0, h1⟩ := Segment.reaches_closed_iff.1 hreaches
  have hstop : s.inward b < 0 := by
    rw [hinside] at hside
    exact not_le.1 (of_decide_eq_false hside.symm)
  have hzero : s.inward a * (1 - c.param) + s.inward b * c.param = 0 := by
    rwa [← Segment.inward_lerp]
  have hlt : s.inward b < s.inward a := by nlinarith
  rw [ne_eq, h.contains_iff]
  intro hw'
  have hfw := hw' s hs
  rw [Segment.inward_lerp] at hfw
  nlinarith

/-- Where there are no crossings in between, a region has both of two points or neither. -/
theorem contains_eq_contains (h : r.Tight) {v w : Rat} (h0 : 0 ≤ v) (hvw : v < w) (h1 : w ≤ 1)
    (hnone : ∀ c ∈ r.crossings (.closed a b), v ≤ c.param → w < c.param) :
    r.contains (a.lerp b v) = r.contains (a.lerp b w) := by
  refine Bool.eq_iff_iff.2 ⟨fun hv => ?_, fun hw => ?_⟩
  · by_contra hw
    obtain ⟨c, hc, hvc, hcw, -⟩ := h.exists_leaving h0 hvw h1 hv hw
    exact hcw.not_gt (hnone c hc hvc)
  · by_contra hv
    obtain ⟨c, hc, hvc, hcw, -⟩ := h.exists_entering h0 hvw h1 hv hw
    exact hcw.not_gt (hnone c hc hvc.le)

/-! ## The flag of a lane -/

/-- Without crossings at the same parameter, the flag of a region after the crossings up to `t` says
of each point up to the next crossing whether it is in the region. -/
theorem inside_after_eq (h : r.Tight)
    (hsimple : ((r.crossings (.closed a b)).map (·.param)).Nodup) (s : Sector) {t next w : Rat}
    (h0 : 0 ≤ t) (hnext : next ≤ 1)
    (hgap : ∀ c ∈ r.crossings (.closed a b), c.param ≤ t ∨ next ≤ c.param) (htw : t < w)
    (hwn : w < next) :
    (Lane.after t ⟨s, r.contains a, r.crossings (.closed a b)⟩).inside =
      r.contains (a.lerp b w) := by
  have hordered := Lane.ordered_crossings s (r.contains a) r (.closed a b)
  have hw0 : 0 < w := h0.trans_lt htw
  have hw1 : w ≤ 1 := hwn.le.trans hnext
  simp only [Lane.after]
  cases hlast : ((r.crossings (.closed a b)).filter fun c => decide (c.param ≤ t)).getLast? with
  | none =>
    have hnone : ∀ c ∈ r.crossings (.closed a b), 0 ≤ c.param → w < c.param := fun c hc _ => by
      have hct : ¬c.param ≤ t := fun hct =>
        List.filter_eq_nil_iff.1 (List.getLast?_eq_none_iff.1 hlast) c hc (decide_eq_true hct)
      exact hwn.trans_le ((hgap c hc).resolve_left hct)
    have hsame := h.contains_eq_contains le_rfl hw0 hw1 hnone
    rwa [Point.lerp_zero] at hsame
  | some c =>
    obtain ⟨hc, hct, hmax⟩ := hordered.of_getLast?_eq_some hlast
    cases hinside : c.inside with
    | false =>
      rw [Bool.eq_false_iff.2 (h.not_contains_beyond hc hinside (hct.trans_lt htw))]
      exact hinside
    | true =>
      obtain ⟨-, -, -, -, hu, hreaches, -⟩ := h.mem_crossings_iff.1 hc
      have hc0 : 0 ≤ c.param := (Segment.reaches_closed_iff.1 hreaches).1
      have hcontains : r.contains (a.lerp b w) = true := by
        by_contra hw
        obtain ⟨d, hd, hcd, hdw, hout⟩ :=
          h.exists_leaving hc0 (hct.trans_lt htw) hw1 hu hw
        have hdt : d.param ≤ t := (hgap d hd).resolve_right (hdw.trans hwn).not_ge
        have hdc : d.param ≤ c.param := hmax d hd hdt
        obtain rfl := List.inj_on_of_nodup_map hsimple hd hc (hdc.antisymm hcd)
        rw [hinside] at hout
        cases hout
      rw [hcontains]
      exact hinside

end Region.Tight

/-! ## The walk along a piece -/

namespace Classifier

variable {settings : Settings Rat} {order : List Sector} {a b : Point Rat}

theorem mem_lanes_ofOrder {piece : Segment Rat} {lane : Lane Rat} :
    lane ∈ (ofOrder settings order).lanes piece ↔ ∃ s ∈ order, lane =
      ⟨s, (s.region settings).contains piece.start, (s.region settings).crossings piece⟩ := by
  rw [lanes, List.mem_map]
  constructor
  · rintro ⟨entry, hentry, rfl⟩
    obtain ⟨hs, hregion⟩ := mem_entries_ofOrder.1 hentry
    exact ⟨entry.1, hs, by rw [hregion]⟩
  · rintro ⟨s, hs, rfl⟩
    exact ⟨(s, s.region settings), mem_entries_ofOrder.2 ⟨hs, rfl⟩, rfl⟩

theorem mem_lanes_of_mem {s : Sector} (hs : s ∈ order) (piece : Segment Rat) :
    ⟨s, (s.region settings).contains piece.start, (s.region settings).crossings piece⟩ ∈
      (ofOrder settings order).lanes piece :=
  mem_lanes_ofOrder.2 ⟨s, hs, rfl⟩

/-- The walk along a piece stops at the events of its lanes. -/
theorem events_lanes (settings : Settings Rat) (order : List Sector) (piece : Segment Rat) :
    Lane.Events id ((ofOrder settings order).lanes piece)
      (Lane.stops ((ofOrder settings order).lanes piece)) :=
  events_lanes_of_ranked .rat fun _ _ _ _ => trivial

end Classifier

namespace Lane

theorem mem_current {K : Type} {lanes : List (Lane K)} {s : Sector} :
    s ∈ current lanes ↔ ∃ lane ∈ lanes, lane.inside = true ∧ lane.sector = s := by
  simp [current, and_assoc]

/-- The parameter of an event, or that of the end of the piece if there are no more. -/
def eventParam (events : List (Rat × List (Lane Rat))) (i : Nat) : Rat :=
  (events[i]?.map (·.1)).getD 1

theorem eventParam_eq {events : List (Rat × List (Lane Rat))} {i : Nat} {e : Rat × List (Lane Rat)}
    (h : events[i]? = some e) : eventParam events i = e.1 := by
  rw [eventParam, h]
  rfl

variable {lanes : List (Lane Rat)} {events : List (Rat × List (Lane Rat))}

theorem Events.eventParam_le (h : Events id lanes events) {i j : Nat} (hij : i ≤ j)
    {e : Rat × List (Lane Rat)} (hj : events[j]? = some e) : eventParam events i ≤ e.1 := by
  rcases hij.eq_or_lt with rfl | hij
  · rw [eventParam_eq hj]
  · have hi := List.getElem?_eq_getElem (hij.trans (List.getElem?_eq_some_iff.1 hj).1)
    rw [eventParam_eq hi]
    exact (h.lt_of_lt hij hi hj).le

/-- No crossing comes before the first event. -/
theorem Events.first_le (h : Events id lanes events) {lane : Lane Rat} (hlane : lane ∈ lanes)
    {c : Crossing Rat} (hc : c ∈ lane.ahead) : eventParam events 0 ≤ c.param := by
  obtain ⟨j, e, he, heq⟩ := h.exists_getElem? hlane hc
  exact (h.eventParam_le (Nat.zero_le j) he).trans_eq heq

/-- A crossing comes no later than an event, or no sooner than the next. -/
theorem Events.le_or_next_le (h : Events id lanes events) {i : Nat} {e : Rat × List (Lane Rat)}
    (he : events[i]? = some e) {lane : Lane Rat} (hlane : lane ∈ lanes) {c : Crossing Rat}
    (hc : c ∈ lane.ahead) : c.param ≤ e.1 ∨ eventParam events (i + 1) ≤ c.param := by
  obtain ⟨j, e', he', heq⟩ := h.exists_getElem? hlane hc
  have heq : e'.1 = c.param := heq
  rw [← heq]
  rcases Nat.lt_or_ge i j with hij | hji
  · exact .inr (h.eventParam_le hij he')
  · rw [← eventParam_eq he']
    exact .inl (h.eventParam_le hji he)

/-- Events at parameters below the end of the piece come before the next event. -/
theorem Events.lt_eventParam_succ (h : Events id lanes events) {i : Nat}
    {e : Rat × List (Lane Rat)} (he : events[i]? = some e) (hlt : e.1 < 1) :
    e.1 < eventParam events (i + 1) := by
  cases hnext : events[i + 1]? with
  | none =>
    rw [eventParam, hnext]
    exact hlt
  | some e' =>
    rw [eventParam_eq hnext]
    exact h.lt_of_lt (Nat.lt_succ_self i) he hnext

end Lane

namespace Classifier

variable {settings : Settings Rat} {order : List Sector} {a b : Point Rat}

/-- The region of a sector has the whole of the open stretch of a line between two parameters. -/
def HasStretch (settings : Settings Rat) (s : Sector) (a b : Point Rat) (t u : Rat) : Prop :=
  ∀ v, t < v → v < u → (s.region settings).contains (a.lerp b v) = true

/-- A crossing is a place on the piece. -/
theorem param_mem_unit (h : settings.PositiveSlops) {s : Sector} {c : Crossing Rat}
    (hc : c ∈ (s.region settings).crossings (.closed a b)) : 0 ≤ c.param ∧ c.param ≤ 1 := by
  obtain ⟨-, -, -, -, -, hreaches, -⟩ := (Sector.tight_region h s).mem_crossings_iff.1 hc
  exact Segment.reaches_closed_iff.1 hreaches

/-- An event is at a place on the piece. -/
theorem eventParam_mem_unit (h : settings.PositiveSlops) (order : List Sector) (a b : Point Rat)
    (i : Nat) :
    let stops := Lane.stops ((ofOrder settings order).lanes (.closed a b))
    0 ≤ Lane.eventParam stops i ∧ Lane.eventParam stops i ≤ 1 := by
  intro stops
  cases hi : stops[i]? with
  | none =>
    rw [Lane.eventParam, hi]
    exact ⟨zero_le_one, le_rfl⟩
  | some e =>
    rw [Lane.eventParam_eq hi]
    obtain ⟨lane, hlane, c, hc, hparam⟩ :=
      (events_lanes settings order (.closed a b)).source e (List.mem_of_getElem? hi)
    obtain ⟨s, -, rfl⟩ := mem_lanes_ofOrder.1 hlane
    exact hparam ▸ param_mem_unit h hc

/-- What is the same all along a stretch, and decides whether a sector has its points, decides
whether the sector has the stretch. -/
theorem hasStretch_iff {s : Sector} {t u : Rat} (htu : t < u) {flag : Bool}
    (h : ∀ v, t < v → v < u → flag = (s.region settings).contains (a.lerp b v)) :
    flag = true ↔ HasStretch settings s a b t u := by
  refine ⟨fun hflag v htv hvu => (h v htv hvu).symm.trans hflag, fun hstretch => ?_⟩
  obtain ⟨v, htv, hvu⟩ := exists_between htu
  exact (h v htv hvu).trans (hstretch v htv hvu)

section

variable (h : settings.PositiveSlops) (hsimple : ∀ s ∈ order,
  (((s.region settings).crossings (.closed a b)).map (·.param)).Nodup)

include h hsimple

/-- After an event, the flag of a lane says whether its sector has the stretch up to the next
event. -/
theorem inside_iff_hasStretch {i : Nat} {t : Rat} {lanes : List (Lane Rat)}
    (hi : (Lane.stops ((ofOrder settings order).lanes (.closed a b)))[i]? = some (t, lanes))
    (ht : t < 1) :
    let next := Lane.eventParam (Lane.stops ((ofOrder settings order).lanes (.closed a b))) (i + 1)
    ∀ lane ∈ lanes, lane.inside = true ↔ HasStretch settings lane.sector a b t next := by
  intro next lane hlane
  have hevents := events_lanes settings order (.closed a b)
  have hstate : lanes = _ := hevents.state _ (List.mem_of_getElem? hi)
  rw [hstate] at hlane
  obtain ⟨start, hstart, rfl⟩ := List.mem_map.1 hlane
  obtain ⟨s, hs, rfl⟩ := mem_lanes_ofOrder.1 hstart
  have ht0 : 0 ≤ t := (eventParam_mem_unit h order a b i).1.trans_eq (Lane.eventParam_eq hi)
  have hnext1 : next ≤ 1 := (eventParam_mem_unit h order a b (i + 1)).2
  refine hasStretch_iff (hevents.lt_eventParam_succ hi ht) fun v htv hvn => ?_
  exact (Sector.tight_region h s).inside_after_eq (hsimple s hs) s ht0 hnext1
    (fun c hc => hevents.le_or_next_le hi hstart hc) htv hvn

/-- The set recorded at an event has the sectors that have the stretch up to the next event. -/
theorem mem_current_iff_hasStretch {i : Nat} {t : Rat} {lanes : List (Lane Rat)}
    (hi : (Lane.stops ((ofOrder settings order).lanes (.closed a b)))[i]? = some (t, lanes))
    (ht : t < 1) (s : Sector) :
    let next := Lane.eventParam (Lane.stops ((ofOrder settings order).lanes (.closed a b))) (i + 1)
    s ∈ Lane.current lanes ↔ s ∈ order ∧ HasStretch settings s a b t next := by
  intro next
  have hflag := inside_iff_hasStretch h hsimple hi ht
  have hstate : lanes = ((ofOrder settings order).lanes (.closed a b)).map (Lane.after t) :=
    (events_lanes settings order (.closed a b)).state _ (List.mem_of_getElem? hi)
  rw [Lane.mem_current]
  constructor
  · rintro ⟨lane, hlane, hinside, rfl⟩
    refine ⟨?_, (hflag lane hlane).1 hinside⟩
    rw [hstate] at hlane
    obtain ⟨start, hstart, rfl⟩ := List.mem_map.1 hlane
    obtain ⟨s, hs, rfl⟩ := mem_lanes_ofOrder.1 hstart
    exact hs
  · rintro ⟨hs, hstretch⟩
    have hlane : Lane.after t ⟨s, (s.region settings).contains a,
        (s.region settings).crossings (.closed a b)⟩ ∈ lanes :=
      hstate ▸ List.mem_map_of_mem (mem_lanes_of_mem hs _)
    exact ⟨_, hlane, (hflag _ hlane).2 hstretch, rfl⟩

end

/-- The sectors that the start of a piece is in are those that have the stretch up to the first
event. -/
theorem mem_classifyAll_iff_hasStretch (h : settings.PositiveSlops) (order : List Sector)
    (a b : Point Rat) (s : Sector) :
    let first := Lane.eventParam (Lane.stops ((ofOrder settings order).lanes (.closed a b))) 0
    0 < first → (s ∈ (ofOrder settings order).classifyAll a ↔
      s ∈ order ∧ HasStretch settings s a b 0 first) := by
  intro first hfirst
  rw [mem_classifyAll_ofOrder]
  refine and_congr_right fun hs => hasStretch_iff hfirst fun v hv0 hv1 => ?_
  have hevents := events_lanes settings order (.closed a b)
  have hsame := (Sector.tight_region h s).contains_eq_contains (a := a) (b := b) le_rfl hv0
    (hv1.le.trans (eventParam_mem_unit h order a b 0).2) fun c hc _ =>
      hv1.trans_le (hevents.first_le (mem_lanes_of_mem hs _) hc)
  rwa [Point.lerp_zero] at hsame

/-- The walk along a piece is right about every stretch between crossings, if no region has two
crossings at one parameter. -/
theorem stretch_between_crossings (settings : Settings Rat) (h : settings.PositiveSlops)
    (order : List Sector) (a b : Point Rat)
    (hsimple : ∀ s ∈ order,
      (((s.region settings).crossings (.closed a b)).map (·.param)).Nodup) :
    let c := ofOrder settings order
    let stops := Lane.stops (c.lanes (.closed a b))
    (∀ i t lanes, stops[i]? = some (t, lanes) → t < 1 →
      let next := Lane.eventParam stops (i + 1)
      t < next ∧
      (∀ lane ∈ lanes, lane.inside = true ↔ HasStretch settings lane.sector a b t next) ∧
      ∃ set, (c.pieceSets (.closed a b))[i]? = some set ∧
        ∀ s, s ∈ set ↔ s ∈ order ∧ HasStretch settings s a b t next) ∧
    (0 < Lane.eventParam stops 0 →
      ∀ s, s ∈ c.classifyAll a ↔
        s ∈ order ∧ HasStretch settings s a b 0 (Lane.eventParam stops 0)) := by
  intro c stops
  refine ⟨fun i t lanes hi ht => ⟨?_, ?_, Lane.current lanes, ?_, ?_⟩, fun hfirst s => ?_⟩
  · exact (events_lanes settings order (.closed a b)).lt_eventParam_succ hi ht
  · exact inside_iff_hasStretch h hsimple hi ht
  · rw [pieceSets, List.getElem?_map, hi]
    rfl
  · exact mem_current_iff_hasStretch h hsimple hi ht
  · exact mem_classifyAll_iff_hasStretch h order a b s hfirst

/-- A piece from the left to the right and, later, from the top to the bottom. -/
theorem stretch_between_crossings_two_halves :
    let settings : Settings Rat := ⟨1 / 8, 1 / 4, 1 / 2, 4, 5, 2 / 5⟩
    let order : List Sector := [.topLeft, .rightHalf, .topHalf]
    let c := ofOrder settings order
    let piece : Segment Rat := .closed ⟨-1, 1⟩ ⟨1, -1 / 2⟩
    settings.PositiveSlops ∧
      (∀ s ∈ order, (((s.region settings).crossings piece).map (·.param)).Nodup) ∧
      (Lane.stops (c.lanes piece)).map (·.1) = [1 / 2, 2 / 3] ∧
      ∃ set, (c.pieceSets piece)[0]? = some set ∧ ∀ s, s ∈ set ↔
        s ∈ order ∧ HasStretch settings s ⟨-1, 1⟩ ⟨1, -1 / 2⟩ (1 / 2) (2 / 3) := by
  intro settings order c piece
  have hslops : settings.PositiveSlops := by constructor <;> decide +kernel
  have hsimple : ∀ s ∈ order,
      (((s.region settings).crossings piece).map (·.param)).Nodup := by decide +kernel
  have hparams : (Lane.stops (c.lanes piece)).map (·.1) = [1 / 2, 2 / 3] := by decide +kernel
  obtain ⟨lanes, hfirst⟩ : ∃ lanes, (Lane.stops (c.lanes piece))[0]? = some (1 / 2, lanes) := by
    have h := congrArg (·[0]?) hparams
    obtain ⟨⟨t, lanes⟩, hfirst, rfl⟩ := Option.map_eq_some_iff.1 (List.getElem?_map ▸ h)
    exact ⟨lanes, hfirst⟩
  have hsecond : Lane.eventParam (Lane.stops (c.lanes piece)) 1 = 2 / 3 := by
    have h := congrArg (·[1]?) hparams
    rw [Lane.eventParam, ← List.getElem?_map]
    exact congrArg (·.getD 1) h
  refine ⟨hslops, hsimple, hparams, ?_⟩
  obtain ⟨-, -, hset⟩ := (stretch_between_crossings settings hslops order _ _ hsimple).1 0 _ _
    hfirst (by decide +kernel)
  rwa [hsecond] at hset

end Classifier

end CurveSketch
