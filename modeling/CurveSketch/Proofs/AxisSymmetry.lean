import CurveSketch.Feature.Symmetry
import CurveSketch.Proofs.Stretch
import CurveSketch.Proofs.Trace

/-!
# Symmetry about the axes

The stretches of the left half of a line are compared with those of the right half, from the axis
outwards. Two stretches that run all the way up or down between opposite ends (`Opposite`) have
sizes that differ by the signs only, and so show the symmetry, or nothing if they are single
vertices on the axis (`Opposite.ofPair?_eq`). If the halves turn at opposite vertices, then all
pairs of stretches are opposite, and the line has the symmetry (`OppositeHalves.aboutAxes_eq`).
-/

namespace CurveSketch

namespace Symmetry

variable {settings : Settings Rat} {f : Point Rat → Point Rat} {factor : Rat} {found : Symmetry}
variable {left right : Polyline Rat}

/-! ## A stretch and its image -/

/-- Stretches of no size show nothing. -/
theorem ofPair?_of_size_zero (innermost : Bool) (hl : left.size = ⟨0, 0⟩)
    (hr : right.size = ⟨0, 0⟩) : ofPair? settings innermost left right = none := by
  simp only [ofPair?, hl, hr]
  rfl

/-- Stretches of the sizes of a stretch and its image show a symmetry, if two innermost stretches
that are turned over meet at the origin. -/
def Shows (settings : Settings Rat) (factor : Rat) (found : Symmetry) : Prop :=
  ∀ (innermost : Bool) (left right : Polyline Rat), 0 < right.size.x → right.size.y ≠ 0 →
    left.size = ⟨right.size.x, -factor * right.size.y⟩ →
    (innermost = true → factor = -1 → meetAtOrigin settings left right = true) →
    ofPair? settings innermost left right = some found

/-- What decides between stretches of equal widths and of heights that are not zero. -/
theorem ofPair?_of_widths_eq (innermost : Bool) (htolerance : 0 < settings.symmetryTolerance)
    (hx : 0 < right.size.x) (hy : right.size.y ≠ 0) (hwidths : left.size.x = right.size.x) :
    ofPair? settings innermost left right =
      if Scalar.abs ((right.size.y - left.size.y) / right.size.y) < settings.symmetryTolerance then
        some (if !innermost || meetAtOrigin settings left right then odd else asymmetric)
      else if Scalar.abs ((right.size.y + left.size.y) / right.size.y) <
        settings.symmetryTolerance then some even
      else some asymmetric := by
  have hsome : ¬(left.size.x == 0 && left.size.y == 0 && right.size.x == 0 &&
      right.size.y == 0) = true := by
    simp [hx.ne']
  have hwide : ¬(settings.symmetryTolerance ≤
      Scalar.abs ((right.size.x - left.size.x) / right.size.x) ∨
      Scalar.isNaN ((right.size.x - left.size.x) / right.size.x) = true) := by
    rw [hwidths, sub_self, zero_div]
    exact not_or.2 ⟨not_le.2 htolerance, nofun⟩
  have hhigh : ¬(right.size.y == 0 && left.size.y == 0) = true := by
    simp [hy]
  rw [ofPair?, if_neg hsome, if_neg hwide, if_neg hhigh]

theorem shows_even (h : 0 < settings.symmetryTolerance) (h' : settings.symmetryTolerance ≤ 2) :
    Shows settings 1 even := by
  intro innermost left right hx hy hl _
  have hsame : (right.size.y - -1 * right.size.y) / right.size.y = 2 := by
    field_simp
    norm_num
  have hopposite : (right.size.y + -1 * right.size.y) / right.size.y = 0 := by
    rw [neg_one_mul, add_neg_cancel, zero_div]
  rw [ofPair?_of_widths_eq innermost h hx hy (by rw [hl]), hl, hsame, hopposite]
  exact (if_neg (not_lt.2 h')).trans (if_pos h)

theorem shows_odd (h : 0 < settings.symmetryTolerance) : Shows settings (-1) odd := by
  intro innermost left right hx hy hl hmeet
  have hsame : (right.size.y - - -1 * right.size.y) / right.size.y = 0 := by
    rw [neg_neg, one_mul, sub_self, zero_div]
  have hmeets : (!innermost || meetAtOrigin settings left right) = true := by
    cases innermost
    · rfl
    · exact hmeet rfl rfl
  rw [ofPair?_of_widths_eq innermost h hx hy (by rw [hl]), hl, hsame]
  exact (if_pos h).trans (congrArg some (if_pos hmeets))

/-- Two stretches that rise or fall all the way, from opposite ends to opposite ends. -/
structure Opposite (f : Point Rat → Point Rat) (left right : Polyline Rat) : Prop where
  run_left : Run left.points
  run_right : Run right.points
  head_left : left.points.head? = right.points.getLast?.map f
  last_left : left.points.getLast? = right.points.head?.map f

namespace Opposite

variable {a b : Point Rat}

/-- The sizes of opposite stretches. -/
theorem sizes (hf : Flips f factor) (h : Opposite f left right)
    (hhead : right.points.head? = some a) (hlast : right.points.getLast? = some b) :
    right.size = b - a ∧ left.size = ⟨(b - a).x, -factor * (b - a).y⟩ := by
  have hhead' : left.points.head? = some (f b) := by rw [h.head_left, hlast]; rfl
  have hlast' : left.points.getLast? = some (f a) := by rw [h.last_left, hhead]; rfl
  exact ⟨h.run_right.size_eq hhead hlast,
    (h.run_left.size_eq hhead' hlast').trans (hf.sub_eq a b)⟩

/-- Opposite stretches of one vertex each show nothing. -/
theorem ofPair?_eq_none (hf : Flips f factor) (h : Opposite f left right) (innermost : Bool)
    (hhead : right.points.head? = some a) (hlast : right.points.getLast? = some a) :
    ofPair? settings innermost left right = none := by
  obtain ⟨hright, hleft⟩ := h.sizes hf hhead hlast
  have hzero : a - a = (⟨0, 0⟩ : Point Rat) := Point.ext_iff.2 ⟨sub_self a.x, sub_self a.y⟩
  rw [hzero] at hright hleft
  rw [mul_zero] at hleft
  exact ofPair?_of_size_zero innermost hleft hright

/-- Other opposite stretches show the symmetry. -/
theorem ofPair?_eq_some (hf : Flips f factor) (hshow : Shows settings factor found)
    (h : Opposite f left right) (innermost : Bool) (hhead : right.points.head? = some a)
    (hlast : right.points.getLast? = some b) (hab : a.x < b.x)
    (hmeet : innermost = true → factor = -1 → meetAtOrigin settings left right = true) :
    ofPair? settings innermost left right = some found := by
  obtain ⟨hright, hleft⟩ := h.sizes hf hhead hlast
  refine hshow innermost left right ?_ ?_ (hright ▸ hleft) hmeet
  · rw [hright]
    exact sub_pos.2 hab
  · rw [hright]
    exact sub_ne_zero.2 (h.run_right.slanted.y_ne hhead hlast hab.ne)

end Opposite

/-! ## All stretches -/

/-- The symmetry found stays, if the other pairs show it or nothing. -/
theorem agreed_some_eq {pairs : List (Polyline Rat × Polyline Rat)}
    (h : ∀ pair ∈ pairs, ofPair? settings false pair.1 pair.2 = none ∨
      ofPair? settings false pair.1 pair.2 = some found) :
    agreed settings (some found) pairs = found := by
  induction pairs with
  | nil => rfl
  | cons pair pairs ih =>
    obtain ⟨hpair, hpairs⟩ := List.forall_mem_cons.1 h
    rcases hpair with hpair | hpair
    · simp only [agreed, Option.isNone_some, hpair]
      exact ih hpairs
    · simp only [agreed, Option.isNone_some, hpair]
      exact ih hpairs

theorem eq_of_mem_zip {α β γ : Type} {g : α → γ} {h : β → γ} {l : List α} {l' : List β}
    (heq : l.map g = l'.map h) {pair : α × β} (hpair : pair ∈ l.zip l') : g pair.1 = h pair.2 := by
  induction l generalizing l' with
  | nil => exact absurd hpair List.not_mem_nil
  | cons a l ih =>
    cases l' with
    | nil => exact absurd hpair List.not_mem_nil
    | cons b l' =>
      obtain ⟨hab, htail⟩ := List.cons.inj heq
      rcases List.mem_cons.1 hpair with rfl | hpair
      · exact hab
      · exact ih htail hpair

/-- Opposite stretches show the symmetry or nothing. -/
theorem Opposite.ofPair?_eq (hf : Flips f factor) (hshow : Shows settings factor found)
    (h : Opposite f left right) (hne : right.points ≠ []) :
    ofPair? settings false left right = none ∨ ofPair? settings false left right = some found := by
  obtain ⟨a, hhead⟩ := Option.ne_none_iff_exists'.1 (mt List.head?_eq_none_iff.1 hne)
  obtain ⟨b, hlast⟩ := Option.ne_none_iff_exists'.1 (mt List.getLast?_eq_none_iff.1 hne)
  rcases eq_or_rel_of_head? h.run_right.rightward hhead (List.mem_of_getLast? hlast) with rfl | hab
  · exact .inl (h.ofPair?_eq_none hf false hhead hlast)
  · exact .inr (h.ofPair?_eq_some hf hshow false hhead hlast hab nofun)

/-- A point on the vertical axis that is its own image under a half turn is the origin. -/
theorem contains_axis (hf : Flips f factor) (hslop : 0 < settings.relaxedOriginSlop)
    {axis : Point Rat} (hx : axis.x = 0) (haxis : f axis = axis) (hfactor : factor = -1) :
    (Sector.relaxedOrigin.region settings).contains axis = true := by
  have hy : axis.y = 0 := by
    have := hf.y axis
    rw [haxis, hfactor] at this
    linarith
  refine (Region.bounds_square hslop).contains_iff.2 ?_
  rw [hx, hy]
  exact ⟨⟨by linarith, hslop.le⟩, by linarith, hslop.le⟩

/-- Opposite stretches that go on from the axis show the symmetry. -/
theorem Opposite.ofPair?_innermost (hf : Flips f factor) (hshow : Shows settings factor found)
    (hslop : 0 < settings.relaxedOriginSlop) (h : Opposite f left right) {axis b : Point Rat}
    (hx : axis.x = 0) (haxis : f axis = axis) (hhead : right.points.head? = some axis)
    (hlast : right.points.getLast? = some b) (hb : axis.x < b.x) :
    ofPair? settings true left right = some found := by
  refine h.ofPair?_eq_some hf hshow true hhead hlast hb fun _ hfactor => ?_
  have hlast' : left.points.getLast? = some axis := by
    rw [h.last_left, hhead, Option.map_some, haxis]
  rw [meetAtOrigin, hhead, hlast', Option.any_some, contains_axis hf hslop hx haxis hfactor]
  rfl

/-- The first pair of stretches that have a size shows the symmetry, and the others agree. -/
theorem agreed_none_eq (hf : Flips f factor) (hshow : Shows settings factor found)
    (hslop : 0 < settings.relaxedOriginSlop) {axis last : Point Rat} (hx : axis.x = 0)
    (haxis : f axis = axis) (hlast : axis.x < last.x) {cuts : List (Point Rat)}
    (hcuts : ∀ v ∈ cuts, v = axis ∨ axis.x < v.x) {pairs : List (Polyline Rat × Polyline Rat)}
    (hpairs : ∀ pair ∈ pairs, Opposite f pair.1 pair.2)
    (hheads : pairs.map (·.2.points.head?) = (axis :: cuts).map some)
    (hlasts : pairs.map (·.2.points.getLast?) = (cuts ++ [last]).map some) :
    agreed settings none pairs = found := by
  induction cuts generalizing pairs with
  | nil =>
    obtain ⟨⟨left, right⟩, pairs, rfl, hhead, hrest⟩ := List.map_eq_cons_iff.1 hheads
    obtain rfl := List.map_eq_nil_iff.1 hrest
    have hstop : right.points.getLast? = some last := (List.cons.inj hlasts).1
    have hshown := (hpairs _ List.mem_cons_self).ofPair?_innermost hf hshow hslop hx haxis hhead
      hstop hlast
    simp only [agreed, Option.isNone_none, hshown, Option.getD_some]
  | cons v cuts ih =>
    obtain ⟨⟨left, right⟩, pairs, rfl, hhead, hrest⟩ := List.map_eq_cons_iff.1 hheads
    obtain ⟨hpair, hpairs⟩ := List.forall_mem_cons.1 hpairs
    obtain ⟨hv, hcuts⟩ := List.forall_mem_cons.1 hcuts
    obtain ⟨hstop, hlasts⟩ : right.points.getLast? = some v ∧ _ := List.cons.inj hlasts
    rcases hv with rfl | hv
    · -- the first cut is on the axis, and leaves a single vertex there
      have hnone : ofPair? settings true left right = none :=
        hpair.ofPair?_eq_none hf true hhead hstop
      simp only [agreed, Option.isNone_none, hnone]
      exact ih hcuts hpairs hrest hlasts
    · have hshown := hpair.ofPair?_innermost hf hshow hslop hx haxis hhead hstop hv
      simp only [agreed, Option.isNone_none, hshown]
      refine agreed_some_eq fun pair hmem => (hpairs pair hmem).ofPair?_eq hf hshow fun hnil => ?_
      have hsome := List.mem_map_of_mem (f := fun p => p.2.points.head?) hmem
      rw [hrest, hnil] at hsome
      simp at hsome

/-! ## The halves of a line -/

/-- A half of a line : it runs to the right without level pieces, in range, and turns only at the
vertices listed. -/
structure Half (points cuts : List (Point Rat)) : Prop where
  length : 2 ≤ points.length
  rightward : Rightward points
  sloped : Sloped points
  inRange : ∀ p ∈ points, p.InRange
  cuts_rightward : Rightward cuts
  cuts_subset : cuts ⊆ points
  turn_mem : ∀ t ∈ interior points, TurnsAt t → t.2.1 ∈ cuts

namespace Half

variable {points cuts : List (Point Rat)} {l : Polyline Rat}

theorem stretches (h : Half points cuts) (hpoints : l.points = points)
    (hturning : l.turning.map (·.point.x) = cuts.map (·.x)) :
    l.stretches.map (·.points) = runsBetween points (cuts.map (·.x)) := by
  subst hpoints
  rw [Polyline.stretches, hturning]
  refine h.rightward.points_cutAt h.length (List.pairwise_map.2 h.cuts_rightward) fun x hx => ?_
  obtain ⟨v, hv, rfl⟩ := List.mem_map.1 hx
  exact ⟨v, h.cuts_subset hv, rfl⟩

theorem run (h : Half points cuts) {s : List (Point Rat)}
    (hs : s ∈ runsBetween points (cuts.map (·.x))) : Run s := by
  have hcuts : (cuts.map (·.x)).Pairwise (· < ·) := List.pairwise_map.2 h.cuts_rightward
  have hpart := (h.rightward.of_mem_runsBetween hcuts hs).1
  refine ⟨h.rightward.of_sublist hpart.sublist, ?_, fun p hp => h.inRange p (hpart.subset hp)⟩
  exact Sloped.slanted (h.sloped.of_isInfix hpart)
    (h.rightward.not_turnsAt_of_mem_runsBetween hcuts hs
      fun t ht hturn => List.mem_map_of_mem (h.turn_mem t ht hturn))

end Half

/-- A line that falls at the vertical axis into a left half and a right half, which lead to opposite
ends and turn at opposite vertices. -/
structure OppositeHalves (f : Point Rat → Point Rat) (l : Polyline Rat)
    (left right cuts : List (Point Rat)) (axis last : Point Rat) : Prop where
  points_left : ((Region.leftOf 0).clip l).points = left
  points_right : ((Region.rightOf 0).clip l).points = right
  turning_left : ((Region.leftOf 0).clip l).turning.map (·.point.x) = (reflected f cuts).map (·.x)
  turning_right : ((Region.rightOf 0).clip l).turning.map (·.point.x) = cuts.map (·.x)
  half_left : Half left (reflected f cuts)
  half_right : Half right cuts
  head_left : left.head? = some (f last)
  last_left : left.getLast? = some axis
  head_right : right.head? = some axis
  last_right : right.getLast? = some last
  /-- The halves meet on the vertical axis. -/
  axis_x : axis.x = 0
  /-- The point where they meet is its own image. -/
  axis_image : f axis = axis

namespace OppositeHalves

variable {l : Polyline Rat} {cuts : List (Point Rat)} {axis last : Point Rat}
variable {left right : List (Point Rat)}

/-- The ends of the stretches to the left, from the axis on, are the images of those to the
right. -/
theorem ends_eq (h : OppositeHalves f l left right cuts axis last) :
    ((runsBetween left ((reflected f cuts).map (·.x))).reverse.map (·.head?) =
        (runsBetween right (cuts.map (·.x))).map (·.getLast?.map f)) ∧
      ((runsBetween left ((reflected f cuts).map (·.x))).reverse.map (·.getLast?) =
        (runsBetween right (cuts.map (·.x))).map (·.head?.map f)) := by
  obtain ⟨hheads, hlasts⟩ := h.half_right.rightward.ends_runsBetween h.half_right.cuts_rightward
    h.half_right.cuts_subset h.head_right h.last_right
  obtain ⟨hheads', hlasts'⟩ := h.half_left.rightward.ends_runsBetween h.half_left.cuts_rightward
    h.half_left.cuts_subset h.head_left h.last_left
  have hfirst : f last :: reflected f cuts = reflected f (cuts ++ [last]) :=
    (reflected_append f cuts [last]).symm
  have hstop : reflected f cuts ++ [axis] = reflected f (axis :: cuts) := by
    rw [reflected_cons, h.axis_image]
  have himages : ∀ points : List (Point Rat),
      ((reflected f points).map some).reverse = (points.map some).map (·.map f) := by
    intro points
    rw [reflected, List.map_reverse, List.reverse_reverse, List.map_map, List.map_map]
    rfl
  constructor
  · rw [List.map_reverse, hheads', hfirst, himages, ← hlasts, List.map_map]
    rfl
  · rw [List.map_reverse, hlasts', hstop, himages, ← hheads, List.map_map]
    rfl

/-- A line with opposite halves has the symmetry about the axes. -/
theorem aboutAxes_eq (hf : Flips f factor) (hshow : Shows settings factor found)
    (hslop : 0 < settings.relaxedOriginSlop) (h : OppositeHalves f l left right cuts axis last) :
    aboutAxes settings l = found := by
  have hlefts := h.half_left.stretches h.points_left h.turning_left
  have hrights := h.half_right.stretches h.points_right h.turning_right
  obtain ⟨hheads, hlasts⟩ := h.half_right.rightward.ends_runsBetween h.half_right.cuts_rightward
    h.half_right.cuts_subset h.head_right h.last_right
  obtain ⟨hheads', hlasts'⟩ := h.ends_eq
  have hrun_left : ∀ s ∈ ((Region.leftOf 0).clip l).stretches, Run s.points := fun s hs =>
    h.half_left.run (hlefts ▸ List.mem_map_of_mem hs)
  have hrun_right : ∀ s ∈ ((Region.rightOf 0).clip l).stretches, Run s.points := fun s hs =>
    h.half_right.run (hrights ▸ List.mem_map_of_mem hs)
  rw [← hlefts, ← hrights, ← List.map_reverse, List.map_map, List.map_map] at hheads' hlasts'
  rw [← hrights, List.map_map] at hheads hlasts
  have haxis : axis.x < last.x :=
    h.half_right.rightward.head_lt_last h.half_right.length h.head_right h.last_right
  have hcuts : ∀ v ∈ cuts, v = axis ∨ axis.x < v.x := fun v hv =>
    eq_or_rel_of_head? h.half_right.rightward h.head_right (h.half_right.cuts_subset hv)
  simp only [aboutAxes]
  generalize ((Region.leftOf 0).clip l).stretches = lefts at *
  generalize ((Region.rightOf 0).clip l).stretches = rights at *
  have hlength : lefts.length = rights.length := by
    simpa using congrArg List.length hheads'
  have hsecond : (lefts.reverse.zip rights).map Prod.snd = rights :=
    List.map_snd_zip (by rw [List.length_reverse, hlength])
  rw [if_pos hlength]
  refine agreed_none_eq hf hshow hslop h.axis_x h.axis_image haxis hcuts (fun pair hpair => ?_)
    ?_ ?_
  · obtain ⟨hleft, hright⟩ := List.of_mem_zip hpair
    exact ⟨hrun_left _ (List.mem_reverse.1 hleft), hrun_right _ hright,
      eq_of_mem_zip hheads' hpair, eq_of_mem_zip hlasts' hpair⟩
  · rw [← hheads]
    conv_rhs => rw [← hsecond, List.map_map]
    rfl
  · rw [← hlasts]
    conv_rhs => rw [← hsecond, List.map_map]
    rfl

end OppositeHalves

end Symmetry

end CurveSketch
