import CurveSketch.Proofs.Extent
import CurveSketch.Proofs.RoundedValue
import CurveSketch.Proofs.VerticalCut

/-!
# Rounded cuts

The clip to one side of a vertical line, in binary64. Whether a vertex is outside is told without
error (`contains_verticalLine`). But the parameter at which a piece crosses the line is a rounded
quotient of rounded differences, and it is compared with zero and with one.

A piece from the inside to a vertex clearly outside is always reported to cross the line
(`WithinReach.exists_crossing?`), and what is reported is close to it
(`WithinReach.abs_x_lerp_sub_le`). However, a piece may be reported that stops just short of the
line. Its start is kept, then, no matter how far outside it is. So a vertex far outside is kept by
the clip exactly if it starts such a piece, or if a crossing is rounded onto it, which takes numbers
near the least one (`Region.far_outside_mem_clip_iff`).
-/

namespace CurveSketch

open Binary64 (RoundsTo)
open Rounding (least least_pos Fits)

/-! ## The boundary -/

/-- How far a point is beyond a vertical line, on the outer side of it. -/
def Side.depth (side : Side) (x : Binary64) (p : Point Binary64) : Rat :=
  match side with
  | .left => p.x.value - x.value
  | .right => x.value - p.x.value

theorem unpack_rise : ((0 : Binary64) + 1 - 0).float.toModel.unpack =
    .finite .positive (2 ^ 52) (-52) (by decide) := by
  have hbits : ((0 : Binary64) + 1 - 0).float.toModel.toBits = 0x3FF0000000000000 := by
    decide +kernel
  rw [Float.Model.unpack, hbits]
  rfl

theorem unpack_fall : ((0 : Binary64) - (0 + 1)).float.toModel.unpack =
    .finite .negative (2 ^ 52) (-52) (by decide) := by
  have hbits : ((0 : Binary64) - (0 + 1)).float.toModel.toBits = 0xBFF0000000000000 := by
    decide +kernel
  rw [Float.Model.unpack, hbits]
  rfl

section

variable {side : Side} {x : Binary64} {a b p : Point Binary64}

/-- The second point of the line is exactly above the first. -/
theorem hasValue_add_zero (hx : x.float.isFinite = true) : (x + 0).HasValue x.value :=
  (Binary64.hasValue hx).add Binary64.hasValue_zero (add_zero _) (Binary64.fits_value hx)

theorem facesInside_verticalLine (hx : x.float.isFinite = true) (hp : p.Finite) :
    (verticalLine side x).facesInside (p - (verticalLine side x).start) = true ↔
      side.depth x p ≤ 0 := by
  have hzero : (x + 0 - x).HasValue 0 :=
    (hasValue_add_zero hx).sub (Binary64.hasValue hx) (sub_self _) Rounding.fits_zero
  have hheight : (p.y - 0).HasValue p.y.value :=
    (Binary64.hasValue hp.y).sub Binary64.hasValue_zero (sub_zero _) (Binary64.fits_value hp.y)
  have hleft := hzero.mul hheight (zero_mul _) Rounding.fits_zero
  have hoffset := Binary64.roundsTo_sub hp.x hx
  obtain ⟨hright, hrightValue⟩ := Binary64.value_mul_unit unpack_rise hoffset.isNaN_eq_false
  obtain ⟨hturn, hturnValue⟩ := Binary64.value_zero_sub hleft hright
  rw [hrightValue, Rounding.factor_positive, one_mul] at hturnValue
  cases side with
  | left =>
    have hle := Binary64.nonneg_iff_value hturn
    rw [hturnValue, Left.nonneg_neg_iff, Binary64.value_sub_nonpos_iff hp.x hx] at hle
    exact (decide_eq_true_iff.trans hle).trans sub_nonpos.symm
  | right =>
    have hle := Binary64.nonpos_iff_value hturn
    rw [hturnValue, Left.neg_nonpos_iff, Binary64.value_sub_nonneg_iff hp.x hx] at hle
    exact (decide_eq_true_iff.trans hle).trans sub_nonpos.symm

theorem contains_verticalLine (hx : x.float.isFinite = true) (hp : p.Finite) :
    (verticalLine side x).contains p = true ↔ side.depth x p ≤ 0 := by
  rw [← facesInside_verticalLine hx hp]
  change (_ && true) = true ↔ _
  rw [Bool.and_true]

/-! ## The parameter of a crossing -/

/-- The divisor of the parameter at which a piece crosses the line. -/
def crossingDivisor (x : Binary64) (a b : Point Binary64) : Binary64 :=
  (b.x - a.x) * (0 - (0 + 1)) - (x - (x + 0)) * (b.y - a.y)

/-- The dividend of the parameter at which a piece crosses the line. -/
def crossingDividend (x : Binary64) (a : Point Binary64) : Binary64 :=
  (0 - (0 + 1)) * (x - a.x) + (x + 0 - x) * (0 - a.y)

/-- The parameter at which a piece crosses the line, as it is computed. -/
def crossingQuotient (x : Binary64) (a b : Point Binary64) : Binary64 :=
  crossingDividend x a / crossingDivisor x a b

theorem crossing?_verticalLine_eq_some_iff {c : Crossing Binary64} :
    (verticalLine side x).crossing? (.closed a b) = some c ↔
      ¬(crossingDivisor x a b == 0) = true ∧ ¬crossingQuotient x a b < 0 ∧
        ¬1 < crossingQuotient x a b ∧ c = ⟨crossingQuotient x a b,
          (verticalLine side x).facesInside (b - (verticalLine side x).start)⟩ := by
  have hparams : crossingParams (verticalLine side x).start (verticalLine side x).stop
      (Segment.closed a b).start (Segment.closed a b).stop =
      if crossingDivisor x a b == 0 then none
      else some (_, crossingQuotient x a b) := rfl
  unfold Segment.crossing?
  rw [hparams]
  by_cases hdivisor : (crossingDivisor x a b == 0) = true
  · rw [if_pos hdivisor]
    exact ⟨nofun, fun h => absurd hdivisor h.1⟩
  · rw [if_neg hdivisor]
    have hmisses : (decide (crossingQuotient x a b < 0) || decide (1 < crossingQuotient x a b)) =
        true ↔ crossingQuotient x a b < 0 ∨ 1 < crossingQuotient x a b := by
      rw [Bool.or_eq_true, decide_eq_true_eq, decide_eq_true_eq]
    by_cases hmiss : crossingQuotient x a b < 0 ∨ 1 < crossingQuotient x a b
    · refine ⟨fun h => ?_, fun h => absurd hmiss (not_or.2 ⟨h.2.1, h.2.2.1⟩)⟩
      exact absurd ((if_pos (hmisses.2 hmiss)).symm.trans h) nofun
    · obtain ⟨hlow, hhigh⟩ := not_or.1 hmiss
      have hnone : ¬_ = true := mt hmisses.1 hmiss
      exact ⟨fun h => ⟨hdivisor, hlow, hhigh,
        (Option.some.inj ((if_neg hnone).symm.trans h)).symm⟩, fun h => h.2.2.2 ▸ if_neg hnone⟩

theorem hasValue_fall : ((0 : Binary64) - (0 + 1)).HasValue (-1) := by
  refine ⟨?_, ?_⟩
  · change ((0 : Binary64) - (0 + 1)).float.toModel.unpack.isFinite = true
    rw [unpack_fall]
    rfl
  · rw [Binary64.value, unpack_fall, Rounding.value_finite _ _ (by decide)]
    norm_num [Rounding.factor_negative]

theorem hasValue_crossingDivisor (hx : x.float.isFinite = true)
    (hd : (b.x - a.x).float.isFinite = true) (hh : (b.y - a.y).float.isFinite = true) :
    (crossingDivisor x a b).HasValue (-(b.x - a.x).value) := by
  have hfits : Fits (-(b.x - a.x).value) := (Binary64.fits_value hd).neg
  have hzero : (x - (x + 0)).HasValue 0 :=
    (Binary64.hasValue hx).sub (hasValue_add_zero hx) (sub_self _) Rounding.fits_zero
  have hleft := (Binary64.hasValue hd).mul hasValue_fall (mul_neg_one _) hfits
  have hright := hzero.mul (Binary64.hasValue hh) (zero_mul _) Rounding.fits_zero
  exact hleft.sub hright (sub_zero _) hfits

theorem value_crossingDividend (hx : x.float.isFinite = true) (ha : a.Finite) :
    (crossingDividend x a).float.isNaN = false ∧
      (crossingDividend x a).value = -(x - a.x).value := by
  have hzero : (x + 0 - x).HasValue 0 :=
    (hasValue_add_zero hx).sub (Binary64.hasValue hx) (sub_self _) Rounding.fits_zero
  have hheight : (0 - a.y).HasValue (-a.y.value) :=
    Binary64.hasValue_zero.sub (Binary64.hasValue ha.y) (zero_sub _) (Binary64.fits_value ha.y).neg
  have hright := hzero.mul hheight (zero_mul _) Rounding.fits_zero
  have hoffset := Binary64.roundsTo_sub hx ha.x
  obtain ⟨hleft, hleftValue⟩ := Binary64.value_mul_unit unpack_fall hoffset.isNaN_eq_false
  obtain ⟨hsum, hsumValue⟩ := Binary64.value_add_zero hleft hright
  refine ⟨hsum, hsumValue.trans ?_⟩
  rw [hleftValue, Rounding.factor_negative, neg_one_mul]

/-- What is known of the parameter of a crossing that is reported. -/
structure CrossingParam (x : Binary64) (a b : Point Binary64) (u : Binary64) : Prop where
  ne_zero : (b.x - a.x).value ≠ 0
  isFinite : (x - a.x).float.isFinite = true
  rounds : RoundsTo ((x - a.x).value / (b.x - a.x).value) u
  nonneg : 0 ≤ u
  le_one : u ≤ 1

theorem CrossingParam.value_mem_unit {u : Binary64} (h : CrossingParam x a b u) :
    0 ≤ u.value ∧ u.value ≤ 1 :=
  ⟨(Binary64.nonneg_iff_value h.rounds.isNaN_eq_false).1 h.nonneg,
    (Binary64.le_one_iff_value h.rounds.isNaN_eq_false).1 h.le_one⟩

theorem crossingParam_of_crossing? (hx : x.float.isFinite = true) (ha : a.Finite) (hb : b.Finite)
    (hd : (b.x - a.x).float.isFinite = true) (hh : (b.y - a.y).float.isFinite = true)
    {c : Crossing Binary64} (hc : (verticalLine side x).crossing? (.closed a b) = some c) :
    CrossingParam x a b c.param ∧ (c.inside = true ↔ side.depth x b ≤ 0) := by
  obtain ⟨hdivisor, hdivisorValue⟩ := hasValue_crossingDivisor hx hd hh
  obtain ⟨hdividend, hdividendValue⟩ := value_crossingDividend hx ha
  obtain ⟨hzero, hlow, hhigh, rfl⟩ := crossing?_verticalLine_eq_some_iff.1 hc
  have hne : (crossingDivisor x a b).value ≠ 0 := by
    rw [← Binary64.value_zero]
    exact fun h => hzero ((Binary64.beq_iff_value
      (Binary64.isNaN_eq_false_of_isFinite hdivisor) rfl).2 h)
  obtain ⟨hnan, hfinite⟩ : (crossingQuotient x a b).float.isNaN = false ∧ _ :=
    Binary64.isFinite_of_div hdividend hdivisor hne
  have h0 : 0 ≤ crossingQuotient x a b :=
    (Binary64.nonneg_iff_value hnan).2 (not_lt.1 (mt (Binary64.lt_zero_iff_value hnan).2 hlow))
  have h1 : crossingQuotient x a b ≤ 1 :=
    (Binary64.le_one_iff_value hnan).2 (not_lt.1 (mt (Binary64.one_lt_iff_value hnan).2 hhigh))
  have hdividendFinite := hfinite (Binary64.within_of_unit h0 h1).isFinite
  have hoffset : (x - a.x).float.isFinite = true := by
    refine Binary64.isFinite_of_abs_value_lt (Binary64.roundsTo_sub hx ha.x).isNaN_eq_false ?_
    rw [← abs_neg, ← hdividendValue]
    exact (Binary64.fits_value hdividendFinite).2
  have hrounds := Binary64.roundsTo_div hdividendFinite hdivisor hne
  rw [hdividendValue, hdivisorValue, neg_div_neg_eq] at hrounds
  rw [hdivisorValue, neg_ne_zero] at hne
  exact ⟨⟨hne, hoffset, hrounds, h0, h1⟩, facesInside_verticalLine hx hb⟩

/-- A piece whose exact parameter is between zero and one is reported, however it is rounded. -/
theorem exists_crossing?_eq_some (hx : x.float.isFinite = true) (ha : a.Finite)
    (hd : (b.x - a.x).float.isFinite = true) (hh : (b.y - a.y).float.isFinite = true)
    (hne : (b.x - a.x).value ≠ 0) (h0 : 0 ≤ (x - a.x).value / (b.x - a.x).value)
    (h1 : (x - a.x).value / (b.x - a.x).value ≤ 1) :
    ∃ c, (verticalLine side x).crossing? (.closed a b) = some c := by
  obtain ⟨hdivisor, hdivisorValue⟩ := hasValue_crossingDivisor hx hd hh
  obtain ⟨hdividend, hdividendValue⟩ := value_crossingDividend hx ha
  have hne' : (crossingDivisor x a b).value ≠ 0 := by rwa [hdivisorValue, neg_ne_zero]
  have hdividendFinite : (crossingDividend x a).float.isFinite = true := by
    refine Binary64.isFinite_of_abs_value_lt hdividend
      (lt_of_le_of_lt ?_ (Binary64.fits_value hd).2)
    have hle : |(x - a.x).value / (b.x - a.x).value| ≤ 1 := by rwa [abs_of_nonneg h0]
    rwa [hdividendValue, abs_neg, ← div_le_one (abs_pos.2 hne), ← abs_div]
  have hrounds : RoundsTo ((x - a.x).value / (b.x - a.x).value) (crossingQuotient x a b) := by
    have h := Binary64.roundsTo_div hdividendFinite hdivisor hne'
    rwa [hdividendValue, hdivisorValue, neg_div_neg_eq] at h
  have hnan := hrounds.isNaN_eq_false
  refine ⟨_, crossing?_verticalLine_eq_some_iff.2 ⟨fun h => hne' ?_, ?_, ?_, rfl⟩⟩
  · exact ((Binary64.beq_iff_value (Binary64.isNaN_eq_false_of_isFinite hdivisor) rfl).1 h).trans
      Binary64.value_zero
  · rw [Binary64.lt_zero_iff_value hnan, not_lt]
    exact hrounds.nonneg h0
  · rw [Binary64.one_lt_iff_value hnan, not_lt]
    exact hrounds.value_le 1 Binary64.fits_one h1

/-! ## Rounding errors -/

/-- Both differences and their quotient are rounded; so the parameter leads beside the line. -/
theorem abs_mul_param_sub_le {D N d n u M : Rat} (hd : |d - D| ≤ |D| / 2 ^ 52)
    (hn : |n - N| ≤ |N| / 2 ^ 52) (hu : |u - n / d| ≤ |n / d| / 2 ^ 53 + least / 2) (hne : d ≠ 0)
    (h0 : 0 ≤ u) (h1 : u ≤ 1) (hD : |D| ≤ 2 * M) (hN : |N| ≤ 2 * M) :
    |D * u - N| ≤ M / 2 ^ 49 := by
  have hleast : 0 ≤ least / 2 := half_pos least_pos |>.le
  have hM : 0 ≤ M := by linarith [abs_nonneg D]
  have hdM : |d| ≤ 3 * M := by
    have := abs_sub_abs_le_abs_sub d D
    linarith
  have hnM : |n| ≤ 3 * M := by
    have := abs_sub_abs_le_abs_sub n N
    linarith
  have hproduct : |d * u - n| ≤ M / 2 ^ 50 := by
    have hsplit : d * u - n = d * (u - n / d) := by
      rw [mul_sub, mul_div_cancel₀ _ hne]
    calc |d * u - n| = |d| * |u - n / d| := by rw [hsplit, abs_mul]
      _ ≤ |d| * (|n / d| / 2 ^ 53 + least / 2) := mul_le_mul_of_nonneg_left hu (abs_nonneg d)
      _ = |n| / 2 ^ 53 + |d| * (least / 2) := by
        rw [abs_div]
        field_simp
      _ ≤ 3 * M / 2 ^ 53 + 3 * M * (1 / 2 ^ 53 / 2) := by
        have := Rounding.least_le
        gcongr
      _ ≤ M / 2 ^ 50 := by linarith
  have hdirection : |D * u - d * u| ≤ M / 2 ^ 51 := by
    calc |D * u - d * u| = |d - D| * u := by
          rw [← sub_mul, abs_mul, abs_of_nonneg h0, abs_sub_comm]
      _ ≤ |d - D| * 1 := mul_le_mul_of_nonneg_left h1 (abs_nonneg _)
      _ ≤ M / 2 ^ 51 := by linarith
  have hsplit : D * u - N = (D * u - d * u) + (d * u - n) + (n - N) := by ring
  calc |D * u - N| ≤ |D * u - d * u| + |d * u - n| + |n - N| := by
        rw [hsplit]
        exact abs_add_three _ _ _
    _ ≤ M / 2 ^ 49 := by linarith

/-- The point at the parameter is rounded four times more. -/
theorem abs_lerp_sub_le {A B u w g h p M : Rat} (hw : |w - (1 - u)| ≤ |1 - u| / 2 ^ 52)
    (hg : |g - A * w| ≤ |A * w| / 2 ^ 53 + least / 2)
    (hh : |h - B * u| ≤ |B * u| / 2 ^ 53 + least / 2) (hp : |p - (g + h)| ≤ |g + h| / 2 ^ 52)
    (h0 : 0 ≤ u) (h1 : u ≤ 1) (hA : |A| ≤ M) (hB : |B| ≤ M) :
    |p - (A + (B - A) * u)| ≤ M / 2 ^ 49 + 2 * least := by
  have hM : 0 ≤ M := (abs_nonneg A).trans hA
  have hrest : |1 - u| ≤ 1 := abs_le.2 ⟨by linarith, by linarith⟩
  have hu : |u| ≤ 1 := abs_le.2 ⟨by linarith, h1⟩
  have hleft : |A * w - A * (1 - u)| ≤ M / 2 ^ 52 := by
    rw [← mul_sub, abs_mul]
    calc |A| * |w - (1 - u)| ≤ M * (1 / 2 ^ 52) := by gcongr; linarith
      _ = M / 2 ^ 52 := by ring
  have hstart : |A * (1 - u)| ≤ M := by
    rw [abs_mul]
    calc |A| * |1 - u| ≤ M * 1 := by gcongr
      _ = M := mul_one M
  have hstop : |B * u| ≤ M := by
    rw [abs_mul]
    calc |B| * |u| ≤ M * 1 := by gcongr
      _ = M := mul_one M
  have hAw : |A * w| ≤ 2 * M := by
    have := abs_sub_abs_le_abs_sub (A * w) (A * (1 - u))
    linarith
  have hsum : |g + h| ≤ 4 * M + least := by
    have hg' := abs_sub_abs_le_abs_sub g (A * w)
    have hh' := abs_sub_abs_le_abs_sub h (B * u)
    have := abs_add_le g h
    have := least_pos
    linarith
  have hsplit : p - (A + (B - A) * u) =
      (p - (g + h)) + ((g - A * w) + (h - B * u)) + (A * w - A * (1 - u)) := by ring
  have hparts := abs_add_three (p - (g + h)) ((g - A * w) + (h - B * u)) (A * w - A * (1 - u))
  have hproducts := abs_add_le (g - A * w) (h - B * u)
  have := least_pos
  rw [hsplit]
  linarith

/-- A difference that is clearly greater than another is rounded to one that is not less. -/
theorem pos_and_le_of_far {D N d M : Rat} (hd : |d - D| ≤ |D| / 2 ^ 52) (h0 : 0 ≤ N)
    (hD : D ≤ 2 * M) (hfar : M < 2 ^ 40 * (D - N)) : 0 < d ∧ N ≤ d := by
  have hpos : 0 < D := by
    by_contra hneg
    linarith
  rw [abs_of_pos hpos] at hd
  have := (abs_le.1 hd).1
  exact ⟨by linarith, by linarith⟩

/-! ## Pieces at the line -/

theorem Side.abs_sign (side : Side) : |side.sign| = 1 := by
  cases side <;> norm_num [Side.sign]

theorem Side.depth_eq (side : Side) (x : Binary64) (p : Point Binary64) :
    side.depth x p = side.sign * (x.value - p.x.value) := by
  cases side <;> simp only [Side.depth, Side.sign] <;> ring

/-- A vertical line and the two ends of a piece, with coordinates within bounds. -/
structure WithinReach (x : Binary64) (a b : Point Binary64) (M : Rat) : Prop where
  line : x.float.isFinite = true
  start : a.Within 948
  stop : b.Within 948
  line_le : |x.value| ≤ M
  start_le : |a.x.value| ≤ M
  stop_le : |b.x.value| ≤ M

namespace WithinReach

variable {M : Rat} {u : Binary64} {c : Crossing Binary64}

theorem isFinite_sub {s t : Binary64} (hs : Binary64.Within 948 s) (ht : Binary64.Within 948 t) :
    (s - t).float.isFinite = true :=
  (hs.sub ht (K := 950) (by decide) (by decide) (by decide)).isFinite

/-- The crossing is near the line, at its exact parameter. -/
theorem abs_mul_sub_le (h : WithinReach x a b M) (hu : CrossingParam x a b u) :
    |(b.x.value - a.x.value) * u.value - (x.value - a.x.value)| ≤ M / 2 ^ 49 := by
  have hfinite := isFinite_sub h.stop.x h.start.x
  have huFinite := (Binary64.within_of_unit hu.nonneg hu.le_one).isFinite
  obtain ⟨h0, h1⟩ := hu.value_mem_unit
  have hx := h.line_le
  have ha := h.start_le
  have hb := h.stop_le
  have hD := abs_sub b.x.value a.x.value
  have hN := abs_sub x.value a.x.value
  exact abs_mul_param_sub_le (Binary64.error_sub h.stop.x.isFinite h.start.x.isFinite hfinite)
    (Binary64.error_sub h.line h.start.x.isFinite hu.isFinite) (hu.rounds.error huFinite)
    hu.ne_zero h0 h1 (by linarith) (by linarith)

/-- The crossing is beside the line by no more than rounding errors. -/
theorem abs_x_lerp_sub_le (h : WithinReach x a b M) (hu : CrossingParam x a b u) :
    |(a.lerp b u).x.value - x.value| ≤ M / 2 ^ 48 + 2 * least := by
  have hrest := within_one_sub hu.nonneg hu.le_one
  have hunit : Binary64.Within (-50) u :=
    (Binary64.within_of_unit hu.nonneg hu.le_one).mono (by decide)
  have hleft := within_part h.start.x hrest
  have hright := within_part h.stop.x hunit
  have hsum := within_lerp h.start.x h.stop.x hu.nonneg hu.le_one
  obtain ⟨h0, h1⟩ := hu.value_mem_unit
  have hw := Binary64.error_sub (a := 1) rfl hunit.isFinite hrest.isFinite
  rw [Binary64.value_one] at hw
  have hpoint := abs_lerp_sub_le hw
    ((Binary64.roundsTo_mul h.start.x.isFinite hrest.isFinite).error hleft.isFinite)
    ((Binary64.roundsTo_mul h.stop.x.isFinite hunit.isFinite).error hright.isFinite)
    (Binary64.error_add hleft.isFinite hright.isFinite hsum.isFinite) h0 h1 h.start_le h.stop_le
  have hcrossing := h.abs_mul_sub_le hu
  have hsplit : (a.lerp b u).x.value - x.value =
      ((a.lerp b u).x.value - (a.x.value + (b.x.value - a.x.value) * u.value)) +
        ((b.x.value - a.x.value) * u.value - (x.value - a.x.value)) := by ring
  rw [hsplit]
  refine (abs_add_le _ _).trans ((add_le_add hpoint hcrossing).trans ?_)
  linarith

/-- A piece that is reported to cross the line, from a point clearly outside, stops inside or near
the line. -/
theorem depth_stop_le (h : WithinReach x a b M) (hu : CrossingParam x a b u)
    (hfar : M < 2 ^ 40 * side.depth x a) : side.depth x b ≤ M / 2 ^ 49 := by
  have hcrossing := h.abs_mul_sub_le hu
  obtain ⟨h0, h1⟩ := hu.value_mem_unit
  have hM : 0 ≤ M := (abs_nonneg _).trans h.line_le
  have hside : |(side.depth x a - side.depth x b) * u.value - side.depth x a| ≤ M / 2 ^ 49 := by
    have hsplit : (side.depth x a - side.depth x b) * u.value - side.depth x a =
        side.sign * ((b.x.value - a.x.value) * u.value - (x.value - a.x.value)) := by
      rw [side.depth_eq, side.depth_eq]
      ring
    rwa [hsplit, abs_mul, side.abs_sign, one_mul]
  have hlow := (abs_le.1 hside).1
  by_cases hinward : 0 ≤ side.depth x a - side.depth x b
  · have := mul_le_of_le_one_right hinward h1
    linarith
  · -- away from the line the parameter cannot be positive
    have := mul_nonpos_of_nonpos_of_nonneg (not_le.1 hinward).le h0
    linarith

/-- A piece that goes from the inside to a point clearly outside is reported to cross the line. -/
theorem exists_crossing? (h : WithinReach x a b M) (ha : side.depth x a ≤ 0)
    (hfar : M < 2 ^ 40 * side.depth x b) :
    ∃ c, (verticalLine side x).crossing? (.closed a b) = some c := by
  have hfinite := isFinite_sub h.stop.x h.start.x
  have herror := Binary64.error_sub h.stop.x.isFinite h.start.x.isFinite hfinite
  have hoffset := Binary64.roundsTo_sub h.line h.start.x.isFinite
  have hfits := Binary64.fits_value hfinite
  have hbounds := abs_sub b.x.value a.x.value
  have hstart := h.start_le
  have hstop := h.stop_le
  suffices hunit : (b.x - a.x).value ≠ 0 ∧ 0 ≤ (x - a.x).value / (b.x - a.x).value ∧
      (x - a.x).value / (b.x - a.x).value ≤ 1 from
    exists_crossing?_eq_some h.line h.start.finite hfinite (isFinite_sub h.stop.y h.start.y)
      hunit.1 hunit.2.1 hunit.2.2
  cases side with
  | left =>
    simp only [Side.depth] at ha hfar
    obtain ⟨hpos, hle⟩ := pos_and_le_of_far (N := x.value - a.x.value) herror (by linarith)
      (M := M) (by linarith [le_abs_self (b.x.value - a.x.value)]) (by linarith)
    exact ⟨hpos.ne', div_nonneg (hoffset.nonneg (by linarith)) hpos.le,
      (div_le_one hpos).2 (hoffset.value_le _ hfits hle)⟩
  | right =>
    simp only [Side.depth] at ha hfar
    rw [abs_sub_comm, ← neg_sub_neg, ← abs_neg (b.x.value - a.x.value)] at herror
    obtain ⟨hpos, hle⟩ := pos_and_le_of_far (N := -(x.value - a.x.value)) herror (by linarith)
      (M := M) (by linarith [neg_abs_le (b.x.value - a.x.value)]) (by linarith)
    have hneg : (b.x - a.x).value < 0 := neg_pos.1 hpos
    exact ⟨hneg.ne, div_nonneg_of_nonpos (hoffset.nonpos (by linarith)) hneg.le,
      (div_le_one_of_neg hneg).2 (hoffset.le_value _ hfits (neg_le_neg_iff.1 hle))⟩

end WithinReach

end

/-! ## Polylines -/

/-- The greatest magnitude among a vertical line's place and the horizontal coordinates of
points. -/
def reach (x : Binary64) (points : List (Point Binary64)) : Rat :=
  points.foldr (fun p greatest => max |p.x.value| greatest) |x.value|

/-- A point is outside by more than `2 ^ (-40)` of the greatest magnitude. -/
def FarOutside (side : Side) (x : Binary64) (points : List (Point Binary64))
    (v : Point Binary64) : Prop :=
  reach x points < 2 ^ 40 * side.depth x v

instance (side : Side) (x : Binary64) (points : List (Point Binary64)) (v : Point Binary64) :
    Decidable (FarOutside side x points v) :=
  inferInstanceAs (Decidable (reach x points < 2 ^ 40 * side.depth x v))

section

variable {side : Side} {x : Binary64} {points : List (Point Binary64)} {p q v : Point Binary64}

theorem abs_value_le_reach (x : Binary64) (points : List (Point Binary64)) :
    |x.value| ≤ reach x points := by
  induction points with
  | nil => exact le_rfl
  | cons p points ih => exact ih.trans (le_max_right _ _)

theorem abs_x_value_le_reach (hp : p ∈ points) : |p.x.value| ≤ reach x points := by
  induction points with
  | nil => exact absurd hp List.not_mem_nil
  | cons q points ih =>
    rcases List.mem_cons.1 hp with rfl | hp
    · exact le_max_left _ _
    · exact (ih hp).trans (le_max_right _ _)

theorem FarOutside.depth_pos (h : FarOutside side x points v) : 0 < side.depth x v := by
  have hreach := (abs_nonneg _).trans (abs_value_le_reach x points)
  rw [FarOutside] at h
  linarith

theorem withinReach (hx : x.float.isFinite = true) (hpoints : ∀ p ∈ points, p.Within 948)
    {piece : Point Binary64 × Point Binary64} (hpiece : piece ∈ neighbours points) :
    WithinReach x piece.1 piece.2 (reach x points) where
  line := hx
  start := hpoints _ (mem_of_mem_neighbours hpiece).1
  stop := hpoints _ (mem_of_mem_neighbours hpiece).2
  line_le := abs_value_le_reach x points
  start_le := abs_x_value_le_reach (mem_of_mem_neighbours hpiece).1
  stop_le := abs_x_value_le_reach (mem_of_mem_neighbours hpiece).2

theorem Point.beq_iff_value (hp : p.Finite) (hq : q.Finite) :
    (p == q) = true ↔ p.x.value = q.x.value ∧ p.y.value = q.y.value := by
  rw [← Binary64.beq_iff_value (Binary64.isNaN_eq_false_of_isFinite hp.x)
      (Binary64.isNaN_eq_false_of_isFinite hq.x),
    ← Binary64.beq_iff_value (Binary64.isNaN_eq_false_of_isFinite hp.y)
      (Binary64.isNaN_eq_false_of_isFinite hq.y), ← Bool.and_eq_true]
  rfl

theorem Side.depth_congr (h : p.x.value = q.x.value) : side.depth x p = side.depth x q := by
  rw [side.depth_eq, side.depth_eq, h]

/-- The ways in which a piece from `a` to `b` brings a point outside through the cut. -/
inductive SlipsThrough (side : Side) (x : Binary64) (points : List (Point Binary64))
    (a b v : Point Binary64) : Prop
  /-- The piece starts at the point and stops outside too, but so near the line that it is reported
  to cross it. -/
  | start (c : Crossing Binary64) : (verticalLine side x).crossing? (.closed a b) = some c →
      (a == v) = true → 0 < side.depth x b → side.depth x b ≤ reach x points / 2 ^ 49 →
      SlipsThrough side x points a b v
  /-- The point is where the piece is reported to cross the line; so the numbers are the least ones
  there are. -/
  | crossing (c : Crossing Binary64) : (verticalLine side x).crossing? (.closed a b) = some c →
      (a.lerp b c.param == v) = true → 0 < side.depth x a ∨ 0 < side.depth x b →
      side.depth x v < 2 ^ (-1072 : Int) → SlipsThrough side x points a b v

variable {a b : Point Binary64} {c : Crossing Binary64} {part : Segment Binary64}

theorem WithinReach.crossingParam {M : Rat} (h : WithinReach x a b M)
    (hc : (verticalLine side x).crossing? (.closed a b) = some c) :
    CrossingParam x a b c.param ∧ (c.inside = true ↔ side.depth x b ≤ 0) :=
  crossingParam_of_crossing? h.line h.start.finite h.stop.finite
    (WithinReach.isFinite_sub h.stop.x h.start.x) (WithinReach.isFinite_sub h.stop.y h.start.y) hc

theorem WithinReach.finite_lerp {M : Rat} (h : WithinReach x a b M)
    (hc : (verticalLine side x).crossing? (.closed a b) = some c) :
    (a.lerp b c.param).Finite := by
  obtain ⟨hparam, -⟩ := h.crossingParam hc
  exact (h.start.lerp h.stop hparam.nonneg hparam.le_one).finite

theorem WithinReach.finite_of_clip? {M : Rat} (h : WithinReach x a b M)
    (hpart : (verticalLine side x).clip? (.closed a b) = some part) :
    part.start.Finite ∧ part.stop.Finite := by
  have hclip := (verticalLine side x).clipping a b
  rw [hpart] at hclip
  cases hclip with
  | whole => exact ⟨h.start.finite, h.stop.finite⟩
  | cutOff c hc => exact ⟨h.start.finite, h.finite_lerp hc⟩
  | cutIn c _ hc => exact ⟨h.finite_lerp hc, h.stop.finite⟩

/-- A point far outside is not where a piece crosses the line, unless the numbers are tiny. -/
theorem WithinReach.depth_lt_of_lerp_beq (h : WithinReach x a b (reach x points)) (hv : v.Finite)
    (hfar : FarOutside side x points v)
    (hc : (verticalLine side x).crossing? (.closed a b) = some c)
    (heq : (a.lerp b c.param == v) = true) : side.depth x v < 2 ^ (-1072 : Int) := by
  have hnear := h.abs_x_lerp_sub_le (h.crossingParam hc).1
  have hx := ((Point.beq_iff_value (h.finite_lerp hc) hv).1 heq).1
  have hdepth : side.depth x v ≤ |(a.lerp b c.param).x.value - x.value| := by
    rw [hx, side.depth_eq, abs_sub_comm]
    refine (le_abs_self _).trans_eq ?_
    rw [abs_mul, side.abs_sign, one_mul]
  have hleast : (2 : Rat) ^ (-1072 : Int) = 4 * least := by
    rw [least, show (-1072 : Int) = 2 + -1074 from rfl, zpow_add₀ two_ne_zero]
    norm_num
  rw [FarOutside] at hfar
  rw [hleast]
  have := least_pos
  linarith

/-- A point far outside that is an end of what is left of a piece has come through the cut. -/
theorem WithinReach.slipsThrough (h : WithinReach x a b (reach x points)) (hv : v.Finite)
    (hfar : FarOutside side x points v)
    (hpart : (verticalLine side x).clip? (.closed a b) = some part)
    (hends : (part.start == v) = true ∨ (part.stop == v) = true) :
    SlipsThrough side x points a b v := by
  have hcontains : ∀ {p : Point Binary64}, p.Finite →
      ((verticalLine side x).contains p = true ↔ side.depth x p ≤ 0) :=
    contains_verticalLine h.line
  have hdepth : ∀ {p : Point Binary64}, p.Finite → (p == v) = true →
      side.depth x p = side.depth x v :=
    fun hp heq => Side.depth_congr ((Point.beq_iff_value hp hv).1 heq).1
  have hpos := hfar.depth_pos
  have hclip := (verticalLine side x).clipping a b
  rw [hpart] at hclip
  cases hclip with
  | whole ha hstays =>
    have ha' := (hcontains h.start.finite).1 ha
    rcases hends with heq | heq
    · exact absurd (hdepth h.start.finite heq ▸ ha') hpos.not_ge
    · obtain ⟨c, hc⟩ := h.exists_crossing? ha' (by
        rw [hdepth h.stop.finite heq]
        exact hfar)
      have hb := (h.crossingParam hc).2.1 (hstays c hc)
      exact absurd (hdepth h.stop.finite heq ▸ hb) hpos.not_ge
  | cutOff c hc hinside =>
    obtain ⟨hparam, hiff⟩ := h.crossingParam hc
    have hb : 0 < side.depth x b := not_le.1 fun hle => by
      rw [hiff.2 hle] at hinside
      cases hinside
    rcases hends with heq | heq
    · refine .start c hc heq hb (h.depth_stop_le hparam ?_)
      rw [hdepth h.start.finite heq]
      exact hfar
    · exact .crossing c hc heq (.inr hb) (h.depth_lt_of_lerp_beq hv hfar hc heq)
  | cutIn c ha hc hinside =>
    rcases hends with heq | heq
    · have ha' : 0 < side.depth x a := not_le.1 (mt (hcontains h.start.finite).2 ha)
      exact .crossing c hc heq (.inl ha') (h.depth_lt_of_lerp_beq hv hfar hc heq)
    · have hb := (h.crossingParam hc).2.1 hinside
      exact absurd (hdepth h.stop.finite heq ▸ hb) hpos.not_ge

/-- A point that has come through the cut is an end of what is left of the piece. -/
theorem SlipsThrough.exists_end {M : Rat} (hreach : WithinReach x a b M)
    (h : SlipsThrough side x points a b v) :
    ∃ part, (verticalLine side x).clip? (.closed a b) = some part ∧
      ((part.start == v) = true ∨ (part.stop == v) = true) := by
  have hclip := (verticalLine side x).clipping a b
  have hcontains : (verticalLine side x).contains a = true ↔ _ :=
    contains_verticalLine hreach.line hreach.start.finite
  cases h with
  | start c hc heq hb =>
    have hiff := (hreach.crossingParam hc).2
    generalize (verticalLine side x).clip? (.closed a b) = part at hclip
    cases hclip with
    | whole ha hstays => exact absurd (hiff.1 (hstays c hc)) hb.not_ge
    | dropped _ hnone => exact absurd (hnone.symm.trans hc) nofun
    | cutOff c' hc' => exact ⟨_, rfl, .inl heq⟩
    | cutIn c' _ hc' hinside =>
      obtain rfl := Option.some.inj (hc.symm.trans hc')
      exact absurd (hiff.1 hinside) hb.not_ge
  | crossing c hc heq houtside =>
    have hiff := (hreach.crossingParam hc).2
    generalize (verticalLine side x).clip? (.closed a b) = part at hclip
    cases hclip with
    | whole ha hstays =>
      exact absurd houtside (not_or.2
        ⟨not_lt.2 (hcontains.1 ha), not_lt.2 (hiff.1 (hstays c hc))⟩)
    | dropped _ hnone => exact absurd (hnone.symm.trans hc) nofun
    | cutOff c' hc' =>
      obtain rfl := Option.some.inj (hc.symm.trans hc')
      exact ⟨_, rfl, .inr heq⟩
    | cutIn c' _ hc' hinside =>
      obtain rfl := Option.some.inj (hc.symm.trans hc')
      exact ⟨_, rfl, .inl heq⟩

/-- What is left of a polyline with bounded coordinates is finite. -/
theorem finite_of_mem_keptEnds (hx : x.float.isFinite = true)
    (hpoints : ∀ p ∈ points, p.Within 948) (hp : p ∈ (verticalLine side x).keptEnds points) :
    p.Finite := by
  obtain ⟨piece, hpiece, part, hclip, hends⟩ := Segment.mem_keptEnds.1 hp
  obtain ⟨hstart, hstop⟩ := (withinReach hx hpoints hpiece).finite_of_clip? hclip
  rcases hends with rfl | rfl
  · exact hstart
  · exact hstop

/-- A vertex far outside is kept by the clip to one side of a vertical line if, and only if, a piece
of the polyline brings it through the cut. -/
theorem Region.far_outside_mem_clip_iff (side : Side) {x : Binary64}
    (hx : x.float.isFinite = true) {l : Polyline Binary64}
    (hl : ∀ p ∈ l.points, Bounded p.x.float ∧ Bounded p.y.float) {v : Point Binary64}
    (hv : v ∈ l.points) (hfar : FarOutside side x l.points v) :
    (∃ q ∈ ((Region.beside side x).clip l).points, (q == v) = true) ↔
      ∃ piece ∈ neighbours l.points, SlipsThrough side x l.points piece.1 piece.2 v := by
  have hwithin : ∀ p ∈ l.points, p.Within 948 := fun p hp =>
    ⟨(hl p hp).1.within, (hl p hp).2.within⟩
  have hvfin := (hwithin v hv).finite
  have hreach := fun piece (hpiece : piece ∈ neighbours l.points) =>
    withinReach hx hwithin hpiece
  have hfinite := fun p (hp : p ∈ (verticalLine side x).keptEnds l.points) =>
    finite_of_mem_keptEnds hx hwithin hp
  rw [points_clip_beside]
  constructor
  · rintro ⟨q, hq, heq⟩
    obtain ⟨piece, hpiece, part, hclip, hends⟩ :=
      Segment.mem_keptEnds.1 ((collapse_sublist _).subset hq)
    refine ⟨piece, hpiece, (hreach piece hpiece).slipsThrough hvfin hfar hclip ?_⟩
    rcases hends with rfl | rfl
    · exact .inl heq
    · exact .inr heq
  · rintro ⟨piece, hpiece, hslips⟩
    obtain ⟨part, hclip, hends⟩ := hslips.exists_end (hreach piece hpiece)
    obtain ⟨p, hends, hpv⟩ : ∃ p, (p = part.start ∨ p = part.stop) ∧ (p == v) = true := by
      simpa using hends
    have hp := Segment.mem_keptEnds.2 ⟨piece, hpiece, part, hclip, hends⟩
    -- what is dropped as a repetition has an equal one before it
    obtain ⟨q, hq, hqp⟩ := exists_beq_of_mem_collapse (fun p hp =>
      (Point.beq_iff_value (hfinite p hp) (hfinite p hp)).2 ⟨rfl, rfl⟩) hp
    have hqfin := hfinite q ((collapse_sublist _).subset hq)
    obtain ⟨hqx, hqy⟩ := (Point.beq_iff_value hqfin (hfinite p hp)).1 hqp
    obtain ⟨hpx, hpy⟩ := (Point.beq_iff_value (hfinite p hp) hvfin).1 hpv
    exact ⟨q, hq, (Point.beq_iff_value hqfin hvfin).2 ⟨hqx.trans hpx, hqy.trans hpy⟩⟩

/-- A piece that ends `10⁻²⁰` before the axis brings its start through. -/
theorem Region.far_outside_mem_clip_near_axis :
    (0 : Binary64).float.isFinite = true ∧
      (∀ p ∈ [(⟨1, 0⟩ : Point Binary64), ⟨1e-20, 1⟩], Bounded p.x.float ∧ Bounded p.y.float) ∧
      FarOutside .left 0 [⟨1, 0⟩, ⟨1e-20, 1⟩] ⟨1, 0⟩ ∧
      ∃ q ∈ ((Region.beside .left 0).clip (.make [⟨1, 0⟩, ⟨1e-20, 1⟩] [])).points,
        (q == (⟨1, 0⟩ : Point Binary64)) = true := by
  have hbounded : ∀ p ∈ [(⟨1, 0⟩ : Point Binary64), ⟨1e-20, 1⟩],
      Bounded p.x.float ∧ Bounded p.y.float := by decide +kernel
  have hfar : FarOutside .left 0 [⟨1, 0⟩, ⟨1e-20, 1⟩] ⟨1, 0⟩ := by decide +kernel
  have hcrosses : ((verticalLine .left (0 : Binary64)).crossing?
      (.closed ⟨1, 0⟩ ⟨1e-20, 1⟩)).isSome = true := by
    decide +kernel
  obtain ⟨c, hc⟩ := Option.isSome_iff_exists.1 hcrosses
  have hiff := Region.far_outside_mem_clip_iff .left (x := 0) rfl
    (l := .make [⟨1, 0⟩, ⟨1e-20, 1⟩] []) hbounded List.mem_cons_self hfar
  exact ⟨rfl, hbounded, hfar, hiff.2 ⟨(⟨1, 0⟩, ⟨1e-20, 1⟩), List.mem_cons_self,
    .start c hc (by decide +kernel) (by decide +kernel) (by decide +kernel)⟩⟩

/-- Clipped to the right of the vertical axis, a polyline keeps a vertex that is as far to the left
as any of its coordinates. -/
theorem Region.rightOf_clip_keeps_far_outside :
    let v : Point Binary64 := ⟨-1, 0⟩
    let l : Polyline Binary64 := .make [v, ⟨-1e-20, 1⟩] []
    (∀ p ∈ l.points, p.x.float.isFinite = true ∧ p.y.float.isFinite = true ∧
        |p.x.value| ≤ 1 ∧ |p.y.value| ≤ 1) ∧
      v ∈ l.points ∧ FarOutside .right 0 l.points v ∧
      ∃ q ∈ ((Region.rightOf 0).clip l).points, (q == v) = true := by
  exact ⟨by decide +kernel, List.mem_cons_self, by decide +kernel, by decide +kernel⟩

end

end CurveSketch
