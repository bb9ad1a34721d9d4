import CurveSketch.Proofs.RoundingError

/-!
# Values of coordinates

A finite coordinate is a rational number, its `value`, and coordinates compare as their values do
(`le_iff_value`). What an operation on finite coordinates returns is the exact result rounded
(`RoundsTo`) : close to it if there is no overflow, equal to it if it is a number in 64 bits, and
never on the other side of such a number, overflow included. Sums and differences lose nothing
where numbers are least (`RoundsTo.error_of_multiple`), so their error is relative.
-/

namespace CurveSketch.Rounding

open Float.Model Float.Model.UnpackedFloat

/-! ## Numbers in 64 bits -/

theorem unpack_finite {b : BitVec Format.binary64.numBits} {s : Sign} {m : Nat} {e : Int}
    (hm : 0 < m) (hs : Sign.ofBitVec (unpackSign b) = s) (hones : unpackExponent b ≠ -1#11)
    (hbits : (unpackExponent b = 0#11 ∧ (unpackMantissa b).toNat = m ∧ e = -1074) ∨
      (unpackExponent b ≠ 0#11 ∧ 2 ^ 52 + (unpackMantissa b).toNat = m ∧
        e = (unpackExponent b).toNat - 1075)) :
    UnpackedFloat.unpack .binary64 b = .finite s m e hm := by
  have hbias : ((Format.binary64.exponentBias : Nat) : Int) = 1023 := rfl
  have hwidth : ((Format.binary64.mantissaBitsWithoutImplicit : Nat) : Int) = 52 := rfl
  unfold UnpackedFloat.unpack
  dsimp only
  rw [if_neg hones]
  split
  · rename_i hzero
    obtain ⟨-, hmant, he⟩ := hbits.resolve_right fun h => h.1 hzero
    have hne : unpackMantissa b ≠ 0#52 := by
      intro h
      rw [h] at hmant
      exact hm.ne hmant
    rw [dif_neg hne]
    have hzero' : (unpackExponent b).toNat = 0 := congrArg BitVec.toNat hzero
    congr 1
    rw [hbias, hwidth, hzero']
    omega
  · rename_i hne
    obtain ⟨-, hmant, he⟩ := hbits.resolve_left fun h => hne h.1
    have hfull : (1#1 ++ unpackMantissa b).toNat = 2 ^ 52 + (unpackMantissa b).toNat := by
      rw [BitVec.toNat_append, ← Nat.shiftLeft_add_eq_or_of_lt (BitVec.isLt _), Nat.shiftLeft_eq]
      rfl
    congr 1
    · rw [hfull, hmant]
    · rw [hbias, hwidth]
      omega

/-- A canonical number is what its 64 bits hold. -/
theorem unpack_pack_canonical {u : UnpackedFloat} (h : Canonical u) :
    (Float.Model.pack u).unpack = u := by
  rcases u with s | _ | s | ⟨s, m, e, hm⟩
  · cases s <;> rfl
  · rfl
  · cases s <;> rfl
  · obtain ⟨hlt, hlow, hhigh, hfull⟩ := h
    change UnpackedFloat.unpack .binary64 (UnpackedFloat.pack .binary64 _) = _
    unfold UnpackedFloat.pack
    simp only [biasedExponent_eq e]
    split_ifs with hlarge hnormal
    · change 2048 ≤ (e + 1075).toNat + 1 at hlarge
      omega
    · change m.log2 + 1 = 53 at hnormal
      have hm52 : 2 ^ 52 ≤ m := (Nat.le_log2 hm.ne').1 (by omega)
      have hev : (BitVec.ofNat 11 (e + 1075).toNat).toNat = (e + 1075).toNat := by
        rw [BitVec.toNat_ofNat, Nat.mod_eq_of_lt (by omega)]
      have hmv : (BitVec.ofNat 52 m).toNat = m - 2 ^ 52 := by
        rw [BitVec.toNat_ofNat]
        omega
      refine unpack_finite hm (ofBitVec_unpackSign _ _ _) ?_ (.inr ⟨?_, ?_, ?_⟩)
      · rw [unpackExponent_packComponents]
        intro h
        have hones : (-1#11 : BitVec 11).toNat = 2047 := rfl
        rw [h, hones] at hev
        omega
      · rw [unpackExponent_packComponents]
        intro h
        have hzero : (0#11 : BitVec 11).toNat = 0 := rfl
        rw [h, hzero] at hev
        omega
      · rw [unpackMantissa_packComponents, hmv]
        omega
      · rw [unpackExponent_packComponents, hev]
        omega
    · change ¬m.log2 + 1 = 53 at hnormal
      have hsmall : m < 2 ^ 52 := by
        have hbits := log2_le_of_lt (by decide) hlt
        exact (Nat.log2_lt hm.ne').1 (by omega)
      have hmv : (BitVec.ofNat 52 m).toNat = m := by
        rw [BitVec.toNat_ofNat, Nat.mod_eq_of_lt hsmall]
      refine unpack_finite hm (ofBitVec_unpackSign _ _ _) ?_ (.inl ⟨?_, ?_, by omega⟩)
      · rw [unpackExponent_packComponents]
        decide
      · rw [unpackExponent_packComponents]
      · rw [unpackMantissa_packComponents, hmv]

/-- A number with too large an exponent overflows. -/
theorem unpack_pack_overflow (s : Sign) {m : Nat} (hm : 0 < m) {e : Int} (he : 971 < e) :
    (Float.Model.pack (.finite s m e hm)).unpack = .infinity s := by
  have hlarge : 2 ^ Format.binary64.exponentBits ≤ (e + 1075).toNat + 1 := by
    change 2048 ≤ (e + 1075).toNat + 1
    omega
  change UnpackedFloat.unpack .binary64 (UnpackedFloat.pack .binary64 _) = _
  unfold UnpackedFloat.pack
  simp only [biasedExponent_eq e, if_pos hlarge]
  cases s <;> rfl

theorem le_mul_pow_of_overflow {m : Nat} {e : Int} (hfull : 2 ^ 52 ≤ m) (he : 971 < e) :
    (2 : Rat) ^ 1024 ≤ m * 2 ^ e := by
  have hfull' : (2 : Rat) ^ 52 ≤ m := by exact_mod_cast hfull
  have htop : (2 : Rat) ^ 1024 = 2 ^ 52 * 2 ^ (972 : Int) := by
    rw [← zpow_natCast, ← zpow_natCast, ← zpow_add₀ two_ne_zero]
    rfl
  rw [htop]
  exact mul_le_mul hfull' (zpow_le_zpow_right₀ one_le_two he) (by positivity) (Nat.cast_nonneg m)

theorem value_infinity (s : Sign) : value (.infinity s) = factor s * 2 ^ 1024 := by
  have htop : (magnitude 1 1024 : Rat) * least = 2 ^ (1024 : Int) := by
    rw [magnitude_mul_least (by decide), Nat.cast_one, one_mul]
  rw [← zpow_natCast, Nat.cast_ofNat, ← htop, value, units, cast_apply, mul_assoc]
  rfl

theorem abs_value_infinity (s : Sign) : |value (.infinity s)| = 2 ^ 1024 := by
  have hpos : (0 : Rat) ≤ 2 ^ 1024 := pow_nonneg two_pos.le _
  rw [value_infinity]
  cases s
  · rw [factor_negative, neg_one_mul, abs_neg, abs_of_nonneg hpos]
  · rw [factor_positive, one_mul, abs_of_nonneg hpos]

theorem abs_value_finite (s : Sign) {m : Nat} {e : Int} (hm : 0 < m) (he : -1074 ≤ e) :
    |value (.finite s m e hm)| = m * 2 ^ e := by
  have hpos : (0 : Rat) ≤ m * 2 ^ e := mul_nonneg (Nat.cast_nonneg m) (zpow_nonneg two_pos.le e)
  rw [value_finite s hm he]
  cases s
  · rw [factor_negative, neg_one_mul, abs_neg, abs_of_nonneg hpos]
  · rw [factor_positive, one_mul, abs_of_nonneg hpos]

theorem abs_value_lt {u : UnpackedFloat} (h : Canonical u) (hfin : u.isFinite = true) :
    |value u| < 2 ^ 1024 := by
  rcases u with s | _ | s | ⟨s, m, e, hm⟩
  · exact absurd hfin nofun
  · exact absurd hfin nofun
  · rw [value_zero, abs_zero]
    exact pow_pos two_pos _
  · have htop := magnitude_lt_infinity h.2.1 h.2.2.1 h.1
    have htop' : (magnitude m e : Rat) * least < magnitude 1 1024 * least :=
      mul_lt_mul_of_pos_right (by exact_mod_cast htop) least_pos
    rw [magnitude_mul_least h.2.1, magnitude_mul_least (by decide), Nat.cast_one, one_mul] at htop'
    rw [abs_value_finite s hm h.2.1, ← zpow_natCast]
    exact htop'

theorem infinity_add (s : Sign) {v : UnpackedFloat} (hv : v.isFinite = true) :
    add .binary64 (.infinity s) v = .infinity s := by
  cases v with
  | infinity t => exact absurd hv nofun
  | notANumber => exact absurd hv nofun
  | zero t => rfl
  | finite t m e hm => rfl

theorem sub_infinity (s : Sign) {u : UnpackedFloat} (hu : u.isFinite = true) :
    sub .binary64 u (.infinity s) = .infinity (-s) := by
  cases u with
  | infinity t => exact absurd hu nofun
  | notANumber => exact absurd hu nofun
  | zero t => rfl
  | finite t m e hm => rfl

theorem infinity_div (s : Sign) {v : UnpackedFloat} (hv : v.isFinite = true) (hne : value v ≠ 0) :
    ∃ t, div .binary64 (.infinity s) v = .infinity t := by
  cases v with
  | infinity t => exact absurd hv nofun
  | notANumber => exact absurd hv nofun
  | zero t => exact absurd (value_zero t) hne
  | finite t m e hm => exact ⟨s / t, rfl⟩

/-- A rational number that is one in 64 bits. -/
def Fits (c : Rat) : Prop :=
  Representable c ∧ |c| < 2 ^ 1024

theorem Fits.neg {c : Rat} (h : Fits c) : Fits (-c) :=
  ⟨h.1.neg, by rw [abs_neg]; exact h.2⟩

theorem fits_mul_least {n : Int} (h : n.natAbs < 2 ^ 53) : Fits (n * least) := by
  refine ⟨⟨n, -1074, h, le_rfl, rfl⟩, ?_⟩
  have hn : |(n : Rat)| < 2 ^ 53 := by
    rw [← Int.cast_abs, Int.abs_eq_natAbs]
    exact_mod_cast h
  have hleast : least ≤ 1 := zpow_le_one_of_nonpos₀ one_le_two (by decide)
  calc |(n : Rat) * least| = |(n : Rat)| * least := by rw [abs_mul, abs_of_pos least_pos]
    _ ≤ |(n : Rat)| * 1 := mul_le_mul_of_nonneg_left hleast (abs_nonneg _)
    _ < 2 ^ 53 := by rwa [mul_one]
    _ < 2 ^ 1024 := pow_lt_pow_right₀ one_lt_two (by decide)

theorem fits_zero : Fits 0 := by
  simpa using fits_mul_least (n := 0) (by decide)

theorem fits_value {u : UnpackedFloat} (h : Canonical u) (hfin : u.isFinite = true) :
    Fits (value u) := by
  refine ⟨?_, abs_value_lt h hfin⟩
  rcases u with s | _ | s | ⟨s, m, e, hm⟩
  · exact absurd hfin nofun
  · exact absurd hfin nofun
  · rw [value_zero]
    exact fits_zero.1
  · refine ⟨s.apply m, e, ?_, h.2.1, ?_⟩
    · rw [natAbs_apply]
      exact h.1
    · rw [value_finite s hm h.2.1, cast_apply, mul_assoc]
      rfl

/-- A significand of full length fits with any exponent in range. -/
theorem fits_mul_zpow {m : Nat} {e : Int} (hfull : 2 ^ 52 ≤ m) (hlt : m < 2 ^ 53)
    (hmin : -1074 ≤ e) (hmax : e ≤ 971) : Fits (m * 2 ^ e) := by
  have hm : 0 < m := by omega
  have h := fits_value (u := .finite .positive m e hm) ⟨hlt, hmin, hmax, .inl hfull⟩ rfl
  rwa [value_finite _ hm hmin, factor_positive, one_mul] at h

end CurveSketch.Rounding

namespace CurveSketch.Binary64

open Float.Model (UnpackedFloat)
open Float.Model.UnpackedFloat (Sign)
open Rounding (Fits least least_pos)

/-! ## Values -/

/-- The rational number that a finite coordinate is. -/
def value (a : Binary64) : Rat :=
  Rounding.value a.float.toModel.unpack

variable {a b : Binary64} {z c : Rat}

theorem value_eq (a : Binary64) : a.value = a.units * least :=
  rfl

@[simp] theorem value_zero : (0 : Binary64).value = 0 := by
  rw [value_eq, units_zero, Int.cast_zero, zero_mul]

@[simp] theorem value_one : (1 : Binary64).value = 1 := by
  rw [value, unpack_one, Rounding.value_finite _ _ (by decide), Rounding.factor_positive]
  norm_num

theorem value_le_value_iff : a.value ≤ b.value ↔ a.units ≤ b.units := by
  rw [value_eq, value_eq, mul_le_mul_iff_of_pos_right least_pos, Int.cast_le]

theorem le_iff_value (ha : a.float.isNaN = false) (hb : b.float.isNaN = false) :
    a ≤ b ↔ a.value ≤ b.value :=
  (le_iff_units ha hb).trans value_le_value_iff.symm

theorem lt_iff_value (ha : a.float.isNaN = false) (hb : b.float.isNaN = false) :
    a < b ↔ a.value < b.value := by
  rw [lt_iff_units ha hb, ← not_le, ← not_le, value_le_value_iff]

theorem beq_iff_value (ha : a.float.isNaN = false) (hb : b.float.isNaN = false) :
    (a == b) = true ↔ a.value = b.value := by
  rw [beq_iff_units ha hb, value_eq, value_eq, mul_left_inj' least_pos.ne', Int.cast_inj]

/-- The lesser of two numbers is a number. -/
theorem value_min (ha : a.float.isNaN = false) (hb : b.float.isNaN = false) :
    (Scalar.min a b).float.isNaN = false ∧ (Scalar.min a b).value = min a.value b.value := by
  have hmin : Scalar.min a b = if b < a then b else a := if_neg (Bool.eq_false_iff.1 ha)
  rw [hmin]
  split_ifs with hlt
  · exact ⟨hb, (min_eq_right ((lt_iff_value hb ha).1 hlt).le).symm⟩
  · exact ⟨ha, (min_eq_left (not_lt.1 (mt (lt_iff_value hb ha).2 hlt))).symm⟩

/-- The greater of two numbers is a number. -/
theorem value_max (ha : a.float.isNaN = false) (hb : b.float.isNaN = false) :
    (Scalar.max a b).float.isNaN = false ∧ (Scalar.max a b).value = max a.value b.value := by
  have hmax : Scalar.max a b = if a < b then b else a := if_neg (Bool.eq_false_iff.1 ha)
  rw [hmax]
  split_ifs with hlt
  · exact ⟨hb, (max_eq_right ((lt_iff_value ha hb).1 hlt).le).symm⟩
  · exact ⟨ha, (max_eq_left (not_lt.1 (mt (lt_iff_value ha hb).2 hlt))).symm⟩

theorem nonneg_iff_value (ha : a.float.isNaN = false) : 0 ≤ a ↔ 0 ≤ a.value := by
  rw [le_iff_value rfl ha, value_zero]

theorem nonpos_iff_value (ha : a.float.isNaN = false) : a ≤ 0 ↔ a.value ≤ 0 := by
  rw [le_iff_value ha rfl, value_zero]

theorem le_one_iff_value (ha : a.float.isNaN = false) : a ≤ 1 ↔ a.value ≤ 1 := by
  rw [le_iff_value ha rfl, value_one]

theorem lt_zero_iff_value (ha : a.float.isNaN = false) : a < 0 ↔ a.value < 0 := by
  rw [lt_iff_value ha rfl, value_zero]

theorem one_lt_iff_value (ha : a.float.isNaN = false) : 1 < a ↔ 1 < a.value := by
  rw [lt_iff_value rfl ha, value_one]

theorem fits_value (ha : a.float.isFinite = true) : Fits a.value :=
  Rounding.fits_value (Rounding.canonical_unpack _) ha

theorem fits_one : Fits 1 := by
  rw [← value_one]
  exact fits_value rfl

/-- An infinity has a value out of range. -/
theorem isFinite_of_abs_value_lt (ha : a.float.isNaN = false) (h : |a.value| < 2 ^ 1024) :
    a.float.isFinite = true := by
  change a.float.toModel.unpack.isNaN = false at ha
  change a.float.toModel.unpack.isFinite = true
  rw [value] at h
  generalize a.float.toModel.unpack = u at ha h ⊢
  rcases u with s | _ | s | ⟨s, m, e, hm⟩
  · rw [Rounding.abs_value_infinity] at h
    exact absurd h (lt_irrefl _)
  · exact absurd ha nofun
  · rfl
  · rfl

/-! ## Rounded results -/

/-- A coordinate that a rational number is rounded to, or overflows to. -/
structure RoundsTo (z : Rat) (a : Binary64) : Prop where
  isNaN_eq_false : a.float.isNaN = false
  error : a.float.isFinite = true → |a.value - z| ≤ |z| / 2 ^ 53 + least / 2
  le_value : ∀ c, Fits c → c ≤ z → c ≤ a.value
  value_le : ∀ c, Fits c → z ≤ c → a.value ≤ c

/-- A number that overflows is beyond all numbers in 64 bits, and so is its infinity. -/
theorem roundsTo_of_overflow {s : Sign} {m : Nat} {e : Int} {hm : 0 < m}
    (h : Rounding.Rounds z (.finite s m e hm)) (ha : a.float.toModel.unpack = .infinity s)
    (hbeyond : (2 : Rat) ^ 1024 ≤ m * 2 ^ e) : RoundsTo z a := by
  have hvalue : a.value = Rounding.factor s * 2 ^ 1024 :=
    (congrArg Rounding.value ha).trans (Rounding.value_infinity s)
  have hlow := h.le_value
  have hhigh := h.value_le
  rw [Rounding.value_finite s hm h.normal.2.1] at hlow hhigh
  refine ⟨?_, fun hfin => ?_, fun c hc hle => ?_, fun c hc hle => ?_⟩
  · change a.float.toModel.unpack.isNaN = false
    rw [ha]
    rfl
  · change a.float.toModel.unpack.isFinite = true at hfin
    rw [ha] at hfin
    exact absurd hfin nofun
  · cases s with
    | positive =>
      rw [hvalue, Rounding.factor_positive, one_mul]
      exact (abs_lt.1 hc.2).2.le
    | negative =>
      have := hlow c hc.1 hle
      rw [Rounding.factor_negative, neg_one_mul] at this
      rw [hvalue, Rounding.factor_negative, neg_one_mul]
      exact this.trans (neg_le_neg hbeyond)
  · cases s with
    | positive =>
      have := hhigh c hc.1 hle
      rw [Rounding.factor_positive, one_mul] at this
      rw [hvalue, Rounding.factor_positive, one_mul]
      exact hbeyond.trans this
    | negative =>
      rw [hvalue, Rounding.factor_negative, neg_one_mul]
      exact (abs_lt.1 hc.2).1.le

theorem roundsTo_of_unpack {u : UnpackedFloat} (h : Rounding.Rounds z u)
    (ha : a.float.toModel.unpack = (Float.Model.pack u).unpack) : RoundsTo z a := by
  have hkept : Rounding.Canonical u → RoundsTo z a := by
    intro hcanonical
    rw [Rounding.unpack_pack_canonical hcanonical] at ha
    have hvalue : a.value = Rounding.value u := congrArg Rounding.value ha
    refine ⟨?_, fun _ => hvalue ▸ h.error, fun c hc hle => hvalue ▸ h.le_value c hc.1 hle,
      fun c hc hle => hvalue ▸ h.value_le c hc.1 hle⟩
    change a.float.toModel.unpack.isNaN = false
    rw [ha]
    have hnormal := h.normal
    cases u with
    | notANumber => exact hnormal.elim
    | infinity s => rfl
    | zero s => rfl
    | finite s m e hm => rfl
  rcases u with s | _ | s | ⟨s, m, e, hm⟩
  · exact h.normal.elim
  · exact h.normal.elim
  · exact hkept trivial
  · obtain ⟨hlt, hlow, hfull⟩ := h.normal
    by_cases he : e ≤ 971
    · exact hkept ⟨hlt, hlow, he, hfull⟩
    · -- what overflows is beyond every number in 64 bits
      have hinfinity : a.float.toModel.unpack = .infinity s :=
        ha.trans (Rounding.unpack_pack_overflow s hm (not_le.1 he))
      have hbeyond := Rounding.le_mul_pow_of_overflow (hfull.resolve_right (by omega)) (not_le.1 he)
      exact roundsTo_of_overflow h hinfinity hbeyond

namespace RoundsTo

theorem value_eq (h : RoundsTo z a) (hz : Fits z) : a.value = z :=
  le_antisymm (h.value_le z hz le_rfl) (h.le_value z hz le_rfl)

/-- What lies between numbers in 64 bits does not overflow. -/
theorem isFinite_of_le_of_le {d : Rat} (h : RoundsTo z a) (hc : Fits c) (hd : Fits d)
    (hcz : c ≤ z) (hzd : z ≤ d) : a.float.isFinite = true := by
  have hbetween := abs_le_max_abs_abs (h.le_value c hc hcz) (h.value_le d hd hzd)
  exact isFinite_of_abs_value_lt h.isNaN_eq_false (hbetween.trans_lt (max_lt hc.2 hd.2))

theorem isFinite (h : RoundsTo z a) (hz : Fits z) : a.float.isFinite = true :=
  h.isFinite_of_le_of_le hz hz le_rfl le_rfl

theorem nonneg (h : RoundsTo z a) (hz : 0 ≤ z) : 0 ≤ a.value :=
  h.le_value 0 Rounding.fits_zero hz

theorem nonpos (h : RoundsTo z a) (hz : z ≤ 0) : a.value ≤ 0 :=
  h.value_le 0 Rounding.fits_zero hz

/-- A multiple of the least number is rounded with a relative error. -/
theorem error_of_multiple (h : RoundsTo z a) (hfin : a.float.isFinite = true) {n : Int}
    (hn : z = n * least) : |a.value - z| ≤ |z| / 2 ^ 52 := by
  by_cases hsmall : n.natAbs < 2 ^ 53
  · rw [h.value_eq (hn ▸ Rounding.fits_mul_least hsmall), sub_self, abs_zero]
    positivity
  · have hlarge : 2 ^ 53 * least ≤ |z| := by
      rw [hn, abs_mul, abs_of_pos least_pos, ← Int.cast_abs, Int.abs_eq_natAbs]
      exact mul_le_mul_of_nonneg_right (by exact_mod_cast not_lt.1 hsmall) least_pos.le
    have := h.error hfin
    have := abs_nonneg z
    linarith

end RoundsTo

/-! ## Operations -/

theorem normal_unpack (ha : a.float.isFinite = true) :
    Rounding.Normal a.float.toModel.unpack :=
  (Rounding.canonical_unpack _).normal ha

theorem unpack_lift {op : Float → Float → Float} (ha : a.float.isFinite = true)
    (hb : b.float.isFinite = true) :
    (lift op a b).float.toModel.unpack = (op a.float b.float).toModel.unpack :=
  congrArg (fun x : Float => x.toModel.unpack)
    (float_lift (isNaN_eq_false_of_isFinite ha) (isNaN_eq_false_of_isFinite hb))

theorem roundsTo_add (ha : a.float.isFinite = true) (hb : b.float.isFinite = true) :
    RoundsTo (a.value + b.value) (a + b) :=
  roundsTo_of_unpack (Rounding.rounds_add (normal_unpack ha) (normal_unpack hb)) (unpack_lift ha hb)

theorem roundsTo_sub (ha : a.float.isFinite = true) (hb : b.float.isFinite = true) :
    RoundsTo (a.value - b.value) (a - b) :=
  roundsTo_of_unpack (Rounding.rounds_sub (normal_unpack ha) (normal_unpack hb)) (unpack_lift ha hb)

theorem roundsTo_mul (ha : a.float.isFinite = true) (hb : b.float.isFinite = true) :
    RoundsTo (a.value * b.value) (a * b) :=
  roundsTo_of_unpack (Rounding.rounds_mul (normal_unpack ha) (normal_unpack hb)) (unpack_lift ha hb)

theorem roundsTo_div (ha : a.float.isFinite = true) (hb : b.float.isFinite = true)
    (hne : b.value ≠ 0) : RoundsTo (a.value / b.value) (a / b) :=
  roundsTo_of_unpack (Rounding.rounds_div (normal_unpack ha) (normal_unpack hb) hne)
    (unpack_lift ha hb)

theorem error_add (ha : a.float.isFinite = true) (hb : b.float.isFinite = true)
    (hfin : (a + b).float.isFinite = true) :
    |(a + b).value - (a.value + b.value)| ≤ |a.value + b.value| / 2 ^ 52 :=
  (roundsTo_add ha hb).error_of_multiple hfin (n := a.units + b.units) (by
    rw [value_eq, value_eq, Int.cast_add, add_mul])

theorem error_sub (ha : a.float.isFinite = true) (hb : b.float.isFinite = true)
    (hfin : (a - b).float.isFinite = true) :
    |(a - b).value - (a.value - b.value)| ≤ |a.value - b.value| / 2 ^ 52 :=
  (roundsTo_sub ha hb).error_of_multiple hfin (n := a.units - b.units) (by
    rw [value_eq, value_eq, Int.cast_sub, sub_mul])

/-- The sign of a difference is not lost. -/
theorem value_sub_nonpos_iff (ha : a.float.isFinite = true) (hb : b.float.isFinite = true) :
    (a - b).value ≤ 0 ↔ a.value ≤ b.value := by
  have hunits : (a - b).units ≤ 0 ↔ a.units ≤ b.units := by
    rw [← Int.sign_nonpos_iff, (sign_units_sub ha hb).2, Int.sign_nonpos_iff, sub_nonpos]
  rw [← value_zero, value_le_value_iff, value_le_value_iff, units_zero]
  exact hunits

theorem value_sub_nonneg_iff (ha : a.float.isFinite = true) (hb : b.float.isFinite = true) :
    0 ≤ (a - b).value ↔ b.value ≤ a.value := by
  have hunits : 0 ≤ (a - b).units ↔ b.units ≤ a.units := by
    rw [← Int.sign_nonneg_iff, (sign_units_sub ha hb).2, Int.sign_nonneg_iff, sub_nonneg]
  rw [← value_zero, value_le_value_iff, value_le_value_iff, units_zero]
  exact hunits

/-! ## Exact results -/

/-- A finite coordinate that is a given number. -/
structure HasValue (a : Binary64) (c : Rat) : Prop where
  isFinite : a.float.isFinite = true
  value_eq : a.value = c

theorem hasValue (ha : a.float.isFinite = true) : a.HasValue a.value :=
  ⟨ha, rfl⟩

theorem hasValue_zero : (0 : Binary64).HasValue 0 :=
  ⟨rfl, value_zero⟩

/-- A result that is a number in 64 bits is exact. -/
theorem RoundsTo.hasValue (h : RoundsTo z a) (hz : Fits z) : a.HasValue z :=
  ⟨h.isFinite hz, h.value_eq hz⟩

theorem HasValue.add {d : Rat} (ha : a.HasValue c) (hb : b.HasValue d) (hsum : c + d = z)
    (hz : Fits z) : (a + b).HasValue z := by
  obtain ⟨ha, rfl⟩ := ha
  obtain ⟨hb, rfl⟩ := hb
  exact (hsum ▸ roundsTo_add ha hb).hasValue hz

theorem HasValue.sub {d : Rat} (ha : a.HasValue c) (hb : b.HasValue d) (hdifference : c - d = z)
    (hz : Fits z) : (a - b).HasValue z := by
  obtain ⟨ha, rfl⟩ := ha
  obtain ⟨hb, rfl⟩ := hb
  exact (hdifference ▸ roundsTo_sub ha hb).hasValue hz

theorem HasValue.mul {d : Rat} (ha : a.HasValue c) (hb : b.HasValue d) (hproduct : c * d = z)
    (hz : Fits z) : (a * b).HasValue z := by
  obtain ⟨ha, rfl⟩ := ha
  obtain ⟨hb, rfl⟩ := hb
  exact (hproduct ▸ roundsTo_mul ha hb).hasValue hz

/-- An infinity is what is neither finite nor a NaN. -/
theorem exists_unpack_eq_infinity (ha : a.float.isNaN = false) (hfin : ¬a.float.isFinite = true) :
    ∃ s, a.float.toModel.unpack = .infinity s := by
  change a.float.toModel.unpack.isNaN = false at ha
  change ¬a.float.toModel.unpack.isFinite = true at hfin
  generalize a.float.toModel.unpack = u at ha hfin ⊢
  rcases u with s | _ | s | ⟨s, m, e, hm⟩
  · exact ⟨s, rfl⟩
  · exact absurd ha nofun
  · exact absurd rfl hfin
  · exact absurd rfl hfin

theorem isNaN_of_unpack_infinity {s : Sign} (h : a.float.toModel.unpack = .infinity s) :
    a.float.isNaN = false := by
  change a.float.toModel.unpack.isNaN = false
  rw [h]
  rfl

theorem value_of_unpack_infinity {s : Sign} (h : a.float.toModel.unpack = .infinity s) :
    a.value = Rounding.factor s * 2 ^ 1024 :=
  (congrArg Rounding.value h).trans (Rounding.value_infinity s)

theorem unpack_lift_infinity (op : Float → Float → Float) {u : UnpackedFloat} {s : Sign}
    (ha : a.float.isNaN = false) (hb : b.float.isNaN = false)
    (hop : (op a.float b.float).toModel.unpack = (Float.Model.pack u).unpack)
    (hu : u = .infinity s) : (lift op a b).float.toModel.unpack = .infinity s := by
  rw [float_lift ha hb, hop, hu]
  exact Rounding.unpack_pack_canonical trivial

/-- Nothing is lost by multiplying with one or its negation, not even an infinity. -/
theorem value_mul_unit {s : Sign} {hm : 0 < 2 ^ 52}
    (ha : a.float.toModel.unpack = .finite s (2 ^ 52) (-52) hm) (hb : b.float.isNaN = false) :
    (a * b).float.isNaN = false ∧ (a * b).value = Rounding.factor s * b.value := by
  have hafin : a.float.isFinite = true := by
    change a.float.toModel.unpack.isFinite = true
    rw [ha]
    rfl
  by_cases hbfin : b.float.isFinite = true
  · have hvalue : a.value = Rounding.factor s := by
      rw [value, ha, Rounding.value_finite s hm (by decide)]
      norm_num
    have hproduct := roundsTo_mul hafin hbfin
    rw [hvalue] at hproduct
    refine ⟨hproduct.isNaN_eq_false, hproduct.value_eq ?_⟩
    cases s
    · rw [Rounding.factor_negative, neg_one_mul]
      exact (fits_value hbfin).neg
    · rw [Rounding.factor_positive, one_mul]
      exact fits_value hbfin
  · obtain ⟨t, ht⟩ := exists_unpack_eq_infinity hb hbfin
    have hproduct : (a * b).float.toModel.unpack = .infinity (s * t) :=
      unpack_lift_infinity (· * ·) (isNaN_eq_false_of_isFinite hafin) hb rfl (by
        rw [ha, ht]
        rfl)
    refine ⟨isNaN_of_unpack_infinity hproduct, ?_⟩
    rw [value_of_unpack_infinity hproduct, value_of_unpack_infinity ht, Rounding.factor_mul,
      mul_assoc]

/-- Nothing is lost by adding zero. -/
theorem value_add_zero (ha : a.float.isNaN = false) (hzero : b.HasValue 0) :
    (a + b).float.isNaN = false ∧ (a + b).value = a.value := by
  have hb := hzero.isFinite
  by_cases hafin : a.float.isFinite = true
  · have hsum := (hasValue hafin).add hzero (add_zero _) (fits_value hafin)
    exact ⟨isNaN_eq_false_of_isFinite hsum.isFinite, hsum.value_eq⟩
  · obtain ⟨s, hs⟩ := exists_unpack_eq_infinity ha hafin
    have hsum : (a + b).float.toModel.unpack = .infinity s :=
      unpack_lift_infinity (· + ·) ha (isNaN_eq_false_of_isFinite hb) rfl (by
        change b.float.toModel.unpack.isFinite = true at hb
        rw [hs]
        exact Rounding.infinity_add s hb)
    exact ⟨isNaN_of_unpack_infinity hsum, by
      rw [value_of_unpack_infinity hsum, value_of_unpack_infinity hs]⟩

/-- A number subtracted from zero is turned to the other side. -/
theorem value_zero_sub (hzero : a.HasValue 0) (hb : b.float.isNaN = false) :
    (a - b).float.isNaN = false ∧ (a - b).value = -b.value := by
  have ha := hzero.isFinite
  by_cases hbfin : b.float.isFinite = true
  · have hdifference := hzero.sub (hasValue hbfin) (zero_sub _) (fits_value hbfin).neg
    exact ⟨isNaN_eq_false_of_isFinite hdifference.isFinite, hdifference.value_eq⟩
  · obtain ⟨s, hs⟩ := exists_unpack_eq_infinity hb hbfin
    have hdifference : (a - b).float.toModel.unpack = .infinity (-s) :=
      unpack_lift_infinity (· - ·) (isNaN_eq_false_of_isFinite ha) hb rfl (by
        change a.float.toModel.unpack.isFinite = true at ha
        rw [hs]
        exact Rounding.sub_infinity s ha)
    refine ⟨isNaN_of_unpack_infinity hdifference, ?_⟩
    rw [value_of_unpack_infinity hdifference, value_of_unpack_infinity hs, Rounding.factor_neg,
      neg_mul]

/-- A quotient is a number, and it is infinite if the dividend is. -/
theorem isFinite_of_div (ha : a.float.isNaN = false) (hb : b.float.isFinite = true)
    (hne : b.value ≠ 0) :
    (a / b).float.isNaN = false ∧
      ((a / b).float.isFinite = true → a.float.isFinite = true) := by
  by_cases hafin : a.float.isFinite = true
  · exact ⟨(roundsTo_div hafin hb hne).isNaN_eq_false, fun _ => hafin⟩
  · obtain ⟨s, hs⟩ := exists_unpack_eq_infinity ha hafin
    obtain ⟨t, ht⟩ := Rounding.infinity_div s hb hne
    have hquotient : (a / b).float.toModel.unpack = .infinity t :=
      unpack_lift_infinity (· / ·) ha (isNaN_eq_false_of_isFinite hb) rfl (by rw [hs, ht])
    refine ⟨isNaN_of_unpack_infinity hquotient, fun hfin => ?_⟩
    change (a / b).float.toModel.unpack.isFinite = true at hfin
    rw [hquotient] at hfin
    exact absurd hfin nofun

end CurveSketch.Binary64
