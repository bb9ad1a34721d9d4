import CurveSketch.Proofs.Binary64

/-!
# Exact values

A binary64 number is a whole multiple of the least positive one, which makes it an integer, its
`units`; an infinity counts as a little more than the greatest number. Numbers compare as their
units do (`compare_eq`). A difference has the sign that the difference of the units has, though it
is rounded (`sign_units_sub`) : a number that is not zero is not rounded to zero, as no number lies
between zero and the least positive one. So two finite coordinates can be compared by looking at
their difference.
-/

namespace CurveSketch.Rounding

open Float.Model Float.Model.UnpackedFloat

/-! ## Units -/

/-- The multiple of the least positive number that a significand and an exponent make. -/
def magnitude (m : Nat) (e : Int) : Nat :=
  m * 2 ^ (e + 1074).toNat

/-- A number as a multiple of the least positive one. -/
def units : UnpackedFloat → Int
  | .infinity s => s.apply (magnitude 1 1024)
  | .notANumber => 0
  | .zero _ => 0
  | .finite s m e _ => s.apply (magnitude m e)

/-- A number as it stands in 64 bits : a significand of less than 53 bits goes with the least
exponent only. -/
def Canonical : UnpackedFloat → Prop
  | .finite _ m e _ => m < 2 ^ 53 ∧ -1074 ≤ e ∧ e ≤ 971 ∧ (2 ^ 52 ≤ m ∨ e = -1074)
  | _ => True

theorem magnitude_pos {m : Nat} (hm : 0 < m) (e : Int) : 0 < magnitude m e :=
  Nat.mul_pos hm (Nat.two_pow_pos _)

theorem magnitude_lt_magnitude {m m' : Nat} (h : m < m') (e : Int) :
    magnitude m e < magnitude m' e :=
  Nat.mul_lt_mul_of_pos_right h (Nat.two_pow_pos _)

theorem magnitude_eq_shift {m : Nat} {c e : Int} (hc : -1074 ≤ c) (hce : c ≤ e) :
    magnitude m e = m * 2 ^ (e - c).toNat * 2 ^ (c + 1074).toNat := by
  rw [magnitude, Nat.mul_assoc, ← Nat.pow_add]
  congr 2
  omega

/-- With a greater exponent, and a significand of full length, a number is greater. -/
theorem magnitude_lt_of_lt {m m' : Nat} {e e' : Int} (he : -1074 ≤ e) (hlt : e < e')
    (hm : m < 2 ^ 53) (hm' : 2 ^ 52 ≤ m') : magnitude m e < magnitude m' e' := by
  have hshift : 2 ≤ 2 ^ (e' - e).toNat := by
    obtain ⟨k, hk⟩ : ∃ k, (e' - e).toNat = k + 1 := ⟨(e' - e).toNat - 1, by omega⟩
    rw [hk, Nat.pow_succ]
    have := Nat.two_pow_pos k
    omega
  have hdouble : m' * 2 ≤ m' * 2 ^ (e' - e).toNat := Nat.mul_le_mul_left _ hshift
  rw [magnitude_eq_shift he hlt.le, magnitude]
  exact Nat.mul_lt_mul_of_pos_right (by omega) (Nat.two_pow_pos _)

/-- An infinity is what comes after the greatest number. -/
theorem magnitude_infinity : magnitude 1 1024 = magnitude (2 ^ 52) 972 := by
  decide +kernel

theorem magnitude_lt_infinity {m : Nat} {e : Int} (he : -1074 ≤ e) (hmax : e ≤ 971)
    (hm : m < 2 ^ 53) : magnitude m e < magnitude 1 1024 := by
  rw [magnitude_infinity]
  exact magnitude_lt_of_lt he (by omega) hm le_rfl

/-- Canonical numbers of one sign compare by exponent first, as their magnitudes do. -/
theorem compare_magnitude {m m' : Nat} {e e' : Int} (hm : m < 2 ^ 53) (hm' : m' < 2 ^ 53)
    (he : -1074 ≤ e) (he' : -1074 ≤ e') (hfull : 2 ^ 52 ≤ m ∨ e = -1074)
    (hfull' : 2 ^ 52 ≤ m' ∨ e' = -1074) :
    (compare e e').then (compare m m') = compare (magnitude m e) (magnitude m' e') := by
  rcases lt_trichotomy e e' with hlt | rfl | hgt
  · have hmag := magnitude_lt_of_lt he hlt hm (hfull'.resolve_right (by omega))
    rw [Int.compare_eq_lt.2 hlt, Nat.compare_eq_lt.2 hmag]
    rfl
  · rw [Int.compare_eq_eq.2 rfl, Ordering.eq_then]
    rcases lt_trichotomy m m' with hlt | rfl | hgt
    · rw [Nat.compare_eq_lt.2 hlt, Nat.compare_eq_lt.2 (magnitude_lt_magnitude hlt e)]
    · rw [Nat.compare_eq_eq.2 rfl, Nat.compare_eq_eq.2 rfl]
    · rw [Nat.compare_eq_gt.2 hgt, Nat.compare_eq_gt.2 (magnitude_lt_magnitude hgt e)]
  · have hmag := magnitude_lt_of_lt he' hgt hm' (hfull.resolve_right (by omega))
    rw [Int.compare_eq_gt.2 hgt, Nat.compare_eq_gt.2 hmag]
    rfl

theorem compare_natCast (a b : Nat) : compare (a : Int) (b : Int) = compare a b := by
  rcases lt_trichotomy a b with hlt | rfl | hgt
  · rw [Nat.compare_eq_lt.2 hlt, Int.compare_eq_lt.2 (by omega)]
  · rw [Nat.compare_eq_eq.2 rfl, Int.compare_eq_eq.2 rfl]
  · rw [Nat.compare_eq_gt.2 hgt, Int.compare_eq_gt.2 (by omega)]

theorem compare_neg (a b : Int) : compare (-a) (-b) = (compare a b).swap := by
  rcases lt_trichotomy a b with hlt | rfl | hgt
  · rw [Int.compare_eq_lt.2 hlt, Int.compare_eq_gt.2 (by omega)]
    rfl
  · rw [Int.compare_eq_eq.2 rfl, Int.compare_eq_eq.2 rfl]
    rfl
  · rw [Int.compare_eq_gt.2 hgt, Int.compare_eq_lt.2 (by omega)]
    rfl

/-- Numbers compare as their units do, infinities included. -/
theorem compare_eq {u v : UnpackedFloat} (hu : Canonical u) (hv : Canonical v)
    (hun : u.isNaN = false) (hvn : v.isNaN = false) :
    u.compare v = some (compare (units u) (units v)) := by
  have htop := magnitude_pos one_pos 1024
  have hfinite : ∀ {s m e hm}, Canonical (.finite s m e hm) →
      0 < magnitude m e ∧ magnitude m e < magnitude 1 1024 := fun {s m e hm} h =>
    ⟨magnitude_pos hm e, magnitude_lt_infinity h.2.1 h.2.2.1 h.1⟩
  have hlt : ∀ {a b : Int}, a < b → some Ordering.lt = some (compare a b) := fun h =>
    congrArg some (Int.compare_eq_lt.2 h).symm
  have hgt : ∀ {a b : Int}, b < a → some Ordering.gt = some (compare a b) := fun h =>
    congrArg some (Int.compare_eq_gt.2 h).symm
  rcases u with s | _ | s | ⟨s, m, e, hm⟩
  case notANumber => exact absurd hun nofun
  all_goals rcases v with s' | _ | s' | ⟨s', m', e', hm'⟩
  case infinity.notANumber => exact absurd hvn nofun
  case zero.notANumber => exact absurd hvn nofun
  case finite.notANumber => exact absurd hvn nofun
  case zero.zero => rfl
  case infinity.infinity =>
    cases s <;> cases s'
    · exact congrArg some (Int.compare_eq_eq.2 rfl).symm
    · exact hlt (by simp only [units, Sign.apply]; omega)
    · exact hgt (by simp only [units, Sign.apply]; omega)
    · exact congrArg some (Int.compare_eq_eq.2 rfl).symm
  case infinity.zero =>
    cases s
    · exact hlt (by simp only [units, Sign.apply]; omega)
    · exact hgt (by simp only [units, Sign.apply]; omega)
  case zero.infinity =>
    cases s'
    · exact hgt (by simp only [units, Sign.apply]; omega)
    · exact hlt (by simp only [units, Sign.apply]; omega)
  case infinity.finite =>
    have hmag := hfinite hv
    cases s
    · exact hlt (by cases s' <;> simp only [units, Sign.apply] <;> omega)
    · exact hgt (by cases s' <;> simp only [units, Sign.apply] <;> omega)
  case finite.infinity =>
    have hmag := hfinite hu
    cases s'
    · exact hgt (by cases s <;> simp only [units, Sign.apply] <;> omega)
    · exact hlt (by cases s <;> simp only [units, Sign.apply] <;> omega)
  case zero.finite =>
    have hmag := hfinite hv
    cases s'
    · exact hgt (by simp only [units, Sign.apply]; omega)
    · exact hlt (by simp only [units, Sign.apply]; omega)
  case finite.zero =>
    have hmag := hfinite hu
    cases s
    · exact hlt (by simp only [units, Sign.apply]; omega)
    · exact hgt (by simp only [units, Sign.apply]; omega)
  case finite.finite =>
    have hmag := compare_magnitude hu.1 hv.1 hu.2.1 hv.2.1 hu.2.2.2 hv.2.2.2
    have hpos := hfinite hu
    have hpos' := hfinite hv
    cases s <;> cases s'
    · refine congrArg some ?_
      rw [hmag, units, units, Sign.apply, Sign.apply, compare_neg, compare_natCast]
    · exact hlt (by simp only [units, Sign.apply]; omega)
    · exact hgt (by simp only [units, Sign.apply]; omega)
    · refine congrArg some ?_
      rw [hmag, units, units, Sign.apply, Sign.apply, compare_natCast]

theorem canonical_unpack (f : Float.Model) : Canonical f.unpack := by
  have hmantissa : (@unpackMantissa .binary64 f.toBits.toBitVec).toNat < 2 ^ 52 := BitVec.isLt _
  have hexponent : (@unpackExponent .binary64 f.toBits.toBitVec).toNat < 2 ^ 11 := BitVec.isLt _
  have hbias : ((Format.binary64.exponentBias : Nat) : Int) = 1023 := rfl
  have hwidth : ((Format.binary64.mantissaBitsWithoutImplicit : Nat) : Int) = 52 := rfl
  unfold Float.Model.unpack UnpackedFloat.unpack
  dsimp only
  split_ifs with hones hinfinity hsub hzero
  · trivial
  · trivial
  · trivial
  · have hsubnormal : (@unpackExponent .binary64 f.toBits.toBitVec).toNat = 0 :=
      congrArg BitVec.toNat hsub
    refine ⟨by omega, by omega, by omega, .inr (by omega)⟩
  · have hnormal : (@unpackExponent .binary64 f.toBits.toBitVec).toNat ≠ 0 := fun h =>
      hsub (BitVec.eq_of_toNat_eq h)
    have hlargest : (@unpackExponent .binary64 f.toBits.toBitVec).toNat ≠ 2 ^ 11 - 1 := fun h =>
      hones (BitVec.eq_of_toNat_eq h)
    have hfull : (1#1 ++ @unpackMantissa .binary64 f.toBits.toBitVec).toNat =
        2 ^ 52 + (@unpackMantissa .binary64 f.toBits.toBitVec).toNat := by
      rw [BitVec.toNat_append, ← Nat.shiftLeft_add_eq_or_of_lt (BitVec.isLt _), Nat.shiftLeft_eq]
      rfl
    refine ⟨by omega, by omega, by omega, .inl (by omega)⟩

/-! ## The sign of a rounded number -/

/-- A rounded number : a multiple of the least positive one with at most 53 bits. -/
def Rounded : UnpackedFloat → Prop
  | .notANumber => False
  | .finite _ m e _ => m < 2 ^ 53 ∧ -1074 ≤ e
  | _ => True

theorem mantissa_le_roundedMantissa (em : ExtendedMantissa) :
    em.mantissa ≤ em.roundedMantissa := by
  obtain ⟨m, round, sticky⟩ := em
  cases round <;> cases sticky <;>
    simp [ExtendedMantissa.roundedMantissa, ExtendedMantissa.accuracy,
      Accuracy.roundToNearestEven]

/-- Bits are cut off only from a number of more than 53 bits, and 53 of them are left. -/
theorem shiftToTargetExponent_pos {m : Nat} (hm : 0 < m) {e : Int} (he : -1074 ≤ e)
    (acc : Accuracy) : 0 < (shiftToTargetExponent .binary64 m e acc).1.mantissa := by
  rw [shiftToTargetExponent_fst]
  refine Nat.div_pos ?_ (Nat.two_pow_pos _)
  calc 2 ^ (max (m.log2 + 1 + e - 53) (-1074) - e).toNat ≤ 2 ^ m.log2 :=
        Nat.pow_le_pow_right (by decide) (by omega)
    _ ≤ m := Nat.log2_self_le hm.ne'

/-- A positive significand is not rounded to zero. -/
theorem exists_roundWithAccuracy (s : Sign) {m : Nat} (hm : 0 < m) {e : Int} (he : -1074 ≤ e)
    (acc : Accuracy) :
    ∃ m' e' h, roundWithAccuracy .binary64 s m e acc = .finite s m' e' h ∧
      m' < 2 ^ 53 ∧ -1074 ≤ e' := by
  have hfirst := shiftToTargetExponent_pos hm he acc
  have hexp := shiftToTargetExponent_snd m e acc
  unfold roundWithAccuracy
  dsimp only
  generalize shiftToTargetExponent .binary64 m e acc = first at hfirst hexp ⊢
  have hround := hfirst.trans_le (mantissa_le_roundedMantissa first.1)
  have he₁ : -1074 ≤ first.2 := by omega
  have hsecond := shiftToTargetExponent_pos hround he₁ .exact
  have hmant := shiftToTargetExponent_fst first.1.roundedMantissa first.2 .exact
  have hexp₂ := shiftToTargetExponent_snd first.1.roundedMantissa first.2 .exact
  rw [dif_neg hsecond.ne']
  refine ⟨_, _, hsecond, rfl, ?_, by omega⟩
  rw [hmant]
  exact div_lt_of_shift _ (by omega)

theorem exists_round (s : Sign) {m : Nat} (hm : 0 < m) {e : Int} (he : -1074 ≤ e) :
    ∃ m' e' h, round .binary64 s m e = .finite s m' e' h ∧ m' < 2 ^ 53 ∧ -1074 ≤ e' := by
  unfold UnpackedFloat.round decreaseExponent
  dsimp only
  rw [targetExponent_eq, totalExponent]
  refine exists_roundWithAccuracy s ?_ (by omega) .exact
  rw [Nat.shiftLeft_eq]
  exact Nat.mul_pos hm (Nat.two_pow_pos _)

/-- The sign of a number. -/
theorem sign_units_finite (s : Sign) {m : Nat} (hm : 0 < m) (e : Int) :
    (units (.finite s m e hm)).sign = s.apply 1 := by
  have hpos := magnitude_pos hm e
  cases s
  · exact Int.sign_eq_neg_one_of_neg (by simp only [units, Sign.apply]; omega)
  · exact Int.sign_eq_one_of_pos (by simp only [units, Sign.apply]; omega)

/-- A whole number of units keeps its sign when it is rounded. -/
theorem sign_units_normalize (m : Int) {e : Int} (he : -1074 ≤ e) (z : Sign) :
    Rounded (normalize .binary64 m e z) ∧ (units (normalize .binary64 m e z)).sign = m.sign := by
  unfold UnpackedFloat.normalize
  split
  · rename_i hlt
    have hneg : m < 0 := Int.compare_eq_lt.1 hlt
    obtain ⟨m', e', hm', heq, hlt', he'⟩ :=
      exists_round .negative (m := (-m).toNat) (by omega) he
    rw [heq, sign_units_finite, Int.sign_eq_neg_one_of_neg hneg]
    exact ⟨⟨hlt', he'⟩, rfl⟩
  · rename_i heq
    rw [Int.compare_eq_eq.1 heq]
    exact ⟨trivial, rfl⟩
  · rename_i hgt
    have hpos : 0 < m := Int.compare_eq_gt.1 hgt
    obtain ⟨m', e', hm', heq, hlt', he'⟩ :=
      exists_round .positive (m := m.toNat) (by omega) he
    rw [heq, sign_units_finite, Int.sign_eq_one_of_pos hpos]
    exact ⟨⟨hlt', he'⟩, rfl⟩

/-! ## Differences -/

/-- A finite number in units of the least positive one, over a smaller exponent. -/
theorem units_eq_shift (s : Sign) {m : Nat} (hm : 0 < m) {c e : Int} (hc : -1074 ≤ c)
    (hce : c ≤ e) :
    units (.finite s m e hm) =
      s.apply (decreaseExponent m e c).1 * ((2 ^ (c + 1074).toNat : Nat) : Int) := by
  have hmag : magnitude m e = (decreaseExponent m e c).1 * 2 ^ (c + 1074).toNat := by
    rw [decreaseExponent, Nat.shiftLeft_eq, magnitude_eq_shift hc hce]
  rw [units, hmag, Int.natCast_mul]
  cases s
  · exact (Int.neg_mul _ _).symm
  · rfl

/-- A difference has the sign that it would have if it were not rounded. -/
theorem sign_units_sub {u v : UnpackedFloat} (hu : Canonical u) (hv : Canonical v)
    (hufin : u.isFinite = true) (hvfin : v.isFinite = true) :
    Rounded (sub .binary64 u v) ∧
      (units (sub .binary64 u v)).sign = (units u - units v).sign := by
  rcases u with s | _ | s | ⟨s, m, e, hm⟩
  case infinity => exact absurd hufin nofun
  case notANumber => exact absurd hufin nofun
  all_goals rcases v with s' | _ | s' | ⟨s', m', e', hm'⟩
  case zero.infinity => exact absurd hvfin nofun
  case zero.notANumber => exact absurd hvfin nofun
  case finite.infinity => exact absurd hvfin nofun
  case finite.notANumber => exact absurd hvfin nofun
  case zero.zero => cases s <;> cases s' <;> exact ⟨trivial, rfl⟩
  case zero.finite =>
    refine ⟨⟨hv.1, hv.2.1⟩, ?_⟩
    have hneg : units (.finite (-s') m' e' hm') = 0 - units (.finite s' m' e' hm') := by
      cases s'
      · exact ((Int.zero_sub _).trans (Int.neg_neg _)).symm
      · exact (Int.zero_sub _).symm
    exact congrArg Int.sign hneg
  case finite.zero =>
    refine ⟨⟨hu.1, hu.2.1⟩, ?_⟩
    exact congrArg Int.sign (Int.sub_zero _).symm
  case finite.finite =>
    have he := hu.2.1
    have he' := hv.2.1
    have hc : -1074 ≤ min e e' := by omega
    have hdifference := sign_units_normalize
      (s.apply (decreaseExponent m e (min e e')).1 -
        s'.apply (decreaseExponent m' e' (min e e')).1) hc .positive
    refine ⟨hdifference.1, hdifference.2.trans ?_⟩
    rw [units_eq_shift s hm hc (Int.min_le_left _ _),
      units_eq_shift s' hm' hc (Int.min_le_right _ _), ← Int.sub_mul, Int.sign_mul,
      Int.sign_eq_one_of_pos (Int.natCast_pos.2 (Nat.two_pow_pos _)), Int.mul_one]

/-! ## Packing -/

/-- Bits that are neither those of an infinity or a NaN nor those of a zero. -/
theorem unpack_eq_finite {b : BitVec Format.binary64.numBits} (hev : unpackExponent b ≠ -1#11)
    (hne : unpackExponent b = 0#11 → unpackMantissa b ≠ 0#52) :
    ∃ m e h, UnpackedFloat.unpack .binary64 b = .finite (Sign.ofBitVec (unpackSign b)) m e h := by
  unfold UnpackedFloat.unpack
  dsimp only
  rw [if_neg hev]
  split
  · rename_i hzero
    rw [dif_neg (hne hzero)]
    exact ⟨_, _, Nat.pos_of_ne_zero fun h => hne hzero (BitVec.eq_of_toNat_eq h), rfl⟩
  · refine ⟨_, _, ?_, rfl⟩
    rw [BitVec.toNat_append, ← Nat.shiftLeft_add_eq_or_of_lt (BitVec.isLt _), Nat.shiftLeft_eq]
    exact Nat.add_pos_left (Nat.mul_pos (by decide) (Nat.two_pow_pos _)) _

theorem unpack_packComponents (s : Sign) {ev : BitVec 11} {mv : BitVec 52} (hev : ev ≠ -1#11)
    (hne : ev = 0#11 → mv ≠ 0#52) :
    ∃ m e h, UnpackedFloat.unpack .binary64 (packComponents .binary64 s ev mv) =
      .finite s m e h := by
  have hexponent : unpackExponent (packComponents .binary64 s ev mv) = ev :=
    unpackExponent_packComponents
  have hmantissa : unpackMantissa (packComponents .binary64 s ev mv) = mv :=
    unpackMantissa_packComponents
  have h := unpack_eq_finite (hexponent.symm ▸ hev) (hexponent.symm ▸ hmantissa.symm ▸ hne)
  rwa [ofBitVec_unpackSign] at h

/-- A rounded number that is packed overflows or stays different from zero. -/
theorem unpack_pack_rounded (s : Sign) {m : Nat} (hm : 0 < m) {e : Int} (hlt : m < 2 ^ 53)
    (he : -1074 ≤ e) :
    (Float.Model.pack (.finite s m e hm)).unpack = .infinity s ∨
      ∃ m' e' h, (Float.Model.pack (.finite s m e hm)).unpack = .finite s m' e' h := by
  change (UnpackedFloat.unpack .binary64 (UnpackedFloat.pack .binary64 _)) = _ ∨
    ∃ m' e' h, (UnpackedFloat.unpack .binary64 (UnpackedFloat.pack .binary64 _)) = _
  unfold UnpackedFloat.pack
  simp only [biasedExponent_eq e]
  split_ifs with hlarge hnormal
  · left
    cases s <;> rfl
  · right
    change ¬2048 ≤ (e + 1075).toNat + 1 at hlarge
    have hev : (BitVec.ofNat 11 (e + 1075).toNat).toNat = (e + 1075).toNat := by
      rw [BitVec.toNat_ofNat, Nat.mod_eq_of_lt (by omega)]
    refine unpack_packComponents s (fun h => ?_) fun h => ?_
    · have hones : (-1#11 : BitVec 11).toNat = 2047 := rfl
      rw [h, hones] at hev
      omega
    · have hzero : (0#11 : BitVec 11).toNat = 0 := rfl
      rw [h, hzero] at hev
      omega
  · right
    -- with less than 53 bits the significand itself is what is stored
    have hsmall : m < 2 ^ 52 := by
      change ¬m.log2 + 1 = 53 at hnormal
      have hbits := log2_le_of_lt (by decide) hlt
      exact (Nat.log2_lt hm.ne').1 (by omega)
    have hmv : (BitVec.ofNat 52 m).toNat = m := by
      rw [BitVec.toNat_ofNat, Nat.mod_eq_of_lt hsmall]
    refine unpack_packComponents s (by decide) fun _ h => ?_
    have hzero : (0#52 : BitVec 52).toNat = 0 := rfl
    rw [h, hzero] at hmv
    exact hm.ne hmv

/-- A rounded number keeps its sign in 64 bits. -/
theorem sign_units_unpack_pack {u : UnpackedFloat} (hu : Rounded u) :
    (Float.Model.pack u).unpack.isNaN = false ∧
      (units (Float.Model.pack u).unpack).sign = (units u).sign := by
  rcases u with s | _ | s | ⟨s, m, e, hm⟩
  · cases s <;> exact ⟨rfl, rfl⟩
  · exact hu.elim
  · cases s <;> exact ⟨rfl, rfl⟩
  · have hpos := magnitude_pos one_pos 1024
    rcases unpack_pack_rounded s hm hu.1 hu.2 with h | ⟨m', e', hm', h⟩
    · refine ⟨by rw [h]; rfl, ?_⟩
      rw [h, sign_units_finite]
      cases s
      · exact Int.sign_eq_neg_one_of_neg (by simp only [units, Sign.apply]; omega)
      · exact Int.sign_eq_one_of_pos (by simp only [units, Sign.apply]; omega)
    · refine ⟨by rw [h]; rfl, ?_⟩
      rw [h, sign_units_finite, sign_units_finite]

end CurveSketch.Rounding

namespace CurveSketch.Binary64

/-! ## Coordinates -/

/-- A coordinate as a multiple of the least positive number. -/
def units (a : Binary64) : Int :=
  Rounding.units a.float.toModel.unpack

theorem compare_eq {a b : Binary64} (ha : a.float.isNaN = false) (hb : b.float.isNaN = false) :
    a.float.toModel.unpack.compare b.float.toModel.unpack = some (compare a.units b.units) :=
  Rounding.compare_eq (Rounding.canonical_unpack _) (Rounding.canonical_unpack _) ha hb

theorem lt_iff_units {a b : Binary64} (ha : a.float.isNaN = false) (hb : b.float.isNaN = false) :
    a < b ↔ a.units < b.units := by
  change decide (a.float.toModel.unpack.lt b.float.toModel.unpack = true) = true ↔ _
  rw [decide_eq_true_iff, Float.Model.UnpackedFloat.lt, compare_eq ha hb, ← Int.compare_eq_lt]
  simp

theorem le_iff_units {a b : Binary64} (ha : a.float.isNaN = false) (hb : b.float.isNaN = false) :
    a ≤ b ↔ a.units ≤ b.units := by
  rw [le_iff, Float.Model.UnpackedFloat.le, compare_eq ha hb]
  simp [← Int.isLE_compare]

theorem beq_iff_units {a b : Binary64} (ha : a.float.isNaN = false)
    (hb : b.float.isNaN = false) : (a == b) = true ↔ a.units = b.units := by
  change a.float.toModel.unpack.beq b.float.toModel.unpack = true ↔ _
  rw [Float.Model.UnpackedFloat.beq, compare_eq ha hb, ← Int.compare_eq_eq]
  simp

theorem units_zero : units 0 = 0 :=
  rfl

/-- The difference of two finite coordinates is a number, and has the sign of the exact one. -/
theorem sign_units_sub {a b : Binary64} (ha : a.float.isFinite = true)
    (hb : b.float.isFinite = true) :
    (a - b).float.isNaN = false ∧ (a - b).units.sign = (a.units - b.units).sign := by
  have hfloat : (a - b).float = a.float - b.float :=
    float_lift (isNaN_eq_false_of_isFinite ha) (isNaN_eq_false_of_isFinite hb)
  obtain ⟨hrounded, hsign⟩ := Rounding.sign_units_sub (Rounding.canonical_unpack a.float.toModel)
    (Rounding.canonical_unpack b.float.toModel) ha hb
  obtain ⟨hnan, hpack⟩ := Rounding.sign_units_unpack_pack hrounded
  rw [units, hfloat]
  exact ⟨hnan, hpack.trans hsign⟩

end CurveSketch.Binary64
