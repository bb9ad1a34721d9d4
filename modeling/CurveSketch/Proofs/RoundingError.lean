import CurveSketch.Proofs.ExactValue

/-!
# Rounding errors

What an operation returns, next to the rational number that it would return without rounding
(`Rounds`) : the two differ by half a unit in the last place, and no number with a significand of 53
bits lies between them, so a result that has one is exact. A significand is rounded by its round bit
and its sticky bit, and these say enough of the number that is rounded (`Represents`) however often
bits are shifted out. Sums, products and quotients then only differ in the significand they start
from (`rounds_add`, `rounds_sub`, `rounds_mul`, `rounds_div`). Nothing is said of numbers too large
for 64 bits : they are kept with their exponent, until they are packed.
-/

namespace CurveSketch.Rounding

open Float.Model Float.Model.UnpackedFloat

/-! ## Values -/

/-- The least positive number. -/
def least : Rat :=
  2 ^ (-1074 : Int)

theorem least_pos : 0 < least :=
  zpow_pos two_pos _

theorem least_le : least ≤ 1 / 2 ^ 53 := by
  have hpow : (1 : Rat) / 2 ^ 53 = 2 ^ (-53 : Int) := by
    rw [zpow_neg, one_div]
    rfl
  rw [hpow]
  exact zpow_le_zpow_right₀ one_le_two (by decide)

/-- The rational number that a finite number is; an infinity counts as a little more than the
greatest number. -/
def value (u : UnpackedFloat) : Rat :=
  units u * least

theorem magnitude_mul_least {m : Nat} {e : Int} (he : -1074 ≤ e) :
    (magnitude m e : Rat) * least = m * 2 ^ e := by
  have hexp : ((2 : Rat) ^ (e + 1074).toNat) * least = 2 ^ e := by
    rw [least, ← zpow_natCast, ← zpow_add₀ two_ne_zero]
    congr 1
    omega
  rw [magnitude, Nat.cast_mul, Nat.cast_pow, Nat.cast_ofNat, mul_assoc, hexp]

/-- The number that a sign multiplies with. -/
def factor (s : Sign) : Rat :=
  (s.apply 1 : Int)

theorem factor_positive : factor .positive = 1 :=
  rfl

theorem factor_negative : factor .negative = -1 :=
  rfl

theorem cast_apply (s : Sign) (n : Int) : ((s.apply n : Int) : Rat) = factor s * n := by
  cases s
  · rw [factor_negative, neg_one_mul]
    exact Int.cast_neg n
  · rw [factor_positive, one_mul]
    rfl

theorem value_finite (s : Sign) {m : Nat} {e : Int} (hm : 0 < m) (he : -1074 ≤ e) :
    value (.finite s m e hm) = factor s * (m * 2 ^ e) := by
  rw [← magnitude_mul_least he, value, units, cast_apply, mul_assoc]
  rfl

@[simp] theorem value_zero (s : Sign) : value (.zero s) = 0 := by
  rw [value, units, Int.cast_zero, zero_mul]

theorem apply_neg (s : Sign) (n : Int) : (-s).apply n = -s.apply n := by
  cases s
  · exact (Int.neg_neg n).symm
  · rfl

theorem units_neg (u : UnpackedFloat) : units u.neg = -units u := by
  rcases u with s | _ | s | ⟨s, m, e, hm⟩
  · exact apply_neg s _
  · rfl
  · rfl
  · exact apply_neg s _

theorem value_neg (u : UnpackedFloat) : value u.neg = -value u := by
  rw [value, units_neg, Int.cast_neg, neg_mul, value]

/-! ## The bits that are cut off -/

/-- A number between a significand and the next, as far as the round bit and the sticky bit tell. -/
def Represents (em : ExtendedMantissa) (x : Rat) : Prop :=
  match em.roundBit, em.stickyBit with
  | false, false => x = em.mantissa
  | false, true => em.mantissa < x ∧ x < em.mantissa + 1 / 2
  | true, false => x = em.mantissa + 1 / 2
  | true, true => em.mantissa + 1 / 2 < x ∧ x < em.mantissa + 1

namespace Represents

variable {em : ExtendedMantissa} {x : Rat}

theorem shiftRightOne (h : Represents em x) : Represents em.shiftRightOne (x / 2) := by
  obtain ⟨m, round, sticky⟩ := em
  have hm : ((m % 2 : Nat) : Rat) + 2 * ((m / 2 : Nat) : Rat) = m := by
    exact_mod_cast Nat.mod_add_div m 2
  have hbit : m % 2 = 0 ∨ m % 2 = 1 := Nat.mod_two_eq_zero_or_one m
  have hone : ((1 : Nat) != 0) = true := rfl
  rcases hbit with hbit | hbit <;> rw [hbit] at hm <;> push_cast at hm <;>
    cases round <;> cases sticky <;>
    simp only [Represents, ExtendedMantissa.shiftRightOne, hbit, bne_self_eq_false, hone,
      Bool.or_false, Bool.or_true, Bool.or_self] at h ⊢
  all_goals first | linarith | (constructor <;> linarith)

/-- Shifting out further bits keeps track of them. -/
theorem shiftRight (h : Represents em x) (n : Nat) : Represents (em >>> n) (x / 2 ^ n) := by
  change Represents (n.repeat ExtendedMantissa.shiftRightOne em) (x / 2 ^ n)
  induction n with
  | zero => simpa [Nat.repeat] using h
  | succ n ih =>
    rw [Nat.repeat, pow_succ, ← div_div]
    exact ih.shiftRightOne

/-- The significand is the whole part. -/
theorem le_and_lt (h : Represents em x) : (em.mantissa : Rat) ≤ x ∧ x < em.mantissa + 1 := by
  obtain ⟨m, round, sticky⟩ := em
  cases round <;> cases sticky <;> simp only [Represents] at h ⊢
  · constructor <;> linarith
  · constructor <;> linarith [h.1, h.2]
  · constructor <;> linarith
  · constructor <;> linarith [h.1, h.2]

/-- The significand is rounded to the nearest. -/
theorem abs_roundedMantissa_sub_le (h : Represents em x) :
    |(em.roundedMantissa : Rat) - x| ≤ 1 / 2 := by
  obtain ⟨m, round, sticky⟩ := em
  have hbit : m % 2 = 0 ∨ m % 2 = 1 := Nat.mod_two_eq_zero_or_one m
  rw [abs_le]
  cases round <;> cases sticky <;>
    simp only [Represents, ExtendedMantissa.roundedMantissa, ExtendedMantissa.accuracy,
      Accuracy.roundToNearestEven] at h ⊢
  · constructor <;> linarith
  · constructor <;> linarith [h.1, h.2]
  · rcases hbit with hbit | hbit <;> rw [hbit] <;> push_cast <;> constructor <;> linarith
  · push_cast
    constructor <;> linarith [h.1, h.2]

/-- Rounding does not pass a whole number. -/
theorem le_roundedMantissa (h : Represents em x) {n : Nat} (hn : (n : Rat) ≤ x) :
    n ≤ em.roundedMantissa := by
  have hlt : (n : Rat) < em.mantissa + 1 := hn.trans_lt h.le_and_lt.2
  have hle : n ≤ em.mantissa := Nat.lt_succ_iff.1 (by exact_mod_cast hlt)
  exact hle.trans (mantissa_le_roundedMantissa em)

theorem roundedMantissa_le (h : Represents em x) {n : Nat} (hn : x ≤ n) :
    em.roundedMantissa ≤ n := by
  have hround := (abs_le.1 h.abs_roundedMantissa_sub_le).2
  have hlt : (em.roundedMantissa : Rat) < n + 1 := by linarith
  exact Nat.lt_succ_iff.1 (by exact_mod_cast hlt)

end Represents

/-! ## Rounding -/

/-- A finite number with the least exponent that its significand allows. The exponent may be too
large for a number in 64 bits. -/
def Normal : UnpackedFloat → Prop
  | .infinity _ => False
  | .notANumber => False
  | .zero _ => True
  | .finite _ m e _ => m < 2 ^ 53 ∧ -1074 ≤ e ∧ (2 ^ 52 ≤ m ∨ e = -1074)

/-- A rational number with a significand of 53 bits, above the least exponent. -/
def Representable (c : Rat) : Prop :=
  ∃ n : Int, ∃ e : Int, n.natAbs < 2 ^ 53 ∧ -1074 ≤ e ∧ c = n * 2 ^ e

/-- A number that a rational number is rounded to. -/
structure Rounds (z : Rat) (u : UnpackedFloat) : Prop where
  normal : Normal u
  /-- It is off by half a unit in the last place, relative to the number, or half of the least
  number. -/
  error : |value u - z| ≤ |z| / 2 ^ 53 + least / 2
  /-- It is not below a representable number that the rational number is not below. -/
  le_value : ∀ c, Representable c → c ≤ z → c ≤ value u
  value_le : ∀ c, Representable c → z ≤ c → value u ≤ c

/-- A positive significand rounded, as a multiple of a power of two. -/
structure Scaled (y : Rat) (r : Nat) (e : Int) : Prop where
  nonneg : 0 ≤ y
  least_le : -1074 ≤ e
  nearest : |(r : Rat) - y| ≤ 1 / 2
  le_rounded : ∀ n : Nat, (n : Rat) ≤ y → n ≤ r
  rounded_le : ∀ n : Nat, y ≤ n → r ≤ n
  full : (2 : Rat) ^ 52 ≤ y ∨ e = -1074
  lt : y < 2 ^ 53

theorem scaled_shiftToTargetExponent {m : Nat} {e : Int} {acc : Accuracy} {x : Rat}
    (hx : Represents (.ofMantissaAndAccuracy m acc) x) (hbits : 2 ^ 52 ≤ m ∨ e ≤ -1074) :
    let first := shiftToTargetExponent .binary64 m e acc
    Scaled (x * 2 ^ e / 2 ^ first.2) first.1.roundedMantissa first.2 := by
  intro first
  have hexp : first.2 = _ := shiftToTargetExponent_snd m e acc
  have hmant : first.1.mantissa = _ := shiftToTargetExponent_fst m e acc
  have hlog : 2 ^ 52 ≤ m → 52 ≤ m.log2 := fun h =>
    (Nat.le_log2 (Nat.ne_of_gt (by omega))).2 h
  generalize hk : (max ((m.log2 : Int) + 1 + e - 53) (-1074) - e).toNat = k at hexp hmant
  have hfirst : Represents first.1 (x / 2 ^ k) := by
    have h := hx.shiftRight k
    rw [← hk] at h ⊢
    exact h
  have hscale : x * 2 ^ e / 2 ^ first.2 = x / 2 ^ k := by
    rw [hexp, zpow_add₀ two_ne_zero, zpow_natCast, mul_comm _ ((2 : Rat) ^ k),
      mul_div_mul_right _ _ (zpow_ne_zero e two_ne_zero)]
  rw [hscale]
  have hbounds := hfirst.le_and_lt
  rw [hmant] at hbounds
  refine ⟨(Nat.cast_nonneg _).trans hbounds.1, by omega, hfirst.abs_roundedMantissa_sub_le,
    fun n => hfirst.le_roundedMantissa, fun n => hfirst.roundedMantissa_le, ?_, ?_⟩
  · -- above the least exponent the first bit of the significand is the first of 53
    by_cases hleast : first.2 = -1074
    · exact .inr hleast
    · have hk' : m.log2 = 52 + k := by
        rcases hbits with hfull | hlow
        · have := hlog hfull
          omega
        · omega
      have hfull : 2 ^ 52 ≤ m / 2 ^ k := by
        rw [Nat.le_div_iff_mul_le (Nat.two_pow_pos k), ← Nat.pow_add, ← hk']
        exact Nat.log2_self_le fun hzero => by
          rw [hzero, Nat.log2_zero] at hk'
          omega
      have hfull' : (2 : Rat) ^ 52 ≤ ((m / 2 ^ k : Nat) : Rat) := by exact_mod_cast hfull
      exact .inl (hfull'.trans hbounds.1)
  · have hsmall : m / 2 ^ k < 2 ^ 53 := div_lt_of_shift m (by omega)
    have hsmall' : ((m / 2 ^ k : Nat) : Rat) + 1 ≤ 2 ^ 53 := by exact_mod_cast hsmall
    linarith [hbounds.2]

/-- The second shift takes in a significand that was rounded up to a further bit. -/
theorem exists_shift_exact {r : Nat} {e : Int} (he : -1074 ≤ e) (hr : r ≤ 2 ^ 53)
    (hfull : 2 ^ 52 ≤ r ∨ e = -1074) :
    let second := shiftToTargetExponent .binary64 r e .exact
    second.1.mantissa < 2 ^ 53 ∧ -1074 ≤ second.2 ∧
      (2 ^ 52 ≤ second.1.mantissa ∨ second.2 = -1074) ∧
      (second.1.mantissa : Rat) * 2 ^ second.2 = r * 2 ^ e := by
  intro second
  have hmant : second.1.mantissa = _ := shiftToTargetExponent_fst r e .exact
  have hexp : second.2 = _ := shiftToTargetExponent_snd r e .exact
  rcases hr.lt_or_eq with hlt | rfl
  · have hlog := log2_le_of_lt (n := 53) (by decide) hlt
    have hshift : (max ((r.log2 : Int) + 1 + e - 53) (-1074) - e).toNat = 0 := by omega
    rw [hshift, Nat.pow_zero, Nat.div_one] at hmant
    rw [hshift, Nat.cast_zero, add_zero] at hexp
    rw [hmant, hexp]
    exact ⟨hlt, he, hfull, rfl⟩
  · have hshift : (max (((2 ^ 53 : Nat).log2 : Int) + 1 + e - 53) (-1074) - e).toNat = 1 := by
      rw [Nat.log2_two_pow]
      omega
    rw [hshift] at hmant hexp
    rw [hmant, hexp]
    refine ⟨by decide, by omega, .inl (by decide), ?_⟩
    rw [zpow_add₀ two_ne_zero]
    norm_num
    ring

/-- A representable number is a multiple of a power of two, or small beside it. -/
theorem Representable.multiple_or_lt {c : Rat} (h : Representable c) (hc : 0 ≤ c) (e : Int) :
    (∃ n : Nat, c = n * 2 ^ e) ∨ -1074 < e ∧ c < 2 ^ 52 * 2 ^ e := by
  obtain ⟨n, e', hn, he', rfl⟩ := h
  have hpow : (0 : Rat) < 2 ^ e' := zpow_pos two_pos e'
  have hn0 : 0 ≤ n := by
    by_contra hneg
    exact absurd hc (not_le.2 (mul_neg_of_neg_of_pos (by exact_mod_cast not_le.1 hneg) hpow))
  obtain ⟨n, rfl⟩ := Int.eq_ofNat_of_zero_le hn0
  rcases le_or_gt e e' with hle | hlt
  · obtain ⟨k, rfl⟩ := Int.le.dest hle
    refine .inl ⟨n * 2 ^ k, ?_⟩
    rw [zpow_add₀ two_ne_zero, zpow_natCast]
    push_cast
    ring
  · refine .inr ⟨he'.trans_lt hlt, ?_⟩
    have hn' : (n : Rat) < 2 ^ 53 := by exact_mod_cast hn
    calc (((n : Nat) : Int) : Rat) * 2 ^ e' < 2 ^ 53 * 2 ^ e' := by
          exact mul_lt_mul_of_pos_right (by exact_mod_cast hn') hpow
      _ = 2 ^ 52 * 2 ^ (e' + 1) := by
          rw [zpow_add₀ two_ne_zero]
          ring
      _ ≤ 2 ^ 52 * 2 ^ e := by
          refine mul_le_mul_of_nonneg_left ?_ (by positivity)
          exact zpow_le_zpow_right₀ one_le_two hlt

/-- A multiple of a power of two that is nearest to a number, and has enough bits, is what it is
rounded to. -/
theorem Scaled.rounds {y : Rat} {r : Nat} {e : Int} (h : Scaled y r e) {u : UnpackedFloat}
    (hnormal : Normal u) (hvalue : value u = r * 2 ^ e) : Rounds (y * 2 ^ e) u := by
  have hpow : (0 : Rat) < 2 ^ e := zpow_pos two_pos e
  have hy : 0 ≤ y := h.nonneg
  refine ⟨hnormal, ?_, fun c hc hle => ?_, fun c hc hle => ?_⟩
  · have hoff : |value u - y * 2 ^ e| ≤ 2 ^ e / 2 := by
      rw [hvalue, ← sub_mul, abs_mul, abs_of_pos hpow]
      linarith [mul_le_mul_of_nonneg_right h.nearest hpow.le]
    have hz : |y * 2 ^ e| = y * 2 ^ e := abs_of_nonneg (mul_nonneg hy hpow.le)
    refine hoff.trans ?_
    rw [hz]
    rcases h.full with hfull | hleast
    · have := mul_le_mul_of_nonneg_right hfull hpow.le
      have := least_pos
      linarith
    · have := mul_nonneg hy hpow.le
      rw [hleast, ← least] at this ⊢
      linarith
  · rcases le_total c 0 with hneg | hpos
    · rw [hvalue]
      exact hneg.trans (mul_nonneg (Nat.cast_nonneg r) hpow.le)
    · rw [hvalue]
      rcases hc.multiple_or_lt hpos e with ⟨n, rfl⟩ | ⟨he, hlt⟩
      · have hn := h.le_rounded n (le_of_mul_le_mul_right hle hpow)
        exact mul_le_mul_of_nonneg_right (by exact_mod_cast hn) hpow.le
      · have hfull := h.full.resolve_right he.ne'
        have hr := h.le_rounded (2 ^ 52) (by exact_mod_cast hfull)
        refine hlt.le.trans (mul_le_mul_of_nonneg_right ?_ hpow.le)
        exact_mod_cast hr
  · have hpos : 0 ≤ c := (mul_nonneg hy hpow.le).trans hle
    rw [hvalue]
    rcases hc.multiple_or_lt hpos e with ⟨n, rfl⟩ | ⟨he, hlt⟩
    · have hn := h.rounded_le n (le_of_mul_le_mul_right hle hpow)
      exact mul_le_mul_of_nonneg_right (by exact_mod_cast hn) hpow.le
    · have hfull := h.full.resolve_right he.ne'
      exact absurd (hle.trans_lt hlt) (not_lt.2 (mul_le_mul_of_nonneg_right hfull hpow.le))

/-- A positive significand is rounded to a finite number. -/
theorem rounds_roundWithAccuracy_positive {m : Nat} {e : Int} {acc : Accuracy} {x : Rat}
    (hx : Represents (.ofMantissaAndAccuracy m acc) x) (hbits : 2 ^ 52 ≤ m ∨ e ≤ -1074) :
    Rounds (x * 2 ^ e) (roundWithAccuracy .binary64 .positive m e acc) := by
  have hscaled := scaled_shiftToTargetExponent hx hbits
  unfold roundWithAccuracy
  dsimp only at hscaled ⊢
  generalize shiftToTargetExponent .binary64 m e acc = first at hscaled ⊢
  have hr : first.1.roundedMantissa ≤ 2 ^ 53 :=
    hscaled.rounded_le _ (by exact_mod_cast hscaled.lt.le)
  have hfull : 2 ^ 52 ≤ first.1.roundedMantissa ∨ first.2 = -1074 :=
    hscaled.full.imp_left fun h => hscaled.le_rounded _ (by exact_mod_cast h)
  obtain ⟨hlt, hleast, hfull', hvalue⟩ := exists_shift_exact hscaled.least_le hr hfull
  have hz : x * 2 ^ e / 2 ^ first.2 * 2 ^ first.2 = x * 2 ^ e :=
    div_mul_cancel₀ _ (zpow_ne_zero _ two_ne_zero)
  rw [← hz]
  split
  · rename_i hzero
    refine hscaled.rounds trivial ?_
    rw [← hvalue, hzero, value_zero, Nat.cast_zero, zero_mul]
  · exact hscaled.rounds ⟨hlt, hleast, hfull'⟩ (by
      rw [value_finite .positive _ hleast, factor_positive, one_mul, hvalue])

/-! ## Both signs -/

theorem Representable.neg {c : Rat} (h : Representable c) : Representable (-c) := by
  obtain ⟨n, e, hn, he, rfl⟩ := h
  exact ⟨-n, e, by rwa [Int.natAbs_neg], he, by push_cast; ring⟩

theorem rounds_zero (s : Sign) : Rounds 0 (.zero s) := by
  refine ⟨trivial, ?_, fun c _ h => ?_, fun c _ h => ?_⟩
  · have := least_pos
    rw [value_zero, sub_self, abs_zero]
    linarith
  · rwa [value_zero]
  · rwa [value_zero]

theorem Rounds.neg {z : Rat} {u : UnpackedFloat} (h : Rounds z u) : Rounds (-z) u.neg := by
  refine ⟨?_, ?_, fun c hc hle => ?_, fun c hc hle => ?_⟩
  · have hnormal := h.normal
    cases u <;> exact hnormal
  · rw [value_neg, abs_neg, neg_sub_neg, abs_sub_comm]
    exact h.error
  · rw [value_neg]
    exact le_neg_of_le_neg (h.value_le (-c) hc.neg (le_neg_of_le_neg hle))
  · rw [value_neg]
    exact neg_le_of_neg_le (h.le_value (-c) hc.neg (neg_le_of_neg_le hle))

theorem roundWithAccuracy_negative (m : Nat) (e : Int) (acc : Accuracy) :
    roundWithAccuracy .binary64 .negative m e acc =
      (roundWithAccuracy .binary64 .positive m e acc).neg := by
  unfold roundWithAccuracy
  dsimp only
  split <;> rfl

theorem rounds_roundWithAccuracy (s : Sign) {m : Nat} {e : Int} {acc : Accuracy} {x : Rat}
    (hx : Represents (.ofMantissaAndAccuracy m acc) x) (hbits : 2 ^ 52 ≤ m ∨ e ≤ -1074) :
    Rounds (factor s * (x * 2 ^ e)) (roundWithAccuracy .binary64 s m e acc) := by
  have hpositive := rounds_roundWithAccuracy_positive hx hbits
  cases s with
  | positive => rwa [factor_positive, one_mul]
  | negative =>
    rw [roundWithAccuracy_negative, factor_negative, neg_one_mul]
    exact hpositive.neg

/-- A whole significand is brought to at least 53 bits before it is rounded, unless the exponent is
the least one. -/
theorem rounds_round (s : Sign) {m : Nat} (hm : 0 < m) (e : Int) :
    Rounds (factor s * (m * 2 ^ e)) (round .binary64 s m e) := by
  have hlog := Nat.log2_self_le hm.ne'
  unfold UnpackedFloat.round decreaseExponent
  dsimp only
  rw [targetExponent_eq, totalExponent]
  generalize hshift : (e - max (m.log2 + 1 + e - 53) (-1074)).toNat = shift
  have hvalue : (m : Rat) * 2 ^ e = ((m <<< shift : Nat) : Rat) * 2 ^ (e - shift) := by
    rw [Nat.shiftLeft_eq, zpow_sub₀ two_ne_zero, zpow_natCast]
    push_cast
    field_simp
  rw [hvalue]
  refine rounds_roundWithAccuracy s rfl ?_
  by_cases hleast : e - shift ≤ -1074
  · exact .inr hleast
  · left
    calc 2 ^ 52 ≤ 2 ^ (m.log2 + shift) := Nat.pow_le_pow_right (by decide) (by omega)
      _ ≤ m <<< shift := by
        rw [Nat.shiftLeft_eq, Nat.pow_add]
        exact Nat.mul_le_mul_right _ hlog

theorem rounds_normalize (n : Int) (e : Int) (z : Sign) :
    Rounds (n * 2 ^ e) (normalize .binary64 n e z) := by
  unfold UnpackedFloat.normalize
  split
  · rename_i hlt
    have hneg : n < 0 := Int.compare_eq_lt.1 hlt
    have hcast : (((-n).toNat : Nat) : Rat) = -n := by
      exact_mod_cast Int.toNat_of_nonneg (by omega)
    have h := rounds_round .negative (m := (-n).toNat) (by omega) e
    rwa [hcast, factor_negative, neg_one_mul, neg_mul, neg_neg] at h
  · rename_i heq
    rw [Int.compare_eq_eq.1 heq, Int.cast_zero, zero_mul]
    exact rounds_zero z
  · rename_i hgt
    have hpos : 0 < n := Int.compare_eq_gt.1 hgt
    have hcast : ((n.toNat : Nat) : Rat) = n := by
      exact_mod_cast Int.toNat_of_nonneg (by omega)
    have h := rounds_round .positive (m := n.toNat) (by omega) e
    rwa [hcast, factor_positive, one_mul] at h

/-! ## Operations -/

theorem value_eq_shift (s : Sign) {m : Nat} (hm : 0 < m) {c e : Int} (hc : -1074 ≤ c)
    (hce : c ≤ e) :
    value (.finite s m e hm) = (s.apply (decreaseExponent m e c).1 : Int) * 2 ^ c := by
  have hleast : ((2 : Rat) ^ (c + 1074).toNat) * least = 2 ^ c := by
    have h := magnitude_mul_least (m := 1) hc
    rwa [magnitude, Nat.one_mul, Nat.cast_pow, Nat.cast_ofNat, Nat.cast_one, one_mul] at h
  rw [value, units_eq_shift s hm hc hce, ← hleast]
  push_cast
  ring

/-- A number that is kept as it is. -/
theorem rounds_value {u : UnpackedFloat} (h : Normal u) : Rounds (value u) u := by
  refine ⟨h, ?_, fun c _ hle => hle, fun c _ hle => hle⟩
  have := least_pos
  rw [sub_self, abs_zero]
  positivity

theorem Canonical.normal {u : UnpackedFloat} (h : Canonical u) (hfin : u.isFinite = true) :
    Normal u := by
  rcases u with s | _ | s | ⟨s, m, e, hm⟩
  · exact absurd hfin nofun
  · exact absurd hfin nofun
  · trivial
  · exact ⟨h.1, h.2.1, h.2.2.2⟩

theorem rounds_add {u v : UnpackedFloat} (hu : Normal u) (hv : Normal v) :
    Rounds (value u + value v) (add .binary64 u v) := by
  rcases u with s | _ | s | ⟨s, m, e, hm⟩ <;> rcases v with t | _ | t | ⟨t, m', e', hm'⟩
  case finite.finite =>
    have hc : -1074 ≤ min e e' := le_min hu.2.1 hv.2.1
    rw [value_eq_shift s hm hc (min_le_left _ _), value_eq_shift t hm' hc (min_le_right _ _),
      ← add_mul, ← Int.cast_add]
    exact rounds_normalize _ _ _
  case zero.zero =>
    rw [value_zero, value_zero, add_zero]
    cases s <;> cases t <;> exact rounds_zero _
  case zero.finite =>
    rw [value_zero, zero_add]
    exact rounds_value hv
  case finite.zero =>
    rw [value_zero, add_zero]
    exact rounds_value hu
  all_goals first | exact hu.elim | exact hv.elim

theorem rounds_sub {u v : UnpackedFloat} (hu : Normal u) (hv : Normal v) :
    Rounds (value u - value v) (sub .binary64 u v) := by
  have hneg : Normal v.neg := by cases v <;> exact hv
  have hsum : value u - value v = value u + value v.neg := by
    rw [value_neg]
    ring
  rw [hsum, sub_eq_add_neg]
  exact rounds_add hu hneg

theorem factor_mul (s t : Sign) : factor (s * t) = factor s * factor t := by
  cases s <;> cases t <;> decide +kernel

theorem factor_div (s t : Sign) : factor (s / t) = factor s / factor t := by
  cases s <;> cases t <;> decide +kernel

theorem factor_neg (s : Sign) : factor (-s) = -factor s := by
  cases s <;> decide +kernel

theorem factor_ne_zero (s : Sign) : factor s ≠ 0 := by
  cases s <;> decide

/-- Two significands make a product of enough bits, unless the exponent is small. -/
theorem full_mul {m m' : Nat} {e e' : Int} (hm : 0 < m) (hm' : 0 < m')
    (hfull : 2 ^ 52 ≤ m ∨ e = -1074) (hfull' : 2 ^ 52 ≤ m' ∨ e' = -1074) :
    2 ^ 52 ≤ m * m' ∨ e + e' ≤ -1074 := by
  rcases hfull with hfull | hleast
  · exact .inl (hfull.trans (Nat.le_mul_of_pos_right m hm'))
  · rcases hfull' with hfull' | hleast'
    · exact .inl (hfull'.trans (Nat.le_mul_of_pos_left m' hm))
    · exact .inr (by omega)

theorem rounds_mul {u v : UnpackedFloat} (hu : Normal u) (hv : Normal v) :
    Rounds (value u * value v) (mul .binary64 u v) := by
  rcases u with s | _ | s | ⟨s, m, e, hm⟩ <;> rcases v with t | _ | t | ⟨t, m', e', hm'⟩
  case finite.finite =>
    have hproduct : value (.finite s m e hm) * value (.finite t m' e' hm') =
        factor (s * t) * ((m * m' : Nat) * 2 ^ (e + e')) := by
      rw [value_finite s hm hu.2.1, value_finite t hm' hv.2.1, factor_mul,
        zpow_add₀ two_ne_zero]
      push_cast
      ring
    rw [hproduct]
    exact rounds_roundWithAccuracy _ rfl (full_mul hm hm' hu.2.2 hv.2.2)
  case zero.zero =>
    rw [value_zero, zero_mul]
    exact rounds_zero _
  case zero.finite =>
    rw [value_zero, zero_mul]
    exact rounds_zero _
  case finite.zero =>
    rw [value_zero, mul_zero]
    exact rounds_zero _
  all_goals first | exact hu.elim | exact hv.elim

/-- A quotient of whole numbers is known as far as its rounding needs it. -/
theorem represents_div (n : Nat) {d : Nat} (hd : 0 < d) :
    Represents (.ofMantissaAndAccuracy (n / d) (accuracyOfFraction (n % d) d)) (n / d) := by
  have hd' : (0 : Rat) < d := by exact_mod_cast hd
  have hsplit : (n : Rat) / d = (n / d : Nat) + (n % d : Nat) / d := by
    have hdivision : (d : Rat) * (n / d : Nat) + (n % d : Nat) = n := by
      exact_mod_cast Nat.div_add_mod n d
    rw [eq_comm, ← mul_div_cancel_left₀ ((n / d : Nat) : Rat) hd'.ne', ← add_div, hdivision]
  have hlt : ((n % d : Nat) : Rat) / d < 1 := by
    rw [div_lt_one hd']
    exact_mod_cast Nat.mod_lt n hd
  rw [hsplit]
  generalize n % d = r at hlt ⊢
  unfold accuracyOfFraction
  split_ifs with hr
  · rw [hr, Nat.cast_zero, zero_div, add_zero]
    rfl
  · have hpos : (0 : Rat) < r / d := div_pos (by exact_mod_cast Nat.pos_of_ne_zero hr) hd'
    rcases lt_trichotomy (2 * r) d with hless | hhalf | hmore
    · have hless' : (r : Rat) / d < 1 / 2 := by
        rw [div_lt_iff₀ hd']
        have : (2 : Rat) * r < d := by exact_mod_cast hless
        linarith
      rw [Nat.compare_eq_lt.2 hless]
      exact ⟨lt_add_of_pos_right _ hpos, (add_lt_add_iff_left _).2 hless'⟩
    · have hhalf' : (r : Rat) / d = 1 / 2 := by
        rw [div_eq_iff hd'.ne']
        have : (2 : Rat) * r = d := by exact_mod_cast hhalf
        linarith
      rw [Nat.compare_eq_eq.2 hhalf, hhalf']
      rfl
    · have hmore' : 1 / 2 < (r : Rat) / d := by
        rw [lt_div_iff₀ hd']
        have : (d : Rat) < 2 * r := by exact_mod_cast hmore
        linarith
      rw [Nat.compare_eq_gt.2 hmore]
      exact ⟨(add_lt_add_iff_left _).2 hmore', (add_lt_add_iff_left _).2 hlt⟩

theorem rounds_div {u v : UnpackedFloat} (hu : Normal u) (hv : Normal v) (hne : value v ≠ 0) :
    Rounds (value u / value v) (div .binary64 u v) := by
  rcases v with t | _ | t | ⟨t, m', e', hm'⟩
  · exact hv.elim
  · exact hv.elim
  · exact absurd (value_zero t) hne
  rcases u with s | _ | s | ⟨s, m, e, hm⟩
  · exact hu.elim
  · exact hu.elim
  · rw [value_zero, zero_div]
    exact rounds_zero _
  · have hlog := Nat.log2_self_le hm.ne'
    have hlog' : m' < 2 ^ (m'.log2 + 1) := Nat.lt_log2_self
    unfold UnpackedFloat.div divCore
    dsimp only
    rw [targetExponent_eq, totalExponent, totalExponent]
    generalize htarget : min (e - e') _ = target
    generalize hshift : (e - e' - target).toNat = shift
    have hvalue : value (.finite s m e hm) / value (.finite t m' e' hm') =
        factor (s / t) * (((m <<< shift : Nat) : Rat) / m' * 2 ^ target) := by
      have hexp : (2 : Rat) ^ e = 2 ^ shift * 2 ^ target * 2 ^ e' := by
        rw [← zpow_natCast, ← zpow_add₀ two_ne_zero, ← zpow_add₀ two_ne_zero]
        congr 1
        omega
      have hm'' : (m' : Rat) ≠ 0 := by exact_mod_cast hm'.ne'
      have hpow : (2 : Rat) ^ e' ≠ 0 := zpow_ne_zero e' two_ne_zero
      have ht := factor_ne_zero t
      rw [value_finite s hm hu.2.1, value_finite t hm' hv.2.1, factor_div, hexp, Nat.shiftLeft_eq]
      push_cast
      field_simp
    rw [hvalue]
    refine rounds_roundWithAccuracy _ (represents_div _ hm') ?_
    by_cases hleast : target ≤ -1074
    · exact .inr hleast
    · left
      rw [Nat.le_div_iff_mul_le hm', Nat.shiftLeft_eq]
      calc 2 ^ 52 * m' ≤ 2 ^ 52 * 2 ^ (m'.log2 + 1) := Nat.mul_le_mul_left _ hlog'.le
        _ = 2 ^ (53 + m'.log2) := by rw [← Nat.pow_add]; congr 1; omega
        _ ≤ 2 ^ (m.log2 + shift) := Nat.pow_le_pow_right (by decide) (by omega)
        _ ≤ m * 2 ^ shift := by
          rw [Nat.pow_add]
          exact Nat.mul_le_mul_right _ hlog

end CurveSketch.Rounding
