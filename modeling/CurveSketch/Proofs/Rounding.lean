import Mathlib

/-!
# Signs and magnitudes of rounded numbers

Two coarse facts on binary64 arithmetic that hold whatever is rounded and wherever it underflows.
A number `HasSign` `s` if it is a zero or carries the sign `s` : sums of numbers of one sign and
products have the sign that the exact result has. A number is `Within` `k` if it is finite and less
than `2 ^ (53 + k)` by its exponent : sums and products of numbers that are far enough from the
greatest one do not overflow. Both are shown of the operations before packing, and kept by packing
a result into its 64 bits.
-/

namespace CurveSketch.Rounding

open Float.Model Float.Model.UnpackedFloat

/-! ## The two properties -/

/-- A number that is zero or has the sign `s`. -/
def HasSign (s : Sign) : UnpackedFloat → Prop
  | .infinity t => t = s
  | .notANumber => False
  | .zero _ => True
  | .finite t _ _ _ => t = s

/-- A finite number with a significand of at most 53 bits and an exponent up to `k`. -/
def Within (k : Int) : UnpackedFloat → Prop
  | .infinity _ => False
  | .notANumber => False
  | .zero _ => True
  | .finite _ m e _ => m < 2 ^ 53 ∧ e ≤ k

theorem Within.mono {j k : Int} {u : UnpackedFloat} (h : Within j u) (hjk : j ≤ k) :
    Within k u := by
  cases u with
  | infinity s => exact h
  | notANumber => exact h
  | zero s => trivial
  | finite s m e hm => exact ⟨h.1, h.2.trans hjk⟩

theorem Within.isFinite {k : Int} {u : UnpackedFloat} (h : Within k u) : u.isFinite = true := by
  cases u with
  | infinity s => exact h.elim
  | notANumber => exact h.elim
  | zero s => rfl
  | finite s m e hm => rfl

theorem hasSign_or_of_isFinite {u : UnpackedFloat} (h : u.isFinite = true) :
    HasSign .positive u ∨ HasSign .negative u := by
  rcases u with s | _ | s | ⟨_ | _, m, e, hm⟩
  · exact absurd h nofun
  · exact absurd h nofun
  · exact .inl trivial
  · exact .inr rfl
  · exact .inl rfl

/-! ## Rounding -/

theorem hasSign_roundWithAccuracy (s : Sign) (m : Nat) (e : Int) (acc : Accuracy) :
    HasSign s (roundWithAccuracy .binary64 s m e acc) := by
  unfold roundWithAccuracy
  dsimp only
  split
  · trivial
  · rfl

theorem mantissa_shiftRight (em : ExtendedMantissa) (n : Nat) :
    (em >>> n).mantissa = em.mantissa / 2 ^ n := by
  change (n.repeat ExtendedMantissa.shiftRightOne em).mantissa = em.mantissa / 2 ^ n
  induction n with
  | zero => simp [Nat.repeat]
  | succ n ih =>
    rw [Nat.repeat, ExtendedMantissa.shiftRightOne, ih, Nat.div_div_eq_div_mul, Nat.pow_succ]

theorem mantissa_ofMantissaAndAccuracy (m : Nat) (acc : Accuracy) :
    (ExtendedMantissa.ofMantissaAndAccuracy m acc).mantissa = m := by
  rcases acc with _ | _ | _ | _ <;> rfl

theorem roundedMantissa_le (em : ExtendedMantissa) : em.roundedMantissa ≤ em.mantissa + 1 := by
  obtain ⟨m, round, sticky⟩ := em
  cases round <;> cases sticky <;>
    simp [ExtendedMantissa.roundedMantissa, ExtendedMantissa.accuracy,
      Accuracy.roundToNearestEven]
  omega

theorem targetExponent_eq (t : Int) :
    Format.binary64.targetExponent t = max (t - 53) (-1074) :=
  rfl

theorem shiftToTargetExponent_fst (m : Nat) (e : Int) (acc : Accuracy) :
    (shiftToTargetExponent .binary64 m e acc).1.mantissa =
      m / 2 ^ (max (m.log2 + 1 + e - 53) (-1074) - e).toNat := by
  rw [shiftToTargetExponent, shiftToExponent, mantissa_shiftRight, mantissa_ofMantissaAndAccuracy,
    targetExponent_eq, totalExponent]

theorem shiftToTargetExponent_snd (m : Nat) (e : Int) (acc : Accuracy) :
    (shiftToTargetExponent .binary64 m e acc).2 =
      e + ((max (m.log2 + 1 + e - 53) (-1074) - e).toNat : Int) := by
  rw [shiftToTargetExponent, shiftToExponent, targetExponent_eq, totalExponent]

/-- The first shift leaves at most 53 bits. -/
theorem div_lt_of_shift (m : Nat) {k : Nat} (h : m.log2 + 1 ≤ 53 + k) : m / 2 ^ k < 2 ^ 53 := by
  rw [Nat.div_lt_iff_lt_mul (Nat.two_pow_pos k), ← Nat.pow_add]
  exact (Nat.lt_log2_self).trans_le (Nat.pow_le_pow_right (by decide) h)

theorem log2_le_of_lt {m n : Nat} (hn : 1 ≤ n) (h : m < 2 ^ n) : m.log2 + 1 ≤ n := by
  rcases Nat.eq_zero_or_pos m with rfl | hm
  · simpa using hn
  · exact (Nat.log2_lt hm.ne').2 h

/-- A number of `n` bits is rounded to 53 bits. The exponent is raised by what is cut off, and once
more if the significand is rounded up to the next power of two. -/
theorem within_roundWithAccuracy {s : Sign} {m n : Nat} {e K : Int} {acc : Accuracy}
    (hn : 1 ≤ n) (hm : m < 2 ^ n) (he : e + 1 ≤ K) (htop : n + e - 52 ≤ K) (hmin : -1073 ≤ K) :
    Within K (roundWithAccuracy .binary64 s m e acc) := by
  have hlog := log2_le_of_lt hn hm
  unfold roundWithAccuracy
  dsimp only
  generalize hfirst : shiftToTargetExponent .binary64 m e acc = first
  have hmant := shiftToTargetExponent_fst m e acc
  have hexp := shiftToTargetExponent_snd m e acc
  rw [hfirst] at hmant hexp
  have hsmall : first.1.mantissa < 2 ^ 53 := by
    rw [hmant]
    exact div_lt_of_shift m (by omega)
  have hround : first.1.roundedMantissa ≤ 2 ^ 53 := (roundedMantissa_le _).trans hsmall
  have hlogRound : first.1.roundedMantissa.log2 + 1 ≤ 54 :=
    log2_le_of_lt (by decide) (hround.trans_lt (by decide))
  have hmant₂ := shiftToTargetExponent_fst first.1.roundedMantissa first.2 .exact
  have hexp₂ := shiftToTargetExponent_snd first.1.roundedMantissa first.2 .exact
  split
  · trivial
  · refine ⟨?_, ?_⟩
    · rw [hmant₂]
      exact div_lt_of_shift _ (by omega)
    · rw [hexp₂]
      omega

/-! ## Products and quotients -/

theorem hasSign_mul {s t : Sign} {a b : UnpackedFloat} (ha : HasSign s a) (hb : HasSign t b)
    (hafin : a.isFinite = true) (hbfin : b.isFinite = true) :
    HasSign (s * t) (mul .binary64 a b) := by
  rcases a with _ | _ | _ | ⟨s', m, e, hm⟩
  · exact absurd hafin nofun
  · exact absurd hafin nofun
  · rcases b with _ | _ | _ | _
    · exact absurd hbfin nofun
    · exact absurd hbfin nofun
    · trivial
    · trivial
  · rcases b with _ | _ | _ | ⟨t', m', e', hm'⟩
    · exact absurd hbfin nofun
    · exact absurd hbfin nofun
    · trivial
    · obtain rfl : s' = s := ha
      obtain rfl : t' = t := hb
      exact hasSign_roundWithAccuracy _ _ _ _

/-- A product whose exact significand has `n` bits. -/
theorem within_mul_finite {s t : Sign} {m m' n : Nat} {e e' K : Int} {hm : 0 < m} {hm' : 0 < m'}
    (hn : 1 ≤ n) (hbits : m * m' < 2 ^ n) (he : e + e' + 1 ≤ K) (htop : n + (e + e') - 52 ≤ K)
    (hmin : -1073 ≤ K) : Within K (mul .binary64 (.finite s m e hm) (.finite t m' e' hm')) :=
  within_roundWithAccuracy hn hbits he htop hmin

theorem within_mul {j k K : Int} {a b : UnpackedFloat} (ha : Within j a) (hb : Within k b)
    (hK : j + k + 54 ≤ K) (hmin : -1073 ≤ K) : Within K (mul .binary64 a b) := by
  rcases a with _ | _ | _ | ⟨s, m, e, hm⟩
  · exact ha.elim
  · exact ha.elim
  · rcases b with _ | _ | _ | _
    · exact hb.elim
    · exact hb.elim
    · trivial
    · trivial
  · rcases b with _ | _ | _ | ⟨t, m', e', hm'⟩
    · exact hb.elim
    · exact hb.elim
    · trivial
    · have hbits : m * m' < 2 ^ 106 :=
        calc m * m' < 2 ^ 53 * 2 ^ 53 := Nat.mul_lt_mul'' ha.1 hb.1
          _ = 2 ^ 106 := rfl
      have he := ha.2
      have he' := hb.2
      exact within_mul_finite (by decide) hbits (by omega) (by omega) hmin

/-- A divisor that is positive and not zero keeps the sign. -/
theorem hasSign_div {s : Sign} {a : UnpackedFloat} (ha : HasSign s a) (m : Nat) (e : Int)
    (hm : 0 < m) : HasSign s (div .binary64 a (.finite .positive m e hm)) := by
  rcases a with t | _ | t | ⟨t, m', e', hm'⟩
  · obtain rfl : t = s := ha
    cases t <;> rfl
  · exact ha
  · trivial
  · obtain rfl : t = s := ha
    have hsign : t / Sign.positive = t := by cases t <;> rfl
    have h : HasSign (t / Sign.positive)
        (div .binary64 (.finite t m' e' hm') (.finite .positive m e hm)) :=
      hasSign_roundWithAccuracy _ _ _ _
    rwa [hsign] at h

/-- A quotient by a number with a full significand. -/
theorem within_div {j K : Int} {a : UnpackedFloat} (ha : Within j a) {m : Nat} {e : Int}
    {hm : 0 < m} (hlow : 2 ^ 52 ≤ m) (hK : j - e - 51 ≤ K) (hmin : -1073 ≤ K) :
    Within K (div .binary64 a (.finite .positive m e hm)) := by
  rcases a with _ | _ | _ | ⟨s, m₁, e₁, hm₁⟩
  · exact ha.elim
  · exact ha.elim
  · trivial
  · have he₁ := ha.2
    have hlog₁ := log2_le_of_lt (by decide) ha.1
    have hlog : 52 ≤ m.log2 := (Nat.le_log2 hm.ne').2 hlow
    unfold UnpackedFloat.div divCore
    dsimp only
    rw [targetExponent_eq, totalExponent, totalExponent]
    generalize htarget : min (e₁ - e) _ = target
    generalize hshift : (e₁ - e - target).toNat = shift
    have hquotient : m₁ <<< shift / m < 2 ^ (shift + 1) := by
      rw [Nat.shiftLeft_eq, Nat.div_lt_iff_lt_mul hm]
      calc m₁ * 2 ^ shift < 2 ^ 53 * 2 ^ shift :=
            Nat.mul_lt_mul_of_pos_right ha.1 (Nat.two_pow_pos shift)
        _ = 2 ^ (shift + 1) * 2 ^ 52 := by rw [Nat.pow_succ]; omega
        _ ≤ 2 ^ (shift + 1) * m := Nat.mul_le_mul_left _ hlow
    exact within_roundWithAccuracy (by omega) hquotient (by omega) (by omega) hmin

/-! ## Sums and differences -/

/-- A sum whose exact significand is not negative. -/
theorem hasSign_normalize_of_nonneg {m : Int} (h : 0 ≤ m) (e : Int) (z : Sign) :
    HasSign .positive (normalize .binary64 m e z) := by
  unfold UnpackedFloat.normalize
  split
  · rename_i hlt
    exact absurd (Int.compare_eq_lt.1 hlt) (by omega)
  · trivial
  · exact hasSign_roundWithAccuracy _ _ _ _

theorem hasSign_normalize_of_nonpos {m : Int} (h : m ≤ 0) (e : Int) (z : Sign) :
    HasSign .negative (normalize .binary64 m e z) := by
  unfold UnpackedFloat.normalize
  split
  · exact hasSign_roundWithAccuracy _ _ _ _
  · trivial
  · rename_i hgt
    exact absurd (Int.compare_eq_gt.1 hgt) (by omega)

theorem hasSign_add {s : Sign} {a b : UnpackedFloat} (ha : HasSign s a) (hb : HasSign s b) :
    HasSign s (add .binary64 a b) := by
  rcases a with s₁ | _ | s₁ | ⟨s₁, m₁, e₁, hm₁⟩ <;> rcases b with s₂ | _ | s₂ | ⟨s₂, m₂, e₂, hm₂⟩
  case finite.finite =>
    obtain rfl : s₁ = s := ha
    obtain rfl : s₂ = s₁ := hb
    cases s₂ with
    | positive =>
      exact hasSign_normalize_of_nonneg
        (Int.add_nonneg (Int.natCast_nonneg _) (Int.natCast_nonneg _)) _ _
    | negative =>
      exact hasSign_normalize_of_nonpos (Int.add_nonpos
        (Int.neg_nonpos_of_nonneg (Int.natCast_nonneg _))
        (Int.neg_nonpos_of_nonneg (Int.natCast_nonneg _))) _ _
  case infinity.infinity =>
    obtain rfl : s₁ = s := ha
    obtain rfl : s₂ = s₁ := hb
    cases s₂ <;> rfl
  case zero.zero => cases s₁ <;> cases s₂ <;> trivial
  all_goals first | exact ha.elim | exact hb.elim | exact ha | exact hb

theorem within_round {s : Sign} {m n : Nat} {e K : Int} (hn : 1 ≤ n) (hm : m < 2 ^ n)
    (htop : n + e - 52 ≤ K) (hmin : -1073 ≤ K) : Within K (round .binary64 s m e) := by
  have hlog := log2_le_of_lt hn hm
  unfold UnpackedFloat.round decreaseExponent
  dsimp only
  rw [targetExponent_eq, totalExponent]
  generalize hshift : (e - max (m.log2 + 1 + e - 53) (-1074)).toNat = shift
  have hbits : m <<< shift < 2 ^ (n + shift) := by
    rw [Nat.shiftLeft_eq, Nat.pow_add]
    exact Nat.mul_lt_mul_of_pos_right hm (Nat.two_pow_pos shift)
  exact within_roundWithAccuracy (by omega) hbits (by omega) (by omega) hmin

theorem within_normalize {m : Int} {n : Nat} {e K : Int} {z : Sign} (hn : 1 ≤ n)
    (hm : m.natAbs < 2 ^ n) (htop : n + e - 52 ≤ K) (hmin : -1073 ≤ K) :
    Within K (normalize .binary64 m e z) := by
  unfold UnpackedFloat.normalize
  split
  · exact within_round hn (by omega) htop hmin
  · trivial
  · exact within_round hn (by omega) htop hmin

theorem natAbs_apply (s : Sign) (m : Nat) : (s.apply m).natAbs = m := by
  cases s <;> simp [Sign.apply]

/-- The significand of a number within `k`, brought to a common smaller exponent. -/
theorem decreaseExponent_lt {m : Nat} {e k c : Int} (hm : m < 2 ^ 53) (he : e ≤ k) :
    (decreaseExponent m e c).1 < 2 ^ (53 + (k - c).toNat) := by
  unfold decreaseExponent
  dsimp only
  rw [Nat.shiftLeft_eq, Nat.pow_add]
  refine (Nat.mul_lt_mul_of_pos_right hm (Nat.two_pow_pos _)).trans_le ?_
  exact Nat.mul_le_mul_left _ (Nat.pow_le_pow_right (by decide) (by omega))

theorem within_add {j K : Int} {a b : UnpackedFloat} (ha : Within j a) (hb : Within j b)
    (hK : j + 2 ≤ K) (hmin : -1073 ≤ K) : Within K (add .binary64 a b) := by
  rcases a with s₁ | _ | s₁ | ⟨s₁, m₁, e₁, hm₁⟩ <;> rcases b with s₂ | _ | s₂ | ⟨s₂, m₂, e₂, hm₂⟩
  case finite.finite =>
    have h₁ := decreaseExponent_lt (c := min e₁ e₂) ha.1 ha.2
    have h₂ := decreaseExponent_lt (c := min e₁ e₂) hb.1 hb.2
    have he₁ := ha.2
    refine within_normalize (n := 54 + (j - min e₁ e₂).toNat) (by omega) ?_ (by omega) hmin
    have hsum := Int.natAbs_add_le (s₁.apply (decreaseExponent m₁ e₁ (min e₁ e₂)).1)
      (s₂.apply (decreaseExponent m₂ e₂ (min e₁ e₂)).1)
    rw [natAbs_apply, natAbs_apply] at hsum
    have hpow : 2 ^ (54 + (j - min e₁ e₂).toNat) = 2 * 2 ^ (53 + (j - min e₁ e₂).toNat) := by
      rw [← Nat.pow_succ', Nat.succ_eq_add_one]
      congr 1
      omega
    refine hsum.trans_lt ?_
    omega
  case zero.zero => cases s₁ <;> cases s₂ <;> trivial
  case zero.finite => exact hb.mono (by omega)
  case finite.zero => exact ha.mono (by omega)
  all_goals first | exact ha.elim | exact hb.elim

/-- A difference is the sum with the number negated. -/
theorem sub_eq_add_neg (a b : UnpackedFloat) : sub .binary64 a b = add .binary64 a b.neg := by
  rcases a with s₁ | _ | s₁ | ⟨s₁, m₁, e₁, hm₁⟩ <;> rcases b with s₂ | _ | s₂ | ⟨s₂, m₂, e₂, hm₂⟩
  case finite.finite =>
    have hneg : ∀ n : Int, (-s₂).apply n = -s₂.apply n := by
      intro n
      cases s₂ with
      | negative => exact (Int.neg_neg n).symm
      | positive => rfl
    simp only [UnpackedFloat.sub, UnpackedFloat.add, UnpackedFloat.neg, hneg, Int.sub_eq_add_neg]
  all_goals rfl

theorem HasSign.neg {s : Sign} {u : UnpackedFloat} (h : HasSign s u) : HasSign (-s) u.neg := by
  rcases u with t | _ | t | ⟨t, m, e, hm⟩
  · exact congrArg _ h
  · exact h
  · trivial
  · exact congrArg _ h

theorem Within.neg {k : Int} {u : UnpackedFloat} (h : Within k u) : Within k u.neg := by
  cases u <;> exact h

theorem hasSign_sub {s : Sign} {a b : UnpackedFloat} (ha : HasSign s a) (hb : HasSign (-s) b) :
    HasSign s (sub .binary64 a b) := by
  have hneg := hb.neg
  rw [sub_eq_add_neg]
  cases s <;> exact hasSign_add ha hneg

/-- Nothing is lost by subtracting zero. -/
theorem Within.sub_zero {k : Int} {a : UnpackedFloat} (h : Within k a) :
    Within k (sub .binary64 a (.zero .positive)) := by
  cases a with
  | infinity s => exact h
  | notANumber => exact h
  | zero s => cases s <;> trivial
  | finite s m e hm => exact h

theorem within_sub {j K : Int} {a b : UnpackedFloat} (ha : Within j a) (hb : Within j b)
    (hK : j + 2 ≤ K) (hmin : -1073 ≤ K) : Within K (sub .binary64 a b) := by
  rw [sub_eq_add_neg]
  exact within_add ha hb.neg hK hmin

/-! ## Packing -/

theorem ofBitVec_unpackSign (s : Sign) (ev : BitVec 11) (mv : BitVec 52) :
    Sign.ofBitVec (unpackSign (packComponents .binary64 s ev mv)) = s := by
  simp only [unpackSign, packComponents, BitVec.extractLsb]
  rw [BitVec.extractLsb'_append_eq_of_le (by omega),
    BitVec.extractLsb'_append_eq_of_le (by omega)]
  cases s <;> rfl

/-- The exponent as it stands in 64 bits. -/
theorem biasedExponent_eq (e : Int) : e + ((Format.binary64.exponentBias : Nat) : Int) +
    ((Format.binary64.mantissaBitsWithoutImplicit : Nat) : Int) = e + 1075 := by
  have hbias : ((Format.binary64.exponentBias : Nat) : Int) = 1023 := rfl
  have hwidth : ((Format.binary64.mantissaBitsWithoutImplicit : Nat) : Int) = 52 := rfl
  omega

/-- The number in 64 bits that are not those of an infinity or a NaN. -/
theorem unpack_of_exponent_ne {b : BitVec Format.binary64.numBits}
    (hev : unpackExponent b ≠ -1#11) :
    UnpackedFloat.unpack .binary64 b = .zero (Sign.ofBitVec (unpackSign b)) ∨
      ∃ m e h, UnpackedFloat.unpack .binary64 b = .finite (Sign.ofBitVec (unpackSign b)) m e h ∧
        m < 2 ^ 53 ∧ e ≤ max (((unpackExponent b).toNat : Int) - 1075) (-1074) := by
  unfold UnpackedFloat.unpack
  dsimp only
  rw [if_neg hev]
  have hmv : (unpackMantissa b).toNat < 2 ^ 52 := (unpackMantissa b).isLt
  have hbias : ((Format.binary64.exponentBias : Nat) : Int) = 1023 := rfl
  rw [hbias]
  split
  · rename_i hzero
    split
    · exact .inl rfl
    · rename_i hne
      have hpos : 0 < (unpackMantissa b).toNat :=
        Nat.pos_of_ne_zero fun h => hne (BitVec.eq_of_toNat_eq h)
      refine .inr ⟨_, _, hpos, rfl, by omega, ?_⟩
      rw [hzero]
      decide
  · have hpos : 0 < (1#1 ++ unpackMantissa b).toNat := by
      rw [BitVec.toNat_append, ← Nat.shiftLeft_add_eq_or_of_lt (BitVec.isLt _), Nat.shiftLeft_eq]
      exact Nat.add_pos_left (Nat.mul_pos (by decide) (Nat.two_pow_pos _)) _
    refine .inr ⟨_, _, hpos, rfl, (1#1 ++ unpackMantissa b).isLt, ?_⟩
    omega

/-- What becomes of a finite number that is packed : it overflows only if its exponent is too
large. -/
theorem unpack_pack_finite (s : Sign) (m : Nat) (e : Int) (hm : 0 < m) :
    ((Float.Model.pack (.finite s m e hm)).unpack = .infinity s ∧ 971 < e) ∨
      (Float.Model.pack (.finite s m e hm)).unpack = .zero s ∨
      ∃ m' e' h, (Float.Model.pack (.finite s m e hm)).unpack = .finite s m' e' h ∧
        m' < 2 ^ 53 ∧ e' ≤ max e (-1074) := by
  change ((UnpackedFloat.unpack .binary64 (UnpackedFloat.pack .binary64 _)) = _ ∧ _) ∨
    (UnpackedFloat.unpack .binary64 (UnpackedFloat.pack .binary64 _)) = _ ∨
    ∃ m' e' h, (UnpackedFloat.unpack .binary64 (UnpackedFloat.pack .binary64 _)) = _ ∧ _
  unfold UnpackedFloat.pack
  simp only [biasedExponent_eq e]
  split_ifs with hlarge hnormal
  · change 2048 ≤ (e + 1075).toNat + 1 at hlarge
    refine .inl ⟨?_, by omega⟩
    cases s <;> rfl
  · change ¬2048 ≤ (e + 1075).toNat + 1 at hlarge
    have hev : (BitVec.ofNat 11 (e + 1075).toNat).toNat = (e + 1075).toNat := by
      rw [BitVec.toNat_ofNat, Nat.mod_eq_of_lt (by omega)]
    have hne : BitVec.ofNat 11 (e + 1075).toNat ≠ -1#11 := by
      intro h
      have hnat := congrArg BitVec.toNat h
      rw [hev] at hnat
      have hones : (-1#11 : BitVec 11).toNat = 2047 := rfl
      omega
    have h := unpack_of_exponent_ne (b := packComponents .binary64 s
      (BitVec.ofNat 11 (e + 1075).toNat) (BitVec.ofNat 52 m))
      (by rwa [unpackExponent_packComponents])
    rw [unpackExponent_packComponents, ofBitVec_unpackSign] at h
    rcases h with h | ⟨m', e', hm', h, hlt, he⟩
    · exact .inr (.inl h)
    · exact .inr (.inr ⟨m', e', hm', h, hlt, by rw [hev] at he; omega⟩)
  · have h := unpack_of_exponent_ne (b := packComponents .binary64 s 0#11 (BitVec.ofNat 52 m))
      (by rw [unpackExponent_packComponents]; decide)
    rw [unpackExponent_packComponents, ofBitVec_unpackSign] at h
    rcases h with h | ⟨m', e', hm', h, hlt, he⟩
    · exact .inr (.inl h)
    · have hzero : ((0#11 : BitVec 11).toNat : Int) = 0 := rfl
      exact .inr (.inr ⟨m', e', hm', h, hlt, by rw [hzero] at he; omega⟩)

theorem HasSign.unpack_pack {s : Sign} {u : UnpackedFloat} (h : HasSign s u) :
    HasSign s (Float.Model.pack u).unpack := by
  rcases u with t | _ | t | ⟨t, m, e, hm⟩
  · obtain rfl : t = s := h
    cases t <;> rfl
  · exact h.elim
  · cases t <;> trivial
  · obtain rfl : t = s := h
    rcases unpack_pack_finite t m e hm with ⟨h, -⟩ | h | ⟨m', e', hm', h, -⟩
    · rw [h]
      rfl
    · rw [h]
      trivial
    · rw [h]
      rfl

theorem Within.unpack_pack {k : Int} {u : UnpackedFloat} (h : Within k u) (hmin : -1074 ≤ k)
    (hmax : k ≤ 971) : Within k (Float.Model.pack u).unpack := by
  rcases u with t | _ | t | ⟨t, m, e, hm⟩
  · exact h.elim
  · exact h.elim
  · cases t <;> trivial
  · have hek := h.2
    rcases unpack_pack_finite t m e hm with ⟨-, he⟩ | h | ⟨m', e', hm', h, hlt, he⟩
    · omega
    · rw [h]
      trivial
    · rw [h]
      exact ⟨hlt, by omega⟩

/-- A finite number in 64 bits has at most 53 bits of significand, and an exponent that fits. -/
theorem within_unpack {f : Float.Model} (h : f.unpack.isFinite = true) : Within 971 f.unpack := by
  by_cases hev : @unpackExponent .binary64 f.toBits.toBitVec = -1#11
  · exfalso
    revert h
    unfold Float.Model.unpack UnpackedFloat.unpack
    dsimp only
    rw [if_pos hev]
    split <;> exact nofun
  · have hlt : (@unpackExponent .binary64 f.toBits.toBitVec).toNat < 2 ^ 11 :=
      BitVec.isLt _
    have hones : (-1#11 : BitVec 11).toNat = 2047 := rfl
    have hne := mt BitVec.eq_of_toNat_eq hev
    rw [hones] at hne
    rcases unpack_of_exponent_ne hev with h | ⟨m, e, hm, h, hlt, he⟩
    · rw [Float.Model.unpack, h]
      trivial
    · rw [Float.Model.unpack, h]
      exact ⟨hlt, by omega⟩

/-! ## Comparison -/

theorem zero_le_iff (t : Sign) (u : UnpackedFloat) :
    (UnpackedFloat.zero t).le u = true ↔ HasSign .positive u := by
  rcases u with _ | _ | _ | ⟨_, m, e, hm⟩
  case notANumber => exact ⟨nofun, False.elim⟩
  case zero => exact ⟨fun _ => trivial, fun _ => rfl⟩
  all_goals
    rename_i s
    cases s
    · exact ⟨nofun, nofun⟩
    · exact ⟨fun _ => rfl, fun _ => rfl⟩

theorem le_zero_iff (t : Sign) (u : UnpackedFloat) :
    u.le (.zero t) = true ↔ HasSign .negative u := by
  rcases u with _ | _ | _ | ⟨_, m, e, hm⟩
  case notANumber => exact ⟨nofun, False.elim⟩
  case zero => exact ⟨fun _ => trivial, fun _ => rfl⟩
  all_goals
    rename_i s
    cases s
    · exact ⟨fun _ => rfl, fun _ => rfl⟩
    · exact ⟨nofun, nofun⟩

theorem le_of_isLE_then {a b : Int} {o : Ordering}
    (h : ((compare a b).then o).isLE = true) : a ≤ b := by
  by_contra hlt
  rw [Int.compare_eq_gt.2 (by omega)] at h
  exact absurd h nofun

theorem negative_le_of_hasSign {u : UnpackedFloat} (h : HasSign .positive u) (m : Nat) (e : Int)
    (hm : 0 < m) : (UnpackedFloat.finite .negative m e hm).le u = true := by
  rcases u with s | _ | s | ⟨s, m', e', hm'⟩
  · obtain rfl : s = .positive := h
    rfl
  · exact h.elim
  · rfl
  · obtain rfl : s = .positive := h
    rfl

/-- A number between `-c` and `c` has at most the exponent of `c`. -/
theorem within_of_le {c : Nat} {k : Int} {hc : 0 < c} {f : Float.Model}
    (hlow : (UnpackedFloat.finite .negative c k hc).le f.unpack = true)
    (hhigh : f.unpack.le (.finite .positive c k hc) = true) : Within k f.unpack := by
  have hbits := within_unpack (f := f)
  generalize f.unpack = u at hlow hhigh hbits ⊢
  rcases u with s | _ | s | ⟨s, m, e, hm⟩
  · cases s
    · exact absurd hlow nofun
    · exact absurd hhigh nofun
  · exact absurd hlow nofun
  · trivial
  · refine ⟨(hbits rfl).1, ?_⟩
    cases s with
    | positive => exact le_of_isLE_then hhigh
    | negative =>
      by_contra hlt
      have hcompare : compare k e = .lt := Int.compare_eq_lt.2 (by omega)
      simp only [UnpackedFloat.le, UnpackedFloat.compare, hcompare] at hlow
      exact absurd hlow nofun

end CurveSketch.Rounding
