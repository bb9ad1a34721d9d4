import CurveSketch.Proofs.ExactValue

/-!
# The total order of coordinates

Sorting goes by the rank of a coordinate, which is read off its bits, and not by its value, so that
NaN and the two zeros have their places too. Among numbers the ranks follow the values
(`Binary64.units_le_of_rank_le`) : the exponent stands above the significand, so that a greater
pattern of bits, the sign aside, stands for a greater magnitude.
-/

namespace CurveSketch.Rounding

open Float.Model Float.Model.UnpackedFloat

/-! ## The fields of the bits -/

theorem toNat_unpackMantissa (b : BitVec Format.binary64.numBits) :
    (unpackMantissa b).toNat = b.toNat % 2 ^ 52 := by
  unfold unpackMantissa
  rw [BitVec.toNat_cast, BitVec.extractLsb_toNat, Nat.shiftRight_zero]
  rfl

theorem toNat_unpackExponent (b : BitVec Format.binary64.numBits) :
    (unpackExponent b).toNat = b.toNat / 2 ^ 52 % 2 ^ 11 := by
  unfold unpackExponent
  rw [BitVec.toNat_cast, BitVec.extractLsb_toNat, Nat.shiftRight_eq_div_pow]
  rfl

theorem toNat_unpackSign (b : BitVec Format.binary64.numBits) :
    (unpackSign b).toNat = b.toNat / 2 ^ 63 := by
  unfold unpackSign
  rw [BitVec.toNat_cast, BitVec.extractLsb_toNat, Nat.shiftRight_eq_div_pow]
  exact Nat.mod_eq_of_lt (Nat.div_lt_of_lt_mul b.isLt)

/-- The magnitude that the bits below the sign stand for: an exponent above a significand. -/
def bitMagnitude (n : Nat) : Nat :=
  if n / 2 ^ 52 = 0 then n % 2 ^ 52 else (2 ^ 52 + n % 2 ^ 52) * 2 ^ (n / 2 ^ 52 - 1)

theorem bitMagnitude_mono {n n' : Nat} (h : n ≤ n') : bitMagnitude n ≤ bitMagnitude n' := by
  rcases (Nat.div_le_div_right h : n / 2 ^ 52 ≤ n' / 2 ^ 52).eq_or_lt with heq | hlt
  · have hmod : n % 2 ^ 52 ≤ n' % 2 ^ 52 := by omega
    rw [bitMagnitude, bitMagnitude, heq]
    split
    · exact hmod
    · exact Nat.mul_le_mul_right _ (Nat.add_le_add_left hmod _)
  · have hsmall : bitMagnitude n ≤ 2 ^ 52 * 2 ^ (n / 2 ^ 52) := by
      have hmod : n % 2 ^ 52 < 2 ^ 52 := Nat.mod_lt _ (by decide)
      unfold bitMagnitude
      split
      · exact hmod.le.trans (Nat.le_mul_of_pos_right _ (Nat.two_pow_pos _))
      · rename_i hne
        calc (2 ^ 52 + n % 2 ^ 52) * 2 ^ (n / 2 ^ 52 - 1)
            ≤ 2 ^ 52 * 2 * 2 ^ (n / 2 ^ 52 - 1) := Nat.mul_le_mul_right _ (by omega)
          _ = 2 ^ 52 * 2 ^ (n / 2 ^ 52) := by
            rw [Nat.mul_assoc, ← Nat.pow_succ', Nat.succ_eq_add_one,
              Nat.sub_add_cancel (Nat.pos_of_ne_zero hne)]
    calc bitMagnitude n ≤ 2 ^ 52 * 2 ^ (n / 2 ^ 52) := hsmall
      _ ≤ (2 ^ 52 + n' % 2 ^ 52) * 2 ^ (n' / 2 ^ 52 - 1) :=
        Nat.mul_le_mul (Nat.le_add_right _ _) (Nat.pow_le_pow_right (by decide) (by omega))
      _ = bitMagnitude n' := (if_neg (Nat.ne_zero_of_lt hlt)).symm

/-- The fields of a number give its units. -/
theorem units_unpack {b : BitVec Format.binary64.numBits}
    (hnan : (UnpackedFloat.unpack .binary64 b).isNaN = false) {n : Nat}
    (hm : (unpackMantissa b).toNat = n % 2 ^ 52) (he : (unpackExponent b).toNat = n / 2 ^ 52) :
    units (UnpackedFloat.unpack .binary64 b) =
      (Sign.ofBitVec (unpackSign b)).apply (bitMagnitude n) := by
  have hzero : ∀ s : Sign, s.apply 0 = 0 := fun s => by cases s <;> rfl
  have hbias : ((Format.binary64.exponentBias : Nat) : Int) = 1023 := rfl
  unfold UnpackedFloat.unpack at hnan ⊢
  dsimp only at hnan ⊢
  split_ifs at hnan ⊢ with hones hinfinity hsub hnone
  · have he' : n / 2 ^ 52 = 2047 := he.symm.trans (congrArg BitVec.toNat hones)
    have hm' : n % 2 ^ 52 = 0 := hm.symm.trans (congrArg BitVec.toNat hinfinity)
    have hexp : ((972 : Int) + 1074).toNat = 2047 - 1 := rfl
    rw [units, magnitude_infinity, bitMagnitude, he', hm', if_neg (by decide), magnitude, hexp,
      Nat.add_zero (2 ^ 52)]
  · exact absurd hnan (by decide)
  · have he' : n / 2 ^ 52 = 0 := he.symm.trans (congrArg BitVec.toNat hsub)
    have hm' : n % 2 ^ 52 = 0 := hm.symm.trans (congrArg BitVec.toNat hnone)
    rw [bitMagnitude, he', hm']
    exact (hzero _).symm
  · have he' : n / 2 ^ 52 = 0 := he.symm.trans (congrArg BitVec.toNat hsub)
    rw [units, bitMagnitude, he, he', hm, magnitude, if_pos rfl]
    simp [hbias]
  · have hlater : n / 2 ^ 52 ≠ 0 := fun h => hsub (BitVec.eq_of_toNat_eq (he.trans h))
    have hfull : (1#1 ++ unpackMantissa b).toNat = 2 ^ 52 + n % 2 ^ 52 := by
      rw [BitVec.toNat_append, ← Nat.shiftLeft_add_eq_or_of_lt (BitVec.isLt _), Nat.shiftLeft_eq,
        hm]
      rfl
    rw [units, bitMagnitude, if_neg hlater, magnitude, hfull, he]
    congr 4
    omega

end CurveSketch.Rounding

namespace CurveSketch.Binary64

open Float.Model Float.Model.UnpackedFloat

/-- The rank of a number and its units, from the bits below its sign. -/
theorem exists_rank_eq {a : Binary64} (ha : a.float.isNaN = false) :
    ∃ n : Nat, (a.rank = n ∧ a.units = Rounding.bitMagnitude n) ∨
      (a.rank = -(n : Int) - 1 ∧ a.units = -(Rounding.bitMagnitude n : Int)) := by
  obtain ⟨b, hb⟩ : ∃ b : BitVec Format.binary64.numBits, a.float.toModel.toBits.toBitVec = b :=
    ⟨_, rfl⟩
  have hbits : a.float.toBits.toNat = b.toNat := congrArg BitVec.toNat hb
  have hunits : a.units = Rounding.units (UnpackedFloat.unpack .binary64 b) :=
    congrArg (fun b => Rounding.units (UnpackedFloat.unpack .binary64 b)) hb
  have hnan : (UnpackedFloat.unpack .binary64 b).isNaN = false := by
    rw [← hb]
    exact ha
  have hlt : b.toNat < 2 ^ 64 := b.isLt
  have hsign := Rounding.toNat_unpackSign b
  have hmantissa := Rounding.toNat_unpackMantissa b
  have hexponent := Rounding.toNat_unpackExponent b
  have hrank : a.rank = if b.toNat < 0x8000000000000000 then (b.toNat : Int)
      else -((b.toNat - 0x8000000000000000 : Nat) : Int) - 1 := by
    simp only [rank, ha, hbits, Bool.false_eq_true, if_false]
  rw [hrank, hunits]
  by_cases hpositive : b.toNat < 0x8000000000000000
  · have hbit : unpackSign b = 0#1 :=
      BitVec.eq_of_toNat_eq (hsign.trans (by change _ = 0; omega))
    refine ⟨b.toNat, .inl ⟨if_pos hpositive, ?_⟩⟩
    rw [Rounding.units_unpack hnan hmantissa (hexponent.trans (by omega)), hbit]
    rfl
  · have hbit : unpackSign b = 1#1 :=
      BitVec.eq_of_toNat_eq (hsign.trans (by change _ = 1; omega))
    refine ⟨b.toNat - 0x8000000000000000, .inr ⟨if_neg hpositive, ?_⟩⟩
    rw [Rounding.units_unpack hnan (n := b.toNat - 0x8000000000000000) (hmantissa.trans (by omega))
      (hexponent.trans (by omega)), hbit]
    rfl

/-- Numbers are sorted by their values. -/
theorem units_le_of_rank_le {a b : Binary64} (ha : a.float.isNaN = false)
    (hb : b.float.isNaN = false) (h : a.rank ≤ b.rank) : a.units ≤ b.units := by
  obtain ⟨n, ⟨hrank, hunits⟩ | ⟨hrank, hunits⟩⟩ := exists_rank_eq ha <;>
    obtain ⟨n', ⟨hrank', hunits'⟩ | ⟨hrank', hunits'⟩⟩ := exists_rank_eq hb
  · have := Rounding.bitMagnitude_mono (by omega : n ≤ n')
    omega
  · omega
  · omega
  · have := Rounding.bitMagnitude_mono (by omega : n' ≤ n)
    omega

end CurveSketch.Binary64
