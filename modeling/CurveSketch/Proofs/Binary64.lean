import CurveSketch.Binary64
import CurveSketch.Proofs.Rounding

/-!
# Signs and magnitudes of coordinates

The coarse facts on rounding, said of `Binary64` and its operations. A value that has a sign, or is
within a bound, is no NaN, so an operation on such values is the operation on their floats. Weak
comparisons with zero tell the signs (`zero_le_iff`, `le_zero_iff`), and values within a bound are
finite.
-/

namespace CurveSketch.Binary64

open Float.Model.UnpackedFloat (Sign)

/-- A value that is zero or has the sign `s`. -/
def HasSign (s : Sign) (a : Binary64) : Prop :=
  Rounding.HasSign s a.float.toModel.unpack

/-- A finite value with an exponent up to `k`. -/
def Within (k : Int) (a : Binary64) : Prop :=
  Rounding.Within k a.float.toModel.unpack

theorem isNaN_eq_false_of_isFinite {x : Float} (h : x.isFinite = true) : x.isNaN = false := by
  change x.toModel.unpack.isFinite = true at h
  change x.toModel.unpack.isNaN = false
  generalize x.toModel.unpack = u at h ⊢
  cases u with
  | notANumber => exact absurd h nofun
  | infinity s => rfl
  | zero s => rfl
  | finite s m e hm => rfl

theorem HasSign.isNaN_eq_false {s : Sign} {a : Binary64} (h : HasSign s a) :
    a.float.isNaN = false := by
  change a.float.toModel.unpack.isNaN = false
  unfold HasSign at h
  generalize a.float.toModel.unpack = u at h ⊢
  cases u with
  | notANumber => exact h.elim
  | infinity s => rfl
  | zero s => rfl
  | finite s m e hm => rfl

theorem Within.isFinite {k : Int} {a : Binary64} (h : Within k a) : a.float.isFinite = true :=
  Rounding.Within.isFinite h

theorem within_of_isFinite {a : Binary64} (h : a.float.isFinite = true) : Within 971 a :=
  Rounding.within_unpack h

theorem Within.mono {j k : Int} {a : Binary64} (h : Within j a) (hjk : j ≤ k) : Within k a :=
  Rounding.Within.mono h hjk

/-- A finite value has one sign or the other. -/
theorem hasSign_or {a : Binary64} (h : a.float.isFinite = true) :
    HasSign .positive a ∨ HasSign .negative a :=
  Rounding.hasSign_or_of_isFinite h

/-! ## Comparison -/

theorem le_iff {a b : Binary64} :
    a ≤ b ↔ a.float.toModel.unpack.le b.float.toModel.unpack = true :=
  decide_eq_true_iff

theorem unpack_zero : (0 : Binary64).float.toModel.unpack = .zero .positive :=
  rfl

theorem zero_le_iff {a : Binary64} : 0 ≤ a ↔ HasSign .positive a := by
  rw [le_iff, unpack_zero, Rounding.zero_le_iff]
  rfl

theorem le_zero_iff {a : Binary64} : a ≤ 0 ↔ HasSign .negative a := by
  rw [le_iff, unpack_zero, Rounding.le_zero_iff]
  rfl

theorem unpack_one :
    (1 : Binary64).float.toModel.unpack = .finite .positive (2 ^ 52) (-52) (by decide) :=
  rfl

/-- The parameters of a straight piece are at most one. -/
theorem within_of_unit {t : Binary64} (hlow : 0 ≤ t) (hhigh : t ≤ 1) : Within (-52) t := by
  rw [le_iff, unpack_one] at hhigh
  rw [zero_le_iff] at hlow
  exact Rounding.within_of_le (Rounding.negative_le_of_hasSign hlow _ _ _) hhigh

/-! ## Operations -/

/-- An operation on two numbers is the operation on their floats. -/
theorem float_lift {op : Float → Float → Float} {a b : Binary64} (ha : a.float.isNaN = false)
    (hb : b.float.isNaN = false) : (lift op a b).float = op a.float b.float := by
  rw [lift_of_numbers ha hb]
  rfl

theorem HasSign.add {s : Sign} {a b : Binary64} (ha : HasSign s a) (hb : HasSign s b) :
    HasSign s (a + b) := by
  change HasSign s (lift (· + ·) a b)
  rw [HasSign, float_lift ha.isNaN_eq_false hb.isNaN_eq_false]
  exact (Rounding.hasSign_add ha hb).unpack_pack

theorem HasSign.sub {s : Sign} {a b : Binary64} (ha : HasSign s a) (hb : HasSign (-s) b) :
    HasSign s (a - b) := by
  change HasSign s (lift (· - ·) a b)
  rw [HasSign, float_lift ha.isNaN_eq_false hb.isNaN_eq_false]
  exact (Rounding.hasSign_sub ha hb).unpack_pack

theorem HasSign.mul {s t : Sign} {a b : Binary64} (ha : HasSign s a) (hb : HasSign t b)
    (hafin : a.float.isFinite = true) (hbfin : b.float.isFinite = true) :
    HasSign (s * t) (a * b) := by
  change HasSign (s * t) (lift (· * ·) a b)
  rw [HasSign, float_lift ha.isNaN_eq_false hb.isNaN_eq_false]
  exact (Rounding.hasSign_mul ha hb hafin hbfin).unpack_pack

theorem Within.isNaN_eq_false {k : Int} {a : Binary64} (h : Within k a) :
    a.float.isNaN = false :=
  isNaN_eq_false_of_isFinite h.isFinite

theorem Within.add {j K : Int} {a b : Binary64} (ha : Within j a) (hb : Within j b)
    (hK : j + 2 ≤ K) (hmin : -1073 ≤ K) (hmax : K ≤ 971) : Within K (a + b) := by
  change Within K (lift (· + ·) a b)
  rw [Within, float_lift ha.isNaN_eq_false hb.isNaN_eq_false]
  exact (Rounding.within_add ha hb hK hmin).unpack_pack (by omega) hmax

theorem Within.sub {j K : Int} {a b : Binary64} (ha : Within j a) (hb : Within j b)
    (hK : j + 2 ≤ K) (hmin : -1073 ≤ K) (hmax : K ≤ 971) : Within K (a - b) := by
  change Within K (lift (· - ·) a b)
  rw [Within, float_lift ha.isNaN_eq_false hb.isNaN_eq_false]
  exact (Rounding.within_sub ha hb hK hmin).unpack_pack (by omega) hmax

/-- A divisor that is positive and not zero keeps the sign. -/
theorem HasSign.div {s : Sign} {a b : Binary64} (ha : HasSign s a) {m : Nat} {e : Int}
    {hm : 0 < m} (hb : b.float.toModel.unpack = .finite .positive m e hm) :
    HasSign s (a / b) := by
  have hbsign : HasSign .positive b := by
    rw [HasSign, hb]
    rfl
  have hquotient := Rounding.hasSign_div ha m e hm
  rw [← hb] at hquotient
  change HasSign s (lift (· / ·) a b)
  rw [HasSign, float_lift ha.isNaN_eq_false hbsign.isNaN_eq_false]
  exact hquotient.unpack_pack

/-- The product of a zero with any number has both signs. -/
theorem hasSign_zero_mul {a b : Binary64} (ha : ∀ s, HasSign s a) {t : Sign} (hb : HasSign t b)
    (hafin : a.float.isFinite = true) (hbfin : b.float.isFinite = true) (s : Sign) :
    HasSign s (a * b) := by
  have hsign : s * t * t = s := by cases s <;> cases t <;> rfl
  have h := (ha (s * t)).mul hb hafin hbfin
  rwa [hsign] at h

theorem Within.sub_zero {k : Int} {a : Binary64} (h : Within k a) (hmin : -1074 ≤ k)
    (hmax : k ≤ 971) : Within k (a - 0) := by
  have hdifference := Rounding.Within.sub_zero h
  change Within k (lift (· - ·) a 0)
  rw [Within, float_lift h.isNaN_eq_false rfl]
  exact hdifference.unpack_pack hmin hmax

theorem Within.mul {j k K : Int} {a b : Binary64} (ha : Within j a) (hb : Within k b)
    (hK : j + k + 54 ≤ K) (hmin : -1073 ≤ K) (hmax : K ≤ 971) : Within K (a * b) := by
  change Within K (lift (· * ·) a b)
  rw [Within, float_lift ha.isNaN_eq_false hb.isNaN_eq_false]
  exact (Rounding.within_mul ha hb hK hmin).unpack_pack (by omega) hmax

end CurveSketch.Binary64
