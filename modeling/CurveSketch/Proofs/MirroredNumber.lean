import CurveSketch.Proofs.Binary64

/-!
# Mirrored numbers

Rounding to the nearest number treats both signs alike. So when the operands of an operation are
replaced by their opposites, or some of them are, the result becomes its opposite or stays what it
is, as it would if nothing were rounded; and a difference taken the other way round is the opposite
one. This holds of all numbers, with infinities, overflow and NaN. What is lost is the sign of a
zero, as `x - y` and `y - x` are both the positive zero when `x` is equal to `y`.

`Mirrors s a b` says that `b` is `a`, or its opposite if `s` is the negative sign, the signs of
zeros aside. Comparisons do not look at the signs of zeros, so mirrored numbers cannot be told apart
but by their signs.
-/

namespace CurveSketch.Rounding

open Float.Model Float.Model.UnpackedFloat

/-! ## Signs -/

theorem sign_mul_assoc (s t u : Sign) : s * t * u = s * (t * u) := by
  cases s <;> cases t <;> cases u <;> rfl

theorem sign_mul_mul_mul_comm (s t u v : Sign) : s * t * (u * v) = s * u * (t * v) := by
  cases s <;> cases t <;> cases u <;> cases v <;> rfl

theorem sign_mul_div_mul_comm (s t u v : Sign) : s * t / (u * v) = s * u * (t / v) := by
  cases s <;> cases t <;> cases u <;> cases v <;> rfl

theorem sign_mul_self_mul (s t : Sign) : s * (s * t) = t := by
  cases s <;> cases t <;> rfl

theorem sign_positive_mul (t : Sign) : Sign.positive * t = t := by
  cases t <;> rfl

theorem sign_negative_mul (t : Sign) : Sign.negative * t = -t := by
  cases t <;> rfl

theorem sign_mul_neg (s t : Sign) : s * -t = -(s * t) := by
  cases s <;> cases t <;> rfl

theorem sign_mul_apply (s t : Sign) (n : Int) : (s * t).apply n = s.apply (t.apply n) := by
  cases s <;> cases t
  · exact (Int.neg_neg n).symm
  · rfl
  · rfl
  · rfl

theorem sign_apply_add (s : Sign) (m n : Int) : s.apply m + s.apply n = s.apply (m + n) := by
  cases s
  · exact Int.neg_add.symm
  · rfl

/-! ## Mirrored numbers -/

/-- The second number is the first, or its opposite if `s` is negative, with any signs for zeros. -/
inductive Mirrors (s : Sign) : UnpackedFloat → UnpackedFloat → Prop
  | infinity {t t' : Sign} (h : t' = s * t) : Mirrors s (.infinity t) (.infinity t')
  | notANumber : Mirrors s .notANumber .notANumber
  | zero (t t' : Sign) : Mirrors s (.zero t) (.zero t')
  | finite {t t' : Sign} (h : t' = s * t) (m : Nat) (e : Int) (hm : 0 < m) :
    Mirrors s (.finite t m e hm) (.finite t' m e hm)

namespace Mirrors

variable {s t : Sign} {u v u' v' w : UnpackedFloat}

theorem refl (u : UnpackedFloat) : Mirrors .positive u u := by
  cases u with
  | infinity t => exact .infinity (sign_positive_mul t).symm
  | notANumber => exact .notANumber
  | zero t => exact .zero t t
  | finite t m e hm => exact .finite (sign_positive_mul t).symm m e hm

theorem symm (h : Mirrors s u v) : Mirrors s v u := by
  cases h with
  | infinity h => exact .infinity (by rw [h, sign_mul_self_mul])
  | notANumber => exact .notANumber
  | zero t t' => exact .zero t' t
  | finite h m e hm => exact .finite (by rw [h, sign_mul_self_mul]) m e hm

theorem trans (h : Mirrors t u v) (h' : Mirrors s v w) : Mirrors (s * t) u w := by
  cases h with
  | infinity h =>
    cases h' with
    | infinity h' => exact .infinity (by rw [h', h, sign_mul_assoc])
  | notANumber =>
    cases h'
    exact .notANumber
  | zero t t' =>
    cases h'
    exact .zero _ _
  | finite h m e hm =>
    cases h' with
    | finite h' => exact .finite (by rw [h', h, sign_mul_assoc]) m e hm

theorem neg_right (u : UnpackedFloat) : Mirrors .negative u u.neg := by
  cases u with
  | infinity t => exact .infinity (sign_negative_mul t).symm
  | notANumber => exact .notANumber
  | zero t => exact .zero _ _
  | finite t m e hm => exact .finite (sign_negative_mul t).symm m e hm

theorem neg (h : Mirrors s u v) : Mirrors s u.neg v.neg := by
  cases h with
  | infinity h => exact .infinity (by rw [h, sign_mul_neg])
  | notANumber => exact .notANumber
  | zero t t' => exact .zero _ _
  | finite h m e hm => exact .finite (by rw [h, sign_mul_neg]) m e hm

end Mirrors

/-! ## Rounding -/

theorem mirrors_roundWithAccuracy {s t t' : Sign} (h : t' = s * t) (m : Nat) (e : Int)
    (acc : Accuracy) : Mirrors s (roundWithAccuracy .binary64 t m e acc)
      (roundWithAccuracy .binary64 t' m e acc) := by
  unfold roundWithAccuracy
  dsimp only
  split
  · exact .zero _ _
  · exact .finite h _ _ _

/-- A sum is rounded by its sign and its magnitude. -/
theorem normalize_neg (m : Int) (e : Int) (z : Sign) :
    Mirrors .negative (normalize .binary64 m e z) (normalize .binary64 (-m) e z) := by
  unfold UnpackedFloat.normalize
  rcases lt_trichotomy m 0 with hlt | rfl | hgt
  · rw [Int.compare_eq_lt.2 hlt, Int.compare_eq_gt.2 (Int.neg_pos_of_neg hlt)]
    exact mirrors_roundWithAccuracy rfl _ _ _
  · exact .zero _ _
  · rw [Int.compare_eq_gt.2 hgt, Int.compare_eq_lt.2 (Int.neg_neg_of_pos hgt), Int.neg_neg]
    exact mirrors_roundWithAccuracy rfl _ _ _

theorem mirrors_normalize (s : Sign) (m : Int) (e : Int) (z : Sign) :
    Mirrors s (normalize .binary64 m e z) (normalize .binary64 (s.apply m) e z) := by
  cases s with
  | positive => exact .refl _
  | negative => exact normalize_neg m e z

/-! ## Operations -/

theorem add_swap (u v : UnpackedFloat) : add .binary64 u v = add .binary64 v u := by
  rcases u with s | _ | s | ⟨s, m, e, hm⟩ <;> rcases v with t | _ | t | ⟨t, m', e', hm'⟩
  case finite.finite =>
    unfold UnpackedFloat.add
    dsimp only
    rw [Int.min_comm, Int.add_comm]
  case infinity.infinity => cases s <;> cases t <;> rfl
  case zero.zero => cases s <;> cases t <;> rfl
  all_goals rfl

namespace Mirrors

variable {s t : Sign} {u v u' v' : UnpackedFloat}

theorem add (hu : Mirrors s u u') (hv : Mirrors s v v') :
    Mirrors s (add .binary64 u v) (add .binary64 u' v') := by
  cases hu with
  | infinity h =>
    cases hv with
    | infinity h' =>
      -- of two infinities the signs are compared
      subst h h'
      rename_i a b
      cases s <;> cases a <;> cases b <;> first | exact .infinity rfl | exact .notANumber
    | notANumber => exact .notANumber
    | zero => exact .infinity h
    | finite => exact .infinity h
  | notANumber => cases hv <;> exact .notANumber
  | zero a a' =>
    cases hv with
    | infinity h => exact .infinity h
    | notANumber => exact .notANumber
    | zero b b' => cases a <;> cases a' <;> cases b <;> cases b' <;> exact .zero _ _
    | finite h m e hm => exact .finite h m e hm
  | finite h m e hm =>
    cases hv with
    | infinity h => exact .infinity h
    | notANumber => exact .notANumber
    | zero => exact .finite h m e hm
    | finite h' m' e' hm' =>
      unfold UnpackedFloat.add
      dsimp only
      rw [h, h', sign_mul_apply, sign_mul_apply, sign_apply_add]
      exact mirrors_normalize s _ _ _

theorem sub (hu : Mirrors s u u') (hv : Mirrors s v v') :
    Mirrors s (sub .binary64 u v) (sub .binary64 u' v') := by
  rw [sub_eq_add_neg, sub_eq_add_neg]
  exact hu.add hv.neg

/-- A difference the other way round is the opposite one. -/
theorem sub_swap (u v : UnpackedFloat) :
    Mirrors .negative (UnpackedFloat.sub .binary64 u v) (UnpackedFloat.sub .binary64 v u) := by
  rw [sub_eq_add_neg, sub_eq_add_neg, add_swap v]
  exact (neg_right u).add (neg_right v).symm

theorem mul (hu : Mirrors s u u') (hv : Mirrors t v v') :
    Mirrors (s * t) (mul .binary64 u v) (mul .binary64 u' v') := by
  have hsign : ∀ {a a' b b' : Sign}, a' = s * a → b' = t * b → a' * b' = s * t * (a * b) :=
    fun ha hb => by rw [ha, hb, sign_mul_mul_mul_comm]
  cases hu with
  | infinity h =>
    cases hv with
    | infinity h' => exact .infinity (hsign h h')
    | notANumber => exact .notANumber
    | zero => exact .notANumber
    | finite h' => exact .infinity (hsign h h')
  | notANumber => cases hv <;> exact .notANumber
  | zero =>
    cases hv with
    | infinity => exact .notANumber
    | notANumber => exact .notANumber
    | zero => exact .zero _ _
    | finite => exact .zero _ _
  | finite h =>
    cases hv with
    | infinity h' => exact .infinity (hsign h h')
    | notANumber => exact .notANumber
    | zero => exact .zero _ _
    | finite h' => exact mirrors_roundWithAccuracy (hsign h h') _ _ _

/-- A quotient by a number that is not zero. -/
theorem div (hu : Mirrors s u u') (hv : Mirrors t v v') (hne : v.beq (.zero .positive) = false) :
    Mirrors (s * t) (div .binary64 u v) (div .binary64 u' v') := by
  have hsign : ∀ {a a' b b' : Sign}, a' = s * a → b' = t * b → a' / b' = s * t * (a / b) :=
    fun ha hb => by rw [ha, hb, sign_mul_div_mul_comm]
  cases hu with
  | infinity h =>
    cases hv with
    | infinity => exact .notANumber
    | notANumber => exact .notANumber
    | zero => exact absurd hne nofun
    | finite h' => exact .infinity (hsign h h')
  | notANumber => cases hv <;> exact .notANumber
  | zero =>
    cases hv with
    | infinity => exact .zero _ _
    | notANumber => exact .notANumber
    | zero => exact absurd hne nofun
    | finite => exact .zero _ _
  | finite h =>
    cases hv with
    | infinity => exact .zero _ _
    | notANumber => exact .notANumber
    | zero => exact absurd hne nofun
    | finite h' => exact mirrors_roundWithAccuracy (hsign h h') _ _ _

end Mirrors

/-! ## Packing -/

theorem mirrors_unpack_packComponents {s t t' : Sign} (h : t' = s * t) (ev : BitVec 11)
    (mv : BitVec 52) :
    Mirrors s (UnpackedFloat.unpack .binary64 (packComponents .binary64 t ev mv))
      (UnpackedFloat.unpack .binary64 (packComponents .binary64 t' ev mv)) := by
  unfold UnpackedFloat.unpack
  simp only [unpackExponent_packComponents, unpackMantissa_packComponents, ofBitVec_unpackSign]
  split_ifs
  · exact .infinity h
  · exact .notANumber
  · exact .zero _ _
  · exact .finite h _ _ _
  · exact .finite h _ _ _

theorem mirrors_unpack_packedInfinity {s t t' : Sign} (h : t' = s * t) :
    Mirrors s (UnpackedFloat.unpack .binary64 (packedInfinity .binary64 t))
      (UnpackedFloat.unpack .binary64 (packedInfinity .binary64 t')) :=
  mirrors_unpack_packComponents h _ _

theorem Mirrors.unpack_pack {s : Sign} {u v : UnpackedFloat} (h : Mirrors s u v) :
    Mirrors s (Float.Model.pack u).unpack (Float.Model.pack v).unpack := by
  cases h with
  | infinity h => exact mirrors_unpack_packedInfinity h
  | notANumber => exact .notANumber
  | zero t t' => cases t <;> cases t' <;> exact .zero _ _
  | finite h m e hm =>
    change Mirrors s (UnpackedFloat.unpack .binary64 (UnpackedFloat.pack .binary64 _))
      (UnpackedFloat.unpack .binary64 (UnpackedFloat.pack .binary64 _))
    unfold UnpackedFloat.pack
    dsimp only
    split_ifs
    · exact mirrors_unpack_packedInfinity h
    · exact mirrors_unpack_packComponents h _ _
    · exact mirrors_unpack_packComponents h _ _

/-! ## Comparison -/

/-- The sign of a zero is not compared. -/
theorem Mirrors.compare_eq {u v : UnpackedFloat} (h : Mirrors .positive u v) (w : UnpackedFloat) :
    u.compare w = v.compare w ∧ w.compare u = w.compare v := by
  cases h with
  | infinity h =>
    rw [h, sign_positive_mul]
    exact ⟨rfl, rfl⟩
  | notANumber => exact ⟨rfl, rfl⟩
  | zero t t' =>
    rcases w with a | _ | a | ⟨a, m, e, hm⟩
    · cases a <;> exact ⟨rfl, rfl⟩
    · exact ⟨rfl, rfl⟩
    · exact ⟨rfl, rfl⟩
    · cases a <;> exact ⟨rfl, rfl⟩
  | finite h m e hm =>
    obtain rfl := h.trans (sign_positive_mul _)
    exact ⟨rfl, rfl⟩

theorem Mirrors.beq_zero_eq {s : Sign} {u v : UnpackedFloat} (h : Mirrors s u v) :
    u.beq (.zero .positive) = v.beq (.zero .positive) := by
  cases h with
  | @infinity t t' => cases t <;> cases t' <;> rfl
  | notANumber => rfl
  | zero => rfl
  | @finite t t' => cases t <;> cases t' <;> rfl

end CurveSketch.Rounding

namespace CurveSketch.Binary64

open Float.Model.UnpackedFloat (Sign)

/-! ## Operations on coordinates -/

/-- An operation with NaN gives NaN, and on numbers it is that of their floats. -/
theorem unpack_lift_eq {op : Float → Float → Float}
    {model : Float.Model.UnpackedFloat → Float.Model.UnpackedFloat → Float.Model.UnpackedFloat}
    (hop : ∀ x y, (op x y).toModel = .pack (model x.toModel.unpack y.toModel.unpack))
    (hleft : ∀ v, model .notANumber v = .notANumber)
    (hright : ∀ u, model u .notANumber = .notANumber) (a b : Binary64) :
    (lift op a b).float.toModel.unpack =
      (Float.Model.pack (model a.float.toModel.unpack b.float.toModel.unpack)).unpack := by
  have hnan : ∀ {x : Float}, x.isNaN = true → x.toModel.unpack = .notANumber := by
    intro x h
    change x.toModel.unpack.isNaN = true at h
    generalize x.toModel.unpack = u at h ⊢
    cases u with
    | notANumber => rfl
    | infinity => exact absurd h nofun
    | zero => exact absurd h nofun
    | finite => exact absurd h nofun
  cases ha : a.float.isNaN with
  | true =>
    rw [lift_of_isNaN ha, hnan ha, hleft]
    rfl
  | false =>
    cases hb : b.float.isNaN with
    | true =>
      rw [lift_of_isNaN_right ha hb, hnan hb, hright]
      rfl
    | false => rw [lift_of_numbers ha hb, ofResult, hop]

theorem unpack_add (a b : Binary64) : (a + b).float.toModel.unpack =
    (Float.Model.pack (.add .binary64 a.float.toModel.unpack b.float.toModel.unpack)).unpack :=
  unpack_lift_eq (fun _ _ => rfl) (fun v => by cases v <;> rfl) (fun u => by cases u <;> rfl) a b

theorem unpack_sub (a b : Binary64) : (a - b).float.toModel.unpack =
    (Float.Model.pack (.sub .binary64 a.float.toModel.unpack b.float.toModel.unpack)).unpack :=
  unpack_lift_eq (fun _ _ => rfl) (fun v => by cases v <;> rfl) (fun u => by cases u <;> rfl) a b

theorem unpack_mul (a b : Binary64) : (a * b).float.toModel.unpack =
    (Float.Model.pack (.mul .binary64 a.float.toModel.unpack b.float.toModel.unpack)).unpack :=
  unpack_lift_eq (fun _ _ => rfl) (fun v => by cases v <;> rfl) (fun u => by cases u <;> rfl) a b

theorem unpack_div (a b : Binary64) : (a / b).float.toModel.unpack =
    (Float.Model.pack (.div .binary64 a.float.toModel.unpack b.float.toModel.unpack)).unpack :=
  unpack_lift_eq (fun _ _ => rfl) (fun v => by cases v <;> rfl) (fun u => by cases u <;> rfl) a b

/-! ## Mirrored coordinates -/

/-- The second coordinate is the first, or its opposite if `s` is negative, with any signs for
zeros. -/
def Mirrors (s : Sign) (a b : Binary64) : Prop :=
  Rounding.Mirrors s a.float.toModel.unpack b.float.toModel.unpack

namespace Mirrors

variable {s t : Sign} {a b a' b' c : Binary64}

theorem refl (a : Binary64) : Mirrors .positive a a :=
  Rounding.Mirrors.refl _

theorem trans (h : Mirrors t a b) (h' : Mirrors s b c) : Mirrors (s * t) a c :=
  Rounding.Mirrors.trans h h'

theorem sub_swap (a b : Binary64) : Mirrors .negative (a - b) (b - a) := by
  rw [Mirrors, unpack_sub, unpack_sub]
  exact (Rounding.Mirrors.sub_swap _ _).unpack_pack

theorem add (ha : Mirrors s a a') (hb : Mirrors s b b') : Mirrors s (a + b) (a' + b') := by
  rw [Mirrors, unpack_add, unpack_add]
  exact (Rounding.Mirrors.add ha hb).unpack_pack

theorem sub (ha : Mirrors s a a') (hb : Mirrors s b b') : Mirrors s (a - b) (a' - b') := by
  rw [Mirrors, unpack_sub, unpack_sub]
  exact (Rounding.Mirrors.sub ha hb).unpack_pack

theorem mul (ha : Mirrors s a a') (hb : Mirrors t b b') :
    Mirrors (s * t) (a * b) (a' * b') := by
  rw [Mirrors, unpack_mul, unpack_mul]
  exact (Rounding.Mirrors.mul ha hb).unpack_pack

theorem div (ha : Mirrors s a a') (hb : Mirrors t b b') (hne : (b == 0) = false) :
    Mirrors (s * t) (a / b) (a' / b') := by
  rw [Mirrors, unpack_div, unpack_div]
  exact (Rounding.Mirrors.div ha hb hne).unpack_pack

theorem beq_zero_eq (h : Mirrors s a b) : (a == 0) = (b == 0) :=
  Rounding.Mirrors.beq_zero_eq h

theorem zero_le_iff (h : Mirrors .positive a b) : 0 ≤ a ↔ 0 ≤ b := by
  rw [le_iff, le_iff, Float.Model.UnpackedFloat.le, Float.Model.UnpackedFloat.le,
    (Rounding.Mirrors.compare_eq h _).2]

theorem le_one_iff (h : Mirrors .positive a b) : a ≤ 1 ↔ b ≤ 1 := by
  rw [le_iff, le_iff, Float.Model.UnpackedFloat.le, Float.Model.UnpackedFloat.le,
    (Rounding.Mirrors.compare_eq h _).1]

end Mirrors

end CurveSketch.Binary64
