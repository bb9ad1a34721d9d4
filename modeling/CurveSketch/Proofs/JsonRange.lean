import CurveSketch.Json.Reader
import CurveSketch.Proofs.JsonText
import CurveSketch.Proofs.RoundedValue

/-!
# The range of numbers in JSON text

A number that is read from JSON text is a whole number of 64 bits or a finite double : what is too
large is refused, and dividing by a power of ten cannot overflow (`Numeral.inRange_of_value?`). So
all numbers of a value that is read are in range (`Json.inRange_of_parse?`).
-/

namespace CurveSketch

open Float.Model Float.Model.UnpackedFloat

/-- What is a number in JSON text : a whole number of 64 bits, or a finite double. -/
def JsonNumber.InRange : JsonNumber → Prop
  | .int n => -0x8000000000000000 ≤ n ∧ n < 0x10000000000000000
  | .float x => x.isFinite = true

namespace Numeral

/-! ## Scaling -/

/-- A positive number with a full significand and an exponent of at least `low`. -/
def isFull (low : Int) : UnpackedFloat → Bool
  | .finite .positive m e _ => decide (2 ^ 52 ≤ m ∧ m < 2 ^ 53 ∧ low ≤ e ∧ e ≤ 971)
  | _ => false

/-- A number in 64 bits that is as great as a full significand with the exponent `low`. -/
theorem isFull_of_le_value {u : UnpackedFloat} (hu : Rounding.Canonical u)
    (hfin : u.isFinite = true) {low : Int} (hlow : -1074 < low)
    (h : (2 ^ 52 : Nat) * 2 ^ low ≤ Rounding.value u) : isFull low u = true := by
  have hpos : (0 : Rat) < (2 ^ 52 : Nat) * 2 ^ low := by positivity
  rcases u with s | _ | s | ⟨s, m, e, hm⟩
  · exact absurd hfin nofun
  · exact absurd hfin nofun
  · rw [Rounding.value_zero] at h
    exact absurd h hpos.not_ge
  · obtain ⟨hlt, hmin, hmax, hfull⟩ := hu
    have hsize : (0 : Rat) ≤ m * 2 ^ e := by positivity
    rw [Rounding.value_finite s hm hmin] at h
    cases s with
    | negative =>
      rw [Rounding.factor_negative, neg_one_mul] at h
      exact absurd (h.trans (neg_nonpos.2 hsize)) hpos.not_ge
    | positive =>
      rw [Rounding.factor_positive, one_mul] at h
      have hlt' : (m : Rat) * 2 ^ e < (2 ^ 53 : Nat) * 2 ^ e :=
        mul_lt_mul_of_pos_right (by exact_mod_cast hlt) (zpow_pos two_pos e)
      have hle : 52 + low < 53 + e := by
        refine (zpow_lt_zpow_iff_right₀ (one_lt_two (α := Rat))).1 ?_
        rw [zpow_add₀ two_ne_zero, zpow_add₀ two_ne_zero]
        exact_mod_cast h.trans_lt hlt'
      exact decide_eq_true ⟨hfull.resolve_right (by omega), hlt, by omega, hmax⟩

/-- Beyond those that are exact, a power of ten is rounded. -/
theorem roundsTo_powerOfTen {k : Nat} (hlow : 22 < k) (hk : k ≤ 308) :
    Binary64.RoundsTo (10 ^ k) (.ofFloat (powerOfTen k)) := by
  have hlarge : ¬ (k : Int) > 2 ^ Format.binary64.exponentBits := by
    change ¬ (k : Int) > 2048
    omega
  have hsmall : ¬ (k : Int) < -(2 ^ Format.binary64.exponentBits + (Nat.log2 1 : Int)) := by
    change ¬ (k : Int) < -2048
    omega
  have hbits : 2 ^ 52 ≤ 2 ^ 53 * 10 ^ k := by
    have := Nat.one_le_pow k 10 (by decide)
    omega
  have hvalue : ((2 ^ 53 * 10 ^ k : Nat) : Rat) * 2 ^ (-53 : Int) = 10 ^ k := by
    have hone : (2 : Rat) ^ 53 * 2 ^ (-53 : Int) = 1 := by norm_num
    rw [Nat.cast_mul, Nat.cast_pow, Nat.cast_pow, mul_right_comm, Nat.cast_ofNat, hone, one_mul,
      Nat.cast_ofNat]
  have hexact : Rounding.Represents (.ofMantissaAndAccuracy (2 ^ 53 * 10 ^ k) .exact)
      (2 ^ 53 * 10 ^ k : Nat) := rfl
  have hrounds : Rounding.Rounds (10 ^ k) (UnpackedFloat.ofScientific .binary64 1 k) := by
    unfold UnpackedFloat.ofScientific
    rw [dif_neg one_ne_zero, if_neg hlarge, if_neg hsmall, if_pos (Int.natCast_nonneg k), ← hvalue]
    exact Rounding.rounds_roundWithAccuracy_positive hexact (.inl hbits)
  refine Binary64.roundsTo_of_unpack hrounds ?_
  change (Float.ofScientific 1 false k).toModel.unpack = _
  unfold Float.ofScientific
  rw [dif_neg (by omega)]
  rfl

theorem isFull_powerOfTen {k : Nat} (hk : k ≤ 308) :
    isFull (if k = 0 then -52 else -49) (powerOfTen k).toModel.unpack = true := by
  rcases Nat.lt_or_ge k 23 with hexact | hrounded
  · have hall : ∀ k < 23,
        isFull (if k = 0 then -52 else -49) (powerOfTen k).toModel.unpack = true := by
      decide +kernel
    exact hall k hexact
  · -- rounded, it stays between eight and the greatest number
    have hlow : Rounding.Fits ((2 ^ 52 : Nat) * 2 ^ (-49 : Int)) :=
      Rounding.fits_mul_zpow le_rfl (by decide) (by decide) (by decide)
    have hhigh : Rounding.Fits ((2 ^ 53 - 1 : Nat) * 2 ^ (971 : Int)) :=
      Rounding.fits_mul_zpow (by decide) (by decide) (by decide) le_rfl
    have hle : ((2 ^ 52 : Nat) : Rat) * 2 ^ (-49 : Int) ≤ 10 ^ k :=
      calc ((2 ^ 52 : Nat) : Rat) * 2 ^ (-49 : Int) ≤ 10 ^ 1 := by norm_num
        _ ≤ 10 ^ k := pow_le_pow_right₀ (by norm_num) (by omega)
    have hge : (10 : Rat) ^ k ≤ (2 ^ 53 - 1 : Nat) * 2 ^ (971 : Int) :=
      calc (10 : Rat) ^ k ≤ 10 ^ 308 := pow_le_pow_right₀ (by norm_num) hk
        _ ≤ _ := by decide +kernel
    have h := roundsTo_powerOfTen hrounded hk
    rw [if_neg (by omega)]
    exact isFull_of_le_value (Rounding.canonical_unpack _)
      (h.isFinite_of_le_of_le hlow hhigh hle hge) (by decide) (h.le_value _ hlow hle)

theorem exists_of_isFull {low : Int} {u : UnpackedFloat} (h : isFull low u = true) :
    ∃ m e hm, u = .finite .positive m e hm ∧ 2 ^ 52 ≤ m ∧ m < 2 ^ 53 ∧ low ≤ e ∧ e ≤ 971 := by
  unfold isFull at h
  split at h
  · exact ⟨_, _, _, rfl, of_decide_eq_true h⟩
  · exact absurd h nofun

/-- Dividing by a power of ten makes no number larger than rounding does. -/
theorem within_div_powerOfTen {j K : Int} {x : Float} (hx : Rounding.Within j x.toModel.unpack)
    {k : Nat} (hk : k ≤ 308) (hK : j - (if k = 0 then -52 else -49) - 51 ≤ K)
    (hmin : -1073 ≤ K) (hmax : K ≤ 971) :
    Rounding.Within K (x / powerOfTen k).toModel.unpack := by
  obtain ⟨m, e, hm, hfull, hlow, -, he, -⟩ := exists_of_isFull (isFull_powerOfTen hk)
  have h : Rounding.Within K
      (UnpackedFloat.div .binary64 x.toModel.unpack (.finite .positive m e hm)) :=
    Rounding.within_div hx hlow (by omega) hmin
  rw [← hfull] at h
  exact h.unpack_pack (by omega) hmax

theorem within_scaleDown {j : Int} {x : Float} (hx : Rounding.Within j x.toModel.unpack)
    (hmin : -1073 ≤ j) (hmax : j ≤ 970) (k : Nat) :
    Rounding.Within (j + 1) (scaleDown x k).toModel.unpack := by
  fun_induction scaleDown x k with
  | case1 x k hk =>
    refine within_div_powerOfTen hx hk ?_ (by omega) (by omega)
    split <;> omega
  | case2 x k hk hzero => exact hx.mono (by omega)
  | case3 x k hk hzero ih =>
    exact ih (within_div_powerOfTen hx le_rfl (by rw [if_neg (by decide)]; omega) hmin (by omega))

theorem isFinite_of_hasSign {s : Sign} {x : Float} (h : Rounding.HasSign s x.toModel.unpack)
    (hinf : x.isInf = false) : x.isFinite = true := by
  change x.toModel.unpack.isInf = false at hinf
  change x.toModel.unpack.isFinite = true
  generalize x.toModel.unpack = u at h hinf ⊢
  cases u with
  | notANumber => exact h.elim
  | infinity s => exact absurd hinf nofun
  | zero s => rfl
  | finite s m e hm => rfl

theorem isFinite_scaleUp? {x y : Float} (hx : x.isFinite = true) {k : Nat}
    (h : scaleUp? x k = some y) : y.isFinite = true := by
  unfold scaleUp? at h
  split at h
  · rename_i hk
    dsimp only at h
    split at h
    · exact absurd h nofun
    · rename_i hinf
      obtain rfl := Option.some.inj h
      obtain ⟨m, e, hm, hfull, -⟩ := exists_of_isFull (isFull_powerOfTen hk)
      have hpower : Rounding.HasSign .positive (powerOfTen k).toModel.unpack := by
        rw [hfull]
        rfl
      have hfinite : (powerOfTen k).toModel.unpack.isFinite = true := by
        rw [hfull]
        rfl
      obtain ⟨s, hs⟩ : ∃ s, Rounding.HasSign s x.toModel.unpack :=
        (Rounding.hasSign_or_of_isFinite hx).elim (⟨_, ·⟩) (⟨_, ·⟩)
      exact isFinite_of_hasSign (Rounding.hasSign_mul hs hpower hx hfinite).unpack_pack
        (by simpa using hinf)
  · split at h
    · obtain rfl := Option.some.inj h
      exact hx
    · exact absurd h nofun

/-! ## Whole numbers -/

theorem within_ofScientific {n : Nat} (hn : n < 0x10000000000000000) :
    Rounding.Within 14 (UnpackedFloat.ofScientific .binary64 n 0) := by
  have hlarge : ¬ (0 : Int) > 2 ^ Format.binary64.exponentBits := by decide
  have hsmall : ¬ (0 : Int) < -(2 ^ Format.binary64.exponentBits + (n.log2 : Int)) := by
    have hpositive : (0 : Int) ≤ 2 ^ Format.binary64.exponentBits := by decide
    omega
  have hbits : n <<< Format.binary64.mantissaBits < 2 ^ 118 := by
    have hmantissa : Format.binary64.mantissaBits = 53 := rfl
    rw [hmantissa, Nat.shiftLeft_eq]
    omega
  unfold UnpackedFloat.ofScientific
  by_cases hzero : n = 0
  · rw [dif_pos hzero]
    trivial
  · rw [dif_neg hzero, if_neg hlarge, if_neg hsmall, if_pos le_rfl]
    -- the shifted significand must not be unfolded, nor the proof that it is positive
    generalize_proofs hpos hpower
    generalize n <<< Format.binary64.mantissaBits = m at hpos hbits ⊢
    refine Rounding.within_mul_finite (n := 118) (by decide) ?_ (by decide) (by decide) (by decide)
    rwa [Int.toNat_zero, Nat.pow_zero, Nat.mul_one]

/-- A whole number of 64 bits is far from the greatest double. -/
theorem within_ofNat {n : Nat} (hn : n < 0x10000000000000000) :
    Rounding.Within 14 (Float.ofNat n).toModel.unpack := by
  change Rounding.Within 14 (Float.ofScientific n false 0).toModel.unpack
  unfold Float.ofScientific
  split
  · rename_i hexact
    -- the significand fits, and is converted before it is multiplied by one
    have hnat : n.toUInt64.toNat = n := by simpa using hn
    have hconverted : Rounding.Within 12 n.toUInt64.toFloat.toModel.unpack := by
      refine Rounding.Within.unpack_pack (Rounding.within_normalize (n := 64) (by decide) ?_
        (by decide) (by decide)) (by decide) (by decide)
      rw [hnat]
      omega
    have hone : Rounding.Within (-52) Float.exactlyRepresentablePowersOfTen[0].toModel.unpack := by
      exact ⟨by decide, by decide⟩
    exact (Rounding.within_mul hconverted hone (by decide) (by decide)).unpack_pack (by decide)
      (by decide)
  · exact (within_ofScientific hn).unpack_pack (by decide) (by decide)

theorem accumulate_lt {s : Nat} (hs : s < 0x10000000000000000) (cs : List Char) :
    (accumulate s cs).1 < 0x10000000000000000 := by
  induction cs generalizing s with
  | nil => exact hs
  | cons c cs ih =>
    unfold accumulate
    split
    · exact ih ‹_›
    · exact hs

theorem isFinite_neg {x : Float} (h : x.isFinite = true) : (-x).isFinite = true :=
  (Rounding.within_unpack h).neg.unpack_pack (by decide) (by decide) |>.isFinite

theorem isFinite_of_scale? {x y : Float} {exponent : Int}
    (hx : Rounding.Within 14 x.toModel.unpack) (h : scale? x exponent = some y) :
    y.isFinite = true := by
  unfold scale? at h
  split at h
  · exact isFinite_scaleUp? hx.isFinite h
  · obtain rfl := Option.some.inj h
    exact (within_scaleDown hx (by decide) (by decide) _).isFinite

theorem isFinite_of_toFloat? {n : Numeral} {x : Float} (h : n.toFloat? = some x) :
    x.isFinite = true := by
  obtain ⟨y, hy, rfl⟩ := Option.map_eq_some_iff.1 h
  have hfinite : y.isFinite = true := by
    refine isFinite_of_scale? (within_ofNat (accumulate_lt (accumulate_lt (by decide) _) _)) hy
  split
  · exact isFinite_neg hfinite
  · exact hfinite

/-- A number that is read is in range. -/
theorem inRange_of_value? {n : Numeral} {value : JsonNumber} (h : n.value? = some value) :
    value.InRange := by
  unfold value? at h
  split at h
  · rename_i whole hfraction hexponent hwhole
    have hlt : whole < 0x10000000000000000 := by
      have := accumulate_lt (s := 0) (by decide) n.whole
      rwa [hwhole] at this
    split at h
    · split at h
      · obtain rfl := Option.some.inj h
        exact ⟨by omega, by omega⟩
      · obtain rfl := Option.some.inj h
        exact isFinite_neg (within_ofNat hlt).isFinite
    · obtain rfl := Option.some.inj h
      exact ⟨by omega, by omega⟩
  · obtain ⟨x, hx, rfl⟩ := Option.map_eq_some_iff.1 h
    exact isFinite_of_toFloat? hx

end Numeral

/-! ## Values -/

/-- The numbers of a value that could be represented are in range. -/
def Json.InRange : Json → Prop :=
  Json.Every (fun n? => ∀ n ∈ n?, n.InRange) fun _ => True

/-- The contents of an open value are in range. -/
def OpenValue.InRange : OpenValue → Prop
  | .array items => ∀ v ∈ items, v.InRange
  | .object members _ => ∀ m ∈ members, m.2.InRange

/-- A plain value that is a token is in range. -/
def Token.InRange : Token → Prop
  | .plain v => v.InRange
  | _ => True

theorem Token.inRange_of_next? {cs rest : List Char} {t : Token}
    (h : next? cs = some (t, rest)) : t.InRange := by
  unfold next? read? at h
  split at h
  case h_7 =>
    obtain ⟨r, -, heq⟩ := Option.map_eq_some_iff.1 h
    obtain ⟨rfl, -⟩ := Prod.mk.inj heq
    trivial
  case h_8 => 
    obtain ⟨rfl, -⟩ := Prod.mk.inj (Option.some.inj h)
    exact .null
  case h_9 =>
    obtain ⟨rfl, -⟩ := Prod.mk.inj (Option.some.inj h)
    exact .bool true
  case h_10 =>
    obtain ⟨rfl, -⟩ := Prod.mk.inj (Option.some.inj h)
    exact .bool false
  case h_11 =>
    obtain ⟨n, -, heq⟩ := Option.map_eq_some_iff.1 h
    obtain ⟨rfl, -⟩ := Prod.mk.inj heq
    exact .number fun value hvalue => Numeral.inRange_of_value? hvalue
  all_goals
    obtain ⟨rfl, -⟩ := Prod.mk.inj (Option.some.inj h)
    trivial

namespace Reading

/-- Everything that has been read is in range. -/
def InRange : Reading → Prop
  | value around => ∀ o ∈ around, o.InRange
  | firstItem around => ∀ o ∈ around, o.InRange
  | firstName around => ∀ o ∈ around, o.InRange
  | name members around => (∀ m ∈ members, m.2.InRange) ∧ ∀ o ∈ around, o.InRange
  | colon members _ around => (∀ m ∈ members, m.2.InRange) ∧ ∀ o ∈ around, o.InRange
  | complete v around => v.InRange ∧ ∀ o ∈ around, o.InRange

theorem inRange_stepValue {around : List OpenValue} (haround : ∀ o ∈ around, o.InRange) {t : Token}
    (ht : t.InRange) {reading : Reading} (h : stepValue around t = some reading) :
    reading.InRange := by
  unfold stepValue at h
  split at h
  case h_5 => exact absurd h nofun
  all_goals obtain rfl := Option.some.inj h
  · exact ⟨ht, haround⟩
  · exact ⟨.string trivial, haround⟩
  · exact haround
  · exact haround

theorem inRange_stepComplete {v : Json} (hv : v.InRange) {around : List OpenValue}
    (haround : ∀ o ∈ around, o.InRange) {t : Token} {reading : Reading}
    (h : stepComplete v around t = some reading) : reading.InRange := by
  unfold stepComplete at h
  split at h
  case h_5 => exact absurd h nofun
  all_goals obtain rfl := Option.some.inj h
  all_goals obtain ⟨hopen, haround⟩ := List.forall_mem_cons.1 haround
  · exact List.forall_mem_cons.2 ⟨List.forall_mem_cons.2 ⟨hv, hopen⟩, haround⟩
  · exact ⟨.array fun w hw => List.forall_mem_cons.2 ⟨hv, hopen⟩ w (List.mem_reverse.1 hw), haround⟩
  · exact ⟨fun m hm => (List.mem_cons.1 hm).elim (fun heq => heq ▸ hv) (hopen m), haround⟩
  · refine ⟨.object (fun _ _ => trivial) fun m hm => ?_, haround⟩
    exact (List.mem_cons.1 (List.mem_reverse.1 hm)).elim (fun heq => heq ▸ hv) (hopen m)

/-- A token in range keeps what has been read in range. -/
theorem InRange.step {reading reading' : Reading} (hreading : reading.InRange) {t : Token}
    (ht : t.InRange) (h : reading.step t = some reading') : reading'.InRange := by
  unfold Reading.step at h
  split at h
  · exact inRange_stepValue hreading ht h
  · obtain rfl := Option.some.inj h
    exact ⟨.array nofun, hreading⟩
  · refine inRange_stepValue (List.forall_mem_cons.2 ⟨?_, hreading⟩) ht h
    exact fun _ hv => absurd hv List.not_mem_nil
  · obtain rfl := Option.some.inj h
    exact ⟨.object nofun nofun, hreading⟩
  · obtain rfl := Option.some.inj h
    exact ⟨fun _ hm => absurd hm List.not_mem_nil, hreading⟩
  · obtain rfl := Option.some.inj h
    exact hreading
  · obtain rfl := Option.some.inj h
    exact List.forall_mem_cons.2 ⟨hreading.1, hreading.2⟩
  · exact inRange_stepComplete hreading.1 hreading.2 h
  · exact absurd h nofun

/-- So does a text. -/
theorem InRange.run {reading : Reading} (hreading : reading.InRange) {cs : List Char} {v : Json}
    (h : reading.run cs = some v) : v.InRange := by
  fun_induction Reading.run reading cs with
  | case1 cs hspace v' =>
    obtain rfl := Option.some.inj h
    exact hreading.1
  | case2 => exact absurd h nofun
  | case3 => exact absurd h nofun
  | case4 => exact absurd h nofun
  | case5 reading cs hspace t rest hnext hlt reading' hstep ih =>
    exact ih (hreading.step (Token.inRange_of_next? hnext) hstep) h

end Reading

/-- The numbers of a text that is read are in range. -/
theorem Json.inRange_of_parse? {text : String} {v : Json} (h : Json.parse? text = some v) :
    v.InRange := by
  have hstart : (Reading.value []).InRange := nofun
  exact hstart.run h

end CurveSketch
