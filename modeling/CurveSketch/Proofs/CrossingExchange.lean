import CurveSketch.Proofs.BoxScreen
import CurveSketch.Proofs.MirroredNumber
import CurveSketch.Proofs.SharedNaming

/-!
# Which line is named first

When two straight pieces change places, the determinant of their crossing becomes its opposite and
so do the numerators of both parameters, which thereby change places themselves. In exact arithmetic
this is an identity. In binary64 the determinant and the numerators are made of other differences,
and put together in another order; but mirrored operands have mirrored results whatever is rounded,
and what is compared with `0` and `1` comes out the same (`crossingParams_exchange`). `Mirroring`
says what is needed for this of an arithmetic.

So two polylines are found to cross, or not to, whichever of them is named first, and a clause which
says that two lines cross nowhere means the same with the two names exchanged
(`Meeting.nowhereSymmetric`).
-/

namespace CurveSketch

open Float.Model.UnpackedFloat (Sign)

variable {K : Type} [Scalar K]

/-! ## Pieces that change places -/

/-- Arithmetic that treats both signs alike. `R s a b` says that `b` is `a`, or its opposite if `s`
is negative. -/
structure Mirroring (R : Sign → K → K → Prop) : Prop where
  refl (a : K) : R .positive a a
  trans {s t : Sign} {a b c : K} : R t a b → R s b c → R (s * t) a c
  sub_swap (a b : K) : R .negative (a - b) (b - a)
  add {s : Sign} {a b a' b' : K} : R s a a' → R s b b' → R s (a + b) (a' + b')
  sub {s : Sign} {a b a' b' : K} : R s a a' → R s b b' → R s (a - b) (a' - b')
  mul {s t : Sign} {a b a' b' : K} : R s a a' → R t b b' → R (s * t) (a * b) (a' * b')
  div {s t : Sign} {a b a' b' : K} : R s a a' → R t b b' → (b == 0) = false →
    R (s * t) (a / b) (a' / b')
  beq_zero_eq {s : Sign} {a b : K} : R s a b → (a == 0) = (b == 0)
  zero_le_iff {a b : K} : R .positive a b → (0 ≤ a ↔ 0 ≤ b)
  le_one_iff {a b : K} : R .positive a b → (a ≤ 1 ↔ b ≤ 1)

theorem Mirroring.binary64 : Mirroring Binary64.Mirrors where
  refl := .refl
  trans := .trans
  sub_swap := .sub_swap
  add := .add
  sub := .sub
  mul := .mul
  div := .div
  beq_zero_eq h := h.beq_zero_eq
  zero_le_iff h := h.zero_le_iff
  le_one_iff h := h.le_one_iff

/-- Over the rationals the opposite is the negation. -/
theorem Mirroring.rat : Mirroring fun s (a b : Rat) => b = Rounding.factor s * a where
  refl a := (one_mul a).symm
  trans h h' := by rw [h', h, Rounding.factor_mul, mul_assoc]
  sub_swap a b := by rw [Rounding.factor_negative, neg_one_mul, neg_sub]
  add h h' := by rw [h, h', mul_add]
  sub h h' := by rw [h, h', mul_sub]
  mul h h' := by rw [h, h', Rounding.factor_mul, mul_mul_mul_comm]
  div {s t} _ _ _ _ h h' _ := by
    have hsign : s / t = s * t := by cases s <;> cases t <;> rfl
    rw [h, h', mul_div_mul_comm, ← Rounding.factor_div, hsign]
  beq_zero_eq {s} _ _ h := by
    rw [h, Bool.eq_iff_iff, beq_iff_eq, beq_iff_eq,
      mul_eq_zero_iff_left (Rounding.factor_ne_zero s)]
  zero_le_iff h := by rw [h, Rounding.factor_positive, one_mul]
  le_one_iff h := by rw [h, Rounding.factor_positive, one_mul]

/-- When two pieces change places, so do the parameters of their crossing. -/
theorem crossingParams_exchange {R : Sign → K → K → Prop} (h : Mirroring R)
    (p₁ p₂ p₃ p₄ : Point K) :
    Option.Rel (fun p q => R .positive p.1 q.2 ∧ R .positive p.2 q.1)
      (crossingParams p₁ p₂ p₃ p₄) (crossingParams p₃ p₄ p₁ p₂) := by
  have hfirst : R .positive ((p₁.x - p₂.x) * (p₄.y - p₃.y)) ((p₂.x - p₁.x) * (p₃.y - p₄.y)) :=
    h.mul (h.sub_swap _ _) (h.sub_swap _ _)
  have hsecond : R .positive ((p₄.x - p₃.x) * (p₁.y - p₂.y)) ((p₃.x - p₄.x) * (p₂.y - p₁.y)) :=
    h.mul (h.sub_swap _ _) (h.sub_swap _ _)
  have hdet : R .negative ((p₄.x - p₃.x) * (p₁.y - p₂.y) - (p₁.x - p₂.x) * (p₄.y - p₃.y))
      ((p₂.x - p₁.x) * (p₃.y - p₄.y) - (p₃.x - p₄.x) * (p₂.y - p₁.y)) :=
    h.trans (h.sub_swap _ _) (h.sub hfirst hsecond)
  have hnumerator : ∀ a b : K, R .negative (a * (p₁.x - p₃.x) + b * (p₁.y - p₃.y))
      (a * (p₃.x - p₁.x) + b * (p₃.y - p₁.y)) := fun a b =>
    h.add (h.mul (h.refl a) (h.sub_swap _ _)) (h.mul (h.refl b) (h.sub_swap _ _))
  unfold crossingParams
  dsimp only
  rw [← h.beq_zero_eq hdet]
  split_ifs with hzero
  · exact .none
  · have hne := Bool.eq_false_iff.2 hzero
    exact .some ⟨h.div (hnumerator _ _) hdet hne, h.div (hnumerator _ _) hdet hne⟩

namespace Polyline

theorem onPiece_eq {R : Sign → K → K → Prop} (h : Mirroring R) {t u : K} (htu : R .positive t u) :
    onPiece t = onPiece u := by
  simp only [onPiece, h.zero_le_iff htu, h.le_one_iff htu]

theorem boxesMeet_comm (a b : Point K × Point K) : boxesMeet a b = boxesMeet b a := by
  simp only [boxesMeet, Bool.and_comm]

/-- Two pieces cross whichever of them is solved for. -/
theorem pieceCrossing?_eq_none_comm {R : Sign → K → K → Prop} (h : Mirroring R)
    (a b : Point K × Point K) : pieceCrossing? a b = none ↔ pieceCrossing? b a = none := by
  have hparams := crossingParams_exchange h a.1 a.2 b.1 b.2
  unfold pieceCrossing?
  generalize crossingParams a.1 a.2 b.1 b.2 = params at hparams ⊢
  generalize crossingParams b.1 b.2 a.1 a.2 = params' at hparams ⊢
  cases hparams with
  | none => exact Iff.rfl
  | @some p q hpq =>
    simp only [← onPiece_eq h hpq.1, ← onPiece_eq h hpq.2, ite_eq_right_iff, reduceCtorEq,
      imp_false, Bool.and_comm]

/-- Two polylines cross whichever of them is named first. -/
theorem crossings_eq_nil_comm {R : Sign → K → K → Prop} (h : Mirroring R) (a b : Polyline K) :
    a.crossings b = [] ↔ b.crossings a = [] := by
  have himp : ∀ {a b : Polyline K}, a.crossings b = [] → b.crossings a = [] := by
    intro a b hnone
    rw [crossings_eq_nil_iff] at hnone ⊢
    intro q hq p hp hboxes
    rw [boxesMeet_comm] at hboxes
    exact (pieceCrossing?_eq_none_comm h p q).1 (hnone p hp q hq hboxes)
  exact ⟨himp, himp⟩

end Polyline

/-! ## Clauses -/

namespace Meeting

/-- The clause that two lines cross nowhere. -/
def nowhere (x y : List Char) : Meeting :=
  ⟨x, y, []⟩

theorem holdsOf_nowhere_iff {context : Context K} {x y : List Char} {a b : Polyline K} :
    (nowhere x y).holdsOf context a b = true ↔ a.crossings b = [] := by
  simp [holdsOf, nowhere]

/-- Two lines that cross nowhere do so in either order of their names. -/
theorem holdsUnder_nowhere_comm {R : Sign → K → K → Prop} (h : Mirroring R) (context : Context K)
    (d : Drawing K) (x y : List Char) (f : List Char → Nat) :
    (Clause.ofDrawing (.meeting (nowhere x y))).HoldsUnder context d f ↔
      (Clause.ofDrawing (.meeting (nowhere y x))).HoldsUnder context d f := by
  have himp : ∀ {x y}, (Clause.ofDrawing (.meeting (nowhere x y))).HoldsUnder context d f →
      (Clause.ofDrawing (.meeting (nowhere y x))).HoldsUnder context d f := by
    rintro x y ⟨a, b, ha, hb, hnone⟩
    rw [holdsOf_nowhere_iff, Polyline.crossings_eq_nil_comm h] at hnone
    exact ⟨b, a, hb, ha, holdsOf_nowhere_iff.2 hnone⟩
  exact ⟨himp, himp⟩

/-- What a clause asks of the naming that no clause has narrowed yet. -/
theorem holds_start (context : Context K) (d : Drawing K) (m : Meeting) :
    let c := Clause.condition context d (.ofDrawing (.meeting m))
    ((m.holds context d .start).1 = true ↔ ∃ f, Naming.Meets d.lines.length [c] f) ∧
      ∀ i j, [i, j] ∈ (m.holds context d .start).2.bindings ↔
        ∃ f, Naming.Meets d.lines.length [c] f ∧ [m.first, m.second].eraseDups.map f = [i, j] := by
  intro c
  have hrefine : m.holds context d .start =
      Naming.start.refine c.names d.lines.length c.holds := rfl
  have hnames : Naming.mentioned [c] = [m.first, m.second] := by
    simp [Naming.mentioned, c, Clause.names]
  rw [hrefine]
  rcases (Naming.exact_start d.lines.length).refine c with ⟨heq, hnone⟩ | ⟨s, heq, hs⟩
  · rw [heq]
    refine ⟨iff_of_false Bool.false_ne_true hnone, fun i j => iff_of_false ?_ ?_⟩
    · simp [Naming.start]
    · rintro ⟨f, hf, -⟩
      exact hnone ⟨f, hf⟩
  · rw [heq]
    refine ⟨iff_of_true rfl hs.exists_meets, fun i j => ?_⟩
    rw [hs.mem_bindings_iff, Naming.solves_iff, List.nil_append, hnames]

variable {R : Sign → K → K → Prop}

theorem meets_nowhere_comm (h : Mirroring R) (context : Context K) (d : Drawing K)
    (x y : List Char) (f : List Char → Nat) :
    Naming.Meets d.lines.length
        [Clause.condition context d (.ofDrawing (.meeting (nowhere x y)))] f ↔
      Naming.Meets d.lines.length
        [Clause.condition context d (.ofDrawing (.meeting (nowhere y x)))] f := by
  have himp : ∀ {x y}, Naming.Meets d.lines.length
        [Clause.condition context d (.ofDrawing (.meeting (nowhere x y)))] f →
      Naming.Meets d.lines.length
        [Clause.condition context d (.ofDrawing (.meeting (nowhere y x)))] f := by
    rintro x y ⟨hassigns, hunder⟩
    refine ⟨hassigns.mono fun z hz => ?_, List.forall_mem_singleton.2 ?_⟩
    · simpa [Naming.mentioned, Clause.names, nowhere, or_comm] using hz
    · rw [Clause.under_condition_iff, holdsUnder_nowhere_comm h, ← Clause.under_condition_iff]
      exact hunder _ List.mem_cons_self
  exact ⟨himp, himp⟩

/-- It does not matter which of two lines is named first in saying that they cross nowhere. -/
structure NowhereSymmetric (K : Type) [Scalar K] : Prop where
  /-- Two polylines cross or not whichever is named first. -/
  crossings (a b : Polyline K) : a.crossings b = [] ↔ b.crossings a = []
  /-- A drawing meets the clause with the names in either order, from a naming that knows none. -/
  holds (context : Context K) (d : Drawing K) (x y : List Char) :
    ((nowhere x y).holds context d .start).1 = ((nowhere y x).holds context d .start).1
  /-- In either order the names are left with the same lines to stand for. -/
  bindings (context : Context K) (d : Drawing K) (x y : List Char) (i j : Nat) :
    [i, j] ∈ ((nowhere x y).holds context d .start).2.bindings ↔
      [j, i] ∈ ((nowhere y x).holds context d .start).2.bindings
  /-- The clause may be written with the names in either order wherever it stands. -/
  specification (context : Context K) (d : Drawing K) (x y : List Char)
    (before after : List Clause) :
    Specification.holds ⟨before ++ .ofDrawing (.meeting (nowhere x y)) :: after⟩ context d =
      Specification.holds ⟨before ++ .ofDrawing (.meeting (nowhere y x)) :: after⟩ context d

theorem nowhereSymmetric_of_mirroring (h : Mirroring R) : NowhereSymmetric K where
  crossings := Polyline.crossings_eq_nil_comm h
  holds context d x y := by
    rw [Bool.eq_iff_iff, (holds_start context d _).1, (holds_start context d _).1]
    exact exists_congr (meets_nowhere_comm h context d x y)
  bindings context d x y i j := by
    rw [(holds_start context d _).2, (holds_start context d _).2]
    refine exists_congr fun f => and_congr (meets_nowhere_comm h context d x y f) ?_
    rcases eq_or_ne x y with rfl | hxy
    · simp [nowhere, List.eraseDups_cons]
    · simp [nowhere, List.eraseDups_cons, hxy, hxy.symm, and_comm]
  specification context d x y before after := by
    have hnames : ∀ z, z ∈ Specification.names
        ⟨before ++ .ofDrawing (.meeting (nowhere x y)) :: after⟩ ↔ z ∈ Specification.names
        ⟨before ++ .ofDrawing (.meeting (nowhere y x)) :: after⟩ := fun z => by
      simp only [Specification.names, List.flatMap_append, List.flatMap_cons, Clause.names, nowhere,
        List.mem_append, List.mem_cons, or_left_comm]
    rw [Bool.eq_iff_iff, Specification.holds_iff, Specification.holds_iff]
    refine and_congr (exists_congr fun f => and_congr ?_ ?_) ?_
    · exact ⟨fun hf => hf.mono fun z => (hnames z).2, fun hf => hf.mono fun z => (hnames z).1⟩
    · simp only [List.forall_mem_append, List.forall_mem_cons,
        holdsUnder_nowhere_comm h context d x y f]
    · simp only [List.forall_mem_append, List.forall_mem_cons, reduceCtorEq, exists_false,
        false_and, and_false]

/-- Whether two polylines cross does not depend on which is named first, in binary64 with all its
rounding as well as in exact arithmetic; nor does a clause which says that they cross nowhere. -/
theorem nowhereSymmetric : NowhereSymmetric Binary64 ∧ NowhereSymmetric Rat :=
  ⟨nowhereSymmetric_of_mirroring .binary64, nowhereSymmetric_of_mirroring .rat⟩

end Meeting

end CurveSketch
