import CurveSketch.Proofs.VerticalCut

/-!
# Reflected polylines

The reflection in the vertical axis and the half turn about the origin exchange left and right, and
multiply heights by a factor, which is one or minus one (`Flips`). The images of the vertices of a
polyline that runs to the right, read backwards, run to the right again (`Rightward.reflected`), and
what is left of the axis is the image of what is right of it (`Flips.filter_reflected`).
-/

namespace CurveSketch

namespace Point

/-- The point reflected in the vertical axis. -/
def mirrored (p : Point Rat) : Point Rat :=
  ⟨-p.x, p.y⟩

/-- The point turned half way round the origin. -/
def halfTurned (p : Point Rat) : Point Rat :=
  ⟨-p.x, -p.y⟩

/-- Holds of points with coordinates up to the largest finite one in magnitude. -/
structure InRange (p : Point Rat) : Prop where
  left : -Scalar.largest ≤ p.x
  right : p.x ≤ Scalar.largest
  bottom : -Scalar.largest ≤ p.y
  top : p.y ≤ Scalar.largest

instance (p : Point Rat) : Decidable p.InRange :=
  decidable_of_iff
    (-Scalar.largest ≤ p.x ∧ p.x ≤ Scalar.largest ∧ -Scalar.largest ≤ p.y ∧ p.y ≤ Scalar.largest)
    ⟨fun ⟨hleft, hright, hbottom, htop⟩ => ⟨hleft, hright, hbottom, htop⟩,
      fun h => ⟨h.left, h.right, h.bottom, h.top⟩⟩

instance : DecidableEq (Point Rat) := fun _ _ =>
  decidable_of_iff _ ext_iff.symm

end Point

/-- A map of the plane that exchanges left and right, and keeps heights or turns them over. -/
structure Flips (f : Point Rat → Point Rat) (factor : Rat) : Prop where
  factor_eq : factor = 1 ∨ factor = -1
  x : ∀ p, (f p).x = -p.x
  y : ∀ p, (f p).y = factor * p.y

theorem Flips.mirrored : Flips Point.mirrored 1 :=
  ⟨.inl rfl, fun _ => rfl, fun p => (one_mul p.y).symm⟩

theorem Flips.halfTurned : Flips Point.halfTurned (-1) :=
  ⟨.inr rfl, fun _ => rfl, fun p => (neg_one_mul p.y).symm⟩

/-- The images of the vertices of a polyline, read backwards. -/
def reflected (f : Point Rat → Point Rat) (points : List (Point Rat)) : List (Point Rat) :=
  (points.map f).reverse

theorem reflected_append (f : Point Rat → Point Rat) (l l' : List (Point Rat)) :
    reflected f (l ++ l') = reflected f l' ++ reflected f l := by
  rw [reflected, List.map_append, List.reverse_append]
  rfl

theorem reflected_cons (f : Point Rat → Point Rat) (p : Point Rat) (l : List (Point Rat)) :
    reflected f (p :: l) = reflected f l ++ [f p] :=
  reflected_append f [p] l

theorem mem_reflected {f : Point Rat → Point Rat} {points : List (Point Rat)} {p : Point Rat} :
    p ∈ reflected f points ↔ ∃ q ∈ points, f q = p := by
  rw [reflected, List.mem_reverse, List.mem_map]

namespace Flips

variable {f : Point Rat → Point Rat} {factor : Rat} {points : List (Point Rat)}

theorem factor_mul_self (hf : Flips f factor) : factor * factor = 1 := by
  rcases hf.factor_eq with rfl | rfl <;> norm_num

theorem involutive (hf : Flips f factor) (p : Point Rat) : f (f p) = p := by
  refine Point.ext_iff.2 ⟨?_, ?_⟩
  · rw [hf.x, hf.x, neg_neg]
  · rw [hf.y, hf.y, ← mul_assoc, hf.factor_mul_self, one_mul]

/-- The way between the images of two points, taken backwards, differs by signs only. -/
theorem sub_eq (hf : Flips f factor) (a b : Point Rat) :
    f a - f b = ⟨(b - a).x, -factor * (b - a).y⟩ := by
  refine Point.ext_iff.2 ⟨?_, ?_⟩
  · rw [Point.x_sub, hf.x, hf.x]
    exact neg_sub_neg _ _
  · rw [Point.y_sub, hf.y, hf.y]
    change _ = -factor * (b.y - a.y)
    ring

theorem inRange (hf : Flips f factor) {p : Point Rat} (h : p.InRange) : (f p).InRange := by
  obtain ⟨hleft, hright, hbottom, htop⟩ := h
  have hx := hf.x p
  have hy := hf.y p
  rcases hf.factor_eq with rfl | rfl <;> constructor <;> linarith

/-- What is left of the axis is the image of what is right of it. -/
theorem filter_reflected (hf : Flips f factor) (points : List (Point Rat)) :
    ((reflected f points).filter fun p => p.x ≤ 0) =
      reflected f (points.filter fun p => 0 ≤ p.x) := by
  rw [reflected, List.filter_reverse, List.filter_map, reflected]
  refine congrArg (fun l => (List.map f l).reverse) (List.filter_congr fun p _ => ?_)
  rw [Function.comp_apply, hf.x, decide_eq_decide]
  exact neg_nonpos

end Flips

/-- The image of a polyline that runs to the right, read backwards, runs to the right. -/
theorem Rightward.reflected {f : Point Rat → Point Rat} {factor : Rat} (hf : Flips f factor)
    {points : List (Point Rat)} (h : Rightward points) : Rightward (reflected f points) := by
  refine List.pairwise_reverse.2 (List.pairwise_map.2 (h.imp fun hlt => ?_))
  rw [hf.x, hf.x]
  exact neg_lt_neg hlt

end CurveSketch
