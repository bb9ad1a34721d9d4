import CurveSketch.Scalar

/-!
# The plane

Points, and displacements between points, are pairs of scalars and share one type. The file also
solves for the crossing of two lines given by two points each: `crossingParams` returns the two
parameters, and `Point.lerp` turns a parameter back into a point.
-/

namespace CurveSketch

/-- A point of the plane, or the displacement from one point to another. -/
structure Point (K : Type) where
  /-- The horizontal coordinate, growing to the right. -/
  x : K
  /-- The vertical coordinate, growing upwards. -/
  y : K
deriving Repr

namespace Point

variable {K : Type} [Scalar K]

instance : Add (Point K) := ⟨fun a b => ⟨a.x + b.x, a.y + b.y⟩⟩

instance : Sub (Point K) := ⟨fun a b => ⟨a.x - b.x, a.y - b.y⟩⟩

instance : BEq (Point K) := ⟨fun a b => a.x == b.x && a.y == b.y⟩

@[simp] theorem x_add (a b : Point K) : (a + b).x = a.x + b.x := rfl

@[simp] theorem y_add (a b : Point K) : (a + b).y = a.y + b.y := rfl

@[simp] theorem x_sub (a b : Point K) : (a - b).x = a.x - b.x := rfl

@[simp] theorem y_sub (a b : Point K) : (a - b).y = a.y - b.y := rfl

/-- The point where the axes meet. -/
def origin : Point K := ⟨0, 0⟩

/-- The unit displacement along the positive vertical axis. -/
def up : Point K := ⟨0, 1⟩

/-- The unit displacement along the negative vertical axis. -/
def down : Point K := ⟨0, -1⟩

/-- The unit displacement along the positive horizontal axis. -/
def right : Point K := ⟨1, 0⟩

/-- The unit displacement along the negative horizontal axis. -/
def left : Point K := ⟨-1, 0⟩

/-- A displacement stretched by a factor. -/
def scale (a : Point K) (factor : K) : Point K :=
  ⟨a.x * factor, a.y * factor⟩

/-- The scalar product. -/
def dot (a b : Point K) : K :=
  a.x * b.x + a.y * b.y

/-- The signed area spanned by `a` and `b`: positive when `b` points to the left of `a`. -/
def cross (a b : Point K) : K :=
  a.x * b.y - a.y * b.x

/-- The point at parameter `t` of the line that is at `a` for `0` and at `b` for `1`. -/
def lerp (a b : Point K) (t : K) : Point K :=
  ⟨a.x * (1 - t) + b.x * t, a.y * (1 - t) + b.y * t⟩

/-- Equal rational points have equal coordinates. -/
@[simp] theorem beq_rat (a b : Point Rat) : (a == b) = true ↔ a = b := by
  cases a; cases b; simp [BEq.beq]

end Point

variable {K : Type} [Scalar K]

/-- The parameters at which the line through `p₁` and `p₂` and the line through `p₃` and `p₄`
meet, each counted from `0` at its first point to `1` at its second. There are none exactly when
the determinant vanishes; lines that are nearly parallel meet far away. -/
def crossingParams (p₁ p₂ p₃ p₄ : Point K) : Option (K × K) :=
  let det := (p₄.x - p₃.x) * (p₁.y - p₂.y) - (p₁.x - p₂.x) * (p₄.y - p₃.y)
  if det == 0 then none
  else
    some (((p₃.y - p₄.y) * (p₁.x - p₃.x) + (p₄.x - p₃.x) * (p₁.y - p₃.y)) / det,
      ((p₁.y - p₂.y) * (p₁.x - p₃.x) + (p₂.x - p₁.x) * (p₁.y - p₃.y)) / det)

end CurveSketch
