import CurveSketch.Answer
import CurveSketch.Proofs.ExactValue
import CurveSketch.Proofs.Extent
import CurveSketch.Proofs.KeyOrder
import CurveSketch.Proofs.LevelRun

/-!
# The direction of drawing

A curve drawn from right to left becomes the same line as one drawn from left to right, with the
same vertices, as long as its ends are not above each other. Its turning points are found before it
is turned around, though, in the order of drawing : each at that end of a level top or bottom that
was drawn first, and of two turning points above each other the one drawn first stays first. So the
two drawings have turning points for the same tops and bottoms of the curve, at opposite ends of
them (`Answer.toDrawing_reversed`). They have the same turning points if each top and bottom begins
and ends in one place.
-/

namespace CurveSketch

/-- Finite coordinates compare, and their differences have the sign, as their exact values say. -/
theorem Heights.binary64 : Heights Binary64.units fun a => a.float.isFinite = true := by
  have hnumber : ∀ {a : Binary64}, a.float.isFinite = true → a.float.isNaN = false :=
    Binary64.isNaN_eq_false_of_isFinite
  have hzero : (0 : Binary64).float.isNaN = false := rfl
  have hsign : ∀ {a b : Binary64}, a.float.isFinite = true → b.float.isFinite = true →
      (b - a).float.isNaN = false ∧ (b - a).units.sign = (b.units - a.units).sign :=
    fun ha hb => Binary64.sign_units_sub hb ha
  refine ⟨fun ha hb => Binary64.lt_iff_units (hnumber ha) (hnumber hb),
    fun ha hb => Binary64.beq_iff_units (hnumber ha) (hnumber hb), fun ha hb => ?_,
    fun ha hb => ?_, fun ha hb => ?_, ?_⟩
  · obtain ⟨hnan, hunits⟩ := hsign ha hb
    rw [Binary64.lt_iff_units hzero hnan, Binary64.units_zero, ← Int.sign_eq_one_iff_pos, hunits,
      Int.sign_eq_one_iff_pos, sub_pos]
  · obtain ⟨hnan, hunits⟩ := hsign ha hb
    rw [Binary64.lt_iff_units hnan hzero, Binary64.units_zero, ← Int.sign_eq_neg_one_iff_neg,
      hunits, Int.sign_eq_neg_one_iff_neg, sub_neg]
  · obtain ⟨hnan, hunits⟩ := hsign ha hb
    rw [Binary64.beq_iff_units hnan hzero, Binary64.units_zero, ← Int.sign_eq_zero_iff_zero,
      hunits, Int.sign_eq_zero_iff_zero, sub_eq_zero, eq_comm]
  · rw [Binary64.lt_iff_units hzero hzero]
    exact lt_irrefl _

/-! ## Lines drawn backwards -/

namespace Polyline

/-- Turning points in the order in which a line keeps them. -/
def byX (turning : List (TurningPoint Binary64)) : List (TurningPoint Binary64) :=
  turning.mergeSort fun t u => Scalar.totalLe t.point.x u.point.x

/-- Turning points with different horizontal coordinates are kept in one order. -/
theorem byX_eq_of_perm {turning turning' : List (TurningPoint Binary64)}
    (h : turning.Perm turning') (hdistinct : (turning.map (·.point.x.rank)).Nodup) :
    byX turning = byX turning' :=
  mergeSort_key_eq_of_perm (fun t : TurningPoint Binary64 => t.point.x.rank) h hdistinct

theorem byX_perm (turning : List (TurningPoint Binary64)) : (byX turning).Perm turning :=
  List.mergeSort_perm _ _

/-- A line with its ends not above each other has the same vertices, drawn from left to right,
whichever end it is drawn from. -/
theorem points_leftToRight_reverse {l l' : Polyline Binary64} (hl' : l'.points = l.points.reverse)
    {p q : Point Binary64} (hp : l.points.head? = some p) (hq : l.points.getLast? = some q)
    (hpx : p.x.float.isFinite = true) (hqx : q.x.float.isFinite = true)
    (hends : (p.x == q.x) = false) : l'.leftToRight.points = l.leftToRight.points := by
  have h := Heights.binary64
  have hruns : l.runsRightToLeft = decide (q.x < p.x) := by
    rw [runsRightToLeft, hp, hq]
  have hruns' : l'.runsRightToLeft = decide (p.x < q.x) := by
    rw [runsRightToLeft, hl', List.head?_reverse, List.getLast?_reverse, hp, hq]
  have hne : p.x.units ≠ q.x.units := fun heq => by
    rw [(h.beq_iff hpx hqx).2 heq] at hends
    exact absurd hends nofun
  rw [leftToRight, leftToRight, hruns, hruns']
  rcases lt_or_gt_of_ne hne with hlt | hgt
  · have hpq : p.x < q.x := (h.lt_iff hpx hqx).2 hlt
    have hqp : ¬q.x < p.x := fun hqp => hlt.not_gt ((h.lt_iff hqx hpx).1 hqp)
    simp [hpq, hqp, hl']
  · have hqp : q.x < p.x := (h.lt_iff hqx hpx).2 hgt
    have hpq : ¬p.x < q.x := fun hpq => hgt.not_gt ((h.lt_iff hpx hqx).1 hpq)
    simp [hpq, hqp, hl']

end Polyline

/-! ## Curves drawn backwards -/

/-- The curve with its points in the opposite order. -/
def Curve.reversed (c : Curve) : Curve :=
  { c with points := c.points.reverse }

/-- The vertices of a curve. -/
def Curve.vertices (c : Curve) : List (Point Binary64) :=
  c.points.map DrawnPoint.toPoint

theorem Curve.vertices_reversed (c : Curve) : c.reversed.vertices = c.vertices.reverse :=
  List.map_reverse

/-- A curve that lists neither maxima nor minima. -/
structure Curve.Unflagged (c : Curve) : Prop where
  maxima : c.maxima? = none
  minima : c.minima? = none

namespace Curve

variable {c : Curve}

theorem Unflagged.reversed (h : c.Unflagged) : c.reversed.Unflagged :=
  ⟨h.maxima, h.minima⟩

theorem Unflagged.toPolyline_eq (h : c.Unflagged) :
    c.toPolyline = ⟨c.vertices, Polyline.byX (Polyline.turns c.vertices)⟩ := by
  rw [toPolyline, h.maxima, h.minima]
  rfl

/-- The tops and bottoms of a curve. -/
def turnings (c : Curve) : List (LevelRun Binary64 × Extremum) :=
  CurveSketch.turnings (levelRuns c.vertices)

/-- The turning points of a curve are at the ends of its tops and bottoms that were drawn first. -/
theorem Unflagged.turning_toPolyline (h : c.Unflagged) (hfinite : ∀ p ∈ c.vertices, p.Finite) :
    c.toPolyline.turning = Polyline.byX (c.turnings.map atFirst) := by
  rw [h.toPolyline_eq, turnings, turns_eq_turnings .binary64 fun p hp => (hfinite p hp).y]

/-- The turning points of the reversed curve are at the other ends. -/
theorem Unflagged.turning_toPolyline_reversed (h : c.Unflagged)
    (hfinite : ∀ p ∈ c.vertices, p.Finite) :
    c.reversed.toPolyline.turning = Polyline.byX (c.turnings.reverse.map atLast) := by
  rw [h.reversed.toPolyline_eq, vertices_reversed, turnings,
    turns_reverse .binary64 fun p hp => (hfinite p hp).y]

/-- Both directions of drawing give the same turning points, if each top and bottom begins and ends
in one place. -/
theorem turnings_perm (hplace : ∀ t ∈ c.turnings, t.1.first = t.1.last) :
    (c.turnings.map atFirst).Perm (c.turnings.reverse.map atLast) := by
  have hsame : c.turnings.map atLast = c.turnings.map atFirst :=
    List.map_congr_left fun t ht => congrArg (TurningPoint.mk · t.2) (hplace t ht).symm
  rw [List.map_reverse, hsame]
  exact (List.reverse_perm _).symm

end Curve

/-! ## Answers -/

/-- An answer with one of its curves drawn backwards : the same lines have the same vertices, and
turning points for the same tops and bottoms of that curve, at the ends of them that were drawn
first. -/
theorem Answer.toDrawing_reversed (a b : Answer) (before after : List Curve) (c : Curve)
    (ha : a.curves = before ++ c :: after) (hb : b.curves = before ++ c.reversed :: after)
    (hunflagged : c.Unflagged) (hfinite : ∀ p ∈ c.vertices, p.Finite) {p q : Point Binary64}
    (hp : c.vertices.head? = some p) (hq : c.vertices.getLast? = some q)
    (hends : (p.x == q.x) = false) :
    let line := c.toPolyline.leftToRight
    let line' := c.reversed.toPolyline.leftToRight
    List.Forall₂ (fun l l' => l = l' ∨ l = line ∧ l' = line') a.toDrawing.lines b.toDrawing.lines ∧
      line.points = line'.points ∧
      line.turning = Polyline.byX (c.turnings.map atFirst) ∧
      line'.turning = Polyline.byX (c.turnings.reverse.map atLast) ∧
      ((∀ t ∈ c.turnings, t.1.first = t.1.last) → line.turning.Perm line'.turning ∧
        ((line.turning.map (·.point.x.rank)).Nodup → line.turning = line'.turning)) := by
  intro line line'
  have hpoints : line'.points = line.points := by
    refine Polyline.points_leftToRight_reverse ?_ (hunflagged.toPolyline_eq ▸ hp)
      (hunflagged.toPolyline_eq ▸ hq) (hfinite p (List.mem_of_mem_head? hp)).x
      (hfinite q (List.mem_of_getLast? hq)).x hends
    rw [hunflagged.toPolyline_eq, hunflagged.reversed.toPolyline_eq, Curve.vertices_reversed]
  have hturning : line.turning = Polyline.byX (c.turnings.map atFirst) :=
    (Polyline.turning_leftToRight _).trans (hunflagged.turning_toPolyline hfinite)
  have hturning' : line'.turning = Polyline.byX (c.turnings.reverse.map atLast) :=
    (Polyline.turning_leftToRight _).trans (hunflagged.turning_toPolyline_reversed hfinite)
  refine ⟨?_, hpoints.symm, hturning, hturning', fun hplace => ?_⟩
  · have hstart : ∀ {l l' : Polyline Binary64}, l = l' ∨ l = line ∧ l' = line' →
        Drawing.startX l = Drawing.startX l' := by
      rintro l l' (rfl | ⟨rfl, rfl⟩)
      · rfl
      · simp only [Drawing.startX, hpoints]
    rw [toDrawing, toDrawing, Drawing.canonical, Drawing.canonical, ha, hb]
    refine forall₂_mergeSort (fun h h' => by rw [hstart h, hstart h']) ?_
    simp only [List.map_append, List.map_cons]
    exact List.rel_append (List.forall₂_same.2 fun _ _ => .inl rfl)
      (.cons (.inr ⟨rfl, rfl⟩) (List.forall₂_same.2 fun _ _ => .inl rfl))
  · have hperm := Curve.turnings_perm hplace
    rw [hturning, hturning']
    refine ⟨(Polyline.byX_perm _).trans (hperm.trans (Polyline.byX_perm _).symm),
      fun hdistinct => Polyline.byX_eq_of_perm hperm ?_⟩
    exact ((Polyline.byX_perm _).map _).nodup_iff.1 hdistinct

/-- A curve that rises, runs level and falls. -/
def Curve.levelTop : Curve :=
  ⟨[⟨none, 0, 0⟩, ⟨none, 1, 1⟩, ⟨none, 2, 1⟩, ⟨none, 3, 0⟩], none, none, none, none, none, none⟩

theorem Curve.finite_levelTop : ∀ p ∈ levelTop.vertices, p.Finite := by
  have h : ∀ p ∈ levelTop.vertices, p.x.float.isFinite = true ∧ p.y.float.isFinite = true := by
    decide +kernel
  exact fun p hp => ⟨(h p hp).1, (h p hp).2⟩

/-- The level top, drawn in both directions, has its turning point at different ends. -/
theorem Answer.not_turning_reversed :
    ¬∀ (c : Curve) (p q : Point Binary64), c.Unflagged → (∀ p ∈ c.vertices, p.Finite) →
      c.vertices.head? = some p → c.vertices.getLast? = some q → (p.x == q.x) = false →
        (⟨10, 10, [c], none⟩ : Answer).toDrawing.lines.map (·.turning) =
          (⟨10, 10, [c.reversed], none⟩ : Answer).toDrawing.lines.map (·.turning) := by
  intro h
  have hsame := h .levelTop _ _ ⟨rfl, rfl⟩ Curve.finite_levelTop rfl rfl (by decide +kernel)
  have hplaces := congrArg (·.map (·.map (·.point.x.rank))) hsame
  revert hplaces
  decide +kernel

/-- The level top, drawn in both directions. -/
theorem Answer.toDrawing_reversed_levelTop :
    let c := Curve.levelTop
    let line := c.toPolyline.leftToRight
    let line' := c.reversed.toPolyline.leftToRight
    let p : Point Binary64 := (⟨none, 0, 0⟩ : DrawnPoint).toPoint
    let q : Point Binary64 := (⟨none, 3, 0⟩ : DrawnPoint).toPoint
    c.Unflagged ∧ (∀ p ∈ c.vertices, p.Finite) ∧ c.vertices.head? = some p ∧
      c.vertices.getLast? = some q ∧ (p.x == q.x) = false ∧
      List.Forall₂ (fun l l' => l = l' ∨ l = line ∧ l' = line')
        (⟨10, 10, [c], none⟩ : Answer).toDrawing.lines
        (⟨10, 10, [c.reversed], none⟩ : Answer).toDrawing.lines ∧
      line.points = line'.points ∧
      line.turning = Polyline.byX (c.turnings.map atFirst) ∧
      line'.turning = Polyline.byX (c.turnings.reverse.map atLast) := by
  intro c line line' p q
  have hunflagged : c.Unflagged := ⟨rfl, rfl⟩
  have hends : (p.x == q.x) = false := by decide +kernel
  obtain ⟨hlines, hpoints, hturning, hturning', -⟩ :=
    toDrawing_reversed ⟨10, 10, [c], none⟩ ⟨10, 10, [c.reversed], none⟩ [] [] c rfl rfl hunflagged
      Curve.finite_levelTop rfl rfl hends
  exact ⟨hunflagged, Curve.finite_levelTop, rfl, rfl, hends, hlines, hpoints, hturning, hturning'⟩

end CurveSketch
