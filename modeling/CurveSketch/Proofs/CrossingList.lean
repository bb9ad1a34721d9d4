import CurveSketch.Polyline
import CurveSketch.Proofs.ExactCrossing
import CurveSketch.Proofs.KeyOrder

/-!
# The crossings of two polylines

The crossings that are listed of a polyline with another are found piece by piece: a straight piece
of the first is solved against the pieces of the second whose bounding boxes it meets, the
parameters found on it are sorted, and a point too close to one listed before it is dropped. The
last step drops a point for the sake of one that was kept, never of one that was dropped itself.

`Polyline.crossings_located` says what comes of this over the rationals, for any two polylines.
Each listed point has a place along the first polyline, a piece and a parameter on it, and
(`Polyline.Located`) :

* at that place the two polylines meet, in pieces that are not parallel;
* the places increase strictly along the list;
* any two listed points are further apart than `10⁻⁹`;
* wherever two pieces that are not parallel meet, the point is listed with its place, or a point
  not further than `10⁻⁹` from it is listed with an earlier place.
-/

namespace CurveSketch

namespace Polyline

/-! ## Two straight pieces -/

/-- Two straight pieces that are not parallel have a point in common, at a parameter of the
first. -/
structure PiecesMeet (a b : Point Rat × Point Rat) (t : Rat) (p : Point Rat) : Prop where
  /-- The pieces are not parallel. -/
  not_parallel : (a.2 - a.1).cross (b.2 - b.1) ≠ 0
  /-- The parameter is one of the first piece. -/
  onPiece : onPiece t = true
  /-- The point is at that parameter. -/
  eq_lerp : p = a.1.lerp a.2 t
  /-- The point is on the second piece. -/
  exists_param : ∃ u, Polyline.onPiece u = true ∧ p = b.1.lerp b.2 u

/-- What is solved for is the parameter of the common point. -/
theorem pieceCrossing?_eq_some_iff {a b : Point Rat × Point Rat} {t : Rat} :
    pieceCrossing? a b = some t ↔ PiecesMeet a b t (a.1.lerp a.2 t) := by
  have hsolved : pieceCrossing? a b = some t ↔ ∃ u, crossingParams a.1 a.2 b.1 b.2 = some (t, u) ∧
      onPiece t = true ∧ onPiece u = true := by
    unfold pieceCrossing?
    split
    · rename_i hnone
      simp [hnone]
    · rename_i t' u' hsome
      rw [hsome]
      constructor
      · intro h
        split_ifs at h with hon
        obtain rfl := Option.some.inj h
        exact ⟨u', rfl, Bool.and_eq_true _ _ ▸ hon⟩
      · rintro ⟨u, hboth, ht, hu⟩
        obtain ⟨rfl, rfl⟩ := Prod.mk.inj (Option.some.inj hboth)
        rw [ht, hu]
        rfl
  rw [hsolved]
  simp only [crossingParams_eq_some_iff]
  constructor
  · rintro ⟨u, ⟨hne, hpoint⟩, ht, hu⟩
    exact ⟨hne, ht, rfl, u, hu, hpoint⟩
  · rintro ⟨hne, ht, -, u, hu, hpoint⟩
    exact ⟨u, ⟨hne, hpoint⟩, ht, hu⟩

/-- Between two numbers a line is within their bounds. -/
theorem min_le_and_le_max {a b t : Rat} (ht : onPiece t = true) :
    Scalar.min a b ≤ a * (1 - t) + b * t ∧ a * (1 - t) + b * t ≤ Scalar.max a b := by
  rw [onPiece, Bool.and_eq_true, decide_eq_true_eq, decide_eq_true_eq] at ht
  obtain ⟨h0, h1⟩ := ht
  have hrest : 0 ≤ 1 - t := sub_nonneg.2 h1
  rw [Scalar.min_rat, Scalar.max_rat]
  split_ifs with hmin hmax hmax
  · exact absurd hmax hmin.asymm
  · have hwidth : 0 ≤ a - b := sub_nonneg.2 hmin.le
    constructor <;> linarith [mul_nonneg hwidth hrest, mul_nonneg hwidth h0]
  · have hwidth : 0 ≤ b - a := sub_nonneg.2 hmax.le
    constructor <;> linarith [mul_nonneg hwidth hrest, mul_nonneg hwidth h0]
  · obtain rfl : a = b := le_antisymm (not_lt.1 hmin) (not_lt.1 hmax)
    constructor <;> linarith

/-- Pieces with a point in common have boxes with a point in common. -/
theorem PiecesMeet.boxesMeet {a b : Point Rat × Point Rat} {t : Rat} {p : Point Rat}
    (h : PiecesMeet a b t p) : boxesMeet a b = true := by
  obtain ⟨u, hu, hpoint⟩ := h.exists_param
  have hx : a.1.x * (1 - t) + a.2.x * t = b.1.x * (1 - u) + b.2.x * u :=
    congrArg Point.x (h.eq_lerp.symm.trans hpoint)
  have hy : a.1.y * (1 - t) + a.2.y * t = b.1.y * (1 - u) + b.2.y * u :=
    congrArg Point.y (h.eq_lerp.symm.trans hpoint)
  have hxa := min_le_and_le_max (a := a.1.x) (b := a.2.x) h.onPiece
  have hya := min_le_and_le_max (a := a.1.y) (b := a.2.y) h.onPiece
  have hxb := min_le_and_le_max (a := b.1.x) (b := b.2.x) hu
  have hyb := min_le_and_le_max (a := b.1.y) (b := b.2.y) hu
  rw [hx] at hxa
  rw [hy] at hya
  simp only [Polyline.boxesMeet, Bool.and_eq_true, decide_eq_true_eq]
  exact ⟨⟨hxa.1.trans hxb.2, hxb.1.trans hxa.2⟩, hya.1.trans hyb.2, hyb.1.trans hya.2⟩

/-! ## Places along a polyline -/

/-- A place along a polyline : a straight piece, counted from the first, and a parameter on it. A
place on an earlier piece is before one on a later piece, and on one piece the parameters
decide. -/
abbrev Place := ℕ ×ₗ Rat

/-- At a place along `l`, the polyline meets `other` in a point, in pieces that are not
parallel. -/
def MeetsAt (l other : Polyline Rat) (place : Place) (p : Point Rat) : Prop :=
  ∃ a, (neighbours l.points)[(ofLex place).1]? = some a ∧
    ∃ b ∈ neighbours other.points, PiecesMeet a b (ofLex place).2 p

/-- There is one point at a place. -/
theorem MeetsAt.unique {l other : Polyline Rat} {place : Place} {p q : Point Rat}
    (hp : l.MeetsAt other place p) (hq : l.MeetsAt other place q) : p = q := by
  obtain ⟨a, ha, _, _, hmeet⟩ := hp
  obtain ⟨a', ha', _, _, hmeet'⟩ := hq
  obtain rfl := Option.some.inj (ha.symm.trans ha')
  exact hmeet.eq_lerp.trans hmeet'.eq_lerp.symm

/-- The crossings of one straight piece with others, each with its place. -/
def placesOn (index : ℕ) (a : Point Rat × Point Rat) (pieces : List (Point Rat × Point Rat)) :
    List (Place × Point Rat) :=
  ((pieces.filterMap (pieceCrossing? a)).mergeSort Scalar.totalLe).map fun t =>
    (toLex (index, t), a.1.lerp a.2 t)

/-- The points in which two polylines meet, with their places along the first, before those close
to others are dropped. -/
def places (l other : Polyline Rat) : List (Place × Point Rat) :=
  (neighbours l.points).zipIdx.flatMap fun piece =>
    placesOn piece.2 piece.1 ((neighbours other.points).filter (boxesMeet piece.1))

section

variable {l other : Polyline Rat}

/-- The crossings that are listed are those of the points met that are far enough from the ones
before. -/
theorem crossings_eq_separate_places :
    l.crossings other = separate [] ((l.places other).map Prod.snd) := by
  unfold crossings places
  rw [List.map_flatMap]
  conv_lhs => rw [← List.zipIdx_map_fst 0 (neighbours l.points), List.flatMap_map]
  simp only [placesOn, pieceCrossings, List.map_map, Function.comp_def]

/-- The places that are found are those where the polylines meet. -/
theorem mem_places {place : Place} {p : Point Rat} :
    (place, p) ∈ l.places other ↔ l.MeetsAt other place p := by
  simp only [places, placesOn, List.mem_flatMap, List.mem_map, List.mem_mergeSort,
    List.mem_filterMap, List.mem_filter, pieceCrossing?_eq_some_iff]
  constructor
  · rintro ⟨⟨a, i⟩, ha, t, ⟨b, ⟨hb, -⟩, hmeet⟩, heq⟩
    obtain ⟨rfl, rfl⟩ := Prod.mk.inj heq
    exact ⟨a, List.mem_zipIdx_iff_getElem?.1 ha, b, hb, hmeet⟩
  · rintro ⟨a, ha, b, hb, hmeet⟩
    obtain rfl := hmeet.eq_lerp
    exact ⟨(a, (ofLex place).1), List.mem_zipIdx_iff_getElem?.2 ha, (ofLex place).2,
      ⟨b, ⟨hb, hmeet.boxesMeet⟩, hmeet⟩, rfl⟩

/-- The pieces of a list have increasing numbers. -/
theorem pairwise_zipIdx {α : Type} :
    ∀ (xs : List α) (start : ℕ), (xs.zipIdx start).Pairwise fun a b => a.2 < b.2
  | [], _ => .nil
  | _ :: xs, start =>
    .cons (fun _ hb => List.le_snd_of_mem_zipIdx hb) (pairwise_zipIdx xs (start + 1))

/-- Places are found in order. -/
theorem pairwise_places : (l.places other).Pairwise fun e e' => e.1 ≤ e'.1 := by
  refine List.pairwise_flatMap.2 ⟨fun piece _ => ?_, ?_⟩
  · refine List.pairwise_map.2 ?_
    have hsorted : (((((neighbours other.points).filter (boxesMeet piece.1)).filterMap
        (pieceCrossing? piece.1)).mergeSort Scalar.totalLe).Pairwise fun t t' => t ≤ t') :=
      pairwise_mergeSort_key id _
    refine hsorted.imp fun {t t'} h => ?_
    exact Prod.Lex.le_iff.2 (.inr ⟨rfl, h⟩)
  · refine (pairwise_zipIdx _ 0).imp fun hlt e he e' he' => ?_
    obtain ⟨t, -, rfl⟩ := List.mem_map.1 he
    obtain ⟨t', -, rfl⟩ := List.mem_map.1 he'
    exact Prod.Lex.le_iff.2 (.inl hlt)

end

/-! ## Dropping what is too close -/

/-- Two points are further apart than `10⁻⁹`. -/
def Far (p q : Point Rat) : Prop :=
  1 / 10 ^ 18 < (p.x - q.x) ^ 2 + (p.y - q.y) ^ 2

theorem apart_iff_far {p q : Point Rat} : apart p q = true ↔ Far p q := by
  simp only [apart, Scalar.isLong, Far, decide_eq_true_eq, gt_iff_lt, sq]
  norm_num

theorem Far.symm {p q : Point Rat} (h : Far p q) : Far q p := by
  unfold Far at h ⊢
  rwa [sub_sq_comm q.x, sub_sq_comm q.y]

theorem not_far_self (p : Point Rat) : ¬Far p p := by
  unfold Far
  norm_num

/-- What is left of a list of labelled points, read after those kept before it. A point is dropped
only for one that was kept. -/
structure Separated {κ : Type} (R : κ × Point Rat → κ × Point Rat → Prop) (kept : List (Point Rat))
    (entries found : List (κ × Point Rat)) : Prop where
  /-- None is added and the order is kept. -/
  sublist : found.Sublist entries
  /-- Any two that are left are far from each other. -/
  pairwise : found.Pairwise fun e e' => Far e.2 e'.2
  /-- Those that are left are far from those kept before. -/
  far : ∀ e ∈ found, ∀ q ∈ kept, Far e.2 q
  /-- One that is dropped is close to one kept before, or to an earlier one that is left. -/
  close : ∀ e ∈ entries, e ∈ found ∨ (∃ q ∈ kept, ¬Far e.2 q) ∨ ∃ e' ∈ found, R e' e ∧ ¬Far e'.2 e.2

/-- What is left of a list is separated, and every point that is dropped has a representative. -/
theorem exists_separated {κ : Type} {R : κ × Point Rat → κ × Point Rat → Prop}
    (kept : List (Point Rat)) {entries : List (κ × Point Rat)} (horder : entries.Pairwise R) :
    ∃ found, separate kept (entries.map Prod.snd) = found.map Prod.snd ∧
      Separated R kept entries found := by
  induction entries generalizing kept with
  | nil => exact ⟨[], rfl, .slnil, .nil, nofun, nofun⟩
  | cons e rest ih =>
    obtain ⟨hfirst, hrest⟩ := List.pairwise_cons.1 horder
    by_cases hkeep : kept.all (apart e.2) = true
    · obtain ⟨found, heq, hfound⟩ := ih (e.2 :: kept) hrest
      have hfar : ∀ q ∈ kept, Far e.2 q := fun q hq =>
        apart_iff_far.1 (List.all_eq_true.1 hkeep q hq)
      refine ⟨e :: found, ?_, hfound.sublist.cons_cons e,
        .cons (fun e' he' => (hfound.far e' he' _ List.mem_cons_self).symm) hfound.pairwise, ?_, ?_⟩
      · rw [List.map_cons, separate, if_pos hkeep, heq, List.map_cons]
      · rintro e' he' q hq
        rcases List.mem_cons.1 he' with rfl | he'
        · exact hfar q hq
        · exact hfound.far e' he' q (List.mem_cons_of_mem _ hq)
      · rintro e' he'
        rcases List.mem_cons.1 he' with rfl | he'
        · exact .inl List.mem_cons_self
        · rcases hfound.close e' he' with hmem | ⟨q, hq, hnear⟩ | ⟨e'', he'', hbefore, hnear⟩
          · exact .inl (List.mem_cons_of_mem _ hmem)
          · rcases List.mem_cons.1 hq with rfl | hq
            -- It is too close to the point just kept.
            · exact .inr (.inr ⟨e, List.mem_cons_self, hfirst e' he', fun h => hnear h.symm⟩)
            · exact .inr (.inl ⟨q, hq, hnear⟩)
          · exact .inr (.inr ⟨e'', List.mem_cons_of_mem _ he'', hbefore, hnear⟩)
    · obtain ⟨found, heq, hfound⟩ := ih kept hrest
      refine ⟨found, ?_, hfound.sublist.cons e, hfound.pairwise, hfound.far, ?_⟩
      · rw [List.map_cons, separate, if_neg hkeep, heq]
      · rintro e' he'
        rcases List.mem_cons.1 he' with rfl | he'
        · obtain ⟨q, hq, hnear⟩ : ∃ q ∈ kept, ¬Far e'.2 q := by
            simpa [apart_iff_far] using hkeep
          exact .inr (.inl ⟨q, hq, hnear⟩)
        · exact hfound.close e' he'

/-! ## The list of crossings -/

/-- The crossings listed of `l` with `other`, each with its place along `l`. -/
structure Located (l other : Polyline Rat) (found : List (Place × Point Rat)) : Prop where
  /-- The polylines meet at the place, in pieces that are not parallel. -/
  sound : ∀ e ∈ found, l.MeetsAt other e.1 e.2
  /-- The places increase. -/
  ordered : found.Pairwise fun e e' => e.1 < e'.1
  /-- The points are far from each other. -/
  separated : found.Pairwise fun e e' => Far e.2 e'.2
  /-- A point in which the polylines meet is listed, or an earlier one close to it is. -/
  complete : ∀ place p, l.MeetsAt other place p →
    (place, p) ∈ found ∨ ∃ e ∈ found, e.1 < place ∧ ¬Far e.2 p

/-- The crossings that are listed of two polylines are points in which they meet, in order along the
first and far from each other, and none is missing that is not close to an earlier one. -/
theorem crossings_located (l other : Polyline Rat) :
    ∃ found, l.crossings other = found.map Prod.snd ∧ Located l other found := by
  have hplaces : (l.places other).Pairwise _ := pairwise_places
  obtain ⟨found, heq, hfound⟩ := exists_separated [] hplaces
  have hsound : ∀ e ∈ found, l.MeetsAt other e.1 e.2 := fun e he =>
    mem_places.1 (hfound.sublist.subset he)
  refine ⟨found, crossings_eq_separate_places.trans heq, hsound, ?_, hfound.pairwise, ?_⟩
  · have hboth := (pairwise_places.sublist hfound.sublist).and hfound.pairwise
    refine hboth.imp_of_mem fun {e e'} he he' h => h.1.lt_of_ne fun hplace => ?_
    have hpoint : e.2 = e'.2 := (hsound e he).unique (hplace ▸ hsound e' he')
    exact not_far_self e'.2 (hpoint ▸ h.2)
  · intro place p hmeet
    rcases hfound.close (place, p) (mem_places.2 hmeet) with hmem | ⟨_, hnone, -⟩ |
      ⟨e, he, hbefore, hnear⟩
    · exact .inl hmem
    · exact absurd hnone List.not_mem_nil
    · rcases hbefore.lt_or_eq with hlt | hplace
      · exact .inr ⟨e, he, hlt, hnear⟩
      · have hpoint : e.2 = p := (hsound e he).unique (hplace ▸ hmeet)
        exact .inl ((Prod.ext hplace hpoint : e = (place, p)) ▸ he)

end Polyline

end CurveSketch
