import CurveSketch.Proofs.BetweenCrossings
import CurveSketch.Proofs.KeyOrder
import CurveSketch.Proofs.Trace

/-!
# Clipping to a half plane

A boundary without ends has a half plane inside. Of each piece of a polyline it keeps what is
between two parameters, or nothing (`Segment.clip?_cases`): an end of the piece that is outside is
moved to the place where the piece meets the boundary's line. The kept parts are strung together, so
what was cut off between two of them is bridged along that line.

The main result is `Segment.clip_halfPlane`: in exact arithmetic the clipped polyline has all of the
polyline that is inside, vertices in order, and nothing else but the bridges on the boundary.
-/

namespace CurveSketch

namespace Segment

variable {s : Segment Rat} {a b p : Point Rat} {t : Rat}

/-! ## The line of a boundary -/

/-- A point lies on the line of a boundary. -/
def Carries (s : Segment Rat) (p : Point Rat) : Prop :=
  ∃ t, p = s.pointAt t

/-- The line of a boundary meets a piece in a point, and does not run along it. -/
structure Meets (s : Segment Rat) (piece : Point Rat × Point Rat) (p : Point Rat) : Prop where
  not_parallel : s.direction.cross (piece.2 - piece.1) ≠ 0
  carries : s.Carries p
  between : ∃ t, 0 ≤ t ∧ t ≤ 1 ∧ p = piece.1.lerp piece.2 t

/-- Neither inside nor outside are the points of the line. -/
theorem carries_of_inward_eq_zero (h : s.start ≠ s.stop) (hp : s.inward p = 0) : s.Carries p :=
  ⟨s.foot p, (pointAt_foot h hp).symm⟩

/-! ## The part of a piece that is kept -/

/-- A line that leads inwards meets the boundary where it leaves when travelled backwards. -/
theorem inward_enteringParam (h : s.inward a < s.inward b) :
    s.inward (a.lerp b (1 - s.leavingParam b a)) = 0 := by
  rw [Point.lerp_one_sub]
  exact inward_leavingParam h

/-- A boundary keeps the part of a piece between two parameters. -/
structure Keeps (s : Segment Rat) (a b : Point Rat) (first last : Rat) : Prop where
  nonneg : 0 ≤ first
  le : first ≤ last
  le_one : last ≤ 1
  /-- It is what is inside. -/
  contains_iff : ∀ t, 0 ≤ t → t ≤ 1 → (s.contains (a.lerp b t) = true ↔ first ≤ t ∧ t ≤ last)
  /-- Where it does not start with the piece, it starts on the boundary's line. -/
  first_eq : first = 0 ∨ s.inward a ≠ s.inward b ∧ s.inward (a.lerp b first) = 0
  /-- Where it does not stop with the piece, it stops on the boundary's line. -/
  last_eq : last = 1 ∨ s.inward a ≠ s.inward b ∧ s.inward (a.lerp b last) = 0

section

variable (hreach : ∀ t, s.reaches t = true)

include hreach

theorem contains_iff_inward_nonneg : s.contains p = true ↔ 0 ≤ s.inward p := by
  rw [contains_iff, and_iff_left (hreach _)]

theorem keeps_of_inside (ha : 0 ≤ s.inward a) (hb : 0 ≤ s.inward b) : s.Keeps a b 0 1 where
  nonneg := le_rfl
  le := zero_le_one
  le_one := le_rfl
  contains_iff t h0 h1 := by
    rw [contains_iff_inward_nonneg hreach]
    exact iff_of_true (inward_lerp_nonneg h0 h1 ha hb) ⟨h0, h1⟩
  first_eq := .inl rfl
  last_eq := .inl rfl

theorem keeps_of_leaving (ha : 0 ≤ s.inward a) (hb : s.inward b < 0) :
    s.Keeps a b 0 (s.leavingParam a b) := by
  have hlt : s.inward b < s.inward a := hb.trans_le ha
  have hinside : ∀ t, 0 ≤ s.inward (a.lerp b t) ↔ t ≤ s.leavingParam a b := fun t =>
    inward_nonneg_iff_le_leavingParam hlt
  refine ⟨le_rfl, (hinside 0).1 (by rwa [Point.lerp_zero]), ?_, fun t h0 _ => ?_, .inl rfl,
    .inr ⟨hlt.ne', inward_leavingParam hlt⟩⟩
  · refine le_of_not_ge fun hge => hb.not_ge ?_
    rw [← Point.lerp_one a b]
    exact (hinside 1).2 hge
  · rw [contains_iff_inward_nonneg hreach, hinside, and_iff_right h0]

theorem keeps_of_entering (ha : s.inward a < 0) (hb : 0 ≤ s.inward b) :
    s.Keeps a b (1 - s.leavingParam b a) 1 := by
  -- travelled backwards, the piece leaves the inside
  have hback := keeps_of_leaving hreach hb ha
  have hlt : s.inward a < s.inward b := ha.trans_le hb
  refine ⟨sub_nonneg.2 hback.le_one, sub_le_self 1 hback.le, le_rfl, fun t h0 h1 => ?_,
    .inr ⟨hlt.ne, inward_enteringParam hlt⟩, .inl rfl⟩
  rw [← sub_sub_cancel 1 t, Point.lerp_one_sub,
    hback.contains_iff (1 - t) (sub_nonneg.2 h1) (sub_le_self 1 h0), sub_sub_cancel]
  constructor
  · rintro ⟨-, h⟩
    exact ⟨by linarith, h1⟩
  · rintro ⟨h, -⟩
    exact ⟨sub_nonneg.2 h1, by linarith⟩

/-- Clipping a piece to a boundary without ends keeps what is inside, if there is something. -/
theorem clip?_cases (a b : Point Rat) :
    (s.clip? (closed a b) = none ∧ ∀ t, 0 ≤ t → t ≤ 1 → s.contains (a.lerp b t) ≠ true) ∨
      ∃ first last, s.Keeps a b first last ∧
        s.clip? (closed a b) = some (closed (a.lerp b first) (a.lerp b last)) := by
  rcases lt_or_ge (s.inward a) 0 with ha | ha <;> rcases lt_or_ge (s.inward b) 0 with hb | hb
  · refine .inl ⟨clip?_of_outside ha hb, fun t h0 h1 => ?_⟩
    rw [ne_eq, contains_iff_inward_nonneg hreach, not_le]
    exact inward_lerp_neg h0 h1 ha hb
  · have hkeeps := keeps_of_entering hreach ha hb
    have hzero := inward_enteringParam (ha.trans_le hb)
    refine .inr ⟨_, _, hkeeps, ?_⟩
    rw [Point.lerp_one]
    exact clip?_of_entering hreach hkeeps.nonneg hkeeps.le hzero ha hb
  · have hkeeps := keeps_of_leaving hreach ha hb
    have hzero := inward_leavingParam (hb.trans_le ha)
    refine .inr ⟨_, _, hkeeps, ?_⟩
    rw [Point.lerp_zero]
    exact clip?_of_leaving hreach hkeeps.le hkeeps.le_one hzero ha hb
  · refine .inr ⟨_, _, keeps_of_inside hreach ha hb, ?_⟩
    rw [Point.lerp_zero, Point.lerp_one]
    exact clip?_of_inside hreach ha hb

end

namespace Keeps

variable {first last : Rat} (h : s.Keeps a b first last)

include h

theorem contains_first : s.contains (a.lerp b first) = true :=
  (h.contains_iff first h.nonneg (h.le.trans h.le_one)).2 ⟨le_rfl, h.le⟩

theorem contains_last : s.contains (a.lerp b last) = true :=
  (h.contains_iff last (h.nonneg.trans h.le) h.le_one).2 ⟨h.le, le_rfl⟩

/-- If the start of the piece is inside, the part starts there. -/
theorem first_eq_zero (ha : s.contains a = true) : first = 0 := by
  rw [← Point.lerp_zero a b, h.contains_iff 0 le_rfl zero_le_one] at ha
  exact ha.1.antisymm h.nonneg

/-- If the end of the piece is inside, the part stops there. -/
theorem last_eq_one (hb : s.contains b = true) : last = 1 := by
  rw [← Point.lerp_one a b, h.contains_iff 1 zero_le_one le_rfl] at hb
  exact h.le_one.antisymm hb.2

/-- If the start of the piece is outside, the part starts on the boundary's line. -/
theorem inward_first (ha : s.contains a ≠ true) : s.inward (a.lerp b first) = 0 := by
  refine h.first_eq.elim (fun hfirst => absurd h.contains_first ?_) And.right
  rwa [hfirst, Point.lerp_zero]

/-- If the end of the piece is outside, the part stops on the boundary's line. -/
theorem inward_last (hb : s.contains b ≠ true) : s.inward (a.lerp b last) = 0 := by
  refine h.last_eq.elim (fun hlast => absurd h.contains_last ?_) And.right
  rwa [hlast, Point.lerp_one]

end Keeps

/-! ## The ends of the parts -/

variable {points : List (Point Rat)}

theorem keptEnds_of_keeps {first last : Rat}
    (h : s.clip? (closed a b) = some (closed (a.lerp b first) (a.lerp b last)))
    (points : List (Point Rat)) : s.keptEnds (a :: b :: points) =
      a.lerp b first :: a.lerp b last :: s.keptEnds (b :: points) := by
  rw [keptEnds_cons_cons, h]
  rfl

theorem keptEnds_of_none (h : s.clip? (closed a b) = none) (points : List (Point Rat)) :
    s.keptEnds (a :: b :: points) = s.keptEnds (b :: points) := by
  rw [keptEnds_cons_cons, h]
  rfl

section

variable (hreach : ∀ t, s.reaches t = true)

include hreach

/-- The ends are those of kept parts of pieces. -/
theorem exists_keeps_of_mem_keptEnds (hp : p ∈ s.keptEnds points) :
    ∃ piece ∈ neighbours points, ∃ first last, s.Keeps piece.1 piece.2 first last ∧
      (p = piece.1.lerp piece.2 first ∨ p = piece.1.lerp piece.2 last) := by
  obtain ⟨piece, hpiece, part, hclip, hp⟩ := mem_keptEnds.1 hp
  rcases clip?_cases hreach piece.1 piece.2 with ⟨hnone, -⟩ | ⟨first, last, hkeeps, hsome⟩
  · rw [hnone] at hclip
    cases hclip
  · obtain rfl := Option.some.inj (hsome.symm.trans hclip)
    exact ⟨piece, hpiece, first, last, hkeeps, by simpa [closed] using hp⟩

omit hreach in
/-- The end of a piece, if it is inside, is that of the part that is kept. -/
theorem Keeps.sublist_cons {first last : Rat} (h : s.Keeps a b first last)
    {ends : List (Point Rat)} (hrest : (points.filter s.contains).Sublist ends) :
    ((b :: points).filter s.contains).Sublist (a.lerp b last :: ends) := by
  by_cases hb : s.contains b = true
  · rw [List.filter_cons_of_pos hb, h.last_eq_one hb, Point.lerp_one]
    exact hrest.cons_cons b
  · rw [List.filter_cons_of_neg hb]
    exact hrest.cons _

/-- The vertices after the first, those of them that are inside, are ends of parts in order. -/
theorem sublist_keptEnds_cons (a : Point Rat) (points : List (Point Rat)) :
    (points.filter s.contains).Sublist (s.keptEnds (a :: points)) := by
  induction points generalizing a with
  | nil => exact List.nil_sublist _
  | cons b points ih =>
    rcases clip?_cases hreach a b with ⟨hnone, hout⟩ | ⟨first, last, hkeeps, hsome⟩
    · have hb : s.contains b ≠ true := Point.lerp_one a b ▸ hout 1 zero_le_one le_rfl
      rw [keptEnds_of_none hnone, List.filter_cons_of_neg hb]
      exact ih b
    · rw [keptEnds_of_keeps hsome]
      exact (hkeeps.sublist_cons (ih b)).cons _

/-- The vertices that are inside are ends of parts in order. -/
theorem sublist_keptEnds (hlength : 2 ≤ points.length) :
    (points.filter s.contains).Sublist (s.keptEnds points) := by
  match points, hlength with
  | a :: b :: points, _ =>
    by_cases ha : s.contains a = true
    · rcases clip?_cases hreach a b with ⟨-, hout⟩ | ⟨first, last, hkeeps, hsome⟩
      · exact absurd ha (Point.lerp_zero a b ▸ hout 0 le_rfl zero_le_one)
      · rw [keptEnds_of_keeps hsome, hkeeps.first_eq_zero ha, Point.lerp_zero,
          List.filter_cons_of_pos ha]
        exact (hkeeps.sublist_cons (sublist_keptEnds_cons hreach b points)).cons_cons a
    · rw [List.filter_cons_of_neg ha]
      exact sublist_keptEnds_cons hreach a (b :: points)

/-- What is left of the rest of a polyline starts with its first vertex, if that is inside, and on
the boundary's line otherwise. -/
theorem head?_keptEnds (hp : (s.keptEnds (a :: points)).head? = some p) :
    s.contains a = true ∧ p = a ∨ s.contains a ≠ true ∧ s.inward p = 0 := by
  induction points generalizing a with
  | nil => exact absurd hp nofun
  | cons b points ih =>
    rcases clip?_cases hreach a b with ⟨hnone, hout⟩ | ⟨first, last, hkeeps, hsome⟩
    · have ha : s.contains a ≠ true := Point.lerp_zero a b ▸ hout 0 le_rfl zero_le_one
      have hb : s.contains b ≠ true := Point.lerp_one a b ▸ hout 1 zero_le_one le_rfl
      rw [keptEnds_of_none hnone] at hp
      exact .inr ⟨ha, ((ih hp).resolve_left fun h => hb h.1).2⟩
    · rw [keptEnds_of_keeps hsome] at hp
      obtain rfl := Option.some.inj hp
      by_cases ha : s.contains a = true
      · rw [hkeeps.first_eq_zero ha, Point.lerp_zero]
        exact .inl ⟨ha, rfl⟩
      · exact .inr ⟨ha, hkeeps.inward_first ha⟩

end

/-! ## The way from end to end -/

/-- The straight way between two points is inside a boundary, on a polyline, or it is along the
boundary's line. -/
def Follows (s : Segment Rat) (points : List (Point Rat)) (p q : Point Rat) : Prop :=
  ∀ t, 0 ≤ t → t ≤ 1 → OnLine points (p.lerp q t) ∧ s.contains (p.lerp q t) = true ∨
    s.inward (p.lerp q t) = 0

theorem Follows.cons {q : Point Rat} (h : s.Follows points p q) (a : Point Rat) :
    s.Follows (a :: points) p q := fun t h0 h1 =>
  (h t h0 h1).imp_left (.imp_left (.cons · a))

/-- The part of a piece that is kept follows the piece. -/
theorem Keeps.follows {first last : Rat} (h : s.Keeps a b first last) (points : List (Point Rat)) :
    s.Follows (a :: b :: points) (a.lerp b first) (a.lerp b last) := by
  intro t h0 h1
  rw [lerp_lerp]
  have hfirst := mul_nonneg (sub_nonneg.2 h.le) h0
  have hlast := mul_nonneg (sub_nonneg.2 h.le) (sub_nonneg.2 h1)
  have hnonneg := h.nonneg
  have hle := h.le_one
  have hlow : 0 ≤ first + (last - first) * t := by linarith
  have hhigh : first + (last - first) * t ≤ 1 := by linarith
  exact .inl ⟨.of_lerp hlow hhigh rfl, (h.contains_iff _ hlow hhigh).2 ⟨by linarith, by linarith⟩⟩

/-- What is between the ends of a part is on the straight way from the one to the other. -/
theorem Keeps.exists_lerp_lerp {first last : Rat} (h : s.Keeps a b first last)
    (ht : first ≤ t ∧ t ≤ last) : ∃ w, 0 ≤ w ∧ w ≤ 1 ∧
      a.lerp b t = (a.lerp b first).lerp (a.lerp b last) w := by
  refine ⟨(t - first) / (last - first), div_nonneg (sub_nonneg.2 ht.1) (sub_nonneg.2 h.le),
    div_le_one_of_le₀ (sub_le_sub_right ht.2 first) (sub_nonneg.2 h.le), ?_⟩
  rw [lerp_lerp, mul_div_cancel_of_imp', add_sub_cancel]
  intro hzero
  linarith

theorem ends_mem_neighbours {piece : Point Rat × Point Rat} {part : Segment Rat}
    (hpiece : piece ∈ neighbours points) (hpart : s.clip? (closed piece.1 piece.2) = some part) :
    (part.start, part.stop) ∈ neighbours (s.keptEnds points) := by
  have hkept : part ∈ (neighbours points).filterMap fun piece => s.clip? (closed piece.1 piece.2) :=
    List.mem_filterMap.2 ⟨piece, hpiece, hpart⟩
  obtain ⟨before, after, hsplit⟩ := List.append_of_mem hkept
  rw [keptEnds, hsplit, List.flatMap_append, List.flatMap_cons]
  exact mem_neighbours_iff.2 ⟨_, _, List.append_assoc ..⟩

section

variable (hreach : ∀ t, s.reaches t = true)

include hreach

/-- From the part of a piece that is kept to the next part there is no way, or a bridge. -/
theorem Keeps.follows_head? {first last : Rat} (h : s.Keeps a b first last)
    (hp : (s.keptEnds (b :: points)).head? = some p) :
    s.Follows (a :: b :: points) (a.lerp b last) p := by
  intro t _ _
  rcases head?_keptEnds hreach hp with ⟨hb, rfl⟩ | ⟨hb, hzero⟩
  · rw [h.last_eq_one hb, Point.lerp_one, Point.lerp_self]
    exact .inl ⟨.of_lerp zero_le_one le_rfl (Point.lerp_one a p).symm, hb⟩
  · rw [inward_lerp, h.inward_last hb, hzero, zero_mul, zero_mul, add_zero]
    exact .inr rfl

/-- Between two ends that follow each other the way is on the polyline, or along a bridge. -/
theorem follows_of_mem_neighbours {pair : Point Rat × Point Rat}
    (hpair : pair ∈ neighbours (s.keptEnds points)) : s.Follows points pair.1 pair.2 := by
  induction points with
  | nil => exact absurd hpair List.not_mem_nil
  | cons a points ih =>
    match points, ih with
    | [], _ => exact absurd hpair List.not_mem_nil
    | b :: points, ih =>
      rcases clip?_cases hreach a b with ⟨hnone, -⟩ | ⟨first, last, hkeeps, hsome⟩
      · rw [keptEnds_of_none hnone] at hpair
        exact (ih hpair).cons a
      · rw [keptEnds_of_keeps hsome, neighbours_cons_cons] at hpair
        rcases List.mem_cons.1 hpair with rfl | hpair
        · exact hkeeps.follows points
        · rcases mem_neighbours_cons.1 hpair with ⟨hstart, hhead⟩ | hpair
          · exact hstart ▸ hkeeps.follows_head? hreach hhead
          · exact (ih hpair).cons a

end

/-! ## The clipped polyline -/

/-- What a boundary makes of a polyline that is clipped to its inside. -/
structure HalfPlanePart (s : Segment Rat) (l clipped : Polyline Rat) : Prop where
  /-- Every vertex is inside. -/
  inside : ∀ p ∈ clipped.points, s.contains p = true
  /-- Every vertex of the polyline that is inside is there, in its place in the order. -/
  kept : ∃ place : Nat → Nat, Monotone place ∧ ∀ i p, l.points[i]? = some p →
    s.contains p = true → clipped.points[place i]? = some p
  /-- Every other vertex is where a piece meets the boundary's line. -/
  vertex : ∀ p ∈ clipped.points, p ∈ l.points ∨ ∃ piece ∈ neighbours l.points, s.Meets piece p
  /-- Every point of the polyline that is inside is passed through. -/
  covers : ∀ p, Visits l.points p → s.contains p = true → Visits clipped.points p
  /-- Nothing else is, but for bridges along the boundary's line. -/
  bridged : ∀ p, Visits clipped.points p →
    Visits l.points p ∧ s.contains p = true ∨ s.Carries p
  /-- Neighbouring vertices are different. -/
  distinct : clipped.points.IsChain (· ≠ ·)
  /-- The turning points are those that are inside. -/
  turning : clipped.turning.Perm (l.turning.filter fun t => s.contains t.point)
  /-- They are in order of their horizontal coordinate. -/
  sorted : clipped.turning.Pairwise fun t u => t.point.x ≤ u.point.x
  /-- If they were so before, their order is the same. -/
  turning_eq : (l.turning.Pairwise fun t u => t.point.x ≤ u.point.x) →
    clipped.turning = l.turning.filter fun t => s.contains t.point

variable {l : Polyline Rat}

theorem turning_clip_perm (s : Segment Rat) (l : Polyline Rat) :
    (s.clip l).turning.Perm (l.turning.filter fun t => s.contains t.point) :=
  List.mergeSort_perm _ _

theorem turning_clip_sorted (s : Segment Rat) (l : Polyline Rat) :
    (s.clip l).turning.Pairwise fun t u => t.point.x ≤ u.point.x :=
  pairwise_mergeSort_key (fun t : TurningPoint Rat => t.point.x) _

section

variable (hreach : ∀ t, s.reaches t = true)

include hreach

theorem contains_of_mem_clip (hp : p ∈ (s.clip l).points) : s.contains p = true := by
  obtain ⟨piece, -, first, last, hkeeps, rfl | rfl⟩ :=
    exists_keeps_of_mem_keptEnds hreach ((collapse_sublist _).subset hp)
  · exact hkeeps.contains_first
  · exact hkeeps.contains_last

/-- The vertices that are inside keep their order. -/
theorem exists_place_clip (hlength : 2 ≤ l.points.length) :
    ∃ place : Nat → Nat, Monotone place ∧ ∀ i p, l.points[i]? = some p → s.contains p = true →
      (s.clip l).points[place i]? = some p := by
  obtain ⟨among, hamong, hfilter⟩ := exists_place_filter s.contains l.points
  obtain ⟨place, hplace, hclip⟩ := exists_place_of_sublist (sublist_keptEnds hreach hlength)
  exact ⟨place ∘ among, hplace.comp hamong, fun i p hi hp => hclip _ p (hfilter i p hi hp)⟩

theorem mem_or_meets_of_mem_clip (hdirection : s.start ≠ s.stop) (hp : p ∈ (s.clip l).points) :
    p ∈ l.points ∨ ∃ piece ∈ neighbours l.points, s.Meets piece p := by
  obtain ⟨piece, hpiece, first, last, hkeeps, hend⟩ :=
    exists_keeps_of_mem_keptEnds hreach ((collapse_sublist _).subset hp)
  obtain ⟨hstart, hstop⟩ := mem_of_mem_neighbours hpiece
  -- an end that is cut off is on the boundary's line
  have hmeets : ∀ {t : Rat}, 0 ≤ t → t ≤ 1 →
      s.inward piece.1 ≠ s.inward piece.2 ∧ s.inward (piece.1.lerp piece.2 t) = 0 →
      s.Meets piece (piece.1.lerp piece.2 t) := fun {t} h0 h1 h =>
    ⟨fun hparallel => h.1 (inward_eq_inward_iff_cross_eq_zero.2 hparallel),
      carries_of_inward_eq_zero hdirection h.2, t, h0, h1, rfl⟩
  rcases hend with rfl | rfl
  · rcases hkeeps.first_eq with rfl | hcut
    · exact .inl ((Point.lerp_zero piece.1 piece.2).symm ▸ hstart)
    · exact .inr ⟨piece, hpiece, hmeets hkeeps.nonneg (hkeeps.le.trans hkeeps.le_one) hcut⟩
  · rcases hkeeps.last_eq with rfl | hcut
    · exact .inl ((Point.lerp_one piece.1 piece.2).symm ▸ hstop)
    · exact .inr ⟨piece, hpiece, hmeets (hkeeps.nonneg.trans hkeeps.le) hkeeps.le_one hcut⟩

/-- What is inside is kept. -/
theorem visits_clip (hlength : 2 ≤ l.points.length) (hp : Visits l.points p)
    (hinside : s.contains p = true) : Visits (s.clip l).points p := by
  obtain ⟨piece, hpiece, t, h0, h1, rfl⟩ := hp.onLine hlength
  rcases clip?_cases hreach piece.1 piece.2 with ⟨-, hout⟩ | ⟨first, last, hkeeps, hsome⟩
  · exact absurd hinside (hout t h0 h1)
  · obtain ⟨w, hw0, hw1, hw⟩ := hkeeps.exists_lerp_lerp ((hkeeps.contains_iff t h0 h1).1 hinside)
    rw [hw]
    rcases mem_neighbours_collapse (ends_mem_neighbours hpiece hsome) with ⟨heq, hmem⟩ | hmem
    · have heq : piece.1.lerp piece.2 first = piece.1.lerp piece.2 last := heq
      rw [← heq, Point.lerp_self]
      exact .inl hmem
    · exact .inr ⟨_, hmem, w, hw0, hw1, rfl⟩

/-- Nothing else is passed through but bridges along the boundary's line. -/
theorem visits_or_carries_of_visits_clip (hdirection : s.start ≠ s.stop)
    (hp : Visits (s.clip l).points p) : Visits l.points p ∧ s.contains p = true ∨ s.Carries p := by
  rcases hp with hp | ⟨pair, hpair, t, h0, h1, rfl⟩
  · rcases mem_or_meets_of_mem_clip hreach hdirection hp with hmem | ⟨piece, -, hmeets⟩
    · exact .inl ⟨.inl hmem, contains_of_mem_clip hreach hp⟩
    · exact .inr hmeets.carries
  · have hfollows := follows_of_mem_neighbours hreach (neighbours_collapse_subset _ hpair) t h0 h1
    exact hfollows.imp (.imp_left .inr) (carries_of_inward_eq_zero hdirection)

end

/-- In exact arithmetic, a polyline of two vertices or more clipped to a full line has what is
inside. -/
theorem clip_halfPlane {s : Segment Rat} {side : Side} (hextent : s.extent = .fullLine side)
    (hdirection : s.start ≠ s.stop) {l : Polyline Rat} (hlength : 2 ≤ l.points.length) :
    s.HalfPlanePart l (s.clip l) := by
  have hreach : ∀ t, s.reaches t = true := fun t => by
    rw [reaches, hextent]
    rfl
  exact {
    inside := fun _ => contains_of_mem_clip hreach
    kept := exists_place_clip hreach hlength
    vertex := fun _ => mem_or_meets_of_mem_clip hreach hdirection
    covers := fun _ => visits_clip hreach hlength
    bridged := fun _ => visits_or_carries_of_visits_clip hreach hdirection
    distinct := isChain_collapse _
    turning := turning_clip_perm s l
    sorted := turning_clip_sorted s l
    turning_eq := Region.turning_clip }

/-- A polyline that crosses the vertical axis to the right, comes back to touch it, and crosses it
again, with a maximum on the left of it and a minimum on the right. -/
theorem clip_halfPlane_touching :
    let s : Segment Rat := .fullLine .origin .up .left
    let l : Polyline Rat := ⟨[⟨-3, 0⟩, ⟨-2, 2⟩, ⟨2, -2⟩, ⟨0, 3⟩, ⟨1, 4⟩, ⟨-1, 6⟩],
      [⟨⟨-2, 2⟩, .maxima⟩, ⟨⟨2, -2⟩, .minima⟩]⟩
    s.extent = .fullLine .left ∧ s.start ≠ s.stop ∧ 2 ≤ l.points.length ∧
      (s.clip l).points = [⟨-3, 0⟩, ⟨-2, 2⟩, ⟨0, 0⟩, ⟨0, 3⟩, ⟨0, 5⟩, ⟨-1, 6⟩] ∧
      (s.clip l).turning = [⟨⟨-2, 2⟩, .maxima⟩] ∧ s.HalfPlanePart l (s.clip l) := by
  intro s l
  have hdirection : s.start ≠ s.stop := fun h => absurd (congrArg Point.y h) (by decide +kernel)
  have hlength : 2 ≤ l.points.length := by decide
  have hextent : s.extent = .fullLine .left := rfl
  have hpart := clip_halfPlane hextent hdirection hlength
  have hpoints : (s.clip l).points = [⟨-3, 0⟩, ⟨-2, 2⟩, ⟨0, 0⟩, ⟨0, 3⟩, ⟨0, 5⟩, ⟨-1, 6⟩] :=
    eq_of_beq (by decide +kernel)
  have hinside : s.contains ⟨-2, 2⟩ = true ∧ s.contains ⟨2, -2⟩ = false := by decide +kernel
  have hturning : (s.clip l).turning = [⟨⟨-2, 2⟩, .maxima⟩] := by
    rw [hpart.turning_eq (List.pairwise_pair.2 (by decide +kernel))]
    simp [l, hinside]
  exact ⟨hextent, hdirection, hlength, hpoints, hturning, hpart⟩

end Segment

end CurveSketch
