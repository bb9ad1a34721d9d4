import CurveSketch.Proofs.TurningVertex

/-!
# The trace of a polyline

The points that a polyline runs through (`OnLine`) say more about a drawing than its vertices, since
a vertex may stand on a straight piece. A polyline that runs to the right has at most one point
above each place (`Rightward.onLine_unique`), and is straight on both sides of each
(`Rightward.exists_straightAround`). So if the trace is its own image under a map that exchanges
left and right (`OwnImage`), then the turning vertices are the images of the turning vertices
(`Flips.reflected_turns`).
-/

namespace CurveSketch

/-- The polyline runs through a point. -/
def OnLine (points : List (Point Rat)) (p : Point Rat) : Prop :=
  ∃ piece ∈ neighbours points, ∃ t : Rat, 0 ≤ t ∧ t ≤ 1 ∧ p = piece.1.lerp piece.2 t

namespace OnLine

variable {a b p : Point Rat} {points : List (Point Rat)}

theorem cons (h : OnLine points p) (a : Point Rat) : OnLine (a :: points) p := by
  obtain ⟨piece, hpiece, h⟩ := h
  match points, hpiece with
  | b :: c :: rest, hpiece => exact ⟨piece, List.mem_cons_of_mem _ hpiece, h⟩

theorem of_lerp {t : Rat} (h0 : 0 ≤ t) (h1 : t ≤ 1) (hp : p = a.lerp b t) :
    OnLine (a :: b :: points) p :=
  ⟨(a, b), List.mem_cons_self, t, h0, h1, hp⟩

/-- A point of a polyline is on its first piece or on the rest. -/
theorem cases_cons (h : OnLine (a :: b :: points) p) :
    (∃ t, 0 ≤ t ∧ t ≤ 1 ∧ p = a.lerp b t) ∨ OnLine (b :: points) p := by
  obtain ⟨piece, hpiece, h⟩ := h
  rcases List.mem_cons.1 hpiece with rfl | hpiece
  · exact .inl h
  · exact .inr ⟨piece, hpiece, h⟩

theorem of_mem (hlength : 2 ≤ points.length) (hp : p ∈ points) : OnLine points p := by
  induction points with
  | nil => exact absurd hp List.not_mem_nil
  | cons a rest ih =>
    match rest, hp with
    | b :: rest, hp =>
      rcases List.mem_cons.1 hp with rfl | hp
      · exact of_lerp le_rfl zero_le_one (Point.lerp_zero p b).symm
      · rcases List.mem_cons.1 hp with rfl | hp'
        · exact of_lerp zero_le_one le_rfl (Point.lerp_one a p).symm
        · exact (ih (Nat.succ_le_succ (List.length_pos_of_mem hp')) hp).cons a

/-- A map that takes pieces to pieces takes a polyline to the polyline through the images. -/
theorem map {g : Point Rat → Point Rat} (hg : ∀ a b t, g (a.lerp b t) = (g a).lerp (g b) t)
    (h : OnLine points p) : OnLine (points.map g) (g p) := by
  obtain ⟨piece, hpiece, t, h0, h1, rfl⟩ := h
  exact ⟨(g piece.1, g piece.2), neighbours_map g points ▸ List.mem_map_of_mem hpiece, t, h0, h1,
    hg ..⟩

theorem reverse (h : OnLine points p) : OnLine points.reverse p := by
  obtain ⟨piece, hpiece, t, h0, h1, rfl⟩ := h
  have hbackwards := List.reverse_infix.2 (mem_neighbours_iff.1 hpiece)
  exact ⟨(piece.2, piece.1), mem_neighbours_iff.2 hbackwards, 1 - t, sub_nonneg.2 h1,
    sub_le_self 1 h0, (Point.lerp_one_sub ..).symm⟩

end OnLine

/-- The polyline has a vertex at a point, or runs through it; a single vertex runs nowhere. -/
def Visits (points : List (Point Rat)) (p : Point Rat) : Prop :=
  p ∈ points ∨ OnLine points p

theorem Visits.onLine {points : List (Point Rat)} {p : Point Rat} (h : Visits points p)
    (hlength : 2 ≤ points.length) : OnLine points p :=
  h.elim (.of_mem hlength) id

/-! ## Between two points -/

theorem x_lerp (a b : Point Rat) (t : Rat) : (a.lerp b t).x = a.x + (b.x - a.x) * t := by
  change a.x * (1 - t) + b.x * t = _
  ring

theorem y_lerp (a b : Point Rat) (t : Rat) : (a.lerp b t).y = a.y + (b.y - a.y) * t := by
  change a.y * (1 - t) + b.y * t = _
  ring

/-- A part of a piece is part of the piece. -/
theorem lerp_lerp (a b : Point Rat) (t u w : Rat) :
    (a.lerp b t).lerp (a.lerp b u) w = a.lerp b (t + (u - t) * w) := by
  refine Point.ext_iff.2 ⟨?_, ?_⟩
  · simp only [x_lerp]
    ring
  · simp only [y_lerp]
    ring

/-- A part that starts where the piece does. -/
theorem lerp_lerp_of_start (a b : Point Rat) (u w : Rat) :
    a.lerp (a.lerp b u) w = a.lerp b (u * w) := by
  have h := lerp_lerp a b 0 u w
  rwa [Point.lerp_zero, sub_zero, zero_add] at h

theorem x_lerp_eq_start_iff {a b : Point Rat} {t : Rat} (ht : t ≠ 0) :
    (a.lerp b t).x = a.x ↔ b.x = a.x := by
  rw [x_lerp, add_eq_left, mul_eq_zero_iff_right ht, sub_eq_zero]

theorem y_lerp_eq_start_iff {a b : Point Rat} {t : Rat} (ht : t ≠ 0) :
    (a.lerp b t).y = a.y ↔ b.y = a.y := by
  rw [y_lerp, add_eq_left, mul_eq_zero_iff_right ht, sub_eq_zero]

theorem x_lerp_eq_stop_iff {a b : Point Rat} {t : Rat} (ht : t ≠ 1) :
    (a.lerp b t).x = b.x ↔ a.x = b.x := by
  rw [← sub_sub_cancel 1 t, Point.lerp_one_sub, x_lerp_eq_start_iff (sub_ne_zero.2 ht.symm)]

theorem y_lerp_eq_stop_iff {a b : Point Rat} {t : Rat} (ht : t ≠ 1) :
    (a.lerp b t).y = b.y ↔ a.y = b.y := by
  rw [← sub_sub_cancel 1 t, Point.lerp_one_sub, y_lerp_eq_start_iff (sub_ne_zero.2 ht.symm)]

theorem lerp_eq_start_iff {a b : Point Rat} {t : Rat} (ht : t ≠ 0) : a.lerp b t = a ↔ b = a := by
  rw [Point.ext_iff, x_lerp_eq_start_iff ht, y_lerp_eq_start_iff ht, Point.ext_iff]

theorem x_lerp_mem {a b : Point Rat} (h : a.x ≤ b.x) {t : Rat} (h0 : 0 ≤ t) (h1 : t ≤ 1) :
    a.x ≤ (a.lerp b t).x ∧ (a.lerp b t).x ≤ b.x := by
  rw [x_lerp]
  have := mul_nonneg (sub_nonneg.2 h) h0
  have := mul_nonneg (sub_nonneg.2 h) (sub_nonneg.2 h1)
  constructor <;> linarith

/-- Within a piece the line does not turn. -/
theorem not_turnsAt_lerp {a b : Point Rat} {t : Rat} (h0 : 0 ≤ t) (h1 : t ≤ 1) :
    ¬TurnsAt (a, a.lerp b t, b) := by
  rw [turnsAt_iff, y_lerp, not_lt]
  have hnonneg := mul_nonneg (mul_nonneg h0 (sub_nonneg.2 h1)) (mul_self_nonneg (b.y - a.y))
  linarith

/-- All points between two are on the polyline. -/
def Straight (points : List (Point Rat)) (a b : Point Rat) : Prop :=
  ∀ t : Rat, 0 ≤ t → t ≤ 1 → OnLine points (a.lerp b t)

theorem Straight.cons {points : List (Point Rat)} {a b : Point Rat} (h : Straight points a b)
    (c : Point Rat) : Straight (c :: points) a b := fun t h0 h1 =>
  (h t h0 h1).cons c

/-- A part of the first piece. -/
theorem straight_of_lerp {points : List (Point Rat)} {a b c d : Point Rat} {t u : Rat}
    (ht : 0 ≤ t ∧ t ≤ 1) (hu : 0 ≤ u ∧ u ≤ 1) (hc : c = a.lerp b t) (hd : d = a.lerp b u) :
    Straight (a :: b :: points) c d := by
  intro w h0 h1
  have h0' : 0 ≤ t + (u - t) * w := by nlinarith
  have h1' : t + (u - t) * w ≤ 1 := by nlinarith
  exact OnLine.of_lerp h0' h1' (by rw [hc, hd, lerp_lerp])

/-- The polyline is straight on both sides of the point `p`, and `p` is a vertex between two others
if the polyline turns there. -/
def StraightAround (points : List (Point Rat)) (c p d : Point Rat) : Prop :=
  (c.x < p.x ∧ p.x < d.x) ∧ (Straight points c p ∧ Straight points p d) ∧
    (TurnsAt (c, p, d) → (c, p, d) ∈ interior points)

theorem StraightAround.cons {points : List (Point Rat)} {c p d : Point Rat}
    (h : StraightAround points c p d) (a : Point Rat) : StraightAround (a :: points) c p d :=
  ⟨h.1, ⟨h.2.1.1.cons a, h.2.1.2.cons a⟩, fun hturn => interior_subset_cons a _ (h.2.2 hturn)⟩

namespace Rightward

variable {points rest : List (Point Rat)} {a b p q last : Point Rat}

theorem lt_of_mem_neighbours (h : Rightward points) {piece : Point Rat × Point Rat}
    (hpiece : piece ∈ neighbours points) : piece.1.x < piece.2.x := by
  have hpair : Rightward [piece.1, piece.2] := h.of_sublist (mem_neighbours_iff.1 hpiece).sublist
  exact List.rel_of_pairwise_cons hpair List.mem_cons_self

/-- No point is to the left of the first vertex, and no other above it. -/
theorem eq_or_lt_of_onLine (h : Rightward (a :: rest)) (hp : OnLine (a :: rest) p) :
    p = a ∨ a.x < p.x := by
  obtain ⟨piece, hpiece, t, h0, h1, rfl⟩ := hp
  have hlt := h.lt_of_mem_neighbours hpiece
  have hle := (x_lerp_mem hlt.le h0 h1).1
  have hmem : piece.1 ∈ a :: rest := (mem_neighbours_iff.1 hpiece).subset List.mem_cons_self
  rcases List.mem_cons.1 hmem with heq | hmem
  · rcases h0.eq_or_lt with rfl | h0
    · exact .inl ((Point.lerp_zero _ _).trans heq)
    · rw [x_lerp, ← heq]
      exact .inr (lt_add_of_pos_right _ (mul_pos (sub_pos.2 hlt) h0))
  · exact .inr ((List.rel_of_pairwise_cons h hmem).trans_le hle)

theorem x_le_of_onLine (h : Rightward points) (hlast : points.getLast? = some last)
    (hp : OnLine points p) : p.x ≤ last.x := by
  obtain ⟨piece, hpiece, t, h0, h1, rfl⟩ := hp
  have hlt := h.lt_of_mem_neighbours hpiece
  have hmem : piece.2 ∈ points :=
    (mem_neighbours_iff.1 hpiece).subset (List.mem_cons_of_mem _ List.mem_cons_self)
  refine (x_lerp_mem hlt.le h0 h1).2.trans ?_
  exact (eq_or_rel_of_getLast? h hlast hmem).elim (fun heq => heq ▸ le_rfl) le_of_lt

/-- Above each place there is at most one point of the polyline. -/
theorem onLine_unique (h : Rightward points) (hp : OnLine points p) (hq : OnLine points q)
    (hx : p.x = q.x) : p = q := by
  induction points with
  | nil => exact absurd hp (by simp [OnLine])
  | cons a rest ih =>
    cases rest with
    | nil => exact absurd hp (by simp [OnLine])
    | cons b rest =>
      have hrest : Rightward (b :: rest) := (List.pairwise_cons.1 h).2
      have hab : a.x < b.x := List.rel_of_pairwise_cons h List.mem_cons_self
      -- a point of the first piece above a point of the others can only be their common vertex
      have hmeet : ∀ {p q : Point Rat} {t : Rat}, 0 ≤ t → t ≤ 1 → p = a.lerp b t →
          OnLine (b :: rest) q → p.x = q.x → p = q := by
        rintro p q t h0 h1 rfl hq hx
        have hle := (x_lerp_mem hab.le h0 h1).2
        rcases hrest.eq_or_lt_of_onLine hq with rfl | hlt
        · obtain rfl : t = 1 := by_contra fun ht => hab.ne ((x_lerp_eq_stop_iff ht).1 hx)
          exact Point.lerp_one a q
        · exact absurd hx (hle.trans_lt hlt).ne
      rcases hp.cases_cons with ⟨t, h0, h1, hp⟩ | hp <;>
        rcases hq.cases_cons with ⟨u, h0', h1', hq⟩ | hq
      · rw [hp, hq, x_lerp, x_lerp, add_right_inj, mul_right_inj' (sub_pos.2 hab).ne'] at hx
        rw [hp, hq, hx]
      · exact hmeet h0 h1 hp hq hx
      · exact (hmeet h0' h1' hq hp hx.symm).symm
      · exact ih hrest hp hq

/-- A polyline is straight on both sides of a vertex between two others. -/
theorem straightAround_of_mem_interior (h : Rightward points)
    {t : Point Rat × Point Rat × Point Rat} (ht : t ∈ interior points) :
    StraightAround points t.1 t.2.1 t.2.2 := by
  have hpart := mem_interior_iff.1 ht
  have hleft : (t.1, t.2.1) ∈ neighbours points :=
    mem_neighbours_iff.2 ((List.prefix_append [t.1, t.2.1] [t.2.2]).isInfix.trans hpart)
  have hright : (t.2.1, t.2.2) ∈ neighbours points :=
    mem_neighbours_iff.2 ((List.suffix_cons t.1 [t.2.1, t.2.2]).isInfix.trans hpart)
  exact ⟨⟨h.lt_of_mem_neighbours hleft, h.lt_of_mem_neighbours hright⟩,
    ⟨fun u h0 h1 => ⟨_, hleft, u, h0, h1, rfl⟩, fun u h0 h1 => ⟨_, hright, u, h0, h1, rfl⟩⟩,
    fun _ => ht⟩

/-- A polyline is straight on both sides of a point within its first piece. -/
theorem straightAround_lerp (h : Rightward (a :: b :: rest)) {t : Rat} (h0 : 0 < t) (h1 : t < 1) :
    StraightAround (a :: b :: rest) a (a.lerp b t) b := by
  have hab : 0 < b.x - a.x := sub_pos.2 (List.rel_of_pairwise_cons h List.mem_cons_self)
  refine ⟨⟨?_, ?_⟩, ⟨?_, ?_⟩, fun hturn => absurd hturn ?_⟩
  · rw [x_lerp]
    exact lt_add_of_pos_right _ (mul_pos hab h0)
  · rw [x_lerp]
    linarith [mul_lt_mul_of_pos_left h1 hab]
  · exact straight_of_lerp ⟨le_rfl, zero_le_one⟩ ⟨h0.le, h1.le⟩ (Point.lerp_zero a b).symm rfl
  · exact straight_of_lerp ⟨h0.le, h1.le⟩ ⟨zero_le_one, le_rfl⟩ rfl (Point.lerp_one a b).symm
  · exact not_turnsAt_lerp h0.le h1.le

/-- A polyline is straight on both sides of all its points but its ends. -/
theorem exists_straightAround (h : Rightward points) {first : Point Rat}
    (hhead : points.head? = some first) (hlast : points.getLast? = some last)
    (hp : OnLine points p) (hfirst : first.x < p.x) (hlast' : p.x < last.x) :
    ∃ c d, StraightAround points c p d := by
  induction points generalizing first with
  | nil => exact absurd hhead nofun
  | cons a rest ih =>
    obtain rfl : a = first := Option.some.inj hhead
    cases rest with
    | nil => exact absurd hp (by simp [OnLine])
    | cons b rest =>
      rw [List.getLast?_cons_cons] at hlast
      have hrest : Rightward (b :: rest) := (List.pairwise_cons.1 h).2
      have hsecond : p = b → ∃ c d, StraightAround (a :: b :: rest) c p d := by
        rintro rfl
        match rest, hlast with
        | [], hlast => exact absurd (congrArg Point.x (Option.some.inj hlast)) hlast'.ne
        | c :: rest, _ =>
          exact ⟨a, c, h.straightAround_of_mem_interior (t := (a, p, c)) List.mem_cons_self⟩
      rcases hp.cases_cons with ⟨t, h0, h1, hp⟩ | hp
      · have h0' : t ≠ 0 := by
          rintro rfl
          exact hfirst.ne' (congrArg Point.x (hp.trans (Point.lerp_zero a b)))
        rcases h1.eq_or_lt with rfl | h1
        · exact hsecond (hp.trans (Point.lerp_one a b))
        · exact ⟨a, b, hp ▸ straightAround_lerp h (h0.lt_of_ne h0'.symm) h1⟩
      · rcases hrest.eq_or_lt_of_onLine hp with heq | hlt
        · exact hsecond heq
        · obtain ⟨c, d, hcd⟩ := ih hrest rfl hlast hp hlt
          exact ⟨c, d, hcd.cons a⟩

end Rightward

/-! ## A trace that is its own image -/

/-- The images of the points of a polyline are on the polyline. -/
def OwnImage (f : Point Rat → Point Rat) (points : List (Point Rat)) : Prop :=
  ∀ p, OnLine points p → OnLine points (f p)

theorem Point.lerp_sub (a b m : Point Rat) (t : Rat) :
    a.lerp b t - m = (a - m).lerp (b - m) t := by
  refine Point.ext_iff.2 ⟨?_, ?_⟩
  · rw [Point.x_sub, x_lerp, x_lerp, Point.x_sub, Point.x_sub]
    ring
  · rw [Point.y_sub, y_lerp, y_lerp, Point.y_sub, Point.y_sub]
    ring

namespace Flips

variable {f : Point Rat → Point Rat} {factor : Rat} {points : List (Point Rat)}
variable {a b c d v first last : Point Rat}

theorem lerp (hf : Flips f factor) (a b : Point Rat) (t : Rat) :
    f (a.lerp b t) = (f a).lerp (f b) t := by
  refine Point.ext_iff.2 ⟨?_, ?_⟩
  · rw [hf.x, x_lerp, x_lerp, hf.x, hf.x]
    ring
  · rw [hf.y, y_lerp, y_lerp, hf.y, hf.y]
    ring

/-- A polyline is its own image if its vertices are. -/
theorem ownImage_of_vertices (hf : Flips f factor) (h : reflected f points = points) :
    OwnImage f points := fun _ hp => h ▸ (hp.map hf.lerp).reverse

/-- Moved so that a point that is its own image comes to lie on the origin, a polyline that is its
own image stays so. -/
theorem ownImage_sub (hf : Flips f factor) (himage : OwnImage f points) {m : Point Rat}
    (hm : f m = m) : OwnImage f (points.map (· - m)) := by
  have hx : -m.x = m.x := (hf.x m).symm.trans (congrArg Point.x hm)
  have hy : factor * m.y = m.y := (hf.y m).symm.trans (congrArg Point.y hm)
  have hsub : ∀ p, f (p - m) = f p - m := by
    intro p
    refine Point.ext_iff.2 ⟨?_, ?_⟩
    · rw [hf.x, Point.x_sub, Point.x_sub, hf.x]
      linarith
    · rw [hf.y, Point.y_sub, Point.y_sub, hf.y]
      linear_combination -hy
  rintro q ⟨piece, hpiece, t, h0, h1, rfl⟩
  obtain ⟨piece, hmem, rfl⟩ := List.mem_map.1 (neighbours_map (· - m) points ▸ hpiece)
  have hp : OnLine points (piece.1.lerp piece.2 t) := ⟨piece, hmem, t, h0, h1, rfl⟩
  change OnLine _ (f ((piece.1 - m).lerp (piece.2 - m) t))
  rw [← Point.lerp_sub, hsub]
  exact (himage _ hp).map fun a b t => Point.lerp_sub a b m t

/-- The ends are images of each other. -/
theorem image_last (hf : Flips f factor) (h : Rightward points) (himage : OwnImage f points)
    (hlength : 2 ≤ points.length) (hhead : points.head? = some first)
    (hlast : points.getLast? = some last) : f last = first := by
  obtain ⟨rest, rfl⟩ := List.head?_eq_some_iff.1 hhead
  have hfirst : OnLine (first :: rest) first := .of_mem hlength (List.mem_of_head? hhead)
  have hlast' : OnLine (first :: rest) last := .of_mem hlength (List.mem_of_getLast? hlast)
  have hle := h.x_le_of_onLine hlast (himage first hfirst)
  rw [hf.x] at hle
  rcases h.eq_or_lt_of_onLine (himage last hlast') with heq | hlt
  · exact heq
  · rw [hf.x] at hlt
    linarith

/-- On the two sides of a point and of its image a polyline goes up or down alike. -/
theorem slope_eq (hf : Flips f factor) (h : Rightward points) (himage : OwnImage f points)
    (hc : Straight points c (f v)) (hcx : c.x < (f v).x) (hb : Straight points v b)
    (hbx : v.x < b.x) :
    (c.y - (f v).y) * (b.x - v.x) = factor * (b.y - v.y) * ((f v).x - c.x) := by
  have hleft : 0 < (f v).x - c.x := sub_pos.2 hcx
  have hright : 0 < b.x - v.x := sub_pos.2 hbx
  -- a distance from the point that both pieces reach
  obtain ⟨δ, hδ, hδleft, hδright⟩ : ∃ δ : Rat, 0 < δ ∧ δ ≤ (f v).x - c.x ∧ δ ≤ b.x - v.x :=
    ⟨min ((f v).x - c.x) (b.x - v.x), lt_min hleft hright, min_le_left _ _, min_le_right _ _⟩
  have hunit : ∀ {w : Rat}, 0 < w → δ ≤ w → 0 ≤ δ / w ∧ δ / w ≤ 1 := fun hw hle =>
    ⟨(div_pos hδ hw).le, (div_le_one hw).2 hle⟩
  obtain ⟨h0, h1⟩ := hunit hleft hδleft
  obtain ⟨h0', h1'⟩ := hunit hright hδright
  have hp := himage _ (hc (1 - δ / ((f v).x - c.x)) (by linarith) (by linarith))
  have hq := hb (δ / (b.x - v.x)) h0' h1'
  rw [Point.lerp_one_sub] at hp
  have hx : (f ((f v).lerp c (δ / ((f v).x - c.x)))).x = (v.lerp b (δ / (b.x - v.x))).x := by
    have hleft' := hleft.ne'
    rw [hf.x, x_lerp, x_lerp]
    rw [hf.x] at hleft' ⊢
    field_simp
    ring
  have hy := congrArg Point.y (h.onLine_unique hp hq hx)
  rw [hf.y, y_lerp, y_lerp, hf.y v] at hy
  rw [hf.y v]
  generalize (f v).x - c.x = width at *
  generalize b.x - v.x = width' at *
  have hrise : factor * (c.y - factor * v.y) * (δ / width) = (b.y - v.y) * (δ / width') := by
    linear_combination hy - v.y * hf.factor_mul_self
  have hwidths : factor * (c.y - factor * v.y) * width' = (b.y - v.y) * width := by
    field_simp at hrise
    linarith
  linear_combination factor * hwidths - (c.y - factor * v.y) * width' * hf.factor_mul_self

/-- Where a polyline turns, it turns in the image. -/
theorem turnsAt_image (hf : Flips f factor) (h : Rightward points) (himage : OwnImage f points)
    (hv : StraightAround points a v b) (hw : StraightAround points c (f v) d)
    (hturn : TurnsAt (a, v, b)) : TurnsAt (c, f v, d) := by
  obtain ⟨⟨hav, hvb⟩, ⟨ha, hb⟩, -⟩ := hv
  obtain ⟨⟨hcw, hwd⟩, ⟨hc, hd⟩, -⟩ := hw
  have hleft := hf.slope_eq h himage hc hcw hb hvb
  have hright : (a.y - v.y) * (d.x - (f v).x) = factor * (d.y - (f v).y) * (v.x - a.x) := by
    have := hf.slope_eq h himage ((hf.involutive v).symm ▸ ha) ((hf.involutive v).symm ▸ hav) hd hwd
    rwa [hf.involutive] at this
  rw [turnsAt_iff] at hturn ⊢
  refine pos_of_mul_pos_left (b := (b.x - v.x) * (v.x - a.x)) ?_
    (mul_pos (sub_pos.2 hvb) (sub_pos.2 hav)).le
  have hprod : (c.y - (f v).y) * (d.y - (f v).y) * ((b.x - v.x) * (v.x - a.x)) =
      (a.y - v.y) * (b.y - v.y) * ((d.x - (f v).x) * ((f v).x - c.x)) := by
    linear_combination (d.y - (f v).y) * (v.x - a.x) * hleft -
      (b.y - v.y) * ((f v).x - c.x) * hright
  rw [hprod]
  exact mul_pos hturn (mul_pos (sub_pos.2 hwd) (sub_pos.2 hcw))

/-- The image of a turning vertex is a turning vertex. -/
theorem image_mem_turns (hf : Flips f factor) (h : Rightward points) (hslope : Sloped points)
    (himage : OwnImage f points) (hv : v ∈ (Polyline.turns points).map (·.point)) :
    f v ∈ (Polyline.turns points).map (·.point) := by
  rw [points_turns hslope] at hv
  obtain ⟨⟨a, v, b⟩, ht, rfl⟩ := List.mem_map.1 hv
  obtain ⟨ht, hturn⟩ := List.mem_filter.1 ht
  have hpart := mem_interior_iff.1 ht
  have hlength : 2 ≤ points.length := le_trans (by simp) hpart.length_le
  have hne : points ≠ [] := List.ne_nil_of_length_pos (Nat.zero_lt_of_lt hlength)
  obtain ⟨first, hhead⟩ := Option.ne_none_iff_exists'.1 (mt List.head?_eq_none_iff.1 hne)
  obtain ⟨last, hlast⟩ := Option.ne_none_iff_exists'.1 (mt List.getLast?_eq_none_iff.1 hne)
  have hends := congrArg Point.x (hf.image_last h himage hlength hhead hlast)
  rw [hf.x] at hends
  have haround := h.straightAround_of_mem_interior ht
  have hle : first.x ≤ a.x := (eq_or_rel_of_head? h hhead (hpart.subset (by simp))).elim
    (fun heq => heq ▸ le_rfl) le_of_lt
  have hle' : b.x ≤ last.x := (eq_or_rel_of_getLast? h hlast (hpart.subset (by simp))).elim
    (fun heq => heq ▸ le_rfl) le_of_lt
  have hav : a.x < v.x := haround.1.1
  have hvb : v.x < b.x := haround.1.2
  have hx := hf.x v
  obtain ⟨c, d, hcd⟩ := h.exists_straightAround hhead hlast
    (himage v (.of_mem hlength (hpart.subset (by simp)))) (by linarith) (by linarith)
  have hturn' := hf.turnsAt_image h himage haround hcd (of_decide_eq_true hturn)
  exact mem_points_turns hslope (hcd.2.2 hturn') hturn'

/-- The turning vertices are images of each other. -/
theorem reflected_turns (hf : Flips f factor) (h : Rightward points) (hslope : Sloped points)
    (himage : OwnImage f points) :
    reflected f ((Polyline.turns points).map (·.point)) =
      (Polyline.turns points).map (·.point) := by
  have hturns := h.of_sublist (points_turns_sublist hslope)
  refine (hturns.reflected hf).eq_of_mem_iff hturns fun p => ⟨fun hp => ?_, fun hp => ?_⟩
  · obtain ⟨q, hq, rfl⟩ := mem_reflected.1 hp
    exact hf.image_mem_turns h hslope himage hq
  · exact mem_reflected.2 ⟨f p, hf.image_mem_turns h hslope himage hp, hf.involutive p⟩

end Flips

end CurveSketch
