import CurveSketch.Proofs.AxisSymmetry
import CurveSketch.Proofs.CutPartition

/-!
# The halves of a line that is its own image

A polyline that leads from the left of the vertical axis to the right of it meets the axis at a
vertex, or between two vertices. Either way it falls there into two halves, which have the vertices
of the polyline among them and turn where the polyline turns (`Rightward.exists_halved`). If the
polyline is its own image, then so is its point on the axis, and the turning vertices on the left
are the images of those on the right. So the halves are opposite (`Halved.oppositeHalves`), and the
polyline has the symmetry about the axes (`aboutAxes_of_image`).
-/

namespace CurveSketch

variable {points before after : List (Point Rat)} {a b v axis first last : Point Rat} {u : Rat}

/-! ## A further vertex on a piece -/

theorem Point.InRange.lerp (ha : a.InRange) (hb : b.InRange) (h0 : 0 ≤ u) (h1 : u ≤ 1) :
    (a.lerp b u).InRange := by
  have hge : ∀ {c x y : Rat}, c ≤ x → c ≤ y → c ≤ x * (1 - u) + y * u := by
    intro c x y hx hy
    nlinarith
  have hle : ∀ {c x y : Rat}, x ≤ c → y ≤ c → x * (1 - u) + y * u ≤ c := by
    intro c x y hx hy
    nlinarith
  exact ⟨hge ha.left hb.left, hle ha.right hb.right, hge ha.bottom hb.bottom, hle ha.top hb.top⟩

theorem sloped_insert (hslope : Sloped (before ++ a :: b :: after)) (h0 : 0 < u) (h1 : u < 1) :
    Sloped (before ++ a :: a.lerp b u :: b :: after) := by
  obtain ⟨hbefore, hafter⟩ := List.isChain_split.1 hslope
  obtain ⟨hab, hafter⟩ := List.isChain_cons_cons.1 hafter
  refine List.isChain_split.2 ⟨hbefore, .cons_cons (fun heq => hab ?_) (.cons_cons (fun heq =>
    hab ?_) hafter)⟩
  · exact ((y_lerp_eq_start_iff h0.ne').1 heq.symm).symm
  · exact (y_lerp_eq_stop_iff h1.ne).1 heq

/-- A vertex put on a piece is no turn, and takes none away. -/
theorem exists_turnsAt_of_insert (h0 : 0 < u) (h1 : u < 1) {t : Point Rat × Point Rat × Point Rat}
    (ht : t ∈ interior (before ++ a :: a.lerp b u :: b :: after)) (hturn : TurnsAt t) :
    ∃ t' ∈ interior (before ++ a :: b :: after), TurnsAt t' ∧ t'.2.1 = t.2.1 := by
  have hmiddle : ¬TurnsAt (a, a.lerp b u, b) := not_turnsAt_lerp h0.le h1.le
  have hstart : ∀ {c}, TurnsAt (c, a, a.lerp b u) → TurnsAt (c, a, b) := by
    intro c hc
    rw [turnsAt_iff, y_lerp] at hc
    refine turnsAt_iff.2 (pos_of_mul_pos_left (b := u) ?_ h0.le)
    linear_combination hc
  have hstop : ∀ {c}, TurnsAt (a.lerp b u, b, c) → TurnsAt (a, b, c) := by
    intro c hc
    rw [turnsAt_iff, y_lerp] at hc
    refine turnsAt_iff.2 (pos_of_mul_pos_left (b := 1 - u) ?_ (sub_pos.2 h1).le)
    linear_combination hc
  -- the induction goes along the vertices before the piece, of which the last two see the new one
  induction before with
  | nil =>
    rcases List.mem_cons.1 ht with rfl | ht
    · exact absurd hturn hmiddle
    · cases after with
      | nil => exact absurd ht List.not_mem_nil
      | cons c after =>
        rcases List.mem_cons.1 ht with rfl | ht
        · exact ⟨(a, b, c), List.mem_cons_self, hstop hturn, rfl⟩
        · exact ⟨t, List.mem_cons_of_mem _ ht, hturn, rfl⟩
  | cons c before ih =>
    have hrest : t ∈ interior (before ++ a :: a.lerp b u :: b :: after) →
        ∃ t' ∈ interior (c :: before ++ a :: b :: after), TurnsAt t' ∧ t'.2.1 = t.2.1 := by
      intro ht
      obtain ⟨t', ht', h⟩ := ih ht
      exact ⟨t', interior_subset_cons c _ ht', h⟩
    match before, ht, hrest with
    | [], ht, hrest =>
      rcases List.mem_cons.1 ht with rfl | ht
      · exact ⟨(c, a, b), List.mem_cons_self, hstart hturn, rfl⟩
      · exact hrest ht
    | [d], ht, hrest =>
      rcases List.mem_cons.1 ht with rfl | ht
      · exact ⟨(c, d, a), List.mem_cons_self, hturn, rfl⟩
      · exact hrest ht
    | d :: e :: before, ht, hrest =>
      rcases List.mem_cons.1 ht with rfl | ht
      · exact ⟨(c, d, e), List.mem_cons_self, hturn, rfl⟩
      · exact hrest ht

/-! ## Two halves -/

/-- A polyline falls at the vertical axis into two halves, which meet there. -/
structure Halved (points before : List (Point Rat)) (axis : Point Rat)
    (after : List (Point Rat)) : Prop where
  points_left : ((Region.leftOf 0).clip (.withTurningPoints points)).points = before ++ [axis]
  points_right : ((Region.rightOf 0).clip (.withTurningPoints points)).points = axis :: after
  axis_x : axis.x = 0
  onLine : OnLine points axis
  head_eq : (before ++ [axis]).head? = points.head?
  last_eq : (axis :: after).getLast? = points.getLast?
  subset : points ⊆ before ++ axis :: after
  rightward : Rightward (before ++ axis :: after)
  sloped : Sloped (before ++ axis :: after)
  inRange : ∀ p ∈ before ++ axis :: after, p.InRange
  /-- The halves turn where the polyline turns. -/
  turn_mem : ∀ t ∈ interior (before ++ axis :: after), TurnsAt t →
    t.2.1 ∈ (Polyline.turns points).map (·.point)

/-- A polyline with a vertex on the axis falls into two halves there. -/
theorem halved_of_vertex (h : Rightward (before ++ v :: after))
    (hslope : Sloped (before ++ v :: after)) (hrange : ∀ p ∈ before ++ v :: after, p.InRange)
    (hlength : 2 ≤ (before ++ v :: after).length) (hx : v.x = 0) :
    Halved (before ++ v :: after) before v after := by
  have hcut := Rightward.cutInTwo_of_vertex (l := .withTurningPoints _) h rfl hlength
  exact {
    points_left := hx ▸ hcut.points_left
    points_right := hx ▸ hcut.points_right
    axis_x := hx
    onLine := hcut.onLine
    head_eq := hcut.head_eq
    last_eq := hcut.last_eq
    subset := hcut.sublist.subset
    rightward := h
    sloped := hslope
    inRange := hrange
    turn_mem := fun _ ht hturn => mem_points_turns hslope ht hturn }

/-- A polyline that crosses the axis between two vertices falls into two halves there. -/
theorem halved_of_between (h : Rightward (before ++ a :: b :: after))
    (hslope : Sloped (before ++ a :: b :: after))
    (hrange : ∀ p ∈ before ++ a :: b :: after, p.InRange) (ha : a.x < 0) (hb : 0 < b.x)
    (h0 : 0 < u) (h1 : u < 1) (hu : (a.lerp b u).x = 0) :
    Halved (before ++ a :: b :: after) (before ++ [a]) (a.lerp b u) (b :: after) := by
  have hcut := Rightward.cutInTwo_of_between (l := .withTurningPoints _) h rfl ha hb h0 h1 hu
  have hsplit : before ++ [a] ++ a.lerp b u :: b :: after =
      before ++ a :: a.lerp b u :: b :: after := by simp
  exact {
    points_left := hcut.points_left
    points_right := hcut.points_right
    axis_x := hu
    onLine := hcut.onLine
    head_eq := hcut.head_eq
    last_eq := hcut.last_eq
    subset := hcut.sublist.subset
    rightward := hcut.rightward
    sloped := hsplit.symm ▸ sloped_insert hslope h0 h1
    inRange := by
      intro p hp
      rcases (hcut.mem_iff p).1 hp with hp | rfl
      · exact hrange p hp
      · exact (hrange a (by simp)).lerp (hrange b (by simp)) h0.le h1.le
    turn_mem := by
      intro t ht hturn
      obtain ⟨t', ht', hturn', heq⟩ := exists_turnsAt_of_insert h0 h1 (hsplit ▸ ht) hturn
      exact heq ▸ mem_points_turns hslope ht' hturn' }

namespace Rightward

/-- A polyline that leads across the axis falls into two halves there. -/
theorem exists_halved (h : Rightward points) (hslope : Sloped points)
    (hrange : ∀ p ∈ points, p.InRange) (hlength : 2 ≤ points.length)
    (hfirst : first ∈ points) (hfirst' : first.x < 0) (hlast : last ∈ points)
    (hlast' : 0 < last.x) : ∃ before axis after, Halved points before axis after := by
  obtain ⟨before, after, rfl, hbefore, hafter⟩ := h.exists_eq_append 0
  have hmem : first ∈ before :=
    (List.mem_append.1 hfirst).resolve_right fun hmem => (hafter first hmem).not_gt hfirst'
  have hmem' : last ∈ after :=
    (List.mem_append.1 hlast).resolve_left fun hmem => (hbefore last hmem).not_gt hlast'
  obtain ⟨v, after, rfl⟩ := List.exists_cons_of_ne_nil (List.ne_nil_of_mem hmem')
  rcases (hafter v List.mem_cons_self).eq_or_lt with hzero | hpos
  · exact ⟨before, v, after, halved_of_vertex h hslope hrange hlength hzero.symm⟩
  · obtain ⟨before, a, rfl⟩ := List.eq_nil_or_concat before |>.resolve_left
      (List.ne_nil_of_mem hmem)
    rw [List.concat_eq_append] at hbefore h hslope hrange ⊢
    rw [List.append_assoc] at h hslope hrange ⊢
    have ha := hbefore a List.mem_concat_self
    obtain ⟨u, h0, h1, hu⟩ := exists_lerp_x_eq ha hpos
    exact ⟨_, _, _, halved_of_between h hslope hrange ha hpos h0 h1 hu⟩

end Rightward

/-! ## Where the halves turn -/

/-- The turning vertices on the right of the axis. -/
def turnsRight (points : List (Point Rat)) : List (Point Rat) :=
  ((Polyline.turns points).map (·.point)).filter (0 ≤ ·.x)

theorem rightward_turns (h : Rightward points) (hslope : Sloped points) :
    Rightward ((Polyline.turns points).map (·.point)) :=
  h.of_sublist (points_turns_sublist hslope)

theorem turning_pairwise (h : Rightward points) (hslope : Sloped points) :
    (Polyline.withTurningPoints points).turning.Pairwise fun t u => t.point.x ≤ u.point.x := by
  rw [turning_withTurningPoints h hslope]
  exact (List.pairwise_map.1 (rightward_turns h hslope)).imp le_of_lt

/-- The turning vertices on one side of the axis. -/
theorem turning_clip_axis (side : Side) (h : Rightward points) (hslope : Sloped points) :
    ((Region.beside side 0).clip (.withTurningPoints points)).turning.map (·.point.x) =
      (((Polyline.turns points).map (·.point)).filter (side.Covers 0 ·.x)).map (·.x) := by
  rw [Region.turning_clip_beside side 0 (turning_pairwise h hslope),
    turning_withTurningPoints h hslope, List.filter_map, List.filter_map, List.map_map]
  rfl

/-- The turning vertices on the left of the axis are the images of those on the right. -/
theorem Flips.reflected_turnsRight {f : Point Rat → Point Rat} {factor : Rat} (hf : Flips f factor)
    (h : Rightward points) (hslope : Sloped points) (himage : OwnImage f points) :
    reflected f (turnsRight points) =
      ((Polyline.turns points).map (·.point)).filter (·.x ≤ 0) := by
  conv_rhs => rw [← hf.reflected_turns h hslope himage, hf.filter_reflected]
  rfl

namespace Halved

variable {f : Point Rat → Point Rat} {factor : Rat}

/-- The part on one side of the axis turns at the turning vertices on that side. -/
theorem half (hhalved : Halved points before axis after) (h : Rightward points)
    (hslope : Sloped points) {part : List (Point Rat)} {side : Point Rat → Bool}
    (hpart : part <:+: before ++ axis :: after) (hlength : 2 ≤ part.length)
    (hside : (before ++ axis :: after).filter side = part) :
    Symmetry.Half part (((Polyline.turns points).map (·.point)).filter side) := by
  have hmem : ∀ {p}, p ∈ part ↔ p ∈ before ++ axis :: after ∧ side p = true :=
    hside ▸ List.mem_filter
  exact {
    length := hlength
    rightward := hhalved.rightward.of_sublist hpart.sublist
    sloped := hhalved.sloped.of_isInfix hpart
    inRange := fun p hp => hhalved.inRange p (hpart.subset hp)
    cuts_rightward := (rightward_turns h hslope).of_sublist List.filter_sublist
    cuts_subset := by
      intro p hp
      obtain ⟨hp, hkept⟩ := List.mem_filter.1 hp
      exact hmem.2 ⟨hhalved.subset ((points_turns_sublist hslope).subset hp), hkept⟩
    turn_mem := by
      intro t ht hturn
      have hmiddle := hmem.1 (mem_of_mem_interior ht).2.1
      exact List.mem_filter.2
        ⟨hhalved.turn_mem t (interior_subset_of_isInfix hpart ht) hturn, hmiddle.2⟩ }

/-- The halves of a polyline that is its own image are opposite. -/
theorem oppositeHalves (hhalved : Halved points before axis after) (hf : Flips f factor)
    (h : Rightward points) (hslope : Sloped points) (hlength : 2 ≤ points.length)
    (himage : OwnImage f points) (hhead : points.head? = some first)
    (hlast : points.getLast? = some last) (hfirst : first.x < 0) (hlast' : 0 < last.x) :
    Symmetry.OppositeHalves f (.withTurningPoints points) (before ++ [axis]) (axis :: after)
      (turnsRight points) axis last := by
  have hx := hhalved.axis_x
  have hbefore : before ≠ [] := by
    rintro rfl
    obtain rfl : axis = first := Option.some.inj (hhalved.head_eq.trans hhead)
    exact hfirst.ne hx
  have hafter : after ≠ [] := by
    rintro rfl
    obtain rfl : axis = last := Option.some.inj (hhalved.last_eq.trans hlast)
    exact hlast'.ne' hx
  have hcuts := hf.reflected_turnsRight h hslope himage
  have hsplit : before ++ [axis] ++ after = before ++ axis :: after := by simp
  exact {
    points_left := hhalved.points_left
    points_right := hhalved.points_right
    turning_left := hcuts ▸ turning_clip_axis .left h hslope
    turning_right := turning_clip_axis .right h hslope
    half_left := by
      rw [hcuts]
      refine hhalved.half h hslope ⟨[], after, hsplit⟩ ?_ (hx ▸ hhalved.rightward.filter_le)
      rw [List.length_append]
      exact Nat.succ_le_succ (List.length_pos_of_ne_nil hbefore)
    half_right := hhalved.half h hslope (List.suffix_append before _).isInfix
      (Nat.succ_le_succ (List.length_pos_of_ne_nil hafter)) (hx ▸ hhalved.rightward.filter_ge)
    head_left := by
      rw [hhalved.head_eq, hhead, hf.image_last h himage hlength hhead hlast]
    last_left := List.getLast?_concat
    head_right := rfl
    last_right := hhalved.last_eq.trans hlast
    axis_x := hx
    axis_image := h.onLine_unique (himage axis hhalved.onLine) hhalved.onLine
      (by rw [hf.x, hx, neg_zero]) }

end Halved

/-! ## The symmetry -/

/-- The ends of a polyline that is its own image are on the two sides of the axis. -/
theorem Flips.exists_ends {f : Point Rat → Point Rat} {factor : Rat} (hf : Flips f factor)
    (h : Rightward points) (hlength : 2 ≤ points.length) (himage : OwnImage f points) :
    ∃ first last, points.head? = some first ∧ points.getLast? = some last ∧ first.x < 0 ∧
      0 < last.x := by
  have hne : points ≠ [] := List.ne_nil_of_length_pos (Nat.zero_lt_of_lt hlength)
  obtain ⟨first, hhead⟩ := Option.ne_none_iff_exists'.1 (mt List.head?_eq_none_iff.1 hne)
  obtain ⟨last, hlast⟩ := Option.ne_none_iff_exists'.1 (mt List.getLast?_eq_none_iff.1 hne)
  have hends := congrArg Point.x (hf.image_last h himage hlength hhead hlast)
  have hlt := h.head_lt_last hlength hhead hlast
  rw [hf.x] at hends
  exact ⟨first, last, hhead, hlast, by linarith, by linarith⟩

namespace Symmetry

variable {f : Point Rat → Point Rat} {factor : Rat} {settings : Settings Rat} {found : Symmetry}

/-- A polyline that is its own image has the symmetry about the axes. -/
theorem aboutAxes_of_image (hf : Flips f factor) (hshow : Shows settings factor found)
    (hslop : 0 < settings.relaxedOriginSlop) (h : Rightward points) (hslope : Sloped points)
    (hlength : 2 ≤ points.length) (hrange : ∀ p ∈ points, p.InRange)
    (himage : OwnImage f points) : aboutAxes settings (.withTurningPoints points) = found := by
  obtain ⟨first, last, hhead, hlast, hfirst, hlast'⟩ := hf.exists_ends h hlength himage
  obtain ⟨before, axis, after, hhalved⟩ := h.exists_halved hslope hrange hlength
    (List.mem_of_head? hhead) hfirst (List.mem_of_getLast? hlast) hlast'
  have hopposite := hhalved.oppositeHalves hf h hslope hlength himage hhead hlast hfirst hlast'
  exact hopposite.aboutAxes_eq hf hshow hslop

/-- The symmetry of a line about the axes, with the cuts read off the turns it has. -/
theorem aboutAxes_withTurningPoints (settings : Settings Rat) (h : Rightward points)
    (hslope : Sloped points) :
    aboutAxes settings (.withTurningPoints points) =
      let l : Polyline Rat := .withTurningPoints points
      let cuts := (Polyline.turns points).map (·.point.x)
      let lefts := ((Region.leftOf 0).clip l).cutAt (cuts.filter (· ≤ 0))
      let rights := ((Region.rightOf 0).clip l).cutAt (cuts.filter (0 ≤ ·))
      if lefts.length = rights.length then agreed settings none (lefts.reverse.zip rights)
      else asymmetric := by
  have hleft : ((Region.leftOf 0).clip (.withTurningPoints points)).turning.map (·.point.x) = _ :=
    Region.turning_clip_beside .left 0 (turning_pairwise h hslope)
  have hright : ((Region.rightOf 0).clip (.withTurningPoints points)).turning.map (·.point.x) = _ :=
    Region.turning_clip_beside .right 0 (turning_pairwise h hslope)
  simp only [aboutAxes, Polyline.stretches, hleft, hright, turning_withTurningPoints h hslope]
  rfl

end Symmetry

end CurveSketch
