import CurveSketch.Proofs.AxisHalves

/-!
# Symmetric lines wherever they are drawn

The middle of the turning points of a line that is its own image is its own image too
(`image_middle`), and it moves along with the line (`middle?_moved`). Moved so that this middle lies
on the origin, the line is back on the axis, at most moved up or down (`shiftedBy_drawnAt`), and is
its own image still. So a line that is its own image is even or odd, and wherever else it is drawn
it is symmetric or antisymmetric, unless it happens to look symmetric about the axes there
(`ofLine_of_image`).

The heights are measured from the middle of the turning points, and so must stay in range when it is
moved to the origin : a line from the lowest heights to the highest is not recognised
(`not_symmetric_out_of_range`).
-/

namespace CurveSketch

namespace Symmetry

variable {f : Point Rat → Point Rat} {factor : Rat} {points : List (Point Rat)}

/-! ## The middle of the turning points -/

variable {l l' : Polyline Rat}

theorem middle?_of_odd {a : TurningPoint Rat} (h : l.turning.length % 2 = 1)
    (ha : l.turning[l.turning.length / 2]? = some a) : middle? l = some a.point := by
  simp only [middle?, if_pos h, ha, Option.map_some]

theorem middle?_of_even {a b : TurningPoint Rat} (h : ¬l.turning.length % 2 = 1)
    (ha : l.turning[l.turning.length / 2 - 1]? = some a)
    (hb : l.turning[l.turning.length / 2]? = some b) :
    middle? l = some ((a.point + b.point).scale Scalar.half) := by
  simp only [middle?, if_neg h, ha, hb]

/-- Turning points have a middle. -/
theorem exists_middle (hne : l.turning ≠ []) :
    (∃ a, l.turning.length % 2 = 1 ∧ l.turning[l.turning.length / 2]? = some a) ∨
      ∃ a b, ¬l.turning.length % 2 = 1 ∧ l.turning[l.turning.length / 2 - 1]? = some a ∧
        l.turning[l.turning.length / 2]? = some b := by
  have hpos := List.length_pos_of_ne_nil hne
  have hget : ∀ {i : Nat}, i < l.turning.length → ∃ a, l.turning[i]? = some a := fun hi =>
    ⟨_, List.getElem?_eq_getElem hi⟩
  obtain ⟨b, hb⟩ := hget (Nat.div_lt_self hpos Nat.one_lt_two)
  by_cases hodd : l.turning.length % 2 = 1
  · exact .inl ⟨b, hodd, hb⟩
  · obtain ⟨a, ha⟩ := hget (i := l.turning.length / 2 - 1) (by omega)
    exact .inr ⟨a, b, hodd, ha, hb⟩

/-- The middle of turning points that are their own image is its own image. -/
theorem image_middle (hf : Flips f factor)
    (himage : reflected f (l.turning.map (·.point)) = l.turning.map (·.point))
    (hne : l.turning ≠ []) : ∃ m, middle? l = some m ∧ f m = m := by
  -- the turning point at a place from the end is the image of the one at that place
  have hopposite : ∀ {i j : Nat} {a b : TurningPoint Rat}, i + j + 1 = l.turning.length →
      l.turning[i]? = some a → l.turning[j]? = some b → b.point = f a.point := by
    intro i j a b hij ha hb
    have hj : (reflected f (l.turning.map (·.point)))[j]? = some b.point := by
      rw [himage, List.getElem?_map, hb]
      rfl
    have hi : ((l.turning.map (·.point)).map f).length - 1 - j = i := by
      rw [List.length_map, List.length_map]
      omega
    have hlt : j < ((l.turning.map (·.point)).map f).length := by
      rw [List.length_map, List.length_map]
      omega
    rw [reflected, List.getElem?_reverse hlt, hi, List.getElem?_map, List.getElem?_map, ha] at hj
    exact (Option.some.inj hj).symm
  rcases exists_middle hne with ⟨a, hodd, ha⟩ | ⟨a, b, heven, ha, hb⟩
  · exact ⟨a.point, middle?_of_odd hodd ha, (hopposite (by omega) ha ha).symm⟩
  · have hpos := List.length_pos_of_ne_nil hne
    have hhalf : (Scalar.half : Rat) = 1 / 2 := rfl
    refine ⟨_, middle?_of_even heven ha hb, ?_⟩
    rw [hopposite (by omega) ha hb, hhalf]
    refine Point.ext_iff.2 ⟨?_, ?_⟩
    · rw [hf.x]
      change -((a.point.x + (f a.point).x) * (1 / 2)) = (a.point.x + (f a.point).x) * (1 / 2)
      rw [hf.x]
      ring
    · rw [hf.y]
      change factor * ((a.point.y + (f a.point).y) * (1 / 2)) =
        (a.point.y + (f a.point).y) * (1 / 2)
      rw [hf.y]
      linear_combination a.point.y / 2 * hf.factor_mul_self

/-- The middle moves along with the turning points. -/
theorem middle?_moved (v : Point Rat)
    (hmoved : l'.turning = l.turning.map fun t => { t with point := t.point + v }) {m : Point Rat}
    (hne : l.turning ≠ []) (hm : middle? l = some m) : middle? l' = some (m + v) := by
  have hlength : l'.turning.length = l.turning.length := by rw [hmoved, List.length_map]
  have hget : ∀ {i : Nat} {a : TurningPoint Rat}, l.turning[i]? = some a →
      l'.turning[i]? = some { a with point := a.point + v } := by
    intro i a ha
    rw [hmoved, List.getElem?_map, ha]
    rfl
  rcases exists_middle hne with ⟨a, hodd, ha⟩ | ⟨a, b, heven, ha, hb⟩
  · rw [middle?_of_odd hodd ha] at hm
    obtain rfl := Option.some.inj hm
    exact middle?_of_odd (hlength ▸ hodd) (hlength ▸ hget ha)
  · rw [middle?_of_even heven ha hb] at hm
    obtain rfl := Option.some.inj hm
    have hhalf : (Scalar.half : Rat) = 1 / 2 := rfl
    rw [middle?_of_even (hlength ▸ heven) (hlength ▸ hget ha) (hlength ▸ hget hb), hhalf]
    refine congrArg some (Point.ext_iff.2 ⟨?_, ?_⟩)
    · change (a.point.x + v.x + (b.point.x + v.x)) * (1 / 2) =
        (a.point.x + b.point.x) * (1 / 2) + v.x
      ring
    · change (a.point.y + v.y + (b.point.y + v.y)) * (1 / 2) =
        (a.point.y + b.point.y) * (1 / 2) + v.y
      ring

/-! ## The line elsewhere -/

/-- The line through given vertices, moved, with the turning points that it has where it is. -/
def drawnAt (points : List (Point Rat)) (v : Point Rat) : Polyline Rat :=
  .withTurningPoints (points.map (· + v))

theorem add_sub_add_eq (p m v : Point Rat) : p + v - (m + v) = p - m :=
  Point.ext_iff.2 ⟨add_sub_add_right_eq_sub .., add_sub_add_right_eq_sub ..⟩

section

variable (h : Rightward points) (hslope : Sloped points)

include h in
theorem rightward_add (v : Point Rat) : Rightward (points.map (· + v)) :=
  List.pairwise_map.2 (h.imp fun hlt => add_lt_add_left hlt v.x)

include h in
theorem rightward_sub (m : Point Rat) : Rightward (points.map (· - m)) :=
  List.pairwise_map.2 (h.imp fun hlt => sub_lt_sub_right hlt m.x)

include hslope in
theorem sloped_add (v : Point Rat) : Sloped (points.map (· + v)) :=
  hslope.map fun _ _ heq => add_right_cancel (b := v.y) heq

include hslope in
theorem sloped_sub (m : Point Rat) : Sloped (points.map (· - m)) :=
  hslope.map fun _ _ heq => sub_left_inj.1 heq

include h hslope in
theorem turning_drawnAt (v : Point Rat) :
    (drawnAt points v).turning =
      (Polyline.withTurningPoints points).turning.map fun t =>
        { t with point := t.point + v } := by
  rw [drawnAt, turning_withTurningPoints (rightward_add h v) (sloped_add hslope v),
    turning_withTurningPoints h hslope, turns_map (g := (· + v)) (c := v.y) (fun _ => rfl) hslope]

include h hslope in
theorem middle?_drawnAt (v : Point Rat) :
    middle? (drawnAt points v) = middle? ⟨[], Polyline.turns (points.map (· + v))⟩ := by
  rw [← turning_withTurningPoints (rightward_add h v) (sloped_add hslope v)]
  rfl

include h hslope in
/-- Moved away and back, with its turning points, a line is as found in the place it comes to. -/
theorem shiftedBy_drawnAt (v m : Point Rat) :
    (drawnAt points v).shiftedBy (m + v) = .withTurningPoints (points.map (· - m)) := by
  have hsub : ∀ p : Point Rat, (p - m).y = p.y + -m.y := fun p => sub_eq_add_neg ..
  rw [Polyline.shiftedBy, turning_drawnAt h hslope, turning_withTurningPoints h hslope, drawnAt,
    Polyline.withTurningPoints, Polyline.withTurningPoints, turns_map hsub hslope]
  simp only [Polyline.make, List.map_map, Function.comp_def, add_sub_add_eq]

end

/-! ## The symmetry of the line -/

theorem ofLine_of_aboutAxes {settings : Settings Rat} {found : Symmetry}
    (h : aboutAxes settings l = found) (hne : found ≠ asymmetric) :
    ofLine settings l = found := by
  unfold ofLine
  split
  · rename_i hnone
    exact absurd (h.symm.trans hnone) hne
  · exact h

theorem ofLine_of_middle {settings : Settings Rat} {m : Point Rat}
    (h : aboutAxes settings l = asymmetric) (hm : middle? l = some m) :
    ofLine settings l = (aboutAxes settings (l.shiftedBy m)).aboutMiddle := by
  simp only [ofLine, h, hm]

/-- A line with turning points that is its own image has a middle wherever it is, and seen from
there it has the symmetry. -/
theorem exists_middle_of_image (hf : Flips f factor) {settings : Settings Rat} {found : Symmetry}
    (hshow : Shows settings factor found) (hslop : 0 < settings.relaxedOriginSlop)
    (h : Rightward points) (hslope : Sloped points) (hlength : 2 ≤ points.length)
    (himage : OwnImage f points) (hturns : Polyline.turns points ≠ []) (v : Point Rat) :
    ∃ m, f m = m ∧ middle? (drawnAt points v) = some (m + v) ∧
      ((∀ p ∈ points, (p - m).InRange) →
        aboutAxes settings ((drawnAt points v).shiftedBy (m + v)) = found) := by
  have hturning := turning_withTurningPoints h hslope
  have hne : (Polyline.withTurningPoints points).turning ≠ [] := hturning ▸ hturns
  have himages : reflected f ((Polyline.withTurningPoints points).turning.map (·.point)) =
      (Polyline.withTurningPoints points).turning.map (·.point) := by
    rw [hturning, hf.reflected_turns h hslope himage]
  obtain ⟨m, hm, hfixed⟩ := image_middle hf himages hne
  refine ⟨m, hfixed, middle?_moved v (turning_drawnAt h hslope v) hne hm, fun hrange => ?_⟩
  rw [shiftedBy_drawnAt h hslope]
  exact aboutAxes_of_image hf hshow hslop (rightward_sub h m) (sloped_sub hslope m)
    (by rwa [List.length_map]) (List.forall_mem_map.2 hrange) (hf.ownImage_sub himage hfixed)

/-- A line that is its own mirror image comes back to the height it starts at, and so it turns. -/
theorem turns_ne_nil_of_mirrored (h : Rightward points) (hslope : Sloped points)
    (hlength : 2 ≤ points.length) (himage : OwnImage Point.mirrored points) :
    Polyline.turns points ≠ [] := by
  intro hnil
  obtain ⟨first, last, hhead, hlast, -, -⟩ := Flips.mirrored.exists_ends h hlength himage
  have hturn : ∀ t ∈ interior points, ¬TurnsAt t := by
    intro t ht hturn
    have hmem := mem_points_turns hslope ht hturn
    rw [hnil] at hmem
    exact List.not_mem_nil hmem
  have hends : last.mirrored = first := Flips.mirrored.image_last h himage hlength hhead hlast
  have hheight : last.mirrored.y = first.y := congrArg Point.y hends
  exact (hslope.slanted hturn).y_ne hhead hlast (h.head_lt_last hlength hhead hlast).ne hheight

/-- A line without level pieces, drawn from left to right, that is its own mirror image is even, and
moved anywhere, where it shows no symmetry about the axes, it is symmetric, as long as the
coordinates stay in range when the middle of its turning points is moved to the origin. One that is
its own image under a half turn is odd, and moved anywhere, if it turns at all, it is antisymmetric
where it shows no symmetry about the axes. -/
theorem ofLine_of_image (settings : Settings Rat) (htolerance : 0 < settings.symmetryTolerance)
    (htolerance' : settings.symmetryTolerance ≤ 2) (hslop : 0 < settings.relaxedOriginSlop)
    (points : List (Point Rat)) (hlength : 2 ≤ points.length) (h : Rightward points)
    (hslope : Sloped points) (hrange : ∀ p ∈ points, p.InRange) :
    (OwnImage Point.mirrored points →
      ofLine settings (.withTurningPoints points) = even ∧
      ∀ v : Point Rat, ∃ middle, middle? (drawnAt points v) = some middle ∧
        ((∀ p ∈ (drawnAt points v).points, (p - middle).InRange) →
          aboutAxes settings ((drawnAt points v).shiftedBy middle) = even ∧
          (aboutAxes settings (drawnAt points v) = asymmetric →
            ofLine settings (drawnAt points v) = symmetric))) ∧
    (OwnImage Point.halfTurned points →
      ofLine settings (.withTurningPoints points) = odd ∧
      (Polyline.turns points ≠ [] → ∀ v : Point Rat, ∃ middle,
        middle? (drawnAt points v) = some middle ∧
        aboutAxes settings ((drawnAt points v).shiftedBy middle) = odd ∧
        (aboutAxes settings (drawnAt points v) = asymmetric →
          ofLine settings (drawnAt points v) = antisymmetric))) := by
  have heven := shows_even htolerance htolerance'
  have hodd := shows_odd htolerance
  refine ⟨fun himage => ⟨?_, fun v => ?_⟩, fun himage => ⟨?_, fun hturns v => ?_⟩⟩
  · exact ofLine_of_aboutAxes (aboutAxes_of_image Flips.mirrored heven hslop h hslope hlength hrange
      himage) nofun
  · have hturns := turns_ne_nil_of_mirrored h hslope hlength himage
    obtain ⟨m, -, hmiddle, hshifted⟩ := exists_middle_of_image Flips.mirrored heven hslop h hslope
      hlength himage hturns v
    refine ⟨m + v, hmiddle, fun hrange' => ?_⟩
    have hseen := hshifted fun p hp =>
      add_sub_add_eq p m v ▸ hrange' (p + v) (List.mem_map_of_mem hp)
    refine ⟨hseen, fun hnone => ?_⟩
    rw [ofLine_of_middle hnone hmiddle, hseen]
    rfl
  · exact ofLine_of_aboutAxes (aboutAxes_of_image Flips.halfTurned hodd hslop h hslope hlength
      hrange himage) nofun
  · obtain ⟨m, hfixed, hmiddle, hshifted⟩ := exists_middle_of_image Flips.halfTurned hodd hslop h
      hslope hlength himage hturns v
    -- the middle is the origin, so that the line is only moved back
    have hx : m.x = 0 := neg_eq_self.1 (congrArg Point.x hfixed)
    have hy : m.y = 0 := neg_eq_self.1 (congrArg Point.y hfixed)
    have hsub : ∀ p, p - m = p := fun p => Point.ext_iff.2
      ⟨by rw [Point.x_sub, hx]; exact sub_zero p.x, by rw [Point.y_sub, hy]; exact sub_zero p.y⟩
    have hseen := hshifted fun p hp => (hsub p).symm ▸ hrange p hp
    refine ⟨m + v, hmiddle, hseen, fun hnone => ?_⟩
    rw [ofLine_of_middle hnone hmiddle, hseen]
    rfl

/-- A bowl and a wave, each drawn to the upper right of where it is its own image. -/
theorem ofLine_of_image_bowl_and_wave :
    let settings : Settings Rat := ⟨1 / 50, 1 / 20, 1 / 10, 4, 5, 2 / 5⟩
    let bowl : List (Point Rat) := [⟨-1, 1⟩, ⟨0, 0⟩, ⟨1, 1⟩]
    let wave : List (Point Rat) := [⟨-2, -1⟩, ⟨-1, 1⟩, ⟨1, -1⟩, ⟨2, 1⟩]
    let v : Point Rat := ⟨5, 2⟩
    0 < settings.symmetryTolerance ∧ settings.symmetryTolerance ≤ 2 ∧
      0 < settings.relaxedOriginSlop ∧
      (2 ≤ bowl.length ∧ Rightward bowl ∧ Sloped bowl ∧ ∀ p ∈ bowl, p.InRange) ∧
      (2 ≤ wave.length ∧ Rightward wave ∧ Sloped wave ∧ ∀ p ∈ wave, p.InRange) ∧
      ofLine settings (.withTurningPoints bowl) = even ∧
      ofLine settings (drawnAt bowl v) = symmetric ∧
      ofLine settings (.withTurningPoints wave) = odd ∧
      ofLine settings (drawnAt wave v) = antisymmetric := by
  intro settings bowl wave v
  have htolerance : 0 < settings.symmetryTolerance := by decide +kernel
  have htolerance' : settings.symmetryTolerance ≤ 2 := by decide +kernel
  have hslop : 0 < settings.relaxedOriginSlop := by decide +kernel
  have hbowl : 2 ≤ bowl.length ∧ Rightward bowl ∧ Sloped bowl ∧ ∀ p ∈ bowl, p.InRange := by
    decide +kernel
  have hwave : 2 ≤ wave.length ∧ Rightward wave ∧ Sloped wave ∧ ∀ p ∈ wave, p.InRange := by
    decide +kernel
  obtain ⟨heven, helsewhere⟩ := (ofLine_of_image settings htolerance htolerance' hslop bowl hbowl.1
    hbowl.2.1 hbowl.2.2.1 hbowl.2.2.2).1
    (Flips.mirrored.ownImage_of_vertices (by decide +kernel))
  obtain ⟨hodd, helsewhere'⟩ := (ofLine_of_image settings htolerance htolerance' hslop wave hwave.1
    hwave.2.1 hwave.2.2.1 hwave.2.2.2).2
    (Flips.halfTurned.ownImage_of_vertices (by decide +kernel))
  obtain ⟨middle, hmiddle, hsymmetric⟩ := helsewhere v
  obtain ⟨-, -, -, hantisymmetric⟩ := helsewhere' (by decide +kernel) v
  have hplace : middle? (drawnAt bowl v) = some ⟨5, 2⟩ := by
    rw [middle?_drawnAt hbowl.2.1 hbowl.2.2.1]
    decide +kernel
  obtain rfl : (⟨5, 2⟩ : Point Rat) = middle := Option.some.inj (hplace.symm.trans hmiddle)
  have hnone : aboutAxes settings (drawnAt bowl v) = asymmetric := by
    rw [drawnAt, aboutAxes_withTurningPoints settings (by decide +kernel) (by decide +kernel)]
    decide +kernel
  have hnone' : aboutAxes settings (drawnAt wave v) = asymmetric := by
    rw [drawnAt, aboutAxes_withTurningPoints settings (by decide +kernel) (by decide +kernel)]
    decide +kernel
  exact ⟨htolerance, htolerance', hslop, hbowl, hwave, heven,
    (hsymmetric (by decide +kernel)).2 hnone, hodd, hantisymmetric hnone'⟩

/-- A line that is its own mirror image and drawn in range, but not symmetric : from the middle of
its turning points all heights of its outer pieces are out of range. -/
theorem not_symmetric_out_of_range :
    let settings : Settings Rat := ⟨1 / 50, 1 / 20, 1 / 10, 4, 5, 2 / 5⟩
    let top : Rat := Scalar.largest
    let side : Rat := (3 * Nat.pow 2 1022 : Nat)
    let points : List (Point Rat) := [⟨-2, side⟩, ⟨-1, top⟩, ⟨0, -top⟩, ⟨1, top⟩, ⟨2, side⟩]
    let v : Point Rat := ⟨5, 0⟩
    0 < settings.symmetryTolerance ∧ settings.symmetryTolerance ≤ 2 ∧
      0 < settings.relaxedOriginSlop ∧ 2 ≤ points.length ∧ Rightward points ∧ Sloped points ∧
      (∀ p ∈ points, p.InRange) ∧ (∀ p ∈ (drawnAt points v).points, p.InRange) ∧
      OwnImage Point.mirrored points ∧
      aboutAxes settings (drawnAt points v) = asymmetric ∧
      ofLine settings (drawnAt points v) ≠ symmetric := by
  intro settings top side points v
  have h : Rightward points := by decide +kernel
  have hslope : Sloped points := by decide +kernel
  have hnone : aboutAxes settings (drawnAt points v) = asymmetric := by
    rw [drawnAt, aboutAxes_withTurningPoints settings (by decide +kernel) (by decide +kernel)]
    decide +kernel
  have hmiddle : middle? (drawnAt points v) = some ((⟨0, -top⟩ : Point Rat) + v) := by
    rw [middle?_drawnAt h hslope]
    decide +kernel
  have himage : OwnImage Point.mirrored points :=
    Flips.mirrored.ownImage_of_vertices (by decide +kernel)
  refine ⟨by decide +kernel, by decide +kernel, by decide +kernel, by decide, h, hslope,
    by decide +kernel, by decide +kernel, himage, hnone, ?_⟩
  rw [ofLine_of_middle hnone hmiddle, shiftedBy_drawnAt h hslope,
    aboutAxes_withTurningPoints settings (by decide +kernel) (by decide +kernel)]
  decide +kernel

end Symmetry

end CurveSketch
