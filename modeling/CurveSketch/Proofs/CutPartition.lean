import CurveSketch.Proofs.KeyOrder
import CurveSketch.Proofs.Stretch
import CurveSketch.Proofs.Trace

/-!
# Cutting a polyline into pieces

A polyline that runs to the right, cut anywhere above its span, falls into two parts that share the
point where it is cut (`Rightward.exists_cutInTwo`): the two clips that make the parts find the same
point, be it a vertex or a point between two. What lies to the right of a cut runs to the right
again, up to the same last vertex, so the next cut is made as the first was.

Cut at any number of places, the polyline falls into one piece more (`Polyline.Partitioned`). No
piece is empty, though the first and the last may be single points; each stops where the next
starts; and joined they are the polyline again, with the points where it was cut among its vertices
(`Polyline.partitioned_cutAt`). In particular this holds of its stretches between turning points
with different horizontal coordinates (`Polyline.partitioned_stretches`).
-/

namespace CurveSketch

variable {before after : List (Point Rat)} {a b c v first last : Point Rat} {u x : Rat}

/-! ## Cutting in two -/

/-- What is on the two sides of a vertical line through a polyline. The parts are `before ++ [c]`
and `c :: after`. -/
structure CutInTwo (l : Polyline Rat) (x : Rat) (before : List (Point Rat)) (c : Point Rat)
    (after : List (Point Rat)) : Prop where
  points_left : ((Region.leftOf x).clip l).points = before ++ [c]
  points_right : ((Region.rightOf x).clip l).points = c :: after
  /-- The parts share a point on the vertical line. -/
  x_eq : c.x = x
  /-- The polyline runs through it. -/
  onLine : OnLine l.points c
  head_eq : (before ++ [c]).head? = l.points.head?
  last_eq : (c :: after).getLast? = l.points.getLast?
  /-- The parts joined run to the right. -/
  rightward : Rightward (before ++ c :: after)
  /-- The parts joined are the polyline with the shared point inserted. -/
  sublist : l.points.Sublist (before ++ c :: after)
  mem_iff : ∀ p, p ∈ before ++ c :: after ↔ p ∈ l.points ∨ p = c
  /-- The second part is on the polyline. -/
  onLine_after : ∀ p, OnLine (c :: after) p → OnLine l.points p

theorem head?_append_singleton {α : Type} (l : List α) (a : α) (l' : List α) :
    (l ++ [a]).head? = (l ++ a :: l').head? := by
  cases l <;> rfl

theorem OnLine.append {points : List (Point Rat)} {p : Point Rat} (h : OnLine points p)
    (before : List (Point Rat)) : OnLine (before ++ points) p := by
  induction before with
  | nil => exact h
  | cons a before ih => exact ih.cons a

/-- The parameter of a point between two others, by its horizontal coordinate. -/
theorem exists_lerp_x_eq (ha : a.x < x) (hb : x < b.x) :
    ∃ u : Rat, 0 < u ∧ u < 1 ∧ (a.lerp b u).x = x := by
  have hpos : 0 < b.x - a.x := sub_pos.2 (ha.trans hb)
  refine ⟨(x - a.x) / (b.x - a.x), div_pos (sub_pos.2 ha) hpos, (div_lt_one hpos).2 ?_, ?_⟩
  · exact sub_lt_sub_right hb _
  · rw [x_lerp, mul_div_cancel₀ _ hpos.ne', add_sub_cancel]

namespace Rightward

/-- A polyline with a vertex on a vertical line is cut in two there. -/
theorem cutInTwo_of_vertex {l : Polyline Rat} (h : Rightward l.points)
    (hsplit : l.points = before ++ v :: after) (hlength : 2 ≤ l.points.length) :
    CutInTwo l v.x before v after := by
  have hv : v ∈ l.points := hsplit ▸ List.mem_append_right _ List.mem_cons_self
  have h' : Rightward (before ++ v :: after) := hsplit ▸ h
  exact {
    points_left := (Region.points_clip_beside_vertex .left h hlength hv).trans (by
      rw [hsplit]
      exact h'.filter_le)
    points_right := (Region.points_clip_beside_vertex .right h hlength hv).trans (by
      rw [hsplit]
      exact h'.filter_ge)
    x_eq := rfl
    onLine := .of_mem hlength hv
    head_eq := hsplit ▸ head?_append_singleton before v after
    last_eq := by
      rw [hsplit, List.getLast?_append_of_ne_nil _ (List.cons_ne_nil v after)]
    rightward := h'
    sublist := hsplit ▸ List.Sublist.refl _
    mem_iff := fun p => hsplit ▸ (or_iff_left_of_imp fun heq => heq ▸ hsplit ▸ hv).symm
    onLine_after := fun p hp => hsplit ▸ hp.append before }

/-- A polyline that crosses a vertical line between two vertices is cut in two there. -/
theorem cutInTwo_of_between {l : Polyline Rat} (h : Rightward l.points)
    (hsplit : l.points = before ++ a :: b :: after) (ha : a.x < x) (hb : x < b.x) (h0 : 0 < u)
    (h1 : u < 1) (hu : (a.lerp b u).x = x) :
    CutInTwo l x (before ++ [a]) (a.lerp b u) (b :: after) := by
  have h' : Rightward (before ++ a :: b :: after) := hsplit ▸ h
  have hsplit' : l.points = before ++ [a] ++ b :: after := by simp [hsplit]
  have hpiece : OnLine (a :: b :: after) (a.lerp b u) := .of_lerp h0.le h1.le rfl
  exact {
    points_left := by
      rw [Region.points_clip_leftOf_between h hsplit ha hb h0.le h1.le hu, List.append_assoc]
      rfl
    points_right := Region.points_clip_rightOf_between h hsplit ha hb h0.le h1.le hu
    x_eq := hu
    onLine := hsplit ▸ hpiece.append before
    head_eq := by
      rw [hsplit, List.append_assoc]
      exact (head?_append_singleton before a [a.lerp b u]).symm.trans
        (head?_append_singleton before a (b :: after))
    last_eq := by
      rw [hsplit', List.getLast?_append_of_ne_nil _ (List.cons_ne_nil b after)]
      rfl
    rightward := Rightward.insert (hsplit' ▸ h)
      (fun p hp => ((h'.le_of_mem_concat hp).trans_lt ha).trans_eq hu.symm)
      fun p hp => hu.trans_lt (h'.lt_of_lt_between hb hp)
    sublist := hsplit' ▸ (List.sublist_cons_self _ _).append_left _
    mem_iff := by
      intro p
      rw [hsplit']
      simp only [List.mem_append, List.mem_cons]
      tauto
    onLine_after := by
      intro p hp
      rw [hsplit]
      refine OnLine.append ?_ before
      rcases hp.cases_cons with ⟨t, ht0, ht1, rfl⟩ | hp
      -- a point between the cut and the next vertex is on the piece that was cut
      · exact straight_of_lerp ⟨h0.le, h1.le⟩ ⟨zero_le_one, le_rfl⟩ rfl (Point.lerp_one a b).symm t
          ht0 ht1
      · exact hp.cons a }

/-- A polyline that runs to the right has first what is left of a vertical line. -/
theorem exists_eq_append {points : List (Point Rat)} (h : Rightward points) (x : Rat) :
    ∃ before after, points = before ++ after ∧ (∀ p ∈ before, p.x < x) ∧ ∀ p ∈ after, x ≤ p.x := by
  induction points with
  | nil => exact ⟨[], [], rfl, nofun, nofun⟩
  | cons p rest ih =>
    obtain ⟨hp, hrest⟩ := List.pairwise_cons.1 h
    rcases lt_or_ge p.x x with hlt | hge
    · obtain ⟨before, after, rfl, hbefore, hafter⟩ := ih hrest
      exact ⟨p :: before, after, rfl, List.forall_mem_cons.2 ⟨hlt, hbefore⟩, hafter⟩
    · exact ⟨[], p :: rest, rfl, nofun,
        List.forall_mem_cons.2 ⟨hge, fun q hq => hge.trans (hp q hq).le⟩⟩

/-- A polyline is cut in two by any vertical line over its span. -/
theorem exists_cutInTwo {l : Polyline Rat} (h : Rightward l.points)
    (hlength : 2 ≤ l.points.length) (hfirst : first ∈ l.points) (hlast : last ∈ l.points)
    (hlow : first.x ≤ x) (hhigh : x ≤ last.x) : ∃ before c after, CutInTwo l x before c after := by
  obtain ⟨before, after, hsplit, hbefore, hafter⟩ := h.exists_eq_append x
  have hlast' : last ∈ after :=
    (List.mem_append.1 (hsplit ▸ hlast)).resolve_left fun hmem => (hbefore last hmem).not_ge hhigh
  obtain ⟨v, after, rfl⟩ := List.exists_cons_of_ne_nil (List.ne_nil_of_mem hlast')
  rcases (hafter v List.mem_cons_self).eq_or_lt with rfl | hlt
  · exact ⟨before, v, after, h.cutInTwo_of_vertex hsplit hlength⟩
  · have hfirst' : first ∈ before := by
      refine (List.mem_append.1 (hsplit ▸ hfirst)).resolve_right fun hmem => ?_
      exact hlow.not_gt (hlt.trans_le ((hsplit ▸ h).le_of_mem_cons hmem))
    obtain ⟨before, a, rfl⟩ := List.eq_nil_or_concat before |>.resolve_left
      (List.ne_nil_of_mem hfirst')
    rw [List.concat_eq_append] at hbefore hsplit
    rw [List.append_assoc] at hsplit
    have ha := hbefore a List.mem_concat_self
    obtain ⟨u, h0, h1, hu⟩ := exists_lerp_x_eq ha hlt
    exact ⟨_, _, _, h.cutInTwo_of_between hsplit ha hlt h0 h1 hu⟩

end Rightward

namespace Polyline

/-! ## Any number of cuts -/

/-- The vertices of pieces joined end to end. Every piece but the first goes without its first
vertex, at which the piece before it has stopped. -/
def joined : List (Polyline Rat) → List (Point Rat)
  | [] => []
  | first :: rest => first.points ++ rest.flatMap fun piece => piece.points.tail

/-- The pieces of the polyline through `points`, cut at the points `cuts` of it. -/
structure Partitioned (points cuts : List (Point Rat)) (pieces : List (Polyline Rat)) : Prop where
  length_eq : pieces.length = cuts.length + 1
  /-- No piece is empty. -/
  nonempty : ∀ piece ∈ pieces, piece.points ≠ []
  /-- The polyline runs through the points where it is cut. -/
  onLine : ∀ c ∈ cuts, OnLine points c
  /-- The pieces start at the first vertex and where the polyline is cut. -/
  heads_eq : pieces.map (·.points.head?) = points.head? :: cuts.map some
  /-- They stop where the polyline is cut and at the last vertex. -/
  lasts_eq : pieces.map (·.points.getLast?) = cuts.map some ++ [points.getLast?]
  /-- The pieces joined run to the right. -/
  rightward : Rightward (joined pieces)
  /-- They are the polyline with the points where it is cut inserted. -/
  sublist : points.Sublist (joined pieces)
  mem_joined : ∀ p, p ∈ joined pieces ↔ p ∈ points ∨ p ∈ cuts

/-- A piece put before others, the first of which starts where it stops. -/
theorem joined_cons {piece next : Polyline Rat} {rest : List (Polyline Rat)}
    (hpiece : piece.points = before ++ [c]) (hnext : next.points.head? = some c) :
    joined (piece :: next :: rest) = before ++ joined (next :: rest) := by
  obtain ⟨others, hothers⟩ := List.head?_eq_some_iff.1 hnext
  simp only [joined, hpiece, hothers, List.flatMap_cons, List.tail_cons, List.append_assoc,
    List.cons_append, List.nil_append]

/-- An uncut polyline is one piece. -/
theorem Partitioned.whole {l : Polyline Rat} (h : Rightward l.points) (hne : l.points ≠ []) :
    Partitioned l.points [] [l] := by
  have hjoined : joined [l] = l.points := List.append_nil _
  exact {
    length_eq := rfl
    nonempty := fun _ hpiece => List.mem_singleton.1 hpiece ▸ hne
    onLine := nofun
    heads_eq := rfl
    lasts_eq := rfl
    rightward := hjoined.symm ▸ h
    sublist := hjoined.symm ▸ .refl _
    mem_joined := fun p => by simp [hjoined] }

/-- If the part after a cut is partitioned, then so is the polyline. -/
theorem Partitioned.cons {l : Polyline Rat} {cuts : List (Point Rat)}
    {pieces : List (Polyline Rat)} (hcut : CutInTwo l x before c after)
    (h : Partitioned (c :: after) cuts pieces) :
    Partitioned l.points (c :: cuts) ((Region.leftOf x).clip l :: pieces) := by
  obtain ⟨next, rest, rfl⟩ := List.exists_cons_of_length_eq_add_one h.length_eq
  have hnext : next.points.head? = some c := (List.cons.inj h.heads_eq).1
  have hjoined : joined ((Region.leftOf x).clip l :: next :: rest) =
      before ++ joined (next :: rest) := joined_cons hcut.points_left hnext
  have hrest : ∀ p ∈ joined (next :: rest), c.x ≤ p.x := by
    have hhead : (joined (next :: rest)).head? = some c := by
      rw [joined, List.head?_append, hnext]
      rfl
    exact fun p hp => (eq_or_rel_of_head? h.rightward hhead hp).elim (fun heq => heq ▸ le_rfl)
      le_of_lt
  exact {
    length_eq := congrArg (· + 1) h.length_eq
    nonempty := List.forall_mem_cons.2
      ⟨hcut.points_left ▸ List.concat_ne_nil c before, h.nonempty⟩
    onLine := List.forall_mem_cons.2 ⟨hcut.onLine, fun p hp => hcut.onLine_after p (h.onLine p hp)⟩
    heads_eq := by
      rw [List.map_cons, h.heads_eq, hcut.points_left, hcut.head_eq]
      rfl
    lasts_eq := by
      rw [List.map_cons, h.lasts_eq, hcut.points_left, hcut.last_eq, List.getLast?_concat]
      rfl
    rightward := by
      rw [hjoined]
      exact List.pairwise_append.2 ⟨(List.pairwise_append.1 hcut.rightward).1, h.rightward,
        fun p hp q hq => (hcut.rightward.lt_of_mem_before hp).trans_le (hrest q hq)⟩
    sublist := hjoined ▸ hcut.sublist.trans (h.sublist.append_left before)
    mem_joined := by
      intro p
      rw [hjoined, List.mem_append, h.mem_joined, ← or_assoc, ← List.mem_append, hcut.mem_iff,
        or_assoc, List.mem_cons] }

/-- A polyline that runs to the right, cut at places over its span from left to right, falls into
one piece more, each from one cut to the next. -/
theorem partitioned_cutAt {l : Polyline Rat} {xs : List Rat} (h : Rightward l.points)
    (hlength : 2 ≤ l.points.length) (hxs : xs.Pairwise (· < ·))
    (hhead : l.points.head? = some first) (hlast : l.points.getLast? = some last)
    (hspan : ∀ x ∈ xs, first.x ≤ x ∧ x ≤ last.x) :
    ∃ cuts : List (Point Rat), cuts.map (·.x) = xs ∧ Partitioned l.points cuts (l.cutAt xs) := by
  -- only before a cut are two vertices needed
  replace hlength : xs ≠ [] → 2 ≤ l.points.length := fun _ => hlength
  induction xs generalizing l first with
  | nil => exact ⟨[], rfl, .whole h (List.ne_nil_of_mem (List.mem_of_head? hhead))⟩
  | cons x rest ih =>
    obtain ⟨hx, hrest⟩ := List.pairwise_cons.1 hxs
    obtain ⟨hlow, hhigh⟩ := hspan x List.mem_cons_self
    obtain ⟨before, c, after, hcut⟩ := h.exists_cutInTwo (hlength (List.cons_ne_nil _ _))
      (List.mem_of_head? hhead) (List.mem_of_getLast? hlast) hlow hhigh
    have hpoints := hcut.points_right
    have hlast' : (c :: after).getLast? = some last := hcut.last_eq.trans hlast
    obtain ⟨cuts, hcuts, hpieces⟩ := ih (l := (Region.rightOf x).clip l)
      (hpoints ▸ hcut.rightward.of_sublist (List.sublist_append_right before _)) hrest
      (congrArg List.head? hpoints : _ = some c) (hpoints ▸ hlast')
      (fun y hy => ⟨hcut.x_eq.trans_le (hx y hy).le, (hspan y (List.mem_cons_of_mem _ hy)).2⟩)
      fun hne => by
        -- the next cut is to the right of this one, so the last vertex is another
        obtain ⟨y, hy⟩ := List.exists_mem_of_ne_nil _ hne
        have hlt : c.x < last.x := hcut.x_eq.trans_lt
          ((hx y hy).trans_le (hspan y (List.mem_cons_of_mem _ hy)).2)
        rw [hpoints]
        exact two_le_length_of_mem List.mem_cons_self (List.mem_of_getLast? hlast') fun heq =>
          hlt.ne (congrArg Point.x heq)
    rw [hpoints] at hpieces
    exact ⟨c :: cuts, congrArg₂ List.cons hcut.x_eq hcuts, hpieces.cons hcut⟩

/-- The stretches of a polyline that runs to the right, between turning points over its span with
different horizontal coordinates, are its pieces between the points above these coordinates. -/
theorem partitioned_stretches {points : List (Point Rat)} {turning : List (TurningPoint Rat)}
    (h : Rightward points) (hlength : 2 ≤ points.length)
    (hdistinct : (turning.map (·.point.x)).Nodup) (hhead : points.head? = some first)
    (hlast : points.getLast? = some last)
    (hspan : ∀ t ∈ turning, first.x ≤ t.point.x ∧ t.point.x ≤ last.x) :
    (make points turning).stretches.length = turning.length + 1 ∧
      ∃ cuts : List (Point Rat),
        cuts.map (·.x) = (make points turning).turning.map (·.point.x) ∧
          Partitioned points cuts (make points turning).stretches := by
  have hperm : (make points turning).turning.Perm turning := List.mergeSort_perm _ _
  have hsorted : ((make points turning).turning.map (·.point.x)).Pairwise (· < ·) := by
    have hle : ((make points turning).turning.map (·.point.x)).Pairwise (· ≤ ·) :=
      List.pairwise_map.2 (pairwise_mergeSort_key (fun t => t.point.x) turning)
    have hne := (hperm.map (·.point.x)).nodup_iff.2 hdistinct
    exact (hle.and hne).imp fun h => h.1.lt_of_ne h.2
  obtain ⟨cuts, hcuts, hpieces⟩ := partitioned_cutAt (l := make points turning) h hlength hsorted
    hhead hlast fun x hx => by
      obtain ⟨t, ht, rfl⟩ := List.mem_map.1 hx
      exact hspan t (hperm.mem_iff.1 ht)
  refine ⟨?_, cuts, hcuts, hpieces⟩
  have hlength' := congrArg List.length hcuts
  rw [List.length_map, List.length_map, hperm.length_eq] at hlength'
  exact hpieces.length_eq.trans (congrArg (· + 1) hlength')

/-- A polyline cut at its first vertex and between two vertices; its first piece is a point. -/
theorem partitioned_stretches_first_vertex :
    let points : List (Point Rat) := [⟨0, 0⟩, ⟨2, 2⟩, ⟨3, 1⟩]
    let turning : List (TurningPoint Rat) := [⟨⟨1, 7⟩, .maxima⟩, ⟨⟨0, 0⟩, .minima⟩]
    (make points turning).stretches.length = 3 ∧
      ∃ cuts : List (Point Rat),
        cuts.map (·.x) = (make points turning).turning.map (·.point.x) ∧
          Partitioned points cuts (make points turning).stretches :=
  partitioned_stretches (by decide +kernel) (by decide) (by decide +kernel) rfl rfl
    (by decide +kernel)

end Polyline

end CurveSketch
