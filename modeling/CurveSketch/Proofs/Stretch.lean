import CurveSketch.Proofs.SignedSize
import CurveSketch.Proofs.TurningVertex

/-!
# Stretches

A polyline that runs to the right, cut at the horizontal coordinates of some of its vertices, falls
into the runs of vertices between them (`Rightward.points_cutAt`), which start and stop at the cuts
(`Rightward.ends_runsBetween`).

A run in which the line nowhere turns rises or falls all the way (`Sloped.slanted`), so the signed
size of its bounding box is the way from its first vertex to its last (`Run.size_eq`).
-/

namespace CurveSketch

/-! ## Cutting into runs -/

/-- The vertices of a polyline up to each of the horizontal coordinates listed, each run from the
one before. -/
def runsBetween (points : List (Point Rat)) : List Rat → List (List (Point Rat))
  | [] => [points]
  | x :: rest =>
    (points.filter fun p => p.x ≤ x) :: runsBetween (points.filter fun p => x ≤ p.x) rest

theorem two_le_length_of_mem {α : Type} {l : List α} {a b : α} (ha : a ∈ l) (hb : b ∈ l)
    (hne : a ≠ b) : 2 ≤ l.length := by
  match l with
  | [c] => exact absurd ((List.mem_singleton.1 ha).trans (List.mem_singleton.1 hb).symm) hne
  | _ :: _ :: l => exact Nat.le_add_left 2 l.length

/-- Cut at some of its vertices, a polyline falls into the runs between them. -/
theorem Rightward.points_cutAt {l : Polyline Rat} {cuts : List Rat} (h : Rightward l.points)
    (hlength : 2 ≤ l.points.length) (hcuts : cuts.Pairwise (· < ·))
    (hvertex : ∀ x ∈ cuts, ∃ v ∈ l.points, v.x = x) :
    (l.cutAt cuts).map (·.points) = runsBetween l.points cuts := by
  -- only before a cut are two vertices needed
  replace hlength : cuts ≠ [] → 2 ≤ l.points.length := fun _ => hlength
  induction cuts generalizing l with
  | nil => rfl
  | cons x rest ih =>
    obtain ⟨hbefore, hrest⟩ := List.pairwise_cons.1 hcuts
    obtain ⟨v, hv, rfl⟩ := hvertex x List.mem_cons_self
    have hlength := hlength (List.cons_ne_nil _ _)
    have hpoints : ((Region.rightOf v.x).clip l).points = l.points.filter fun p => v.x ≤ p.x :=
      Region.points_clip_beside_vertex .right h hlength hv
    have hpoints' : ((Region.leftOf v.x).clip l).points = l.points.filter fun p => p.x ≤ v.x :=
      Region.points_clip_beside_vertex .left h hlength hv
    have hmem : ∀ {w : Point Rat}, w ∈ l.points → v.x ≤ w.x →
        w ∈ ((Region.rightOf v.x).clip l).points := fun hw hle =>
      hpoints ▸ List.mem_filter.2 ⟨hw, decide_eq_true hle⟩
    rw [Polyline.cutAt, List.map_cons, hpoints', runsBetween, ← hpoints]
    refine congrArg _ (ih (hpoints ▸ h.of_sublist List.filter_sublist) hrest (fun y hy => ?_)
      fun hne => ?_)
    · obtain ⟨w, hw, rfl⟩ := hvertex y (List.mem_cons_of_mem _ hy)
      exact ⟨w, hmem hw (hbefore _ hy).le, rfl⟩
    · obtain ⟨y, rest', rfl⟩ := List.exists_cons_of_ne_nil hne
      obtain ⟨w, hw, rfl⟩ := hvertex y (List.mem_cons_of_mem _ List.mem_cons_self)
      have hlt := hbefore _ List.mem_cons_self
      exact two_le_length_of_mem (hmem hv le_rfl) (hmem hw hlt.le) fun heq =>
        hlt.ne (congrArg Point.x heq)

/-! ## The runs -/

theorem Rightward.filter_le_isPrefix {points : List (Point Rat)} (h : Rightward points) (x : Rat) :
    (points.filter fun p => p.x ≤ x) <+: points := by
  induction points with
  | nil => exact List.prefix_rfl
  | cons p points ih =>
    obtain ⟨hp, hrest⟩ := List.pairwise_cons.1 h
    rw [List.filter_cons]
    split
    · exact (List.prefix_cons_inj p).2 (ih hrest)
    · rename_i hgt
      rw [decide_eq_true_iff, not_le] at hgt
      rw [List.filter_eq_nil_iff.2 fun q hq hle =>
        (hgt.trans (hp q hq)).not_ge (of_decide_eq_true hle)]
      exact List.nil_prefix

theorem Rightward.filter_ge_isSuffix {points : List (Point Rat)} (h : Rightward points) (x : Rat) :
    (points.filter fun p => x ≤ p.x) <:+ points := by
  induction points with
  | nil => exact List.suffix_rfl
  | cons p points ih =>
    obtain ⟨hp, hrest⟩ := List.pairwise_cons.1 h
    rw [List.filter_cons]
    split
    · rename_i hle
      rw [decide_eq_true_iff] at hle
      rw [List.filter_eq_self.2 fun q hq => decide_eq_true (hle.trans (hp q hq).le)]
    · exact (ih hrest).trans (List.suffix_cons p points)

/-- A run is a part of the polyline, on one side of every cut. -/
theorem Rightward.of_mem_runsBetween {points s : List (Point Rat)} {cuts : List Rat}
    (h : Rightward points) (hcuts : cuts.Pairwise (· < ·)) (hs : s ∈ runsBetween points cuts) :
    s <:+: points ∧ ∀ x ∈ cuts, (∀ p ∈ s, p.x ≤ x) ∨ ∀ p ∈ s, x ≤ p.x := by
  induction cuts generalizing points with
  | nil => exact ⟨List.mem_singleton.1 hs ▸ List.infix_rfl, nofun⟩
  | cons y rest ih =>
    obtain ⟨hy, hrest⟩ := List.pairwise_cons.1 hcuts
    rcases List.mem_cons.1 hs with rfl | hs
    · have hle : ∀ p ∈ points.filter fun p => p.x ≤ y, p.x ≤ y := fun p hp =>
        of_decide_eq_true (List.mem_filter.1 hp).2
      refine ⟨(h.filter_le_isPrefix y).isInfix, fun x hx => .inl fun p hp => ?_⟩
      rcases List.mem_cons.1 hx with rfl | hx
      · exact hle p hp
      · exact (hle p hp).trans (hy x hx).le
    · have hsuffix := h.filter_ge_isSuffix y
      obtain ⟨hpart, hside⟩ := ih (h.of_sublist List.filter_sublist) hrest hs
      refine ⟨hpart.trans hsuffix.isInfix, List.forall_mem_cons.2 ⟨.inr fun p hp => ?_, hside⟩⟩
      exact of_decide_eq_true (List.mem_filter.1 (hpart.subset hp)).2

/-- If the line turns only at cuts, then it nowhere turns within a run. -/
theorem Rightward.not_turnsAt_of_mem_runsBetween {points s : List (Point Rat)} {cuts : List Rat}
    (h : Rightward points) (hcuts : cuts.Pairwise (· < ·)) (hs : s ∈ runsBetween points cuts)
    (hturn : ∀ t ∈ interior points, TurnsAt t → t.2.1.x ∈ cuts) :
    ∀ t ∈ interior s, ¬TurnsAt t := by
  intro t ht hturns
  obtain ⟨hpart, hside⟩ := h.of_mem_runsBetween hcuts hs
  have hthree : Rightward [t.1, t.2.1, t.2.2] :=
    h.of_sublist ((mem_interior_iff.1 ht).trans hpart).sublist
  obtain ⟨hfirst, hlast⟩ := List.pairwise_cons.1 hthree
  obtain ⟨hmem, -, hmem'⟩ := mem_of_mem_interior ht
  -- the cut at the middle vertex would have the other two on one side
  rcases hside _ (hturn t (interior_subset_of_isInfix hpart ht) hturns) with hle | hge
  · exact (List.rel_of_pairwise_cons hlast List.mem_cons_self).not_ge (hle _ hmem')
  · exact (hfirst _ List.mem_cons_self).not_ge (hge _ hmem)

/-- The runs start at the first vertex and at the cuts, and stop at the cuts and at the last
vertex. -/
theorem Rightward.ends_runsBetween {points cuts : List (Point Rat)} {first last : Point Rat}
    (h : Rightward points) (hcuts : Rightward cuts) (hsub : cuts ⊆ points)
    (hhead : points.head? = some first) (hlast : points.getLast? = some last) :
    (runsBetween points (cuts.map (·.x))).map (·.head?) = (first :: cuts).map some ∧
      (runsBetween points (cuts.map (·.x))).map (·.getLast?) = (cuts ++ [last]).map some := by
  induction cuts generalizing points first with
  | nil => exact ⟨congrArg (fun a => [a]) hhead, congrArg (fun a => [a]) hlast⟩
  | cons v cuts ih =>
    obtain ⟨hv, hcuts⟩ := List.pairwise_cons.1 hcuts
    obtain ⟨before, after, rfl⟩ := List.append_of_mem (hsub List.mem_cons_self)
    have hrest : Rightward (v :: after) := h.of_sublist (List.sublist_append_right before _)
    have hsub' : cuts ⊆ v :: after := fun w hw => by
      rw [← h.filter_ge]
      exact List.mem_filter.2 ⟨hsub (List.mem_cons_of_mem v hw), decide_eq_true (hv w hw).le⟩
    rw [List.getLast?_append_of_ne_nil _ (List.cons_ne_nil v after)] at hlast
    obtain ⟨hheads, hlasts⟩ := ih hrest hcuts hsub' rfl hlast
    have hhead' : (before ++ [v]).head? = some first := by cases before <;> exact hhead
    rw [List.map_cons, runsBetween, h.filter_le, h.filter_ge]
    refine ⟨?_, ?_⟩
    · rw [List.map_cons, hheads, hhead']
      rfl
    · rw [List.map_cons, hlasts, List.getLast?_concat]
      rfl

/-! ## Slanted runs -/

/-- The line rises all the way, or falls all the way. -/
def Slanted (points : List (Point Rat)) : Prop :=
  points.Pairwise (fun p q => p.y < q.y) ∨ points.Pairwise fun p q => q.y < p.y

/-- Without level pieces and without turns a line goes on as it starts. -/
theorem Sloped.isChain_lt_or_gt {points : List (Point Rat)} (h : Sloped points)
    (hturn : ∀ t ∈ interior points, ¬TurnsAt t) :
    points.IsChain (fun p q => p.y < q.y) ∨ points.IsChain fun p q => q.y < p.y := by
  induction points with
  | nil => exact .inl .nil
  | cons p rest ih =>
    cases rest with
    | nil => exact .inl (.singleton p)
    | cons q rest =>
      obtain ⟨hpq, hrest⟩ := List.isChain_cons_cons.1 h
      cases rest with
      | nil =>
        exact hpq.lt_or_gt.imp (fun hlt => .cons_cons hlt (.singleton q)) fun hgt =>
          .cons_cons hgt (.singleton q)
      | cons r rest =>
        have hturn' := hturn (p, q, r) List.mem_cons_self
        rcases ih hrest fun t ht => hturn t (List.mem_cons_of_mem _ ht) with hup | hdown
        · have hqr := (List.isChain_cons_cons.1 hup).1
          exact .inl (.cons_cons (hpq.lt_of_le (not_lt.1 fun hlt => hturn' (.inr ⟨hlt, hqr⟩))) hup)
        · have hqr := (List.isChain_cons_cons.1 hdown).1
          exact .inr (.cons_cons (hpq.symm.lt_of_le (not_lt.1 fun hlt => hturn' (.inl ⟨hlt, hqr⟩)))
            hdown)

/-- Without level pieces and without turns a line rises or falls all the way. -/
theorem Sloped.slanted {points : List (Point Rat)} (h : Sloped points)
    (hturn : ∀ t ∈ interior points, ¬TurnsAt t) : Slanted points := by
  let up : Point Rat → Point Rat → Prop := fun p q => p.y < q.y
  let down : Point Rat → Point Rat → Prop := fun p q => q.y < p.y
  have : Trans up up up := ⟨lt_trans⟩
  have : Trans down down down := ⟨fun hab hbc => lt_trans hbc hab⟩
  exact (h.isChain_lt_or_gt hturn).imp (List.IsChain.pairwise (R := up))
    (List.IsChain.pairwise (R := down))

/-! ## The size of a slanted run -/

/-- Successive vertices in range between which the line rises all the way, or falls all the way. -/
structure Run (points : List (Point Rat)) : Prop where
  rightward : Rightward points
  slanted : Slanted points
  inRange : ∀ p ∈ points, p.InRange

theorem Rightward.oneWay {points : List (Point Rat)} (h : Rightward points) :
    OneWay Point.x points :=
  .inl (h.imp le_of_lt)

theorem Slanted.oneWay {points : List (Point Rat)} (h : Slanted points) : OneWay Point.y points :=
  h.imp (.imp le_of_lt) (.imp le_of_lt)

/-- The ends of a slanted run, if they are not above each other, are at different heights. -/
theorem Slanted.y_ne {points : List (Point Rat)} {first last : Point Rat} (h : Slanted points)
    (hhead : points.head? = some first) (hlast : points.getLast? = some last)
    (hne : first.x ≠ last.x) : last.y ≠ first.y := by
  have hmem := List.mem_of_getLast? hlast
  have hne' : last ≠ first := fun heq => hne (congrArg Point.x heq).symm
  rcases h with hup | hdown
  · exact ((eq_or_rel_of_head? hup hhead hmem).resolve_left hne').ne'
  · exact ((eq_or_rel_of_head? hdown hhead hmem).resolve_left hne').ne

/-- The signed size of a slanted run is the way from its first vertex to its last. -/
theorem Run.size_eq {l : Polyline Rat} {first last : Point Rat} (h : Run l.points)
    (hhead : l.points.head? = some first) (hlast : l.points.getLast? = some last) :
    l.size = last - first :=
  Polyline.size_eq_sub h.rightward.oneWay h.slanted.oneWay h.inRange hhead hlast

end CurveSketch
