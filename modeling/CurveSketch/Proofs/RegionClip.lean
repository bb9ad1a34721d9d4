import CurveSketch.Proofs.HalfPlaneClip

/-!
# Clipping to the region of a sector

A region clips a polyline to its boundaries one after the other. What the first of them make of a
piece decides what the others see, and the inside of a half-line or of a closed boundary is less
than a half plane : a piece may come in, or go out, past the end of the boundary.

A piece that starts in a tight region and goes on in it is safe. No boundary cuts off more than what
is outside, so the part up to where it leaves comes through the whole clip
(`Region.Tight.exists_kept_part`). A vertex of the result that is not one of the polyline is where a
boundary was crossed, and that is in the region (`Region.Tight.mem_or_contains_of_mem_clip`).

Nothing outside is left if each boundary makes up for the gaps of those before it
(`Region.FitsTogether`) : its strip is within the region, or as wide as they leave the polyline
(`Region.Tight.contains_of_mem_clip`). So it is with the regions of all sectors but the squares
around the origin (`Sector.regionPart_clip`).

That is less than a clip should do. A piece that comes into a quadrant past the end of the half-line
that is looked at first is lost, and a square can keep a vertex outside
(`Sector.clip_loses_and_keeps`).
-/

namespace CurveSketch

/-! ## One boundary -/

namespace Segment

variable {s : Segment Rat} {a b p q : Point Rat}

theorem stays_of_inward (hb : 0 ≤ s.inward b) : s.Stays a b := by
  intro c hc
  obtain ⟨-, -, -, -, hinside⟩ := crossing?_eq_some_iff.1 hc
  exact hinside.trans (decide_eq_true hb)

/-- Where the piece between two points of the strip of a boundary is level with it, the boundary is
there. -/
theorem reaches_foot_lerp {t : Rat} (h0 : 0 ≤ t) (h1 : t ≤ 1) (ha : s.reaches (s.foot a) = true)
    (hb : s.reaches (s.foot b) = true) : s.reaches (s.foot (a.lerp b t)) = true := by
  have hfoot : s.foot (a.lerp b t) = s.foot a * (1 - t) + s.foot b * t := by
    simp only [foot, Point.dot, Point.lerp, Point.x_sub, Point.y_sub]
    ring
  have h1' : 0 ≤ 1 - t := sub_nonneg.2 h1
  simp only [reaches, Bool.and_eq_true, Bool.or_eq_true, decide_eq_true_eq] at ha hb ⊢
  rw [hfoot]
  refine ⟨?_, ?_⟩
  · rcases ha.1 with hfree | ha
    · exact .inl hfree
    · rcases hb.1 with hfree | hb
      · exact .inl hfree
      · exact .inr (add_nonneg (mul_nonneg ha h1') (mul_nonneg hb h0))
  · rcases ha.2 with hfree | ha
    · exact .inl hfree
    · rcases hb.2 with hfree | hb
      · exact .inl hfree
      · have := mul_nonneg (sub_nonneg.2 ha) h1'
        have := mul_nonneg (sub_nonneg.2 hb) h0
        exact .inr (by linarith)

/-- A piece that starts inside a boundary, and does not leave the strip over it, stops on the inner
side if it stays. -/
theorem Stays.inward_nonneg (h : s.Stays a b) (ha : s.contains a = true)
    (hb : s.reaches (s.foot b) = true) : 0 ≤ s.inward b := by
  obtain ⟨ha, hreach⟩ := contains_iff.1 ha
  by_contra hneg
  have hlt : s.inward b < s.inward a := (not_le.1 hneg).trans_le ha
  have hinside : ∀ t, 0 ≤ s.inward (a.lerp b t) ↔ t ≤ s.leavingParam a b := fun t =>
    inward_nonneg_iff_le_leavingParam hlt
  have h0 : 0 ≤ s.leavingParam a b := (hinside 0).1 (by rwa [Point.lerp_zero])
  have h1 : s.leavingParam a b ≤ 1 := le_of_not_ge fun hge => hneg <| by
    rw [← Point.lerp_one a b]
    exact (hinside 1).2 hge
  have hcross : s.crossing? (closed a b) = some ⟨s.leavingParam a b, false⟩ :=
    crossing?_eq_some_iff.2 ⟨hlt.ne', inward_leavingParam hlt, reaches_foot_lerp h0 h1 hreach hb,
      reaches_closed_iff.2 ⟨h0, h1⟩, (decide_eq_false hneg).symm⟩
  exact absurd (h _ hcross) nofun

end Segment

namespace Region

variable {r : Region Rat} {s : Segment Rat} {a b p q : Point Rat} {l : Polyline Rat}

/-- What holds of a polyline, and is preserved by the clip to each boundary in turn, holds of the
polyline clipped to the region. -/
theorem clip_induction {P : List (Segment Rat) → Polyline Rat → Prop}
    (hstep : ∀ done s todo l, r.boundaries = done ++ s :: todo → P done l →
      P (done ++ [s]) (s.clip l))
    (l : Polyline Rat) (hstart : P [] l) : P r.boundaries (r.clip l) := by
  have hrun : ∀ (todo done : List (Segment Rat)) (l : Polyline Rat),
      r.boundaries = done ++ todo → P done l →
      P r.boundaries (todo.foldl (fun clipped boundary => boundary.clip clipped) l) := by
    intro todo
    induction todo with
    | nil => exact fun done l hsplit hdone => (hsplit.trans (List.append_nil done)) ▸ hdone
    | cons s todo ih =>
      intro done l hsplit hdone
      exact ih (done ++ [s]) (s.clip l) (by rw [hsplit, List.append_cons])
        (hstep done s todo l hsplit hdone)
  exact hrun r.boundaries [] l rfl hstart

namespace Tight

/-- A piece that stays at every boundary of a tight region stays in the region. -/
theorem contains_of_stays (h : r.Tight) (ha : r.contains a = true)
    (hstays : ∀ s ∈ r.boundaries, s.Stays a b) : r.contains b = true := by
  by_contra hb
  rw [← Point.lerp_zero a b] at ha
  rw [← Point.lerp_one a b] at hb
  obtain ⟨c, hc, -, -, hout⟩ := h.exists_leaving le_rfl zero_lt_one le_rfl ha hb
  obtain ⟨s, hs, hcross⟩ := List.mem_filterMap.1 (List.mem_mergeSort.1 hc)
  rw [hstays s hs c hcross] at hout
  cases hout

theorem contains_crossing (h : r.Tight) (hs : s ∈ r.boundaries) {c : Crossing Rat}
    (hc : s.crossing? (.closed a b) = some c) : r.contains (a.lerp b c.param) = true :=
  ((h.crossing?_eq_some_iff hs).1 hc).2.2.1

theorem mem_crossings (hs : s ∈ r.boundaries) {c : Crossing Rat}
    (hc : s.crossing? (.closed a b) = some c) : c ∈ r.crossings (.closed a b) :=
  List.mem_mergeSort.2 (List.mem_filterMap.2 ⟨s, hs, hc⟩)

theorem inward_nonneg (h : r.Tight) (hs : s ∈ r.boundaries) (hp : r.contains p = true) :
    0 ≤ s.inward p :=
  h.contains_iff.1 hp s hs

end Tight

/-! ## The way on from a vertex -/

/-- The part of a piece up to a parameter, still adjacent in a list of vertices, when it has been
clipped to some boundaries. Nothing beyond it is in the region. -/
structure KeptPart (r : Region Rat) (a b : Point Rat) (done : List (Segment Rat))
    (points : List (Point Rat)) (last : Rat) : Prop where
  le_one : last ≤ 1
  adjacent : (a, a.lerp b last) ∈ neighbours points
  stays : ∀ s ∈ done, s.Stays a (a.lerp b last)
  beyond : ∀ w, last < w → w ≤ 1 → r.contains (a.lerp b w) ≠ true

/-- What a boundary keeps of the part from its start is adjacent in the clip. -/
theorem KeptPart.mem_neighbours_clip {done : List (Segment Rat)} {last u : Rat}
    (h : KeptPart r a b done l.points last) (hne : a ≠ b) (hu : 0 < u)
    (hpiece : s.clip? (.closed a (a.lerp b last)) = some (.closed a (a.lerp b u))) :
    (a, a.lerp b u) ∈ neighbours (s.clip l).points := by
  have hends := Segment.ends_mem_neighbours h.adjacent hpiece
  exact (mem_neighbours_collapse hends).resolve_left fun heq =>
    hne ((lerp_eq_start_iff hu.ne').1 heq.1.symm).symm

namespace Tight

/-- A boundary of the region leaves the part, or cuts off more of what is outside. -/
theorem exists_keptPart_clip (h : r.Tight) (hne : a ≠ b) (ha : r.contains a = true) {t : Rat}
    (ht : 0 < t) (ht1 : t ≤ 1) (hin : r.contains (a.lerp b t) = true)
    {done todo : List (Segment Rat)} (hsplit : r.boundaries = done ++ s :: todo) {last : Rat}
    (hpart : KeptPart r a b done l.points last) :
    ∃ last', KeptPart r a b (done ++ [s]) (s.clip l).points last' := by
  have hs : s ∈ r.boundaries := hsplit ▸ List.mem_append_right _ List.mem_cons_self
  have hlast : t ≤ last := not_lt.1 fun hlt => hpart.beyond t hlt ht1 hin
  have hpos : 0 < last := ht.trans_le hlast
  have hinside : s.contains a = true := Region.contains_iff.1 ha s hs
  have hclip := s.clipping a (a.lerp b last)
  generalize hpiece : s.clip? (.closed a (a.lerp b last)) = part at hclip
  cases hclip with
  | whole _ hstays =>
    exact ⟨last, hpart.le_one, hpart.mem_neighbours_clip hne hpos hpiece,
      List.forall_mem_append.2 ⟨hpart.stays, List.forall_mem_singleton.2 hstays⟩, hpart.beyond⟩
  | dropped hout => exact absurd hinside hout
  | cutIn c hout => exact absurd hinside hout
  | cutOff c hc hout =>
    have hcontains := h.contains_crossing hs hc
    rw [lerp_lerp_of_start] at hpiece hcontains
    have hbeyond : ∀ w, last * c.param < w → w ≤ 1 → r.contains (a.lerp b w) ≠ true := by
      intro w hw _
      have hw' : c.param < w / last := (lt_div_iff₀' hpos).2 hw
      have hnot := h.not_contains_beyond (mem_crossings hs hc) hout hw'
      rwa [lerp_lerp_of_start, mul_div_cancel₀ _ hpos.ne'] at hnot
    have hle : t ≤ last * c.param := not_lt.1 fun hlt => hbeyond t hlt ht1 hin
    have hparam : c.param ≤ 1 := by
      obtain ⟨-, -, -, hreaches, -⟩ := (h.crossing?_eq_some_iff hs).1 hc
      exact (Segment.reaches_closed_iff.1 hreaches).2
    refine ⟨last * c.param, ?_, hpart.mem_neighbours_clip hne (ht.trans_le hle) hpiece,
      fun d hd => ?_, hbeyond⟩
    · exact (mul_le_of_le_one_right hpos.le hparam).trans hpart.le_one
    -- the part stops in the region, so at no boundary does it stop outside
    · have hd : d ∈ r.boundaries := by
        rw [hsplit, List.append_cons]
        exact List.mem_append_left _ hd
      exact Segment.stays_of_inward (h.inward_nonneg hd hcontains)

/-- A piece that starts in a tight region and goes on in it is kept up to where it leaves. -/
theorem exists_kept_part (h : r.Tight) (hpiece : (a, b) ∈ neighbours l.points) (hne : a ≠ b)
    (ha : r.contains a = true) {t : Rat} (ht : 0 < t) (ht1 : t ≤ 1)
    (hin : r.contains (a.lerp b t) = true) :
    ∃ last, t ≤ last ∧ last ≤ 1 ∧ r.contains (a.lerp b last) = true ∧
      (∀ w, last < w → w ≤ 1 → r.contains (a.lerp b w) ≠ true) ∧
      (a, a.lerp b last) ∈ neighbours (r.clip l).points := by
  obtain ⟨last, hpart⟩ := clip_induction
    (P := fun done l => ∃ last, KeptPart r a b done l.points last)
    (fun done s todo l hsplit ⟨last, hpart⟩ =>
      h.exists_keptPart_clip hne ha ht ht1 hin hsplit hpart) l
    ⟨1, le_rfl, (Point.lerp_one a b).symm ▸ hpiece, nofun, fun w hw hw1 => absurd hw1 hw.not_ge⟩
  exact ⟨last, not_lt.1 fun hlt => hpart.beyond t hlt ht1 hin, hpart.le_one,
    h.contains_of_stays ha hpart.stays, hpart.beyond, hpart.adjacent⟩

/-! ## Vertices of the result -/

/-- A vertex that comes up in a clip to one boundary is where the boundary was crossed. -/
theorem mem_or_contains_of_mem_clip_boundary (h : r.Tight) (hs : s ∈ r.boundaries)
    (hp : p ∈ (s.clip l).points) : p ∈ l.points ∨ r.contains p = true := by
  obtain ⟨⟨a, b⟩, hpiece, part, hclip, hends⟩ :=
    Segment.mem_keptEnds.1 ((collapse_sublist _).subset hp)
  obtain ⟨ha, hb⟩ := mem_of_mem_neighbours hpiece
  have hclipping := s.clipping a b
  rw [hclip] at hclipping
  cases hclipping with
  | whole => exact .inl (hends.elim (fun heq => heq ▸ ha) fun heq => heq ▸ hb)
  | cutOff c hc =>
    rcases hends with rfl | rfl
    · exact .inl ha
    · exact .inr (h.contains_crossing hs hc)
  | cutIn c _ hc =>
    rcases hends with rfl | rfl
    · exact .inr (h.contains_crossing hs hc)
    · exact .inl hb

/-- A vertex of the clipped polyline that is not in the region is a vertex of the polyline. -/
theorem mem_or_contains_of_mem_clip (h : r.Tight) (hp : p ∈ (r.clip l).points) :
    p ∈ l.points ∨ r.contains p = true := by
  refine clip_induction (P := fun _ l' => p ∈ l'.points → p ∈ l.points ∨ r.contains p = true)
    (fun done s todo l' hsplit ih hp => ?_) l .inl hp
  have hs : s ∈ r.boundaries := hsplit ▸ List.mem_append_right _ List.mem_cons_self
  exact (h.mem_or_contains_of_mem_clip_boundary hs hp).elim ih .inr

end Tight

/-! ## Boundaries that fit together -/

/-- A boundary makes up for the gaps of those done before it : its strip is within the region, or as
wide as they leave the polyline. -/
def Fits (r : Region Rat) (done : List (Segment Rat)) (s : Segment Rat) : Prop :=
  (∀ p, s.contains p = true → r.contains p = true) ∨
    ∀ p, (∀ d ∈ done, 0 ≤ d.inward p) → s.reaches (s.foot p) = true

/-- Each boundary makes up for the gaps of those before it. -/
def FitsTogether (r : Region Rat) : Prop :=
  ∀ done s todo, r.boundaries = done ++ s :: todo → Fits r done s

/-- A vertex that follows another when a polyline has been clipped to some boundaries : it is on the
inner side of all of them, or the way to it starts in the region and stays there. -/
def Follows (r : Region Rat) (done : List (Segment Rat)) (a q : Point Rat) : Prop :=
  (∀ d ∈ done, 0 ≤ d.inward q) ∨ r.contains a = true ∧ ∀ d ∈ done, d.Stays a q

/-- The vertices of a polyline that has been clipped to some boundaries. -/
structure Done (r : Region Rat) (done : List (Segment Rat)) (points : List (Point Rat)) :
    Prop where
  /-- The first vertex is on the inner side of all of them. -/
  head : ∀ p, points.head? = some p → ∀ d ∈ done, 0 ≤ d.inward p
  /-- Each other follows the one before it. -/
  next : ∀ pair ∈ neighbours points, Follows r done pair.1 pair.2

theorem forall_inward_concat {done : List (Segment Rat)} (hdone : ∀ d ∈ done, 0 ≤ d.inward p)
    (hs : 0 ≤ s.inward p) : ∀ d ∈ done ++ [s], 0 ≤ d.inward p :=
  List.forall_mem_append.2 ⟨hdone, List.forall_mem_singleton.2 hs⟩

/-- If the next vertex follows one that the next boundary does not have, it is on the inner side of
the boundaries before. -/
theorem Follows.inward_of_not_contains {done : List (Segment Rat)} (h : Follows r done a q)
    (hs : s ∈ r.boundaries) (ha : s.contains a ≠ true) : ∀ d ∈ done, 0 ≤ d.inward q :=
  h.resolve_right fun hin => ha (contains_iff.1 hin.1 s hs)

/-- A piece that the next boundary keeps goes on following. -/
theorem Follows.of_stays {done : List (Segment Rat)} (hfit : Fits r done s)
    (h : Follows r done a q) (ha : s.contains a = true) (hstays : s.Stays a q) :
    Follows r (done ++ [s]) a q := by
  rcases h with hq | ⟨hin, hdone⟩
  · rcases hfit with hwithin | hwide
    · refine .inr ⟨hwithin a ha, List.forall_mem_append.2 ⟨fun d hd => ?_,
        List.forall_mem_singleton.2 hstays⟩⟩
      exact Segment.stays_of_inward (hq d hd)
    · exact .inl (forall_inward_concat hq (hstays.inward_nonneg ha (hwide q hq)))
  · exact .inr ⟨hin, List.forall_mem_append.2 ⟨hdone, List.forall_mem_singleton.2 hstays⟩⟩

section

variable (h : r.Tight) {done todo : List (Segment Rat)}
  (hsplit : r.boundaries = done ++ s :: todo)

include h hsplit

theorem inward_of_contains (hp : r.contains p = true) : ∀ d ∈ done ++ [s], 0 ≤ d.inward p := by
  intro d hd
  refine h.inward_nonneg ?_ hp
  rw [hsplit, List.append_cons]
  exact List.mem_append_left _ hd

/-- What is left of the rest of a polyline starts with its first vertex, or on the inner side of
every boundary that is done. -/
theorem head?_keptEnds {points : List (Point Rat)}
    (hnext : ∀ pair ∈ neighbours (b :: points), Follows r done pair.1 pair.2)
    (hp : (s.keptEnds (b :: points)).head? = some p) :
    p = b ∧ 0 ≤ s.inward b ∨ ∀ d ∈ done ++ [s], 0 ≤ d.inward p := by
  have hs : s ∈ r.boundaries := hsplit ▸ List.mem_append_right _ List.mem_cons_self
  induction points generalizing b with
  | nil => exact absurd hp nofun
  | cons q points ih =>
    obtain ⟨hfollows, hrest⟩ := List.forall_mem_cons.1 hnext
    rw [Segment.keptEnds_cons_cons] at hp
    have hclip := s.clipping b q
    generalize s.clip? (.closed b q) = part at hclip hp
    cases hclip with
    | whole hb =>
      obtain rfl := Option.some.inj hp
      exact .inl ⟨rfl, (Segment.contains_iff.1 hb).1⟩
    | dropped hb =>
      rcases ih hrest hp with ⟨rfl, hq⟩ | hp
      · exact .inr (forall_inward_concat (hfollows.inward_of_not_contains hs hb) hq)
      · exact .inr hp
    | cutOff c hc hout =>
      obtain rfl := Option.some.inj hp
      refine .inl ⟨rfl, ?_⟩
      obtain ⟨-, hzero, -, hreaches, hside⟩ := Segment.crossing?_eq_some_iff.1 hc
      obtain ⟨h0, h1⟩ := Segment.reaches_closed_iff.1 hreaches
      by_contra hneg
      rw [hout] at hside
      exact (Segment.inward_lerp_neg h0 h1 (not_le.1 hneg)
        (not_le.1 (of_decide_eq_false hside.symm))).ne hzero
    | cutIn c _ hc =>
      obtain rfl := Option.some.inj hp
      exact .inr (inward_of_contains h hsplit (h.contains_crossing hs hc))

/-- After one more boundary each vertex still follows the one before it, unless it is the same. -/
theorem follows_of_mem_neighbours_keptEnds (hfit : Fits r done s) {points : List (Point Rat)}
    (hnext : ∀ pair ∈ neighbours points, Follows r done pair.1 pair.2)
    {pair : Point Rat × Point Rat} (hpair : pair ∈ neighbours (s.keptEnds points)) :
    pair.1 = pair.2 ∨ Follows r (done ++ [s]) pair.1 pair.2 := by
  have hs : s ∈ r.boundaries := hsplit ▸ List.mem_append_right _ List.mem_cons_self
  induction points with
  | nil => exact absurd hpair List.not_mem_nil
  | cons a points ih =>
    cases points with
    | nil => exact absurd hpair List.not_mem_nil
    | cons b points =>
      obtain ⟨hfollows, hrest⟩ := List.forall_mem_cons.1 hnext
      -- the pairs are the ends of the part that is kept, its end with the next, and the rest
      have hcases : ∀ {p q : Point Rat},
          pair ∈ neighbours (p :: q :: s.keptEnds (b :: points)) →
          Follows r (done ++ [s]) p q →
          (∀ p', p' = b ∧ 0 ≤ s.inward b ∨ (∀ d ∈ done ++ [s], 0 ≤ d.inward p') →
            q = p' ∨ Follows r (done ++ [s]) q p') →
          pair.1 = pair.2 ∨ Follows r (done ++ [s]) pair.1 pair.2 := by
        intro p q hpair hfirst hjoin
        rcases List.mem_cons.1 hpair with rfl | hpair
        · exact .inr hfirst
        · rcases mem_neighbours_cons.1 hpair with ⟨hq, hhead⟩ | hpair
          · exact hq ▸ hjoin pair.2 (head?_keptEnds h hsplit hrest hhead)
          · exact ih hrest hpair
      rw [Segment.keptEnds_cons_cons] at hpair
      have hclip := s.clipping a b
      generalize s.clip? (.closed a b) = part at hclip hpair
      cases hclip with
      | whole ha hstays =>
        exact hcases hpair (hfollows.of_stays hfit ha hstays) fun p' hp' =>
          hp'.imp (fun heq => heq.1.symm) .inl
      | dropped => exact ih hrest hpair
      | cutOff c hc hout =>
        have hin := inward_of_contains h hsplit (h.contains_crossing hs hc)
        refine hcases hpair (.inl hin) fun p' hp' => .inr (.inl (hp'.resolve_left fun heq => ?_))
        obtain ⟨-, -, -, -, hside⟩ := Segment.crossing?_eq_some_iff.1 hc
        rw [hout] at hside
        exact of_decide_eq_false hside.symm heq.2
      | cutIn c ha hc hinside =>
        obtain ⟨-, -, -, -, hside⟩ := Segment.crossing?_eq_some_iff.1 hc
        have hb : 0 ≤ s.inward b := of_decide_eq_true (hside.symm.trans hinside)
        have hdone := hfollows.inward_of_not_contains hs ha
        exact hcases hpair (.inl (forall_inward_concat hdone hb)) fun p' hp' =>
          hp'.imp (fun heq => heq.1.symm) .inl

/-- The next boundary leaves a polyline that is done with it as well. -/
theorem Done.clip (hfit : Fits r done s) (hdone : Done r done l.points) :
    Done r (done ++ [s]) (s.clip l).points where
  head p hp := by
    have hp' : (s.keptEnds l.points).head? = some p := (head?_collapse _).symm.trans hp
    generalize l.points = points at hdone hp'
    cases points with
    | nil => exact absurd hp' nofun
    | cons a points =>
      rcases head?_keptEnds h hsplit hdone.next hp' with ⟨rfl, hin⟩ | hin
      · exact forall_inward_concat (hdone.head p rfl) hin
      · exact hin
  next pair hpair := by
    have hne : pair.1 ≠ pair.2 := by
      have hpart := mem_neighbours_iff.1 hpair
      have hchain := List.IsChain.infix (isChain_collapse _) hpart
      exact List.isChain_pair.1 hchain
    exact (follows_of_mem_neighbours_keptEnds h hsplit hfit hdone.next
      (neighbours_collapse_subset _ hpair)).resolve_left hne

end

/-- A polyline that all boundaries are done with is in the region. -/
theorem Done.contains (h : r.Tight) {points : List (Point Rat)}
    (hdone : Done r r.boundaries points) (hp : p ∈ points) : r.contains p = true := by
  obtain ⟨before, after, rfl⟩ := List.append_of_mem hp
  rcases List.eq_nil_or_concat before with rfl | ⟨before, a, rfl⟩
  · exact h.contains_of_inward (hdone.head p rfl)
  · have hpair : (a, p) ∈ neighbours (before.concat a ++ p :: after) :=
      mem_neighbours_iff.2 ⟨before, after, by simp⟩
    rcases hdone.next _ hpair with hin | ⟨ha, hstays⟩
    · exact h.contains_of_inward hin
    · exact h.contains_of_stays ha hstays

/-- Clipped to a tight region whose boundaries fit together, a polyline is in the region. -/
theorem Tight.contains_of_mem_clip (h : r.Tight) (hfits : r.FitsTogether)
    (hp : p ∈ (r.clip l).points) : r.contains p = true := by
  refine Done.contains h (clip_induction (P := fun done l' => Done r done l'.points)
    (fun done s todo l' hsplit hdone => hdone.clip h hsplit (hfits done s todo hsplit)) l ?_) hp
  exact ⟨fun _ _ _ hd => absurd hd List.not_mem_nil, fun _ _ => .inl nofun⟩

/-! ## The shapes of sectors -/

theorem fitsTogether_of_within (h : ∀ s ∈ r.boundaries, ∀ p, s.contains p = true →
    r.contains p = true) : r.FitsTogether := fun done s _ hsplit =>
  .inl (h s (hsplit ▸ List.mem_append_right done List.mem_cons_self))

/-- Each half-line of a quadrant has nothing in its strip but the quadrant. -/
theorem fitsTogether_quadrant {d e : Point Rat} (h : d.Perpendicular e) :
    (quadrant d e).FitsTogether := by
  refine fitsTogether_of_within (List.forall_mem_cons.2 ⟨fun p hp => ?_,
    List.forall_mem_singleton.2 fun p hp => ?_⟩)
  · exact (bounds_quadrant h).contains_of ((Segment.contains_halfLineTowards_iff h).1 hp)
  · exact (bounds_quadrant h).contains_of ((Segment.contains_halfLineTowards_iff h.symm).1 hp).symm

/-- The base of a band has nothing in its strip but the band, and what is above the base is level
with the half-lines. -/
theorem fitsTogether_axisBand {axis left right : Point Rat} (hunit : axis.dot axis = 1)
    (hleft : left = ⟨-axis.y, axis.x⟩) (hright : right = ⟨axis.y, -axis.x⟩) {slop : Rat}
    (hslop : 0 < slop) : (axisBand left right axis slop).FitsTogether := by
  have hbounds := bounds_axisBand hunit hleft hright hslop
  subst hleft hright
  obtain ⟨hbase, hleft, hright⟩ := edges_axisBand hunit hslop
  have habove : ∀ p, 0 ≤ (Segment.closed (Point.scale ⟨-axis.y, axis.x⟩ slop)
      (Point.scale ⟨axis.y, -axis.x⟩ slop)).inward p → 0 ≤ p.dot axis := fun p hp => by
    rw [hbase.inward_nonneg_iff, sub_zero] at hp
    exact hp
  rintro (_ | ⟨_, _ | ⟨_, _ | ⟨_, done⟩⟩⟩) s todo hsplit <;>
    simp only [axisBand, List.nil_append, List.cons_append, List.cons.injEq] at hsplit
  · obtain ⟨rfl, -⟩ := hsplit
    refine .inl fun p hp => hbounds.contains_of ?_
    obtain ⟨hin, hreaches⟩ := Segment.contains_iff.1 hp
    exact ⟨habove p hin, (hbase.reaches p).1 hreaches⟩
  · obtain ⟨rfl, rfl, -⟩ := hsplit
    exact .inr fun p hp => (hleft.reaches p).2 (habove p (hp _ List.mem_cons_self))
  · obtain ⟨rfl, -, rfl, -⟩ := hsplit
    exact .inr fun p hp => (hright.reaches p).2 (habove p (hp _ List.mem_cons_self))
  · exact absurd hsplit.2.2.2.symm (List.append_ne_nil_of_right_ne_nil _ (List.cons_ne_nil _ _))

theorem fitsTogether_fullLine (o d : Point Rat) (side : Side) :
    (Region.mk [Segment.fullLine o d side]).FitsTogether :=
  fitsTogether_of_within (List.forall_mem_singleton.2 fun _ hp =>
    contains_iff.2 (List.forall_mem_singleton.2 hp))

theorem fitsTogether_everywhere : (everywhere : Region Rat).FitsTogether :=
  fitsTogether_of_within nofun

/-- A half plane keeps the vertices that are in it. -/
theorem mem_clip_fullLine {o d : Point Rat} {side : Side} (hlength : 2 ≤ l.points.length)
    (hp : p ∈ l.points) (hin : (Region.mk [Segment.fullLine o d side]).contains p = true) :
    p ∈ ((Region.mk [Segment.fullLine o d side]).clip l).points := by
  obtain ⟨place, -, hplace⟩ := Segment.exists_place_clip
    (s := .fullLine o d side) (fun _ => rfl) hlength
  obtain ⟨i, hi⟩ := List.getElem?_of_mem hp
  exact List.mem_of_getElem? (hplace i p hi (contains_iff.1 hin _ List.mem_cons_self))

end Region

/-! ## Sectors -/

namespace Sector

/-- A sector with a square around the origin for its region. -/
def IsSquare (s : Sector) : Prop :=
  s = .origin ∨ s = .relaxedOrigin

/-- A sector with a half plane for its region, or the whole plane. -/
def IsHalfPlane (s : Sector) : Prop :=
  s ∈ [leftHalf, rightHalf, topHalf, bottomHalf, anywhere]

instance (s : Sector) : Decidable s.IsSquare :=
  inferInstanceAs (Decidable (_ ∨ _))

instance (s : Sector) : Decidable s.IsHalfPlane :=
  inferInstanceAs (Decidable (_ ∈ _))

theorem fitsTogether_region {settings : Settings Rat} (h : settings.PositiveSlops) {s : Sector}
    (hs : ¬s.IsSquare) : (s.region settings).FitsTogether := by
  cases s
  case topLeft => exact Region.fitsTogether_quadrant (by constructor <;> decide +kernel)
  case topRight => exact Region.fitsTogether_quadrant (by constructor <;> decide +kernel)
  case bottomLeft => exact Region.fitsTogether_quadrant (by constructor <;> decide +kernel)
  case bottomRight => exact Region.fitsTogether_quadrant (by constructor <;> decide +kernel)
  case onAxisWithPositiveX =>
    exact Region.fitsTogether_axisBand Point.unit_right rfl rfl h.axisSlop
  case onAxisWithNegativeX =>
    exact Region.fitsTogether_axisBand Point.unit_left rfl rfl h.axisSlop
  case onAxisWithPositiveY =>
    exact Region.fitsTogether_axisBand Point.unit_up rfl rfl h.axisSlop
  case onAxisWithNegativeY =>
    exact Region.fitsTogether_axisBand Point.unit_down rfl rfl h.axisSlop
  case origin => exact absurd (.inl rfl) hs
  case relaxedOrigin => exact absurd (.inr rfl) hs
  case leftHalf => exact Region.fitsTogether_fullLine _ _ _
  case rightHalf => exact Region.fitsTogether_fullLine _ _ _
  case topHalf => exact Region.fitsTogether_fullLine _ _ _
  case bottomHalf => exact Region.fitsTogether_fullLine _ _ _
  case anywhere => exact Region.fitsTogether_everywhere

theorem mem_clip_of_isHalfPlane (settings : Settings Rat) {s : Sector} (hs : s.IsHalfPlane)
    {l : Polyline Rat} (hlength : 2 ≤ l.points.length) {p : Point Rat} (hp : p ∈ l.points)
    (hin : (s.region settings).contains p = true) :
    p ∈ ((s.region settings).clip l).points := by
  simp only [IsHalfPlane, List.mem_cons, List.not_mem_nil, or_false] at hs
  rcases hs with rfl | rfl | rfl | rfl | rfl
  · exact Region.mem_clip_fullLine hlength hp hin
  · exact Region.mem_clip_fullLine hlength hp hin
  · exact Region.mem_clip_fullLine hlength hp hin
  · exact Region.mem_clip_fullLine hlength hp hin
  · exact hp

/-- What a clip to a region makes of a polyline. -/
structure RegionPart (s : Sector) (r : Region Rat) (l clipped : Polyline Rat) : Prop where
  /-- A piece that starts in the region and goes on in it is kept up to where it leaves for good. -/
  onward : ∀ piece ∈ neighbours l.points, piece.1 ≠ piece.2 → r.contains piece.1 = true →
    ∀ t, 0 < t → t ≤ 1 → r.contains (piece.1.lerp piece.2 t) = true →
      ∃ last, t ≤ last ∧ last ≤ 1 ∧ r.contains (piece.1.lerp piece.2 last) = true ∧
        (∀ w, last < w → w ≤ 1 → r.contains (piece.1.lerp piece.2 w) ≠ true) ∧
          (piece.1, piece.1.lerp piece.2 last) ∈ neighbours clipped.points
  /-- A vertex that comes up is in the region. -/
  vertex : ∀ p ∈ clipped.points, p ∈ l.points ∨ r.contains p = true
  /-- If the region is not a square, every vertex is. -/
  inside : ¬s.IsSquare → ∀ p ∈ clipped.points, r.contains p = true
  /-- If the region is a half plane, every vertex in it is kept. -/
  kept : s.IsHalfPlane → ∀ p ∈ l.points, r.contains p = true → p ∈ clipped.points

/-- In exact arithmetic and with positive slops, clipping a polyline to the region of a sector keeps
what goes on in the region from its vertices there, and adds nothing outside; but for the squares,
it leaves nothing outside. -/
theorem regionPart_clip {settings : Settings Rat} (h : settings.PositiveSlops) (s : Sector)
    {l : Polyline Rat} (hlength : 2 ≤ l.points.length) :
    s.RegionPart (s.region settings) l ((s.region settings).clip l) where
  onward _ hpiece hne hstart _ ht ht1 hin :=
    (tight_region h s).exists_kept_part hpiece hne hstart ht ht1 hin
  vertex _ hp := (tight_region h s).mem_or_contains_of_mem_clip hp
  inside hs _ hp := (tight_region h s).contains_of_mem_clip (fitsTogether_region h hs) hp
  kept hs _ hp hin := mem_clip_of_isHalfPlane settings hs hlength hp hin

/-- A piece that starts on the right half axis is kept up to where it leaves the band. -/
theorem regionPart_clip_along_axis :
    let settings : Settings Rat := ⟨1 / 50, 1 / 4, 1 / 10, 4, 5, 2 / 5⟩
    let l : Polyline Rat := .ofPoints [⟨-1, 1⟩, ⟨1, 0⟩, ⟨5, 1⟩]
    let r := onAxisWithPositiveX.region settings
    settings.PositiveSlops ∧ 2 ≤ l.points.length ∧ onAxisWithPositiveX.RegionPart r l (r.clip l) ∧
      (r.clip l).points = [⟨1, 0⟩, ⟨27 / 25, 1 / 50⟩] := by
  intro settings l r
  have hslops : settings.PositiveSlops := by constructor <;> decide +kernel
  have hlength : 2 ≤ l.points.length := by decide
  exact ⟨hslops, hlength, regionPart_clip hslops .onAxisWithPositiveX hlength,
    eq_of_beq (by decide +kernel)⟩

/-- The top right quadrant loses a vertex : the piece up to it comes in past the start of the
half-line along the right axis, which it does not cross. The square around the origin keeps a vertex
that is outside : the pieces next to it leave the strips of boundaries past their ends. -/
theorem clip_loses_and_keeps :
    let settings : Settings Rat := ⟨1 / 50, 10, 10, 4, 5, 2 / 5⟩
    let level : Polyline Rat := .ofPoints [⟨-1, 1⟩, ⟨1, 1⟩]
    let winding : Polyline Rat :=
      .ofPoints [⟨-8, 9⟩, ⟨-36, -3⟩, ⟨4, -31⟩, ⟨31, 17⟩, ⟨-30, -20⟩, ⟨25, 45⟩]
    settings.PositiveSlops ∧
      (⟨1, 1⟩ ∈ level.points ∧ (topRight.region settings).contains ⟨1, 1⟩ = true ∧
        ((topRight.region settings).clip level).points = []) ∧
      ⟨31, 17⟩ ∈ ((origin.region settings).clip winding).points ∧
        (origin.region settings).contains ⟨31, 17⟩ = false := by
  intro settings level winding
  refine ⟨by constructor <;> decide +kernel, ⟨by simp [level, Polyline.ofPoints], by decide +kernel,
    eq_of_beq (by decide +kernel)⟩, ?_, by decide +kernel⟩
  exact List.mem_of_elem_eq_true (by decide +kernel)

end Sector

end CurveSketch
