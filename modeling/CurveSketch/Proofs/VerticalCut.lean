import CurveSketch.Region
import CurveSketch.Proofs.Collapse
import CurveSketch.Proofs.TightRegion

/-!
# Cutting at a vertical line

A polyline that runs to the right meets a vertical line once. Clipped to one side of the line
through one of its vertices, it keeps the vertices on that side
(`Region.points_clip_beside_vertex`). Clipped to one side of a line between two vertices, it gains
the point where it crosses, as its end on the left of the line and as its start on the right
(`Region.points_clip_leftOf_between`, `Region.points_clip_rightOf_between`).
-/

namespace CurveSketch

instance : LawfulBEq (Point Rat) where
  eq_of_beq h := (Point.beq_rat _ _).1 h
  rfl := (Point.beq_rat _ _).2 rfl

/-! ## One piece -/

namespace Segment

section

variable {K : Type} [Scalar K] {s : Segment K} {a b : Point K}

/-- A piece stops on the inner side of the boundary, if it crosses it. -/
def Stays (s : Segment K) (a b : Point K) : Prop :=
  ∀ c, s.crossing? (.closed a b) = some c → c.inside = true

/-- What a boundary makes of a piece. -/
inductive Clipping (s : Segment K) (a b : Point K) : Option (Segment K) → Prop
  /-- It stays inside, and is kept. -/
  | whole : s.contains a = true → s.Stays a b → Clipping s a b (some (closed a b))
  /-- It starts outside and does not cross the boundary, and is dropped. -/
  | dropped : s.contains a ≠ true → s.crossing? (closed a b) = none → Clipping s a b none
  /-- It crosses the boundary outwards, and is cut off there. -/
  | cutOff (c : Crossing K) : s.crossing? (closed a b) = some c → c.inside = false →
      Clipping s a b (some (closed a (a.lerp b c.param)))
  /-- It crosses the boundary inwards, and is cut off up to there. -/
  | cutIn (c : Crossing K) : s.contains a ≠ true → s.crossing? (closed a b) = some c →
      c.inside = true → Clipping s a b (some (closed (a.lerp b c.param) b))

theorem clipping (s : Segment K) (a b : Point K) : s.Clipping a b (s.clip? (closed a b)) := by
  unfold clip?
  by_cases ha : s.contains (closed a b).start = true
  · cases hc : s.crossing? (closed a b) with
    | none =>
      rw [if_pos ha]
      exact .whole ha fun c hc' => absurd (hc.symm.trans hc') nofun
    | some c =>
      cases hinside : c.inside with
      | false =>
        simp only [hinside, Bool.not_false, if_true]
        exact .cutOff c hc hinside
      | true =>
        simp only [hinside, Bool.not_true, Bool.false_eq_true, if_false, if_pos ha]
        exact .whole ha fun c' hc' => Option.some.inj (hc.symm.trans hc') ▸ hinside
  · cases hc : s.crossing? (closed a b) with
    | none =>
      rw [if_neg ha]
      exact .dropped ha hc
    | some c =>
      cases hinside : c.inside with
      | false =>
        simp only [hinside, Bool.not_false, if_true]
        exact .cutOff c hc hinside
      | true =>
        simp only [hinside, Bool.not_true, Bool.false_eq_true, if_false, if_neg ha]
        exact .cutIn c ha hc hinside

end

variable {s : Segment Rat} {a b : Point Rat} {u : Rat}

/-- Between two points inside a boundary without ends nothing is cut off. -/
theorem clip?_of_inside (hreach : ∀ t, s.reaches t = true) (ha : 0 ≤ s.inward a)
    (hb : 0 ≤ s.inward b) : s.clip? (closed a b) = some (closed a b) := by
  have hstart : s.contains (closed a b).start = true := contains_iff.2 ⟨ha, hreach _⟩
  unfold clip?
  cases h : s.crossing? (closed a b) with
  | none => exact if_pos hstart
  | some c =>
    obtain ⟨-, -, -, -, hinside⟩ := crossing?_eq_some_iff.1 h
    have hstop : c.inside = true := hinside.trans (decide_eq_true hb)
    simp [hstop, hstart]

/-- Between two points outside a boundary nothing is left. -/
theorem clip?_of_outside (ha : s.inward a < 0) (hb : s.inward b < 0) :
    s.clip? (closed a b) = none := by
  have hstart : ¬s.contains (closed a b).start = true := fun h => ha.not_ge (contains_iff.1 h).1
  unfold clip?
  cases h : s.crossing? (closed a b) with
  | none => exact if_neg hstart
  | some c =>
    obtain ⟨-, hzero, -, hparam, -⟩ := crossing?_eq_some_iff.1 h
    obtain ⟨h0, h1⟩ := reaches_closed_iff.1 hparam
    exact absurd hzero (inward_lerp_neg h0 h1 ha hb).ne

/-- The crossing of a piece with a boundary without ends, at the parameter where it lies on it. -/
theorem crossing?_closed (hreach : ∀ t, s.reaches t = true) (h0 : 0 ≤ u) (h1 : u ≤ 1)
    (hu : s.inward (a.lerp b u) = 0) (hne : s.inward a ≠ s.inward b) :
    s.crossing? (closed a b) = some ⟨u, decide (0 ≤ s.inward b)⟩ :=
  crossing?_eq_some_iff.2 ⟨hne, hu, hreach _, reaches_closed_iff.2 ⟨h0, h1⟩, rfl⟩

/-- A piece that leaves the inside is cut off where it does. -/
theorem clip?_of_leaving (hreach : ∀ t, s.reaches t = true) (h0 : 0 ≤ u) (h1 : u ≤ 1)
    (hu : s.inward (a.lerp b u) = 0) (ha : 0 ≤ s.inward a) (hb : s.inward b < 0) :
    s.clip? (closed a b) = some (closed a (a.lerp b u)) := by
  rw [clip?, crossing?_closed hreach h0 h1 hu (hb.trans_le ha).ne', decide_eq_false hb.not_ge]
  rfl

/-- A piece that comes from outside is cut off up to where it enters. -/
theorem clip?_of_entering (hreach : ∀ t, s.reaches t = true) (h0 : 0 ≤ u) (h1 : u ≤ 1)
    (hu : s.inward (a.lerp b u) = 0) (ha : s.inward a < 0) (hb : 0 ≤ s.inward b) :
    s.clip? (closed a b) = some (closed (a.lerp b u) b) := by
  have hstart : ¬s.contains (closed a b).start = true := fun h => ha.not_ge (contains_iff.1 h).1
  rw [clip?, crossing?_closed hreach h0 h1 hu (ha.trans_le hb).ne, decide_eq_true hb]
  exact if_neg hstart

end Segment

/-! ## The pieces of a polyline -/

theorem neighbours_append {α : Type} (l : List α) (v : α) (l' : List α) :
    neighbours (l ++ v :: l') = neighbours (l ++ [v]) ++ neighbours (v :: l') := by
  induction l with
  | nil => rfl
  | cons a l ih =>
    cases l with
    | nil => rfl
    | cons b l => exact congrArg ((a, b) :: ·) ih

/-- The ends of the pieces of a list of vertices, one piece after the other. -/
def pieceEnds {α : Type} (l : List α) : List α :=
  (neighbours l).flatMap fun piece => [piece.1, piece.2]

theorem collapseAfter_pieceEnds {α : Type} [BEq α] [LawfulBEq α] {a : α} {l : List α}
    (h : (a :: l).IsChain (· ≠ ·)) (rest : List α) :
    collapseAfter a (pieceEnds (a :: l) ++ rest) =
      l ++ collapseAfter ((a :: l).getLast (List.cons_ne_nil a l)) rest := by
  induction l generalizing a with
  | nil => rfl
  | cons b l ih =>
    obtain ⟨hab, hl⟩ := List.isChain_cons_cons.1 h
    change collapseAfter a (a :: b :: (pieceEnds (b :: l) ++ rest)) = _
    rw [collapseAfter_cons_self, collapseAfter_cons_of_ne hab, ih hl, List.getLast_cons_cons]
    rfl

/-- The ends of the pieces, with repetitions dropped, are the vertices. -/
theorem collapse_pieceEnds {α : Type} [BEq α] [LawfulBEq α] {l : List α} (hne : l ≠ [])
    (h : l.IsChain (· ≠ ·)) {rest : List α} (hhead : (pieceEnds l ++ rest).head? = l.head?) :
    collapse (pieceEnds l ++ rest) = l ++ collapseAfter (l.getLast hne) rest := by
  obtain ⟨a, l, rfl⟩ := List.exists_cons_of_ne_nil hne
  obtain ⟨rest', hrest'⟩ := List.head?_eq_some_iff.1 hhead
  rw [hrest', collapse_cons, ← collapseAfter_cons_self a rest', ← hrest',
    collapseAfter_pieceEnds h]
  rfl

theorem head?_pieceEnds {α : Type} {l : List α} (h : 2 ≤ l.length) :
    (pieceEnds l).head? = l.head? := by
  match l with
  | a :: b :: l => rfl

theorem head?_pieceEnds_concat {α : Type} (l : List α) (a : α) (rest : List α) :
    (pieceEnds (l ++ [a]) ++ a :: rest).head? = (l ++ [a]).head? := by
  match l with
  | [] => rfl
  | [_] => rfl
  | _ :: _ :: _ => rfl

namespace Segment

/-- The ends of what is left of the pieces of a list of vertices inside a boundary. -/
def keptEnds {K : Type} [Scalar K] (s : Segment K) (points : List (Point K)) : List (Point K) :=
  ((neighbours points).filterMap fun piece => s.clip? (.closed piece.1 piece.2)).flatMap
    fun piece => [piece.start, piece.stop]

theorem mem_keptEnds {K : Type} [Scalar K] {s : Segment K} {points : List (Point K)}
    {p : Point K} : p ∈ s.keptEnds points ↔ ∃ piece ∈ neighbours points, ∃ part,
      s.clip? (.closed piece.1 piece.2) = some part ∧ (p = part.start ∨ p = part.stop) := by
  simp only [keptEnds, List.mem_flatMap, List.mem_filterMap, List.mem_pair]
  constructor
  · rintro ⟨part, ⟨piece, hpiece, hpart⟩, hp⟩
    exact ⟨piece, hpiece, part, hpart, hp⟩
  · rintro ⟨piece, hpiece, part, hpart, hp⟩
    exact ⟨part, ⟨piece, hpiece, hpart⟩, hp⟩

variable {s : Segment Rat} {l l' : List (Point Rat)} {a b : Point Rat} {u : Rat}

theorem keptEnds_append (s : Segment Rat) (l : List (Point Rat)) (v : Point Rat)
    (l' : List (Point Rat)) :
    s.keptEnds (l ++ v :: l') = s.keptEnds (l ++ [v]) ++ s.keptEnds (v :: l') := by
  rw [keptEnds, neighbours_append, List.filterMap_append, List.flatMap_append]
  rfl

theorem keptEnds_cons_cons (s : Segment Rat) (a b : Point Rat) (l : List (Point Rat)) :
    s.keptEnds (a :: b :: l) =
      (s.clip? (closed a b)).elim [] (fun piece => [piece.start, piece.stop]) ++
        s.keptEnds (b :: l) := by
  rw [keptEnds, neighbours_cons_cons, List.filterMap_cons]
  cases s.clip? (closed a b) <;> rfl

theorem keptEnds_of_inside (hreach : ∀ t, s.reaches t = true) (h : ∀ p ∈ l, 0 ≤ s.inward p) :
    s.keptEnds l = pieceEnds l := by
  induction l with
  | nil => rfl
  | cons a l ih =>
    obtain ⟨ha, hl⟩ := List.forall_mem_cons.1 h
    cases l with
    | nil => rfl
    | cons b l =>
      rw [keptEnds_cons_cons, clip?_of_inside hreach ha (hl b List.mem_cons_self), ih hl]
      rfl

theorem keptEnds_of_outside (h : ∀ p ∈ l, s.inward p < 0) : s.keptEnds l = [] := by
  induction l with
  | nil => rfl
  | cons a l ih =>
    obtain ⟨ha, hl⟩ := List.forall_mem_cons.1 h
    cases l with
    | nil => rfl
    | cons b l =>
      rw [keptEnds_cons_cons, clip?_of_outside ha (hl b List.mem_cons_self), ih hl]
      rfl

/-- Of what is inside a boundary without ends nothing is cut off. -/
theorem collapse_keptEnds_of_inside (hreach : ∀ t, s.reaches t = true)
    (hchain : l.IsChain (· ≠ ·)) (hlength : 2 ≤ l.length) (hin : ∀ p ∈ l, 0 ≤ s.inward p) :
    collapse (s.keptEnds l) = l := by
  have hhead : (pieceEnds l ++ []).head? = l.head? := by
    rw [List.append_nil, head?_pieceEnds hlength]
  have h := collapse_pieceEnds (List.ne_nil_of_length_pos (by omega)) hchain hhead
  rwa [List.append_nil, collapseAfter, List.append_nil, ← keptEnds_of_inside hreach hin] at h

/-- A polyline that leaves the inside for good is cut off where it does. -/
theorem collapse_keptEnds_of_leaving (hreach : ∀ t, s.reaches t = true) (h0 : 0 ≤ u) (h1 : u ≤ 1)
    (hu : s.inward (a.lerp b u) = 0) (hchain : (l ++ [a]).IsChain (· ≠ ·))
    (hin : ∀ p ∈ l ++ [a], 0 ≤ s.inward p) (hout : ∀ p ∈ b :: l', s.inward p < 0) :
    collapse (s.keptEnds (l ++ a :: b :: l')) = l ++ collapse [a, a.lerp b u] := by
  have hcut := clip?_of_leaving hreach h0 h1 hu (hin a List.mem_concat_self)
    (hout b List.mem_cons_self)
  have hkept : s.keptEnds (l ++ a :: b :: l') = pieceEnds (l ++ [a]) ++ [a, a.lerp b u] := by
    rw [keptEnds_append, keptEnds_of_inside hreach hin, keptEnds_cons_cons, hcut,
      keptEnds_of_outside hout]
    rfl
  rw [hkept, collapse_pieceEnds (List.concat_ne_nil a l) hchain (head?_pieceEnds_concat l a _),
    List.getLast_concat, collapseAfter_cons_self, List.append_assoc]
  rfl

/-- A polyline that stays inside once it is there is cut off up to where it enters. -/
theorem collapse_keptEnds_of_entering (hreach : ∀ t, s.reaches t = true) (h0 : 0 ≤ u)
    (h1 : u ≤ 1) (hu : s.inward (a.lerp b u) = 0) (hchain : (b :: l').IsChain (· ≠ ·))
    (hout : ∀ p ∈ l ++ [a], s.inward p < 0) (hin : ∀ p ∈ b :: l', 0 ≤ s.inward p) :
    collapse (s.keptEnds (l ++ a :: b :: l')) = collapse (a.lerp b u :: b :: l') := by
  have hcut := clip?_of_entering hreach h0 h1 hu (hout a List.mem_concat_self)
    (hin b List.mem_cons_self)
  have hkept : s.keptEnds (l ++ a :: b :: l') = a.lerp b u :: b :: pieceEnds (b :: l') := by
    rw [keptEnds_append, keptEnds_of_outside hout, keptEnds_cons_cons, hcut,
      keptEnds_of_inside hreach hin]
    rfl
  have hrest : collapseAfter b (pieceEnds (b :: l')) = collapseAfter b l' := by
    have h := collapseAfter_pieceEnds hchain []
    rw [List.append_nil, collapseAfter, List.append_nil] at h
    exact h.trans (collapseAfter_of_isChain hchain).symm
  rw [hkept]
  by_cases hq : a.lerp b u = b
  · simp only [hq, collapse_cons, collapseAfter_cons_self, hrest]
  · simp only [collapse_cons, collapseAfter_cons_of_ne hq, hrest]

end Segment

/-! ## Polylines that run to the right -/

/-- The horizontal coordinates increase. -/
def Rightward (points : List (Point Rat)) : Prop :=
  points.Pairwise fun p q => p.x < q.x

instance (points : List (Point Rat)) : Decidable (Rightward points) :=
  inferInstanceAs (Decidable (points.Pairwise _))

/-- The first of a list in strict order is before the others. -/
theorem eq_or_rel_of_head? {α : Type} {R : α → α → Prop} {l : List α} {a b : α}
    (h : l.Pairwise R) (hhead : l.head? = some a) (hb : b ∈ l) : b = a ∨ R a b := by
  obtain ⟨rest, rfl⟩ := List.head?_eq_some_iff.1 hhead
  exact (List.mem_cons.1 hb).imp_right (List.rel_of_pairwise_cons h)

/-- The last of a list in strict order is after the others. -/
theorem eq_or_rel_of_getLast? {α : Type} {R : α → α → Prop} {l : List α} {a b : α}
    (h : l.Pairwise R) (hlast : l.getLast? = some a) (hb : b ∈ l) : b = a ∨ R b a := by
  obtain ⟨init, rfl⟩ := List.getLast?_eq_some_iff.1 hlast
  rcases List.mem_append.1 hb with hb | hb
  · exact .inr ((List.pairwise_append.1 h).2.2 b hb a (List.mem_singleton_self a))
  · exact .inl (List.mem_singleton.1 hb)

namespace Rightward

variable {points before after : List (Point Rat)} {v : Point Rat}

theorem of_sublist {points' : List (Point Rat)} (h : Rightward points)
    (hsub : points'.Sublist points) : Rightward points' :=
  List.Pairwise.sublist hsub h

/-- Two vertices or more lead from left to right. -/
theorem head_lt_last {first last : Point Rat} (h : Rightward points) (hlength : 2 ≤ points.length)
    (hhead : points.head? = some first) (hlast : points.getLast? = some last) :
    first.x < last.x := by
  obtain ⟨rest, rfl⟩ := List.head?_eq_some_iff.1 hhead
  have hne : rest ≠ [] := List.ne_nil_of_length_pos (Nat.succ_le_succ_iff.1 hlength)
  rw [List.getLast?_cons_of_ne_nil hne] at hlast
  exact List.rel_of_pairwise_cons h (List.mem_of_getLast? hlast)

theorem isChain_ne (h : Rightward points) : points.IsChain (· ≠ ·) :=
  (h.imp fun hlt heq => hlt.ne (congrArg Point.x heq)).isChain

/-- Polylines that run to the right through the same vertices are the same. -/
theorem eq_of_mem_iff {points' : List (Point Rat)} (h : Rightward points)
    (h' : Rightward points') (hmem : ∀ p, p ∈ points ↔ p ∈ points') : points = points' := by
  have hnodup : ∀ {l : List (Point Rat)}, Rightward l → l.Nodup := fun h =>
    h.imp fun hlt heq => hlt.ne (congrArg Point.x heq)
  refine ((List.perm_ext_iff_of_nodup (hnodup h) (hnodup h')).2 hmem).eq_of_pairwise
    (fun a b _ _ hab hba => absurd hba hab.not_gt) h h'

theorem lt_of_mem_before (h : Rightward (before ++ v :: after)) {p : Point Rat}
    (hp : p ∈ before) : p.x < v.x :=
  (List.pairwise_append.1 h).2.2 p hp v List.mem_cons_self

theorem lt_of_mem_after (h : Rightward (before ++ v :: after)) {p : Point Rat} (hp : p ∈ after) :
    v.x < p.x :=
  List.rel_of_pairwise_cons (List.pairwise_append.1 h).2.1 hp

theorem le_of_mem_concat (h : Rightward (before ++ v :: after)) {p : Point Rat}
    (hp : p ∈ before ++ [v]) : p.x ≤ v.x := by
  rcases List.mem_append.1 hp with hp | hp
  · exact (h.lt_of_mem_before hp).le
  · exact (congrArg Point.x (List.mem_singleton.1 hp)).le

theorem le_of_mem_cons (h : Rightward (before ++ v :: after)) {p : Point Rat}
    (hp : p ∈ v :: after) : v.x ≤ p.x := by
  rcases List.mem_cons.1 hp with rfl | hp
  · exact le_rfl
  · exact (h.lt_of_mem_after hp).le

/-- A point between two parts of a polyline becomes a vertex of it. -/
theorem insert {c : Point Rat} (h : Rightward (before ++ after)) (hbefore : ∀ p ∈ before, p.x < c.x)
    (hafter : ∀ p ∈ after, c.x < p.x) : Rightward (before ++ c :: after) := by
  obtain ⟨hfirst, hsecond, hacross⟩ := List.pairwise_append.1 h
  exact List.pairwise_append.2 ⟨hfirst, List.pairwise_cons.2 ⟨hafter, hsecond⟩, fun p hp =>
    List.forall_mem_cons.2 ⟨hbefore p hp, hacross p hp⟩⟩

/-- What comes after a vertex beyond a vertical line is beyond it. -/
theorem lt_of_lt_between {a b : Point Rat} {c : Rat}
    (h : Rightward (before ++ a :: b :: after)) (hb : c < b.x) {p : Point Rat}
    (hp : p ∈ b :: after) : c < p.x := by
  rw [List.append_cons] at h
  exact hb.trans_le (h.le_of_mem_cons hp)

theorem filter_le (h : Rightward (before ++ v :: after)) :
    ((before ++ v :: after).filter fun p => p.x ≤ v.x) = before ++ [v] := by
  have hbefore : (before.filter fun p => p.x ≤ v.x) = before :=
    List.filter_eq_self.2 fun p hp => decide_eq_true (h.lt_of_mem_before hp).le
  have hafter : (after.filter fun p => p.x ≤ v.x) = [] :=
    List.filter_eq_nil_iff.2 fun p hp hle => (h.lt_of_mem_after hp).not_ge (of_decide_eq_true hle)
  simp [List.filter_append, hbefore, hafter]

theorem filter_ge (h : Rightward (before ++ v :: after)) :
    ((before ++ v :: after).filter fun p => v.x ≤ p.x) = v :: after := by
  have hbefore : (before.filter fun p => v.x ≤ p.x) = [] :=
    List.filter_eq_nil_iff.2 fun p hp hle =>
      (h.lt_of_mem_before hp).not_ge (of_decide_eq_true hle)
  have hafter : (after.filter fun p => v.x ≤ p.x) = after :=
    List.filter_eq_self.2 fun p hp => decide_eq_true (h.lt_of_mem_after hp).le
  simp [List.filter_append, hbefore, hafter]

end Rightward

/-! ## Vertical lines -/

/-- The full line through a place on the horizontal axis, upwards. -/
def verticalLine {K : Type} [Scalar K] (side : Side) (x : K) : Segment K :=
  .fullLine ⟨x, 0⟩ .up side

/-- The half plane on one side of a vertical line. -/
def Region.beside {K : Type} [Scalar K] (side : Side) (x : K) : Region K :=
  match side with
  | .left => leftOf x
  | .right => rightOf x

namespace Side

/-- The outer side of a vertical line, as a direction : a piece goes outwards against it. -/
def sign : Side → Rat
  | left => -1
  | right => 1

/-- The horizontal coordinates on one side of a vertical line. -/
def Covers (side : Side) (x c : Rat) : Prop :=
  match side with
  | left => c ≤ x
  | right => x ≤ c

instance (side : Side) (x c : Rat) : Decidable (side.Covers x c) :=
  match side with
  | left => inferInstanceAs (Decidable (c ≤ x))
  | right => inferInstanceAs (Decidable (x ≤ c))

end Side

namespace Region

theorem boundaries_beside {K : Type} [Scalar K] (side : Side) (x : K) :
    (beside side x).boundaries = [verticalLine side x] := by
  cases side <;> rfl

variable {side : Side} {x : Rat} {p : Point Rat}

theorem inward_verticalLine (side : Side) (x : Rat) (p : Point Rat) :
    (verticalLine side x).inward p = side.sign * (p.x - x) := by
  cases side with
  | left =>
    rw [verticalLine, Segment.inward_fullLine_left]
    simp [Point.cross, Point.up, Side.sign]
  | right =>
    rw [verticalLine, Segment.inward_fullLine_right]
    simp [Point.cross, Point.up, Side.sign]

/-- A point is inside a vertical line if its horizontal coordinate is. -/
theorem inward_verticalLine_nonneg_iff :
    0 ≤ (verticalLine side x).inward p ↔ side.Covers x p.x := by
  rw [inward_verticalLine]
  cases side with
  | left => simp [Side.sign, Side.Covers]
  | right => simp [Side.sign, Side.Covers]

theorem inward_verticalLine_neg_iff :
    (verticalLine side x).inward p < 0 ↔ ¬side.Covers x p.x := by
  rw [← inward_verticalLine_nonneg_iff, not_le]

theorem inward_verticalLine_eq_zero (h : p.x = x) : (verticalLine side x).inward p = 0 := by
  rw [inward_verticalLine, h, sub_self, mul_zero]

theorem contains_verticalLine_iff :
    (verticalLine side x).contains p = true ↔ side.Covers x p.x := by
  rw [Segment.contains_iff, inward_verticalLine_nonneg_iff]
  exact and_iff_left rfl

theorem points_clip_beside {K : Type} [Scalar K] (side : Side) (x : K) (l : Polyline K) :
    ((beside side x).clip l).points = collapse ((verticalLine side x).keptEnds l.points) := by
  cases side <;> rfl

variable {l : Polyline Rat} {before after : List (Point Rat)} {a b v : Point Rat} {u : Rat}

/-- Where a polyline leaves the left of a vertical line it is cut off. -/
theorem collapse_keptEnds_left (h : Rightward (before ++ a :: b :: after)) (ha : a.x ≤ x)
    (hb : x < b.x) (h0 : 0 ≤ u) (h1 : u ≤ 1) (hu : (a.lerp b u).x = x) :
    collapse ((verticalLine .left x).keptEnds (before ++ a :: b :: after)) =
      before ++ collapse [a, a.lerp b u] := by
  have hchain : (before ++ [a]).IsChain (· ≠ ·) :=
    (h.of_sublist (h.filter_le ▸ List.filter_sublist)).isChain_ne
  have hin : ∀ p ∈ before ++ [a], 0 ≤ (verticalLine .left x).inward p := fun p hp =>
    inward_verticalLine_nonneg_iff.2 ((h.le_of_mem_concat hp).trans ha)
  have hout : ∀ p ∈ b :: after, (verticalLine .left x).inward p < 0 := fun p hp =>
    inward_verticalLine_neg_iff.2 (h.lt_of_lt_between hb hp).not_ge
  exact Segment.collapse_keptEnds_of_leaving (fun _ => rfl) h0 h1
    (inward_verticalLine_eq_zero hu) hchain hin hout

/-- Up to where a polyline enters the right of a vertical line it is cut off. -/
theorem collapse_keptEnds_right (h : Rightward (before ++ a :: b :: after)) (ha : a.x < x)
    (hb : x ≤ b.x) (h0 : 0 ≤ u) (h1 : u ≤ 1) (hu : (a.lerp b u).x = x) :
    collapse ((verticalLine .right x).keptEnds (before ++ a :: b :: after)) =
      collapse (a.lerp b u :: b :: after) := by
  have hsplit : before ++ a :: b :: after = (before ++ [a]) ++ b :: after := List.append_cons ..
  have hchain : (b :: after).IsChain (· ≠ ·) :=
    (h.of_sublist (hsplit ▸ List.sublist_append_right _ _)).isChain_ne
  have hin : ∀ p ∈ b :: after, 0 ≤ (verticalLine .right x).inward p := fun p hp =>
    inward_verticalLine_nonneg_iff.2 (hb.trans ((hsplit ▸ h).le_of_mem_cons hp))
  have hout : ∀ p ∈ before ++ [a], (verticalLine .right x).inward p < 0 := fun p hp =>
    inward_verticalLine_neg_iff.2 ((h.le_of_mem_concat hp).trans_lt ha).not_ge
  exact Segment.collapse_keptEnds_of_entering (fun _ => rfl) h0 h1
    (inward_verticalLine_eq_zero hu) hchain hout hin

/-- Clipped at one of its vertices, a polyline keeps the vertices on that side. -/
theorem points_clip_beside_vertex (side : Side) (h : Rightward l.points)
    (hlength : 2 ≤ l.points.length) (hv : v ∈ l.points) :
    ((beside side v.x).clip l).points = l.points.filter fun p => side.Covers v.x p.x := by
  rw [points_clip_beside]
  obtain ⟨before, after, hsplit⟩ := List.append_of_mem hv
  rw [hsplit] at h hlength ⊢
  cases side with
  | left =>
    refine Eq.trans ?_ h.filter_le.symm
    cases after with
    | nil =>
      exact Segment.collapse_keptEnds_of_inside (fun _ => rfl) h.isChain_ne hlength fun p hp =>
        inward_verticalLine_nonneg_iff.2 (h.le_of_mem_concat hp)
    | cons b after =>
      rw [collapse_keptEnds_left h le_rfl (h.lt_of_mem_after List.mem_cons_self) le_rfl
        zero_le_one (congrArg Point.x (Point.lerp_zero v b)), Point.lerp_zero, collapse_cons,
        collapseAfter_cons_self]
      rfl
  | right =>
    refine Eq.trans ?_ h.filter_ge.symm
    rcases List.eq_nil_or_concat before with rfl | ⟨before, a, rfl⟩
    · exact Segment.collapse_keptEnds_of_inside (fun _ => rfl) h.isChain_ne hlength fun p hp =>
        inward_verticalLine_nonneg_iff.2 (h.le_of_mem_cons hp)
    · have hlt : a.x < v.x := h.lt_of_mem_before (by simp)
      have hchain : (v :: after).IsChain (· ≠ ·) :=
        (h.of_sublist (List.sublist_append_right _ _)).isChain_ne
      rw [List.concat_eq_append, List.append_assoc] at h ⊢
      rw [List.singleton_append] at h ⊢
      rw [collapse_keptEnds_right h hlt le_rfl zero_le_one le_rfl
        (congrArg Point.x (Point.lerp_one a v)), Point.lerp_one, collapse_cons,
        collapseAfter_cons_self, collapseAfter_of_isChain hchain]

/-- Clipped between two of its vertices, a polyline keeps the first and gains the crossing. -/
theorem points_clip_leftOf_between (h : Rightward l.points)
    (hsplit : l.points = before ++ a :: b :: after) (ha : a.x < x) (hb : x < b.x) (h0 : 0 ≤ u)
    (h1 : u ≤ 1) (hu : (a.lerp b u).x = x) :
    ((leftOf x).clip l).points = before ++ [a, a.lerp b u] := by
  have hne : a ≠ a.lerp b u := fun heq => ha.ne ((congrArg Point.x heq).trans hu)
  refine (points_clip_beside .left x l).trans ?_
  rw [hsplit] at h ⊢
  rw [collapse_keptEnds_left h ha.le hb h0 h1 hu, collapse_cons, collapseAfter_cons_of_ne hne]
  rfl

/-- Clipped between two of its vertices, a polyline gains the crossing and keeps the second. -/
theorem points_clip_rightOf_between (h : Rightward l.points)
    (hsplit : l.points = before ++ a :: b :: after) (ha : a.x < x) (hb : x < b.x) (h0 : 0 ≤ u)
    (h1 : u ≤ 1) (hu : (a.lerp b u).x = x) :
    ((rightOf x).clip l).points = a.lerp b u :: b :: after := by
  have hne : a.lerp b u ≠ b := fun heq => hb.ne (hu.symm.trans (congrArg Point.x heq))
  refine (points_clip_beside .right x l).trans ?_
  rw [hsplit] at h ⊢
  have hchain : (b :: after).IsChain (· ≠ ·) :=
    (h.of_sublist (List.append_cons before a _ ▸ List.sublist_append_right _ _)).isChain_ne
  rw [collapse_keptEnds_right h ha hb.le h0 h1 hu, collapse_cons, collapseAfter_cons_of_ne hne,
    collapseAfter_of_isChain hchain]

/-- The turning points that are kept stay in order. -/
theorem turning_clip {s : Segment Rat} (h : l.turning.Pairwise fun t u => t.point.x ≤ u.point.x) :
    (s.clip l).turning = l.turning.filter fun t => s.contains t.point :=
  List.mergeSort_of_pairwise ((h.sublist List.filter_sublist).imp fun hle => decide_eq_true hle)

/-- The turning points on one side of a vertical line. -/
theorem turning_clip_beside (side : Side) (x : Rat)
    (h : l.turning.Pairwise fun t u => t.point.x ≤ u.point.x) :
    ((beside side x).clip l).turning.map (·.point.x) =
      (l.turning.map (·.point.x)).filter (side.Covers x ·) := by
  rw [clip, boundaries_beside, List.foldl_cons, List.foldl_nil, turning_clip h, List.filter_map]
  refine congrArg _ (List.filter_congr fun t _ => ?_)
  exact Bool.eq_iff_iff.2 (contains_verticalLine_iff.trans decide_eq_true_iff.symm)

end Region

end CurveSketch
