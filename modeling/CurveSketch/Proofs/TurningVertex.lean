import CurveSketch.Proofs.LevelRun
import CurveSketch.Proofs.Reflection

/-!
# Turning vertices

A polyline without level pieces turns at the vertices that are higher than both neighbours, or lower
than both (`TurnsAt`). They are found in the order of the vertices (`points_turns`), and move along
with the polyline (`turns_map`).
-/

namespace CurveSketch

/-! ## Vertices between two others -/

theorem interior_subset_cons {α : Type} (a : α) (l : List α) : interior l ⊆ interior (a :: l) := by
  match l with
  | [] => exact List.Subset.refl _
  | [_] => exact List.nil_subset _
  | _ :: _ :: _ => exact List.subset_cons_self _ _

/-- A vertex stands between two others where the three follow each other. -/
theorem mem_interior_iff {α : Type} {t : α × α × α} {l : List α} :
    t ∈ interior l ↔ [t.1, t.2.1, t.2.2] <:+: l := by
  constructor
  · intro h
    induction l with
    | nil => exact absurd h List.not_mem_nil
    | cons a l ih =>
      match l, h with
      | b :: c :: rest, h =>
        rcases List.mem_cons.1 h with rfl | h
        · exact (List.prefix_append [a, b, c] rest).isInfix
        · exact (ih h).trans (List.suffix_cons a _).isInfix
  · rintro ⟨before, after, rfl⟩
    induction before with
    | nil => exact List.mem_cons_self
    | cons a before ih => exact interior_subset_cons a _ ih

/-- Vertices are neighbours where they follow each other. -/
theorem mem_neighbours_iff {α : Type} {piece : α × α} {l : List α} :
    piece ∈ neighbours l ↔ [piece.1, piece.2] <:+: l := by
  constructor
  · intro h
    induction l with
    | nil => exact absurd h List.not_mem_nil
    | cons a l ih =>
      match l, h with
      | b :: rest, h =>
        rcases List.mem_cons.1 h with rfl | h
        · exact (List.prefix_append [a, b] rest).isInfix
        · exact (ih h).trans (List.suffix_cons a _).isInfix
  · rintro ⟨before, after, rfl⟩
    rw [List.append_assoc, List.cons_append, neighbours_append]
    exact List.mem_append_right _ List.mem_cons_self

/-- A further first element has the first of the others for its neighbour. -/
theorem mem_neighbours_cons {α : Type} {piece : α × α} {a : α} {l : List α} :
    piece ∈ neighbours (a :: l) ↔ piece.1 = a ∧ l.head? = some piece.2 ∨ piece ∈ neighbours l := by
  cases l with
  | nil => simp
  | cons b rest => simp [Prod.ext_iff, eq_comm]

theorem neighbours_map {α β : Type} (g : α → β) : ∀ l : List α,
    neighbours (l.map g) = (neighbours l).map fun piece => (g piece.1, g piece.2)
  | [] => rfl
  | [_] => rfl
  | _ :: b :: rest => congrArg (_ :: ·) (neighbours_map g (b :: rest))

theorem interior_subset_of_isInfix {α : Type} {l l' : List α} (h : l <:+: l') :
    interior l ⊆ interior l' := fun _ ht =>
  mem_interior_iff.2 ((mem_interior_iff.1 ht).trans h)

/-! ## Turning -/

/-- The line turns at the middle one of three vertices that follow each other. -/
def TurnsAt (t : Point Rat × Point Rat × Point Rat) : Prop :=
  t.1.y < t.2.1.y ∧ t.2.2.y < t.2.1.y ∨ t.2.1.y < t.1.y ∧ t.2.1.y < t.2.2.y

instance (t : Point Rat × Point Rat × Point Rat) : Decidable (TurnsAt t) :=
  inferInstanceAs (Decidable (_ ∨ _))

/-- The line turns where both neighbours are on one side. -/
theorem turnsAt_iff {a b c : Point Rat} : TurnsAt (a, b, c) ↔ 0 < (a.y - b.y) * (c.y - b.y) := by
  rw [mul_pos_iff, sub_pos, sub_pos, sub_neg, sub_neg]
  exact or_comm

/-- No piece is level. -/
def Sloped (points : List (Point Rat)) : Prop :=
  points.IsChain fun p q => p.y ≠ q.y

instance (points : List (Point Rat)) : Decidable (Sloped points) :=
  inferInstanceAs (Decidable (points.IsChain _))

theorem Sloped.of_isInfix {points part : List (Point Rat)} (h : Sloped points)
    (hpart : part <:+: points) : Sloped part :=
  List.IsChain.infix h hpart

/-- Over the rationals heights are told apart exactly. -/
theorem Heights.rat : Heights (id : Rat → Rat) fun _ => True where
  lt_iff _ _ := Iff.rfl
  beq_iff _ _ := beq_iff_eq
  rise_pos_iff _ _ := sub_pos
  rise_neg_iff _ _ := sub_neg
  rise_zero_iff _ _ := beq_iff_eq.trans (sub_eq_zero.trans eq_comm)
  not_zero_lt_zero := lt_irrefl 0

/-- Without level pieces every vertex is a run of its own. -/
theorem levelRuns_of_sloped {points : List (Point Rat)} (h : Sloped points) :
    levelRuns points = points.map fun p => ⟨p, p⟩ := by
  induction points with
  | nil => rfl
  | cons p rest ih =>
    cases rest with
    | nil => rfl
    | cons q rest =>
      obtain ⟨hpq, hrest⟩ := List.isChain_cons_cons.1 h
      rw [levelRuns, ih hrest]
      exact if_neg (mt beq_iff_eq.1 hpq)

/-- The turning point at the middle one of three vertices, if the line turns there. -/
def turnAmong? (t : Point Rat × Point Rat × Point Rat) : Option (TurningPoint Rat) :=
  (turnAt? ⟨t.1, t.1⟩ ⟨t.2.1, t.2.1⟩ ⟨t.2.2, t.2.2⟩).map (⟨t.2.1, ·⟩)

theorem map_point_turnAmong? (t : Point Rat × Point Rat × Point Rat) :
    (turnAmong? t).map (·.point) = if TurnsAt t then some t.2.1 else none := by
  unfold turnAmong? turnAt? TurnsAt
  split
  · rename_i h
    exact (if_pos (.inl h)).symm
  · rename_i h
    split
    · rename_i h'
      exact (if_pos (.inr h')).symm
    · rename_i h'
      exact (if_neg (not_or.2 ⟨h, h'⟩)).symm

theorem turns_of_sloped {points : List (Point Rat)} (h : Sloped points) :
    Polyline.turns points = (interior points).filterMap turnAmong? := by
  rw [turns_eq_turnings Heights.rat fun _ _ => trivial, levelRuns_of_sloped h, turnings,
    interior_map, List.filterMap_map, List.map_filterMap]
  exact List.filterMap_congr fun t _ => Option.map_map ..

/-- The turning points are the vertices at which the line turns, in order. -/
theorem points_turns {points : List (Point Rat)} (h : Sloped points) :
    (Polyline.turns points).map (·.point) =
      ((interior points).filter (TurnsAt ·)).map fun t => t.2.1 := by
  rw [turns_of_sloped h, List.map_filterMap, ← List.filterMap_eq_map, List.filterMap_filter]
  refine List.filterMap_congr fun t _ => ?_
  rw [map_point_turnAmong?]
  simp

theorem mem_points_turns {points : List (Point Rat)} (h : Sloped points)
    {t : Point Rat × Point Rat × Point Rat} (ht : t ∈ interior points) (hturn : TurnsAt t) :
    t.2.1 ∈ (Polyline.turns points).map (·.point) := by
  rw [points_turns h]
  exact List.mem_map_of_mem (List.mem_filter.2 ⟨ht, decide_eq_true hturn⟩)

theorem interior_sublist {α : Type} (a : α) (l : List α) :
    ((interior (a :: l)).map fun t => t.2.1).Sublist l := by
  induction l generalizing a with
  | nil => exact .slnil
  | cons b l ih =>
    cases l with
    | nil => exact .cons b .slnil
    | cons c l => exact .cons_cons b (ih b)

/-- The turning points keep the order of the vertices. -/
theorem points_turns_sublist {points : List (Point Rat)} (h : Sloped points) :
    ((Polyline.turns points).map (·.point)).Sublist points := by
  rw [points_turns h]
  cases points with
  | nil => exact .slnil
  | cons p points =>
    exact (List.filter_sublist.map _).trans ((interior_sublist p points).trans
      (List.sublist_cons_self p points))

/-- The turning points of a polyline that runs to the right are found from left to right. -/
theorem turning_withTurningPoints {points : List (Point Rat)} (h : Rightward points)
    (hslope : Sloped points) :
    (Polyline.withTurningPoints points).turning = Polyline.turns points :=
  List.mergeSort_of_pairwise ((List.pairwise_map.1 (h.of_sublist
    (points_turns_sublist hslope))).imp fun hlt => decide_eq_true hlt.le)

/-! ## Moved polylines -/

theorem Sloped.map {g : Point Rat → Point Rat} {points : List (Point Rat)}
    (hg : ∀ p q, (g p).y = (g q).y → p.y = q.y) (h : Sloped points) : Sloped (points.map g) :=
  (List.isChain_map g).2 (h.imp fun p q hne heq => hne (hg p q heq))

/-- The turning points move along with the polyline. -/
theorem turns_map {g : Point Rat → Point Rat} {c : Rat} (hg : ∀ p, (g p).y = p.y + c)
    {points : List (Point Rat)} (h : Sloped points) :
    Polyline.turns (points.map g) =
      (Polyline.turns points).map fun t => { t with point := g t.point } := by
  have hslope : Sloped (points.map g) := h.map fun p q heq => by
    rw [hg, hg] at heq
    exact add_right_cancel heq
  rw [turns_of_sloped hslope, turns_of_sloped h, interior_map, List.filterMap_map,
    List.map_filterMap]
  refine List.filterMap_congr fun t _ => ?_
  simp only [Function.comp_apply, turnAmong?, turnAt?, hg, add_lt_add_iff_right, Option.map_map]
  rfl

end CurveSketch
