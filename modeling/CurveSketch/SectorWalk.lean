import CurveSketch.Classifier

/-!
# Walking along a polyline

The sectors that a polyline passes through. Each vertex contributes the set of sectors it is in,
and each straight piece between two vertices the sets it is in after every crossing of a boundary.
The crossings of all regions are merged in the order they come in along the piece; those at one
parameter are one event. `Classifier.sectorSets` lists the sets met, and `Classifier.sectorPath`
the most important sector of each.
-/

namespace CurveSketch

/-- A sector on the way along a piece: whether the place reached is in it, and the crossings of its
boundaries still ahead. -/
structure Lane (K : Type) where
  /-- The sector. -/
  sector : Sector
  /-- Whether the place reached is in the sector. -/
  inside : Bool
  /-- The crossings ahead, the nearest first. -/
  ahead : List (Crossing K)

namespace Lane

variable {K : Type} [Scalar K]

/-- The lane after its next crossing. -/
def advance (lane : Lane K) : Lane K :=
  match lane.ahead with
  | [] => lane
  | c :: rest => { lane with inside := c.inside, ahead := rest }

/-- The first lane from index `i` on whose next crossing comes before the best found so far; a
crossing at the same parameter does not displace it. -/
def earliestFrom (i : Nat) (best : Option (Nat × K)) : List (Lane K) → Option (Nat × K)
  | [] => best
  | lane :: lanes =>
    match lane.ahead, best with
    | [], _ => earliestFrom (i + 1) best lanes
    | c :: _, none => earliestFrom (i + 1) (some (i, c.param)) lanes
    | c :: _, some (j, t) =>
      earliestFrom (i + 1) (if t ≤ c.param then some (j, t) else some (i, c.param)) lanes

/-- The index of the lane whose next crossing comes first, and its parameter. -/
def earliest? (lanes : List (Lane K)) : Option (Nat × K) :=
  earliestFrom 0 none lanes

/-- The number of crossings ahead. -/
def countAhead : List (Lane K) → Nat
  | [] => 0
  | lane :: lanes => lane.ahead.length + countAhead lanes

/-- The lane found is the best found before, or one of those searched, with its next crossing at the
parameter found. -/
theorem earliestFrom_eq_some {i j : Nat} {best : Option (Nat × K)} {lanes : List (Lane K)} {t : K}
    (h : earliestFrom i best lanes = some (j, t)) :
    best = some (j, t) ∨ ∃ k lane c rest,
      j = i + k ∧ lanes[k]? = some lane ∧ lane.ahead = c :: rest ∧ c.param = t := by
  induction lanes generalizing i best with
  | nil => exact .inl h
  | cons lane lanes ih =>
    have later : ∀ {b : Option (Nat × K)}, earliestFrom (i + 1) b lanes = some (j, t) →
        b = some (j, t) ∨ ∃ k l c rest,
          j = i + k ∧ (lane :: lanes)[k]? = some l ∧ l.ahead = c :: rest ∧ c.param = t := by
      intro b hb
      rcases ih hb with hb | ⟨k, l, c, rest, rfl, hl, hahead, ht⟩
      · exact .inl hb
      · exact .inr ⟨k + 1, l, c, rest, by omega, by simpa using hl, hahead, ht⟩
    have here : ∀ {c : Crossing K} {rest : List (Crossing K)}, lane.ahead = c :: rest →
        some (i, c.param) = some (j, t) → ∃ k l c rest,
          j = i + k ∧ (lane :: lanes)[k]? = some l ∧ l.ahead = c :: rest ∧ c.param = t := by
      intro c rest hahead heq
      obtain ⟨rfl, rfl⟩ := Prod.mk.inj (Option.some.inj heq)
      exact ⟨0, lane, c, rest, rfl, rfl, hahead, rfl⟩
    unfold earliestFrom at h
    split at h
    · exact later h
    · rename_i c rest hc
      exact .inr ((later h).elim (here hc) id)
    · rename_i c rest j' t' hc
      rcases later h with h | h
      · split at h
        · exact .inl h
        · exact .inr (here hc h)
      · exact .inr h

omit [Scalar K] in
/-- Advancing a lane with a crossing ahead leaves fewer crossings. -/
theorem countAhead_modify_lt {lanes : List (Lane K)} {k : Nat} {lane : Lane K}
    (h : lanes[k]? = some lane) (hne : lane.ahead ≠ []) :
    countAhead (lanes.modify k advance) < countAhead lanes := by
  induction lanes generalizing k with
  | nil => simp at h
  | cons first lanes ih =>
    cases k with
    | zero =>
      obtain rfl : first = lane := by simpa using h
      cases hc : first.ahead with
      | nil => exact absurd hc hne
      | cons c rest => simp [countAhead, advance, hc]
    | succ k =>
      have := ih (by simpa using h)
      simpa [countAhead] using this

/-- Advancing the lane that comes first leaves fewer crossings. -/
theorem countAhead_advance_lt {lanes : List (Lane K)} {j : Nat} {t : K}
    (h : earliest? lanes = some (j, t)) :
    countAhead (lanes.modify j advance) < countAhead lanes := by
  rcases earliestFrom_eq_some h with h | ⟨k, lane, c, rest, rfl, hk, hahead, -⟩
  · exact absurd h (by simp)
  · simpa using countAhead_modify_lt hk (hahead ▸ List.cons_ne_nil c rest)

/-- Takes the crossings at parameter `t` for as long as one of them comes first. -/
def passAll (t : K) (lanes : List (Lane K)) : List (Lane K) :=
  match h : earliest? lanes with
  | some (j, u) =>
    have := countAhead_advance_lt h
    if u == t then passAll t (lanes.modify j advance) else lanes
  | none => lanes
termination_by countAhead lanes

/-- Passing crossings leaves no more than before. -/
theorem countAhead_passAll_le (t : K) (lanes : List (Lane K)) :
    countAhead (passAll t lanes) ≤ countAhead lanes := by
  fun_induction passAll t lanes with
  | case1 lanes j u h fewer _ ih => exact Nat.le_trans ih (Nat.le_of_lt fewer)
  | case2 => exact Nat.le_refl _
  | case3 => exact Nat.le_refl _

/-- The events along the rest of the way: the parameter of each, and the lanes after it. -/
def stops (lanes : List (Lane K)) : List (K × List (Lane K)) :=
  match h : earliest? lanes with
  | some (j, t) =>
    let passed := passAll t (lanes.modify j advance)
    have : countAhead passed < countAhead lanes :=
      Nat.lt_of_le_of_lt (countAhead_passAll_le t _) (countAhead_advance_lt h)
    (t, passed) :: stops passed
  | none => []
termination_by countAhead lanes

/-- The sectors that the place reached is in. -/
def current (lanes : List (Lane K)) : SectorSet :=
  .ofList ((lanes.filter (·.inside)).map (·.sector))

end Lane

namespace Classifier

variable {K : Type} [Scalar K]

/-- The lanes at the start of a straight piece. -/
def lanes (c : Classifier K) (piece : Segment K) : List (Lane K) :=
  c.entries.map fun e => ⟨e.1, e.2.contains piece.start, e.2.crossings piece⟩

/-- The sets of sectors that a straight piece is in after each of its crossings. -/
def pieceSets (c : Classifier K) (piece : Segment K) : List SectorSet :=
  (Lane.stops (c.lanes piece)).map fun stop => Lane.current stop.2

/-- The sets met in walking on from the vertex `last`. -/
def setsAfter (c : Classifier K) (last : Point K) : List (Point K) → List SectorSet
  | [] => []
  | p :: rest => c.pieceSets (.closed last p) ++ c.classifyAll p :: c.setsAfter p rest

/-- The sets met at the vertices of a polyline and between them, repetitions included. -/
def rawSets (c : Classifier K) (l : Polyline K) : List SectorSet :=
  match l.points with
  | [] => []
  | p :: rest => c.classifyAll p :: c.setsAfter p rest

/-- The different sets of sectors that a polyline passes through, in order, each without opposed
members. A set may be empty. -/
def sectorSets (c : Classifier K) (l : Polyline K) : List SectorSet :=
  collapse ((c.rawSets l).map SectorSet.withoutOpposed)

/-- The path of sectors that a polyline takes: the most important sector of each stretch. -/
def sectorPath (c : Classifier K) (l : Polyline K) : List Sector :=
  collapse ((c.sectorSets l).filterMap c.mostImportant?)

end Classifier

end CurveSketch
