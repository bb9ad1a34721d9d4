import CurveSketch.Proofs.DrawingDirection
import Mathlib.Data.List.SplitBy

/-!
# The height profile

The level runs of a polyline are its vertices split wherever the height changes
(`levelRuns_eq_splitBy`), so each is followed by one at another height. On the way from one run to
the next the line heads for a top or for a bottom, and it turns in a run where the heading before it
and the heading after it are different (`turnAt?_eq_of_steps`). Between two turning points that
follow each other the heading does not change, and the later one is of the kind that the line has
been heading for since the earlier one; so tops and bottoms alternate (`isChain_kind_turnings`).

The turning points that a polyline keeps are these, sorted by their horizontal coordinate
(`Polyline.turning_withTurningPoints_profile`).
-/

namespace CurveSketch

variable {K L : Type} [Scalar K] [LinearOrder L] {level : K → L} {valid : K → Prop}

/-! ## Runs as parts of the list -/

/-- A list is split in front of its second element, or else the first joins the part that the second
is in. -/
theorem exists_splitBy_cons {α : Type} (r : α → α → Bool) (b : α) (l : List α) :
    ∃ part parts, (b :: l).splitBy r = (b :: part) :: parts ∧ ∀ a, (a :: b :: l).splitBy r =
      if r a b then (a :: b :: part) :: parts else [a] :: (b :: part) :: parts := by
  cases hsplit : (b :: l).splitBy r with
  | nil => exact absurd hsplit (List.splitBy_ne_nil.2 (List.cons_ne_nil b l))
  | cons head parts =>
    obtain ⟨hflatten, hnil, hequal, hcut⟩ := List.splitBy_eq_iff.1 hsplit
    cases head with
    | nil => exact absurd List.mem_cons_self hnil
    | cons c part =>
      obtain ⟨rfl, hl⟩ := List.cons.inj hflatten
      refine ⟨part, parts, rfl, fun a => ?_⟩
      split
      · rename_i hjoin
        obtain ⟨hpart, hparts⟩ := List.forall_mem_cons.1 hequal
        have hnil' : [] ∉ (a :: b :: part) :: parts := fun hmem =>
          hnil (List.mem_cons_of_mem _ ((List.mem_cons.1 hmem).resolve_left nofun))
        have hpart' : (a :: b :: part).IsChain fun x y => r x y = true := hpart.cons_cons hjoin
        refine List.splitBy_eq_iff.2
          ⟨congrArg (a :: b :: ·) hl, hnil', List.forall_mem_cons.2 ⟨hpart', hparts⟩, ?_⟩
        -- the longer part ends as the part that it is made of
        refine List.isChain_cons.2 ⟨fun next hnext => ?_, (List.isChain_cons.1 hcut).2⟩
        obtain ⟨hne, hnext, hlast⟩ := (List.isChain_cons.1 hcut).1 next hnext
        exact ⟨List.cons_ne_nil a _, hnext, (List.getLast_cons hne (a := a)).symm ▸ hlast⟩
      · rename_i hapart
        have hfirst : ∀ x ∈ [a].getLast?, ∀ y ∈ (b :: l).head?, r x y = false := by
          rintro x ⟨⟩ y ⟨⟩
          exact Bool.eq_false_iff.2 hapart
        exact (List.splitBy_append hfirst).trans (congrArg ([a] :: ·) hsplit)

/-- The ends of some successive vertices. -/
def LevelRun.ends? (part : List (Point K)) : Option (LevelRun K) :=
  Option.map₂ LevelRun.mk part.head? part.getLast?

/-- The level runs are the parts of the list of vertices between changes of height. -/
theorem levelRuns_eq_splitBy (points : List (Point K)) :
    levelRuns points = (points.splitBy fun p q => p.y == q.y).filterMap LevelRun.ends? := by
  induction points with
  | nil => rfl
  | cons p rest ih =>
    cases rest with
    | nil => rfl
    | cons q rest =>
      obtain ⟨part, parts, hsplit, hcons⟩ := exists_splitBy_cons (fun p q => p.y == q.y) q rest
      obtain ⟨last, hlast⟩ : ∃ last, (q :: part).getLast? = some last :=
        ⟨_, List.getLast?_eq_some_getLast (List.cons_ne_nil q part)⟩
      have hends : LevelRun.ends? (q :: part) = some ⟨q, last⟩ := by
        rw [LevelRun.ends?, hlast]
        rfl
      have hends' : LevelRun.ends? (p :: q :: part) = some ⟨p, last⟩ := by
        rw [LevelRun.ends?, List.getLast?_cons_cons, hlast]
        rfl
      rw [levelRuns, ih, hsplit, hcons p, List.filterMap_cons_some hends, addFirst]
      split
      · rw [List.filterMap_cons_some hends']
      · exact congrArg (⟨p, p⟩ :: ·) (List.filterMap_cons_some hends).symm

/-! ## Headings -/

/-- Each run is at another height than the one before. -/
def Steps (level : K → L) (runs : List (LevelRun K)) : Prop :=
  runs.IsChain fun r r' => level r.first.y ≠ level r'.first.y

/-- What the line heads for on the way from one run to the next : a top, or else a bottom. -/
def heading (before run : LevelRun K) : Extremum :=
  if before.first.y < run.first.y then .maxima else .minima

theorem steps_levelRuns (h : Heights level valid) {points : List (Point K)}
    (hpoints : ∀ p ∈ points, valid p.y) : Steps level (levelRuns points) := by
  induction points with
  | nil => exact List.isChain_nil
  | cons p rest ih =>
    obtain ⟨hp, hrest⟩ := List.forall_mem_cons.1 hpoints
    have hruns := level_of_mem_levelRuns h hrest
    have hsteps := ih hrest
    rw [levelRuns]
    generalize levelRuns rest = runs at hruns hsteps ⊢
    cases runs with
    | nil => exact List.isChain_singleton _
    | cons r runs =>
      have hr := (hruns r List.mem_cons_self).first
      simp only [addFirst]
      split
      · rename_i hsame
        -- the run keeps its height
        have hlevel := (h.beq_iff hp hr).1 hsame
        refine List.isChain_cons.2 ⟨fun r' hr' => ?_, (List.isChain_cons.1 hsteps).2⟩
        exact fun heq => (List.isChain_cons.1 hsteps).1 r' hr' (hlevel.symm.trans heq)
      · rename_i hother
        exact List.IsChain.cons_cons (fun heq => hother ((h.beq_iff hp hr).2 heq)) hsteps

/-- The line turns where its heading changes. -/
theorem turnAt?_eq_of_steps (h : Heights level valid) {a b c : LevelRun K} (ha : valid a.first.y)
    (hb : valid b.first.y) (hc : valid c.first.y) (hab : level a.first.y ≠ level b.first.y)
    (hbc : level b.first.y ≠ level c.first.y) :
    turnAt? a b c = if heading a b = heading b c then none else some (heading a b) := by
  simp only [turnAt?, heading, h.lt_iff ha hb, h.lt_iff hb ha, h.lt_iff hb hc, h.lt_iff hc hb]
  rcases lt_or_gt_of_ne hab with hrise | hfall <;> rcases lt_or_gt_of_ne hbc with hrise' | hfall'
  · simp [hrise, hrise', hrise.not_gt, hrise'.not_gt]
  · simp [hrise, hfall', hfall'.not_gt]
  · simp [hfall, hrise', hfall.not_gt, hrise'.not_gt]
  · simp [hfall, hfall', hfall.not_gt, hfall'.not_gt]

/-- The tops and bottoms alternate, in the order of drawing, and the first is what the line heads
for at the start. -/
theorem kind_turnings (h : Heights level valid) {a b : LevelRun K} {runs : List (LevelRun K)}
    (hvalid : ∀ r ∈ a :: b :: runs, valid r.first.y) (hsteps : Steps level (a :: b :: runs)) :
    (∀ kind ∈ ((turnings (a :: b :: runs)).map (·.2)).head?, kind = heading a b) ∧
      ((turnings (a :: b :: runs)).map (·.2)).IsChain (· ≠ ·) := by
  induction runs generalizing a b with
  | nil => exact ⟨fun kind hkind => absurd hkind nofun, List.isChain_nil⟩
  | cons c runs ih =>
    obtain ⟨ha, htail⟩ := List.forall_mem_cons.1 hvalid
    obtain ⟨hb, hrest⟩ := List.forall_mem_cons.1 htail
    obtain ⟨hab, hsteps'⟩ := List.isChain_cons_cons.1 hsteps
    obtain ⟨hfirst, hchain⟩ := ih htail hsteps'
    rw [turnings_cons, turnAt?_eq_of_steps h ha hb (hrest c List.mem_cons_self) hab
      (List.isChain_cons_cons.1 hsteps').1]
    split
    · rename_i hsame
      exact ⟨fun kind hkind => (hfirst kind hkind).trans hsame.symm, hchain⟩
    · rename_i hturn
      refine ⟨fun kind hkind => (Option.some.inj hkind).symm, List.isChain_cons.2 ⟨?_, hchain⟩⟩
      exact fun kind hkind heq => hturn (heq.trans (hfirst kind hkind))

/-- In the order of drawing, tops and bottoms alternate. -/
theorem isChain_kind_turnings (h : Heights level valid) {points : List (Point K)}
    (hpoints : ∀ p ∈ points, valid p.y) :
    ((turnings (levelRuns points)).map (·.2)).IsChain (· ≠ ·) := by
  have hvalid : ∀ r ∈ levelRuns points, valid r.first.y := fun r hr =>
    (level_of_mem_levelRuns h hpoints r hr).first
  have hsteps := steps_levelRuns h hpoints
  generalize levelRuns points = runs at hvalid hsteps ⊢
  rcases runs with _ | ⟨a, _ | ⟨b, runs⟩⟩
  · exact List.isChain_nil
  · exact List.isChain_nil
  · exact (kind_turnings h hvalid hsteps).2

/-! ## The turning points of a polyline -/

/-- The turning points of a polyline with finite heights, from the maximal runs of vertices at one
height : one for each run between two others that is higher than both or lower than both, at its
first vertex. In the order of drawing their kinds alternate. They are kept from left to right, by
the rank of their horizontal coordinate among all floats, as it may be NaN; and those of one rank
are kept in the order of drawing. -/
theorem Polyline.turning_withTurningPoints_profile (points : List (Point Binary64))
    (hfinite : ∀ p ∈ points, p.y.float.isFinite = true) :
    let runs := (points.splitBy fun p q => p.y == q.y).filterMap LevelRun.ends?
    let drawn := (turnings runs).map atFirst
    let kept := (withTurningPoints points).turning
    kept.Perm drawn ∧ (drawn.map (·.kind)).IsChain (· ≠ ·) ∧
      kept.Pairwise (fun t u => Scalar.totalLe t.point.x u.point.x = true) ∧
      ∀ rank : Int, kept.filter (·.point.x.rank = rank) = drawn.filter (·.point.x.rank = rank) := by
  intro runs drawn kept
  have hruns : runs = levelRuns points := (levelRuns_eq_splitBy points).symm
  have hkept : kept = byX drawn := by
    change byX (turns points) = byX ((turnings runs).map atFirst)
    rw [hruns, turns_eq_turnings .binary64 hfinite]
  have hkinds : drawn.map (·.kind) = (turnings (levelRuns points)).map (·.2) := by
    rw [← hruns]
    exact List.map_map
  rw [hkept, hkinds]
  exact ⟨byX_perm drawn, isChain_kind_turnings .binary64 hfinite,
    (pairwise_mergeSort_key (fun t : TurningPoint Binary64 => t.point.x.rank) drawn).imp
      decide_eq_true,
    filter_mergeSort_key (fun t : TurningPoint Binary64 => t.point.x.rank) drawn⟩

/-- A level top, drawn from right to left, and a bottom under the vertex that it is flagged at. -/
def Polyline.overhang : List (Point Binary64) :=
  [⟨0, 0⟩, ⟨1, 1⟩, ⟨0, 1⟩, ⟨1, 0⟩, ⟨0, 1⟩]

/-- The top and the bottom of the overhang, above each other, are kept as they are drawn. -/
theorem Polyline.turning_withTurningPoints_overhang :
    let runs := (overhang.splitBy fun p q => p.y == q.y).filterMap LevelRun.ends?
    let drawn := (turnings runs).map atFirst
    let kept := (withTurningPoints overhang).turning
    (∀ p ∈ overhang, p.y.float.isFinite = true) ∧ drawn.map (·.kind) = [.maxima, .minima] ∧
      kept.Perm drawn ∧ (drawn.map (·.kind)).IsChain (· ≠ ·) ∧
      kept.Pairwise (fun t u => Scalar.totalLe t.point.x u.point.x = true) ∧
      ∀ rank : Int, kept.filter (·.point.x.rank = rank) =
        drawn.filter (·.point.x.rank = rank) := by
  have hfinite : ∀ p ∈ overhang, p.y.float.isFinite = true := by decide +kernel
  exact ⟨hfinite, by decide +kernel, turning_withTurningPoints_profile overhang hfinite⟩

end CurveSketch
