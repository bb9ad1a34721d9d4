import CurveSketch.Feature.Path

/-!
# The path of a line describes the line

`followsPath` fills its table row by row; read off at its corner it is a recursion over the sectors
expected and the stretches of the line at once (`followsPath_cons_cons` and its companions). By this
recursion every line follows the path generated for it, whatever the sectors and their order : a
sector of the path stands for the stretches it is the most important sector of, until another one is
(`followsPath_collapse`).
-/

namespace CurveSketch

/-! ## The recursion behind the table -/

/-- The row of the table for the sectors expected. -/
def pathRow (expected : List Sector) (actual : List SectorSet) : List Bool :=
  expected.foldr (fun s below => accounted s actual below) (unneeded actual)

/-- The row for the rest of the stretches is the rest of the row. -/
theorem tail_pathRow (expected : List Sector) (set : SectorSet) (actual : List SectorSet) :
    (pathRow expected (set :: actual)).tail = pathRow expected actual := by
  induction expected with
  | nil => rfl
  | cons s expected ih =>
    have h : (pathRow (s :: expected) (set :: actual)).tail =
        accounted s actual (pathRow expected (set :: actual)).tail := rfl
    rw [h, ih]
    rfl

theorem followsPath_nil_cons (set : SectorSet) (actual : List SectorSet) :
    followsPath [] (set :: actual) = (set.isEmpty && followsPath [] actual) :=
  rfl

theorem followsPath_cons_cons (s : Sector) (expected : List Sector) (set : SectorSet)
    (actual : List SectorSet) : followsPath (s :: expected) (set :: actual) =
      if set.isEmpty then followsPath (s :: expected) actual
      else set.contains s && (followsPath (s :: expected) actual ||
        followsPath expected (set :: actual) || followsPath expected actual) := by
  have hrow : followsPath (s :: expected) (set :: actual) =
      (accounted s (set :: actual) (pathRow expected (set :: actual))).headD false := rfl
  rw [hrow, accounted, tail_pathRow]
  rfl

/-- A stretch in no sector is skipped. -/
theorem followsPath_nil_set (expected : List Sector) (actual : List SectorSet) :
    followsPath expected ([] :: actual) = followsPath expected actual := by
  cases expected with
  | nil => exact Bool.true_and _
  | cons s expected =>
    rw [followsPath_cons_cons]
    rfl

/-- A stretch in a sector that goes on, or that it is the last one of. -/
theorem followsPath_cons_of_contains {s : Sector} {expected : List Sector} {set : SectorSet}
    {actual : List SectorSet} (hs : s ∈ set)
    (h : followsPath (s :: expected) actual = true ∨ followsPath expected actual = true) :
    followsPath (s :: expected) (set :: actual) = true := by
  have hne : set.isEmpty = false := by
    cases set with
    | nil => exact absurd hs List.not_mem_nil
    | cons => rfl
  have hcontains : set.contains s = true := List.contains_iff_mem.2 hs
  rw [followsPath_cons_cons, hne, hcontains]
  rcases h with h | h <;> simp [h]

/-! ## Generated paths -/

/-- The sectors picked from the stretches of a line, without repetitions, lead on from a sector, or
go on with it. -/
theorem followsPath_collapseAfter {pick : SectorSet → Option Sector} {actual : List SectorSet}
    (hpick : ∀ set ∈ actual, set ≠ [] → ∃ s ∈ set, pick set = some s) (hnil : pick [] = none)
    (s : Sector) :
    followsPath (s :: collapseAfter s (actual.filterMap pick)) actual = true ∨
      followsPath (collapseAfter s (actual.filterMap pick)) actual = true := by
  induction actual generalizing s with
  | nil => exact .inr rfl
  | cons set actual ih =>
    have ih := ih fun set' hset' => hpick set' (List.mem_cons_of_mem _ hset')
    by_cases hset : set = []
    · subst hset
      rw [List.filterMap_cons_none hnil, followsPath_nil_set, followsPath_nil_set]
      exact ih s
    · obtain ⟨next, hnext, hsome⟩ := hpick set List.mem_cons_self hset
      rw [List.filterMap_cons_some hsome, collapseAfter]
      split
      · rename_i heq
        obtain rfl : s = next := by simpa using heq
        exact .inl (followsPath_cons_of_contains hnext (ih s))
      · exact .inr (followsPath_cons_of_contains hnext (ih next))

/-- A line follows the sectors picked from its stretches, without repetitions. -/
theorem followsPath_collapse {pick : SectorSet → Option Sector} {actual : List SectorSet}
    (hpick : ∀ set ∈ actual, set ≠ [] → ∃ s ∈ set, pick set = some s) (hnil : pick [] = none) :
    followsPath (collapse (actual.filterMap pick)) actual = true := by
  induction actual with
  | nil => rfl
  | cons set actual ih =>
    have hrest : ∀ set' ∈ actual, set' ≠ [] → ∃ s ∈ set', pick set' = some s :=
      fun set' hset' => hpick set' (List.mem_cons_of_mem _ hset')
    by_cases hset : set = []
    · subst hset
      rw [List.filterMap_cons_none hnil, followsPath_nil_set]
      exact ih hrest
    · obtain ⟨s, hs, hsome⟩ := hpick set List.mem_cons_self hset
      rw [List.filterMap_cons_some hsome, collapse_cons]
      exact followsPath_cons_of_contains hs (followsPath_collapseAfter hrest hnil s)

/-! ## The sectors met on the way -/

variable {K : Type} [Scalar K]

namespace Lane

omit [Scalar K] in
theorem map_sector_modify (lanes : List (Lane K)) (j : Nat) :
    (lanes.modify j advance).map (·.sector) = lanes.map (·.sector) := by
  induction lanes generalizing j with
  | nil => rw [List.modify_nil]
  | cons lane lanes ih =>
    cases j with
    | zero =>
      have h : lane.advance.sector = lane.sector := by
        unfold advance
        split <;> rfl
      exact congrArg (· :: _) h
    | succ j => exact congrArg (lane.sector :: ·) (ih j)

theorem map_sector_passAll (t : K) (lanes : List (Lane K)) :
    (passAll t lanes).map (·.sector) = lanes.map (·.sector) := by
  fun_induction passAll t lanes with
  | case1 lanes j u h fewer _ ih => rw [ih, map_sector_modify]
  | case2 => rfl
  | case3 => rfl

/-- There is one lane for each sector all along the way. -/
theorem map_sector_of_mem_stops {lanes : List (Lane K)} {stop : K × List (Lane K)}
    (h : stop ∈ stops lanes) : stop.2.map (·.sector) = lanes.map (·.sector) := by
  fun_induction stops lanes with
  | case1 lanes j t hearliest passed fewer ih =>
    have hpassed : passed.map (·.sector) = lanes.map (·.sector) := by
      rw [map_sector_passAll, map_sector_modify]
    rcases List.mem_cons.1 h with rfl | h
    · exact hpassed
    · rw [ih h, hpassed]
  | case2 => exact absurd h List.not_mem_nil

end Lane

namespace Classifier

theorem mem_order_of_mem_classifyAll {c : Classifier K} {p : Point K} {s : Sector}
    (h : s ∈ c.classifyAll p) : s ∈ c.order := by
  rw [classifyAll, sectorsWhere, SectorSet.mem_ofList] at h
  obtain ⟨entry, hentry, rfl⟩ := List.mem_map.1 h
  exact List.mem_map_of_mem (List.mem_filter.1 hentry).1

theorem mem_order_of_mem_pieceSets {c : Classifier K} {piece : Segment K} {set : SectorSet}
    (hset : set ∈ c.pieceSets piece) {s : Sector} (h : s ∈ set) : s ∈ c.order := by
  obtain ⟨stop, hstop, rfl⟩ := List.mem_map.1 hset
  have horder : stop.2.map (·.sector) = c.order := by
    rw [Lane.map_sector_of_mem_stops hstop, lanes, List.map_map]
    rfl
  rw [Lane.current, SectorSet.mem_ofList] at h
  obtain ⟨lane, hlane, rfl⟩ := List.mem_map.1 h
  rw [← horder]
  exact List.mem_map_of_mem (List.mem_filter.1 hlane).1

theorem mem_order_of_mem_setsAfter {c : Classifier K} {last : Point K} {points : List (Point K)}
    {set : SectorSet} (hset : set ∈ c.setsAfter last points) {s : Sector} (h : s ∈ set) :
    s ∈ c.order := by
  induction points generalizing last with
  | nil => exact absurd hset List.not_mem_nil
  | cons p points ih =>
    rw [setsAfter, List.mem_append, List.mem_cons] at hset
    rcases hset with hset | rfl | hset
    · exact mem_order_of_mem_pieceSets hset h
    · exact mem_order_of_mem_classifyAll h
    · exact ih hset

/-- A line is in no sectors but those of the classifier. -/
theorem mem_order_of_mem_sectorSets {c : Classifier K} {l : Polyline K} {set : SectorSet}
    (hset : set ∈ c.sectorSets l) {s : Sector} (h : s ∈ set) : s ∈ c.order := by
  obtain ⟨raw, hraw, rfl⟩ := List.mem_map.1 ((collapse_sublist _).subset hset)
  have hs : s ∈ raw := (List.mem_filter.1 h).1
  unfold rawSets at hraw
  split at hraw
  · exact absurd hraw List.not_mem_nil
  · rcases List.mem_cons.1 hraw with rfl | hraw
    · exact mem_order_of_mem_classifyAll hs
    · exact mem_order_of_mem_setsAfter hraw hs

omit [Scalar K] in
theorem mostImportant?_nil (c : Classifier K) : c.mostImportant? [] = none := by
  rw [mostImportant?, List.find?_eq_none]
  exact fun _ _ => nofun

omit [Scalar K] in
/-- A set of sectors of the classifier has a most important member. -/
theorem exists_mostImportant? {c : Classifier K} {set : SectorSet}
    (horder : ∀ s ∈ set, s ∈ c.order) (hne : set ≠ []) :
    ∃ s ∈ set, c.mostImportant? set = some s := by
  obtain ⟨first, hfirst⟩ := List.exists_mem_of_ne_nil set hne
  have hsome : (c.mostImportant? set).isSome = true :=
    List.find?_isSome.2 ⟨first, horder first hfirst, List.contains_iff_mem.2 hfirst⟩
  obtain ⟨s, hs⟩ := Option.isSome_iff_exists.1 hsome
  exact ⟨s, List.contains_iff_mem.1 (List.find?_some hs), hs⟩

/-- A stretch that is in a sector at all has a most important one. -/
theorem exists_mostImportant?_of_mem_sectorSets {c : Classifier K} {l : Polyline K}
    {set : SectorSet} (hset : set ∈ c.sectorSets l) (hne : set ≠ []) :
    ∃ s ∈ set, c.mostImportant? set = some s :=
  exists_mostImportant? (fun _ hs => mem_order_of_mem_sectorSets hset hs) hne

/-- A line follows the most important sectors of its stretches. -/
theorem followsPath_sectorPath (c : Classifier K) (l : Polyline K) :
    followsPath (c.sectorPath l) (c.sectorSets l) = true :=
  followsPath_collapse (fun _ hset => exists_mostImportant?_of_mem_sectorSets hset)
    (mostImportant?_nil c)

theorem sectorPath_eq_nil_iff {c : Classifier K} {l : Polyline K} :
    c.sectorPath l = [] ↔ ∀ set ∈ c.sectorSets l, set = [] := by
  rw [sectorPath, collapse_eq_nil_iff, List.filterMap_eq_nil_iff]
  constructor
  · intro hnone set hset
    by_cases hne : set = []
    · exact hne
    · obtain ⟨s, -, hs⟩ := exists_mostImportant?_of_mem_sectorSets hset hne
      exact absurd ((hnone set hset).symm.trans hs) nofun
  · intro hnil set hset
    rw [hnil set hset, mostImportant?_nil]

end Classifier

namespace Path

theorem describe?_eq_some_iff {context : Context K} {l : Polyline K} {path : Path} :
    describe? context l = some path ↔
      path.sectors ≠ [] ∧ path.sectors = context.classifier.sectorPath l := by
  obtain ⟨sectors⟩ := path
  rw [describe?]
  split
  · rename_i hnil
    exact iff_of_false nofun fun h => h.1 (h.2.trans hnil)
  · rename_i hne
    rw [Option.some.injEq, Path.mk.injEq]
    constructor
    · rintro rfl
      exact ⟨hne, rfl⟩
    · exact fun h => h.2.symm

theorem describe?_eq_none_iff {context : Context K} {l : Polyline K} :
    describe? context l = none ↔ ∀ set ∈ context.classifier.sectorSets l, set = [] := by
  rw [← Classifier.sectorPath_eq_nil_iff, describe?]
  split
  · rename_i hnil
    exact iff_of_true rfl hnil
  · rename_i hne
    exact iff_of_false nofun hne

/-- Whatever the sectors and their order, a line takes the path that describes it; it has such a
path unless none of its stretches is in a sector. -/
theorem taken_by_line (context : Context K) (l : Polyline K) :
    (∀ path, describe? context l = some path → path.holds context l = true) ∧
      (describe? context l = none ↔ ∀ set ∈ context.classifier.sectorSets l, set = []) := by
  refine ⟨fun path h => ?_, describe?_eq_none_iff⟩
  rw [holds, (describe?_eq_some_iff.1 h).2]
  exact context.classifier.followsPath_sectorPath l

/-- A line that starts in no sector, in an order of three sectors that overlap and do not cover the
plane. -/
theorem taken_by_line_from_outside :
    let context : Context Binary64 := .ofOrder .standard [.topHalf, .rightHalf, .topLeft]
    let l : Polyline Binary64 := .ofPoints [⟨-1, -1⟩, ⟨-0.5, 1⟩, ⟨1, -1⟩]
    describe? context l = some ⟨[.topHalf, .rightHalf]⟩ ∧
      (⟨[.topHalf, .rightHalf]⟩ : Path).holds context l = true := by
  intro context l
  have h : describe? context l = some ⟨[.topHalf, .rightHalf]⟩ := by decide +kernel
  exact ⟨h, (taken_by_line context l).1 _ h⟩

end Path

end CurveSketch
