import CurveSketch.Proofs.Describe
import CurveSketch.Proofs.PathWalk
import CurveSketch.Proofs.Quadrant
import CurveSketch.Proofs.SharedNaming

/-!
# A drawing meets its description

The specification that describes a drawing holds of it, if every turning point and every crossing
has a sector (`Specification.describe_holds`). Standard names stand for the lines they are the names
of, under which each clause says what was measured; a path is followed whatever sectors it is made
of, and with two lines or more the number of lines is stated.
-/

namespace CurveSketch

variable {K : Type} [Scalar K]

/-! ## Features of one line -/

/-- A line has the slope that describes it. -/
theorem Slope.holds_of_describe? {context : Context K} {l : Polyline K} {slope : Slope}
    (h : describe? context l = some slope) : slope.holds context l = true := by
  have hslope : ∀ p, slope.at? p = Gradient.measure? context.settings l p := by
    unfold describe? at h
    split at h
    · exact absurd h nofun
    · obtain rfl := Option.some.inj h
      intro p
      cases p <;> rfl
  refine List.all_eq_true.2 fun s hs => ?_
  obtain ⟨p, -, hp⟩ := List.mem_filterMap.1 hs
  obtain ⟨g, hg, rfl⟩ := Option.map_eq_some_iff.1 hp
  rw [hslope] at hg
  simp [hg]

/-- A line has the symmetry that describes it. -/
theorem Symmetry.holds_of_describe? {context : Context K} {l : Polyline K} {s : Symmetry}
    (h : describe? context l = some s) : s.holds context l = true := by
  unfold describe? at h
  split at h
  · exact absurd h nofun
  · obtain rfl := Option.some.inj h
    simp [holds]

namespace Turning

theorem describe?_eq_some_iff {context : Context K} {l : Polyline K} {turning : Turning} :
    describe? context l = some turning ↔ turning.expected ≠ [] ∧ turning.expected =
      l.turning.filterMap fun t => (context.classifier.classify? t.point).map (t.kind, ·) := by
  obtain ⟨expected⟩ := turning
  rw [describe?]
  split
  · rename_i hnil
    exact iff_of_false nofun fun h => h.1 (h.2.trans hnil)
  · rename_i hne
    rw [Option.some.injEq, Turning.mk.injEq]
    constructor
    · rintro rfl
      exact ⟨hne, rfl⟩
    · exact fun h => h.2.symm

/-- Turning points that have a sector each are in it. -/
theorem fits_classified {settings : Settings K} {order : List Sector} {ts : List (TurningPoint K)}
    (hts : ∀ t ∈ ts, ((Classifier.ofOrder settings order).classify? t.point).isSome = true) :
    let expected := ts.filterMap fun t =>
      ((Classifier.ofOrder settings order).classify? t.point).map (t.kind, ·)
    expected.length = ts.length ∧
      (expected.zip ts).all (fun e => fits settings e.1 e.2) = true := by
  induction ts with
  | nil => exact ⟨rfl, rfl⟩
  | cons t ts ih =>
    obtain ⟨s, hs⟩ := Option.isSome_iff_exists.1 (hts t List.mem_cons_self)
    obtain ⟨hlength, hall⟩ := ih fun t' ht' => hts t' (List.mem_cons_of_mem _ ht')
    have hfits : fits settings (t.kind, s) t = true := by
      simp [fits, Classifier.contains_of_classify? hs]
    simp only [List.filterMap_cons, hs, Option.map_some, List.length_cons, List.zip_cons_cons,
      List.all_cons, hfits, Bool.true_and]
    exact ⟨congrArg (· + 1) hlength, hall⟩

/-- A line has the turning points that describe it, if each of them has a sector. -/
theorem holds_of_describe? {settings : Settings K} {order : List Sector} {l : Polyline K}
    (hl : ∀ t ∈ l.turning, ((Classifier.ofOrder settings order).classify? t.point).isSome = true)
    {turning : Turning} (h : describe? (.ofOrder settings order) l = some turning) :
    turning.holds (.ofOrder settings order) l = true := by
  obtain ⟨hlength, hall⟩ := fits_classified hl
  rw [holds, (describe?_eq_some_iff.1 h).2, Bool.and_eq_true, beq_iff_eq]
  exact ⟨hlength, hall⟩

end Turning

/-- A line has the features that describe it, if each of its turning points has a sector. -/
theorem LineFeature.holds_of_mem_describeAll {settings : Settings K} {order : List Sector}
    {l : Polyline K}
    (hl : ∀ t ∈ l.turning, ((Classifier.ofOrder settings order).classify? t.point).isSome = true)
    {f : LineFeature} (h : f ∈ describeAll (.ofOrder settings order) l) :
    f.holds (.ofOrder settings order) l = true := by
  simp only [describeAll, List.mem_append, Option.mem_toList, Option.map_eq_some_iff] at h
  rcases h with ((⟨p, hp, rfl⟩ | ⟨s, hs, rfl⟩) | ⟨s, hs, rfl⟩) | ⟨t, ht, rfl⟩
  · rw [holds, Path.holds, (Path.describe?_eq_some_iff.1 hp).2]
    exact Classifier.followsPath_sectorPath _ l
  · exact Slope.holds_of_describe? hs
  · exact Symmetry.holds_of_describe? hs
  · exact Turning.holds_of_describe? hl ht

/-! ## Crossings -/

theorem map_some_filterMap {α β : Type} {f : α → Option β} {xs : List α}
    (h : ∀ x ∈ xs, (f x).isSome = true) : (xs.filterMap f).map some = xs.map f := by
  induction xs with
  | nil => rfl
  | cons x xs ih =>
    obtain ⟨y, hy⟩ := Option.isSome_iff_exists.1 (h x List.mem_cons_self)
    rw [List.filterMap_cons_some hy, List.map_cons, List.map_cons, hy,
      ih fun x' hx' => h x' (List.mem_cons_of_mem _ hx')]

/-! ## The drawing -/

/-- Every turning point of a drawing and every point in which two of its lines cross has a
sector. -/
structure Drawing.Classified (c : Classifier K) (d : Drawing K) : Prop where
  turning : ∀ l ∈ d.lines, ∀ t ∈ l.turning, (c.classify? t.point).isSome = true
  crossings : ∀ a ∈ d.lines, ∀ b ∈ d.lines, ∀ p ∈ a.crossings b, (c.classify? p).isSome = true

/-- The index of the line that a standard name is the name of. -/
def nameIndex (name : List Char) : Nat :=
  position name - 1

theorem nameIndex_standardName (i : Nat) : nameIndex (standardName i) = i := by
  rw [nameIndex, standardName, position_nameAt, Nat.add_sub_cancel]

namespace Specification

/-- A description mentions the names of lines of the drawing only. -/
theorem exists_of_mem_names_describe {context : Context K} {d : Drawing K} {x : List Char}
    (h : x ∈ (describe context d).names) : ∃ i < d.lines.length, x = standardName i := by
  have hlt : ∀ {i : Nat} {l : Polyline K}, d.lines[i]? = some l → i < d.lines.length :=
    fun hi => (List.getElem?_eq_some_iff.1 hi).1
  obtain ⟨c, hc, hx⟩ := List.mem_flatMap.1 h
  rcases mem_describe_clauses hc with ⟨-, rfl⟩ | ⟨i, j, a, b, -, ha, hb, -, rfl⟩ |
    ⟨selector, l, f, hselector, -, rfl⟩
  · exact absurd hx List.not_mem_nil
  · rcases List.mem_cons.1 hx with rfl | hx
    · exact ⟨i, hlt ha, rfl⟩
    · exact ⟨j, hlt hb, List.mem_singleton.1 hx⟩
  · rcases Selector.mem_forDrawing hselector with ⟨rfl, -⟩ | ⟨i, hi, rfl | rfl⟩
    · exact absurd hx List.not_mem_nil
    · exact absurd hx List.not_mem_nil
    · exact ⟨i, hlt hi, List.mem_singleton.1 hx⟩

theorem assigns_nameIndex (context : Context K) (d : Drawing K) :
    Assigns d.lines.length (describe context d).names nameIndex := by
  refine ⟨fun x hx => ?_, fun x hx y hy hxy => ?_⟩
  · obtain ⟨i, hi, rfl⟩ := exists_of_mem_names_describe hx
    rwa [nameIndex_standardName]
  · obtain ⟨i, -, rfl⟩ := exists_of_mem_names_describe hx
    obtain ⟨j, -, rfl⟩ := exists_of_mem_names_describe hy
    rw [nameIndex_standardName, nameIndex_standardName] at hxy
    rw [hxy]

/-- Each clause of a description is true when standard names stand for their lines. -/
theorem holdsUnder_of_mem_describe {settings : Settings K} {order : List Sector} {d : Drawing K}
    (hd : d.Classified (.ofOrder settings order)) {c : Clause}
    (h : c ∈ (describe (.ofOrder settings order) d).clauses) :
    c.HoldsUnder (.ofOrder settings order) d nameIndex := by
  rcases mem_describe_clauses h with ⟨-, rfl⟩ | ⟨i, j, a, b, -, ha, hb, -, rfl⟩ |
    ⟨selector, l, f, hselector, hf, rfl⟩
  · rfl
  · have hcrossings := map_some_filterMap (hd.crossings a (List.mem_of_getElem? ha) b
      (List.mem_of_getElem? hb))
    refine ⟨a, b, by rwa [nameIndex_standardName], by rwa [nameIndex_standardName], ?_⟩
    exact beq_iff_eq.2 hcrossings.symm
  · have hl : ∀ {i : Nat}, d.lines[i]? = some l → f.holds (.ofOrder settings order) l = true :=
      fun hi => LineFeature.holds_of_mem_describeAll (hd.turning l (List.mem_of_getElem? hi)) hf
    rcases Selector.mem_forDrawing hselector with ⟨rfl, honly⟩ | ⟨i, hi, rfl | rfl⟩
    · have hfirst : d.lines[0]? = some l := by
        rw [honly]
        rfl
      exact ⟨l, List.mem_of_getElem? hfirst, hl hfirst⟩
    · exact ⟨Nat.succ_pos i, l, hi, hl hi⟩
    · exact ⟨l, by rwa [nameIndex_standardName], hl hi⟩

/-- With two lines or more their number is stated. -/
theorem count_mem_describe {context : Context K} {d : Drawing K} (h : 2 ≤ d.lines.length) :
    .ofDrawing (.count ⟨d.lines.length⟩) ∈ (describe context d).clauses := by
  have hcount : .count ⟨d.lines.length⟩ ∈ DrawingFeature.describeAll context d := by
    rw [DrawingFeature.describeAll, CurveCount.describe?, if_pos h]
    exact List.mem_append_left _ (List.mem_singleton_self _)
  exact List.mem_append_left _ (List.mem_map_of_mem hcount)

/-- A drawing with a line meets its description, if every point that is described has a sector. -/
theorem describe_holds {settings : Settings K} {order : List Sector} {d : Drawing K}
    (hne : d.lines ≠ []) (hd : d.Classified (.ofOrder settings order)) :
    (describe (.ofOrder settings order) d).holds (.ofOrder settings order) d = true := by
  rw [holds_iff]
  refine ⟨⟨nameIndex, assigns_nameIndex _ d, fun c hc => holdsUnder_of_mem_describe hd hc⟩,
    fun hany => ?_⟩
  by_contra hlength
  have hpos : 0 < d.lines.length := List.length_pos_iff.2 hne
  obtain ⟨g, hg⟩ := hany _ (count_mem_describe (by omega))
  exact absurd hg nofun

end Specification

end CurveSketch
