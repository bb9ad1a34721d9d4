import CurveSketch.Proofs.SelfMatch

/-!
# What a description leaves out

An order of sectors need not cover the plane. Turning points and crossings in no sector of the order
are left out of a description, which then is false of what it describes : the turning points of a
line are counted when it is tested, and so are the crossings of two lines, which are even said to
cross nowhere if no crossing has a sector. A description that leaves nothing out is true
(`holds_iff_nothing_left_out`).
-/

namespace CurveSketch

variable {K : Type} [Scalar K]

namespace Turning

/-- The turning points described are those of the line just if each of them has a sector. -/
theorem holds_iff_of_describe? {settings : Settings K} {order : List Sector} {l : Polyline K}
    {turning : Turning} (h : describe? (.ofOrder settings order) l = some turning) :
    turning.holds (.ofOrder settings order) l = true ↔
      ∀ t ∈ l.turning, ((Classifier.ofOrder settings order).classify? t.point).isSome = true := by
  refine ⟨fun hholds t ht => ?_, fun hall => holds_of_describe? hall h⟩
  rw [holds, Bool.and_eq_true, beq_iff_eq, (describe?_eq_some_iff.1 h).2] at hholds
  have hsome := List.filterMap_length_eq_length.1 hholds.1 t ht
  rwa [Option.isSome_map] at hsome

end Turning

namespace Meeting

/-- The crossings described are those of the two lines just if each of them has a sector. -/
theorem holdsOf_iff_of_sectors_eq {context : Context K} {m : Meeting} {a b : Polyline K}
    (h : m.sectors = (a.crossings b).filterMap context.classifier.classify?) :
    m.holdsOf context a b = true ↔
      ∀ p ∈ a.crossings b, (context.classifier.classify? p).isSome = true := by
  rw [holdsOf, beq_iff_eq, h]
  refine ⟨fun heq => ?_, fun hall => (map_some_filterMap hall).symm⟩
  have hlength := congrArg List.length heq
  rw [List.length_map, List.length_map] at hlength
  exact List.filterMap_length_eq_length.1 hlength.symm

end Meeting

/-- In any order of sectors, the turning points described are those of the line just if each of them
has a sector, and a crossing described is that of the two lines it was made for, the earlier one
first, just if each of its points has a sector. -/
theorem holds_iff_nothing_left_out (settings : Settings K) (order : List Sector) :
    let context : Context K := .ofOrder settings order
    (∀ (l : Polyline K) (turning : Turning), Turning.describe? context l = some turning →
      (turning.holds context l = true ↔
        ∀ t ∈ l.turning, (context.classifier.classify? t.point).isSome = true)) ∧
    ∀ (d : Drawing K) (m : Meeting), m ∈ Meeting.describeAll context d →
      ∃ i j a b, i < j ∧ d.lines[i]? = some a ∧ d.lines[j]? = some b ∧
        m.first = standardName i ∧ m.second = standardName j ∧
        (m.holdsOf context a b = true ↔
          ∀ p ∈ a.crossings b, (context.classifier.classify? p).isSome = true) := by
  refine ⟨fun l turning h => Turning.holds_iff_of_describe? h, fun d m hm => ?_⟩
  obtain ⟨i, j, a, b, hij, ha, hb, -, rfl⟩ := Meeting.exists_of_mem_describeAll hm
  exact ⟨i, j, a, b, hij, ha, hb, rfl, rfl, Meeting.holdsOf_iff_of_sectors_eq rfl⟩

/-- An order of two sectors that cover a line with a maximum and a minimum, and the point in which
two lines cross. -/
theorem holds_of_nothing_left_out :
    let context : Context Binary64 := .ofOrder .standard [.topHalf, .bottomRight]
    let l : Polyline Binary64 :=
      ⟨[⟨-1, 1⟩, ⟨1, -1⟩], [⟨⟨-1, 1⟩, .maxima⟩, ⟨⟨1, -1⟩, .minima⟩]⟩
    let d : Drawing Binary64 := ⟨[.ofPoints [⟨0, -1⟩, ⟨1, 0⟩], .ofPoints [⟨0, 0⟩, ⟨1, -1⟩]]⟩
    let turning : Turning := ⟨[(.maxima, .topHalf), (.minima, .bottomRight)]⟩
    let m : Meeting := ⟨standardName 0, standardName 1, [.bottomRight]⟩
    Turning.describe? context l = some turning ∧ turning.holds context l = true ∧
      m ∈ Meeting.describeAll context d ∧
      ∃ a b, d.lines[0]? = some a ∧ d.lines[1]? = some b ∧ m.holdsOf context a b = true := by
  intro context l d turning m
  have hdescribe : Turning.describe? context l = some turning := by decide +kernel
  have hmem : m ∈ Meeting.describeAll context d := by decide +kernel
  obtain ⟨hturning, hmeeting⟩ :=
    holds_iff_nothing_left_out Settings.standard [.topHalf, .bottomRight]
  obtain ⟨i, j, a, b, -, ha, hb, hi, hj, hholds⟩ := hmeeting d m hmem
  obtain rfl := standardName_injective hi
  obtain rfl := standardName_injective hj
  obtain rfl := Option.some.inj ha
  obtain rfl := Option.some.inj hb
  exact ⟨hdescribe, (hturning l turning hdescribe).2 (by decide +kernel), hmem, _, _, ha, hb,
    hholds.2 (by decide +kernel)⟩

/-- In an order of one sector, the minimum of a line is left out of its turning points, and two
lines that cross are said to cross nowhere. -/
theorem not_holds_of_left_out :
    let context : Context Binary64 := .ofOrder .standard [.topLeft]
    let l : Polyline Binary64 :=
      ⟨[⟨-1, 1⟩, ⟨1, -1⟩], [⟨⟨-1, 1⟩, .maxima⟩, ⟨⟨1, -1⟩, .minima⟩]⟩
    let a : Polyline Binary64 := .ofPoints [⟨0, -1⟩, ⟨1, 0⟩]
    let b : Polyline Binary64 := .ofPoints [⟨0, 0⟩, ⟨1, -1⟩]
    let turning : Turning := ⟨[(.maxima, .topLeft)]⟩
    let m : Meeting := ⟨standardName 0, standardName 1, []⟩
    Turning.describe? context l = some turning ∧ turning.holds context l = false ∧
      Meeting.describeAll context ⟨[a, b]⟩ = [m] ∧ m.holdsOf context a b = false := by
  decide +kernel

end CurveSketch
