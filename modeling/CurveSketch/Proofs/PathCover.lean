import CurveSketch.Proofs.PathWalk
import Mathlib.Data.List.Chain
import Mathlib.Data.List.Forall2
import Mathlib.Data.Nat.Find

/-!
# Paths as covers

A line follows a path if the stretches of the line that are in some sector can be covered by spans,
one for each sector of the path and lying in it : the first span begins with the first stretch, each
one ends where the next begins or just before, and the last one ends with the last stretch
(`followsPath_iff_cover`).

Neighbouring spans may share a stretch. Three or more may share it too, if it lies in all their
sectors, so a sector of a path that is followed can be repeated any number of times. A cover in
which only neighbours share is sure to be there if no stretch lies in three successive sectors of
the path (`neighbours_share_or_three_sectors`).
-/

namespace CurveSketch

/-- The stretches of a line that are in some sector. -/
def occupied (actual : List SectorSet) : List SectorSet :=
  actual.filter (!·.isEmpty)

/-- Consecutive stretches of a line, by index. -/
structure Span where
  /-- The index of the first of them. -/
  first : Nat
  /-- The index of the last of them. -/
  last : Nat
deriving DecidableEq, Repr

namespace Span

/-- A stretch is one of a span. -/
def Contains (span : Span) (k : Nat) : Prop :=
  span.first ≤ k ∧ k ≤ span.last

/-- Each stretch of a span, of which there is at least one, lies in a sector. -/
structure LiesIn (stretches : List SectorSet) (s : Sector) (span : Span) : Prop where
  le : span.first ≤ span.last
  mem : ∀ k, span.Contains k → ∃ set, stretches[k]? = some set ∧ s ∈ set

theorem LiesIn.lt_length {stretches : List SectorSet} {s : Sector} {span : Span}
    (h : span.LiesIn stretches s) : span.last < stretches.length := by
  obtain ⟨_, hset, -⟩ := h.mem span.last ⟨h.le, le_rfl⟩
  exact (List.getElem?_eq_some_iff.1 hset).1

end Span

/-- Spans that cover the stretches from index `start` on, one for each of the sectors, in order. -/
structure Cover (stretches : List SectorSet) (start : Nat) (expected : List Sector)
    (spans : List Span) : Prop where
  /-- Each span lies in its sector. -/
  lies : List.Forall₂ (Span.LiesIn stretches) expected spans
  /-- Each span begins with the stretch that the one before it ends with, or with the next one. -/
  adjoin : spans.IsChain fun a b => b.first = a.last ∨ b.first = a.last + 1
  /-- The first span begins where the cover does. -/
  starts : ∀ span ∈ spans.head?, span.first = start
  /-- The last span ends with the last stretch. -/
  ends : ∀ span ∈ spans.getLast?, span.last + 1 = stretches.length
  /-- Without spans there is nothing left to cover. -/
  complete : spans = [] → start = stretches.length

/-! ## Covers by the first span -/

namespace Cover

variable {stretches : List SectorSet} {start : Nat} {s : Sector} {expected : List Sector}
  {span : Span} {spans : List Span}

theorem exists_nil_iff : (∃ spans, Cover stretches start [] spans) ↔ start = stretches.length := by
  constructor
  · rintro ⟨spans, h⟩
    exact h.complete (List.forall₂_nil_left_iff.1 h.lies)
  · exact fun h => ⟨[], .nil, .nil, nofun, nofun, fun _ => h⟩

/-- What follows the first span covers the rest, with or without the last stretch of that span. -/
theorem cons_iff : Cover stretches start (s :: expected) (span :: spans) ↔
    span.first = start ∧ span.LiesIn stretches s ∧
      (Cover stretches span.last expected spans ∨
        Cover stretches (span.last + 1) expected spans) := by
  constructor
  · intro h
    obtain ⟨hspan, hlies⟩ := List.forall₂_cons.1 h.lies
    refine ⟨h.starts span rfl, hspan, ?_⟩
    cases spans with
    | nil => exact .inr ⟨hlies, .nil, nofun, nofun, fun _ => h.ends span rfl⟩
    | cons next spans =>
      obtain ⟨hnext, hadjoin⟩ := List.isChain_cons_cons.1 h.adjoin
      have hends : ∀ last ∈ (next :: spans).getLast?, last.last + 1 = stretches.length :=
        fun last hlast => h.ends last (by rwa [List.getLast?_cons_cons])
      rcases hnext with hnext | hnext
      · exact .inl ⟨hlies, hadjoin, by rintro _ ⟨⟩; exact hnext, hends, nofun⟩
      · exact .inr ⟨hlies, hadjoin, by rintro _ ⟨⟩; exact hnext, hends, nofun⟩
  · rintro ⟨hfirst, hspan, hrest⟩
    have hnext : ∀ next ∈ spans.head?, next.first = span.last ∨ next.first = span.last + 1 :=
      fun next hnext => hrest.imp (·.starts next hnext) (·.starts next hnext)
    have hlies : List.Forall₂ (Span.LiesIn stretches) expected spans :=
      hrest.elim (·.lies) (·.lies)
    have hadjoin : spans.IsChain fun a b => b.first = a.last ∨ b.first = a.last + 1 :=
      hrest.elim (·.adjoin) (·.adjoin)
    refine ⟨.cons hspan hlies, List.isChain_cons.2 ⟨hnext, hadjoin⟩,
      by rintro _ ⟨⟩; exact hfirst, ?_, nofun⟩
    cases spans with
    | nil =>
      rintro _ ⟨⟩
      exact hrest.elim (fun h => absurd (h.complete rfl) hspan.lt_length.ne) fun h => h.complete rfl
    | cons next spans =>
      rw [List.getLast?_cons_cons]
      exact hrest.elim (·.ends) (·.ends)

/-- A cover begins with a stretch in the first sector; that sector goes on, or the cover goes on
with the other sectors, from the same stretch or from the next. -/
theorem exists_cons_iff : (∃ spans, Cover stretches start (s :: expected) spans) ↔
    ∃ set, stretches[start]? = some set ∧ s ∈ set ∧
      ((∃ spans, Cover stretches (start + 1) (s :: expected) spans) ∨
        (∃ spans, Cover stretches start expected spans) ∨
        ∃ spans, Cover stretches (start + 1) expected spans) := by
  constructor
  · rintro ⟨_, h⟩
    obtain ⟨span, spans, -, -, rfl⟩ := List.forall₂_cons_left_iff.1 h.lies
    obtain ⟨rfl, hspan, hrest⟩ := cons_iff.1 h
    obtain ⟨set, hset, hs⟩ := hspan.mem span.first ⟨le_rfl, hspan.le⟩
    refine ⟨set, hset, hs, ?_⟩
    rcases hspan.le.eq_or_lt with heq | hlt
    · rw [← heq] at hrest
      exact .inr (hrest.imp (⟨_, ·⟩) (⟨_, ·⟩))
    · have hshorter : Span.LiesIn stretches s ⟨span.first + 1, span.last⟩ :=
        ⟨hlt, fun k hk => hspan.mem k ⟨Nat.le_of_succ_le hk.1, hk.2⟩⟩
      exact .inl ⟨_, cons_iff.2 ⟨rfl, hshorter, hrest⟩⟩
  · rintro ⟨set, hset, hs, ⟨_, h⟩ | hrest⟩
    · obtain ⟨span, spans, -, -, rfl⟩ := List.forall₂_cons_left_iff.1 h.lies
      obtain ⟨hfirst, hspan, hrest⟩ := cons_iff.1 h
      have hlonger : Span.LiesIn stretches s ⟨start, span.last⟩ := by
        refine ⟨Nat.le_of_succ_le (hfirst.symm.le.trans hspan.le), fun k hk => ?_⟩
        rcases hk.1.eq_or_lt with rfl | hlt
        · exact ⟨set, hset, hs⟩
        · exact hspan.mem k ⟨hfirst.le.trans hlt, hk.2⟩
      exact ⟨_, cons_iff.2 ⟨rfl, hlonger, hrest⟩⟩
    · have hhere : Span.LiesIn stretches s ⟨start, start⟩ := by
        refine ⟨le_rfl, fun k hk => ?_⟩
        obtain rfl := le_antisymm hk.1 hk.2
        exact ⟨set, hset, hs⟩
      rcases hrest with ⟨spans, h⟩ | ⟨spans, h⟩
      · exact ⟨_, cons_iff.2 ⟨rfl, hhere, .inl h⟩⟩
      · exact ⟨_, cons_iff.2 ⟨rfl, hhere, .inr h⟩⟩

end Cover

/-! ## The table decides whether there is a cover -/

theorem occupied_cons_of_ne_nil {set : SectorSet} (h : set ≠ []) (actual : List SectorSet) :
    occupied (set :: actual) = set :: occupied actual :=
  List.filter_cons_of_pos (by simpa using h)

theorem followsPath_nil_iff {actual : List SectorSet} :
    followsPath [] actual = true ↔ occupied actual = [] := by
  induction actual with
  | nil => exact iff_of_true rfl rfl
  | cons set actual ih =>
    by_cases hset : set = []
    · rw [hset, followsPath_nil_set]
      exact ih
    · rw [followsPath_nil_cons, occupied_cons_of_ne_nil hset, List.isEmpty_eq_false_iff.2 hset]
      exact iff_of_false nofun nofun

/-- A line follows a path from some stretch on if its spans cover all stretches from there on. -/
theorem followsPath_iff_exists_cover (front : List SectorSet) (expected : List Sector)
    (actual : List SectorSet) : followsPath expected actual = true ↔
      ∃ spans, Cover (front ++ occupied actual) front.length expected spans := by
  induction expected generalizing front actual with
  | nil =>
    rw [followsPath_nil_iff, Cover.exists_nil_iff, List.length_append, Nat.left_eq_add,
      List.length_eq_zero_iff]
  | cons s expected ih =>
    induction actual generalizing front with
    | nil =>
      refine iff_of_false nofun fun h => ?_
      obtain ⟨set, hset, -⟩ := Cover.exists_cons_iff.1 h
      rw [occupied, List.filter_nil, List.append_nil, List.getElem?_eq_none le_rfl] at hset
      exact absurd hset nofun
    | cons set actual iha =>
      by_cases hset : set = []
      · rw [hset, followsPath_nil_set]
        exact iha front
      · -- The stretch at hand joins those before it wherever the cover goes on with the next one.
        have hnext : front ++ occupied (set :: actual) = (front ++ [set]) ++ occupied actual := by
          rw [occupied_cons_of_ne_nil hset, List.append_cons]
        have hlength : front.length + 1 = (front ++ [set]).length := by simp
        have hhere : (front ++ occupied (set :: actual))[front.length]? = some set := by
          rw [occupied_cons_of_ne_nil hset, List.getElem?_append_right le_rfl, Nat.sub_self,
            List.getElem?_cons_zero]
        have hstay := ih front (set :: actual)
        have hgo := ih (front ++ [set]) actual
        have hgoOn := iha (front ++ [set])
        rw [← hnext, ← hlength] at hgo hgoOn
        rw [followsPath_cons_cons, List.isEmpty_eq_false_iff.2 hset, if_neg nofun, Bool.and_eq_true,
          Bool.or_eq_true, Bool.or_eq_true, List.contains_iff_mem, or_assoc, hgoOn, hstay, hgo]
        refine .trans ⟨fun ⟨hs, hrest⟩ => ⟨set, hhere, hs, hrest⟩, ?_⟩ Cover.exists_cons_iff.symm
        rintro ⟨set', hset', hs, hrest⟩
        obtain rfl := Option.some.inj (hhere.symm.trans hset')
        exact ⟨hs, hrest⟩

/-- A line follows a path if spans, one for each sector of the path, cover the stretches of the line
that are in some sector; a line without such stretches follows the empty path. -/
theorem followsPath_iff_cover (expected : List Sector) (actual : List SectorSet) :
    followsPath expected actual = true ↔
      match expected with
      | [] => occupied actual = []
      | _ :: _ => ∃ spans, Cover (occupied actual) 0 expected spans := by
  cases expected with
  | nil => exact followsPath_nil_iff
  | cons s expected => exact followsPath_iff_exists_cover [] (s :: expected) actual

/-! ## Shared stretches -/

/-- The spans that a stretch belongs to are one span, or two neighbours, at most. -/
def NeighboursShare (spans : List Span) : Prop :=
  ∀ k, ∃ i, ∀ j span, spans[j]? = some span → span.Contains k → j = i ∨ j = i + 1

namespace Cover

variable {stretches : List SectorSet} {start : Nat} {expected : List Sector} {spans : List Span}

theorem exists_liesIn (h : Cover stretches start expected spans) {i : Nat} {span : Span}
    (hi : spans[i]? = some span) : ∃ s, expected[i]? = some s ∧ span.LiesIn stretches s := by
  obtain ⟨hlt, rfl⟩ := List.getElem?_eq_some_iff.1 hi
  have hlt' : i < expected.length := h.lies.length_eq.symm ▸ hlt
  exact ⟨expected[i], List.getElem?_eq_getElem hlt', h.lies.get hlt' hlt⟩

theorem le_first_of_mem (h : Cover stretches start expected spans) {span : Span}
    (hspan : span ∈ spans) : start ≤ span.first := by
  induction spans generalizing start expected with
  | nil => exact absurd hspan List.not_mem_nil
  | cons a spans ih =>
    obtain ⟨s, expected, -, -, rfl⟩ := List.forall₂_cons_right_iff.1 h.lies
    obtain ⟨rfl, ha, hrest⟩ := cons_iff.1 h
    rcases List.mem_cons.1 hspan with rfl | hspan
    · exact le_rfl
    · exact ha.le.trans (hrest.elim (ih · hspan) fun h => Nat.le_of_succ_le (ih h hspan))

/-- No span begins before an earlier one ends. -/
theorem pairwise (h : Cover stretches start expected spans) :
    spans.Pairwise fun a b => a.last ≤ b.first := by
  induction spans generalizing start expected with
  | nil => exact .nil
  | cons a spans ih =>
    obtain ⟨s, expected, -, -, rfl⟩ := List.forall₂_cons_right_iff.1 h.lies
    obtain ⟨-, -, hrest⟩ := cons_iff.1 h
    refine .cons (fun b hb => ?_) (hrest.elim ih ih)
    exact hrest.elim (·.le_first_of_mem hb) fun h => Nat.le_of_succ_le (h.le_first_of_mem hb)

theorem last_le_first (h : Cover stretches start expected spans) {i j : Nat} {a b : Span}
    (ha : spans[i]? = some a) (hb : spans[j]? = some b) (hij : i < j) : a.last ≤ b.first := by
  obtain ⟨hi, rfl⟩ := List.getElem?_eq_some_iff.1 ha
  obtain ⟨hj, rfl⟩ := List.getElem?_eq_some_iff.1 hb
  exact List.pairwise_iff_getElem.1 h.pairwise i j hi hj hij

/-- Where only neighbours share, each second span begins further on. -/
theorem index_le_of_neighboursShare (h : Cover stretches start expected spans)
    (hshare : NeighboursShare spans) :
    ∀ (i : Nat) (span : Span), spans[i]? = some span → i ≤ 2 * span.first + 1
  | 0, _, _ => by omega
  | 1, _, _ => by omega
  | i + 2, c, hc => by
    obtain ⟨hlt, -⟩ := List.getElem?_eq_some_iff.1 hc
    have ha : spans[i]? = some spans[i] := List.getElem?_eq_getElem (by omega)
    have hindex := index_le_of_neighboursShare h hshare i _ ha
    obtain ⟨_, -, hlies⟩ := h.exists_liesIn ha
    obtain ⟨_, -, hlies'⟩ := h.exists_liesIn hc
    have hac := h.last_le_first ha hc (by omega)
    have hne : spans[i].first ≠ c.first := fun heq => by
      obtain ⟨m, hm⟩ := hshare c.first
      have hi := hm i _ ha ⟨heq.le, heq ▸ hlies.le⟩
      have hi' := hm (i + 2) c hc ⟨le_rfl, hlies'.le⟩
      omega
    have := hlies.le
    omega

/-- Where only neighbours share, there are at most twice as many spans as stretches. -/
theorem length_le_of_neighboursShare (h : Cover stretches start expected spans)
    (hshare : NeighboursShare spans) : expected.length ≤ 2 * stretches.length := by
  rw [h.lies.length_eq]
  rcases List.eq_nil_or_concat spans with rfl | ⟨front, last, rfl⟩
  · exact Nat.zero_le _
  · rw [List.concat_eq_append] at h hshare ⊢
    have hlast : (front ++ [last])[front.length]? = some last := List.getElem?_concat_length
    obtain ⟨_, -, hlies⟩ := h.exists_liesIn hlast
    have hindex := h.index_le_of_neighboursShare hshare _ _ hlast
    have hle := hlies.le
    have hlt := hlies.lt_length
    rw [List.length_append, List.length_singleton]
    omega

/-- The spans between two that share a stretch have a share in it too. -/
theorem contains_of_between (h : Cover stretches start expected spans) {i m j k : Nat}
    {a b c : Span} (ha : spans[i]? = some a) (hb : spans[m]? = some b) (hc : spans[j]? = some c)
    (him : i ≤ m) (hmj : m ≤ j) (hak : a.Contains k) (hck : c.Contains k) : b.Contains k := by
  rcases him.eq_or_lt with rfl | him
  · obtain rfl := Option.some.inj (ha.symm.trans hb)
    exact hak
  · rcases hmj.eq_or_lt with rfl | hmj
    · obtain rfl := Option.some.inj (hc.symm.trans hb)
      exact hck
    · obtain ⟨_, -, hlies⟩ := h.exists_liesIn hb
      have hbefore := h.last_le_first ha hb him
      have hafter := h.last_le_first hb hc hmj
      exact ⟨hlies.le.trans (hafter.trans hck.1), hak.2.trans (hbefore.trans hlies.le)⟩

/-- A stretch of a span lies in the span's sector. -/
theorem exists_mem (h : Cover stretches start expected spans) {i k : Nat} {span : Span}
    (hi : spans[i]? = some span) (hk : span.Contains k) :
    ∃ s set, expected[i]? = some s ∧ stretches[k]? = some set ∧ s ∈ set := by
  obtain ⟨s, hs, hlies⟩ := h.exists_liesIn hi
  obtain ⟨set, hset, hmem⟩ := hlies.mem k hk
  exact ⟨s, set, hs, hset, hmem⟩

/-- Only neighbours share where no stretch lies in three successive sectors. -/
theorem neighboursShare (h : Cover stretches start expected spans)
    (hthree : ¬∃ i a b c, expected[i]? = some a ∧ expected[i + 1]? = some b ∧
      expected[i + 2]? = some c ∧ ∃ set ∈ stretches, a ∈ set ∧ b ∈ set ∧ c ∈ set) :
    NeighboursShare spans := by
  intro k
  by_cases hsome : ∃ (i : Nat) (span : Span), spans[i]? = some span ∧ span.Contains k
  · -- The first span that the stretch belongs to is one of those sought, so is the next at most.
    classical
    refine ⟨Nat.find hsome, fun j c hc hck => ?_⟩
    have hmin : Nat.find hsome ≤ j := Nat.find_min' hsome ⟨c, hc, hck⟩
    obtain ⟨a, ha, hak⟩ := Nat.find_spec hsome
    generalize Nat.find hsome = i at ha hmin
    by_contra hij
    obtain ⟨hlt, -⟩ := List.getElem?_eq_some_iff.1 hc
    have hshared : ∀ m, i ≤ m → m ≤ j → ∃ s set, expected[m]? = some s ∧
        stretches[k]? = some set ∧ s ∈ set := fun m him hmj =>
      have hm : spans[m]? = some spans[m] := List.getElem?_eq_getElem (hmj.trans_lt hlt)
      h.exists_mem hm (h.contains_of_between ha hm hc him hmj hak hck)
    obtain ⟨s₀, set, h₀, hset, hmem₀⟩ := hshared i le_rfl hmin
    obtain ⟨s₁, set₁, h₁, hset₁, hmem₁⟩ := hshared (i + 1) (by omega) (by omega)
    obtain ⟨s₂, set₂, h₂, hset₂, hmem₂⟩ := hshared (i + 2) (by omega) (by omega)
    obtain rfl := Option.some.inj (hset.symm.trans hset₁)
    obtain rfl := Option.some.inj (hset.symm.trans hset₂)
    exact hthree ⟨i, s₀, s₁, s₂, h₀, h₁, h₂, set, List.mem_of_getElem? hset, hmem₀, hmem₁, hmem₂⟩
  · exact ⟨0, fun j span hj hk => absurd ⟨j, span, hj, hk⟩ hsome⟩

end Cover

/-! ## Repeated sectors -/

/-- Paths that the same lines follow are followed by the same lines behind another sector. -/
theorem followsPath_cons_congr {expected expected' : List Sector}
    (h : ∀ actual, followsPath expected actual = followsPath expected' actual) (s : Sector)
    (actual : List SectorSet) :
    followsPath (s :: expected) actual = followsPath (s :: expected') actual := by
  induction actual with
  | nil => rfl
  | cons set actual ih => rw [followsPath_cons_cons, followsPath_cons_cons, ih, h, h]

/-- A sector that is listed twice in a row may stand for the same stretches both times. -/
theorem followsPath_cons_cons_self (s : Sector) (expected : List Sector)
    (actual : List SectorSet) :
    followsPath (s :: s :: expected) actual = followsPath (s :: expected) actual := by
  induction actual with
  | nil => rfl
  | cons set actual ih =>
    rw [followsPath_cons_cons, ih, followsPath_cons_cons s expected]
    cases set.isEmpty <;> cases set.contains s <;> cases followsPath (s :: expected) actual <;> simp

theorem followsPath_cons_collapseAfter (s : Sector) (expected : List Sector)
    (actual : List SectorSet) :
    followsPath (s :: collapseAfter s expected) actual = followsPath (s :: expected) actual := by
  induction expected generalizing s actual with
  | nil => rfl
  | cons next expected ih =>
    rw [collapseAfter]
    split
    · rename_i heq
      obtain rfl : s = next := by simpa using heq
      rw [ih, followsPath_cons_cons_self]
    · exact followsPath_cons_congr (ih next) s actual

/-- Repetitions in a path do not count. -/
theorem followsPath_collapse_self (expected : List Sector) (actual : List SectorSet) :
    followsPath (collapse expected) actual = followsPath expected actual := by
  cases expected with
  | nil => rfl
  | cons s expected => exact followsPath_cons_collapseAfter s expected actual

/-- A line that follows a path is covered by spans of which only neighbours share a stretch, so that
the path is at most twice as long as the line, unless a stretch lies in three successive sectors of
the path. It also follows every longer path that differs from this one in repetitions only. -/
theorem neighbours_share_or_three_sectors {expected : List Sector} {actual : List SectorSet}
    (h : followsPath expected actual = true) :
    ((∃ spans, Cover (occupied actual) 0 expected spans ∧ NeighboursShare spans ∧
        expected.length ≤ 2 * (occupied actual).length) ∨
      ∃ i a b c, expected[i]? = some a ∧ expected[i + 1]? = some b ∧ expected[i + 2]? = some c ∧
        ∃ set ∈ occupied actual, a ∈ set ∧ b ∈ set ∧ c ∈ set) ∧
    ∀ longer, collapse longer = collapse expected → followsPath longer actual = true := by
  constructor
  · rw [or_iff_not_imp_right]
    intro hthree
    obtain ⟨spans, hcover⟩ := (followsPath_iff_exists_cover [] expected actual).1 h
    have hshare := hcover.neighboursShare hthree
    exact ⟨spans, hcover, hshare, hcover.length_le_of_neighboursShare hshare⟩
  · intro longer hlonger
    rw [← followsPath_collapse_self, hlonger, followsPath_collapse_self, h]

/-- A line from the left to the right over the vertical axis, with a stretch in no sector. -/
theorem neighbours_share_over_the_top :
    let path : List Sector := [.topLeft, .onAxisWithPositiveY, .topRight]
    let actual : List SectorSet := [[.topLeft], [], [.topLeft, .onAxisWithPositiveY],
      [.topRight, .onAxisWithPositiveY], [.topRight]]
    followsPath path actual = true ∧
      (∃ spans, Cover (occupied actual) 0 path spans ∧ NeighboursShare spans ∧
        path.length ≤ 2 * (occupied actual).length) ∧
      followsPath [.topLeft, .topLeft, .topLeft, .onAxisWithPositiveY, .topRight] actual = true := by
  intro path actual
  have h : followsPath path actual = true := by decide
  obtain ⟨hcover, hlonger⟩ := neighbours_share_or_three_sectors h
  refine ⟨h, hcover.resolve_right ?_, hlonger _ (by decide)⟩
  rintro ⟨i, a, b, c, ha, hb, hc, hset⟩
  obtain rfl : i = 0 := by
    have hlt : i + 2 < 3 := (List.getElem?_eq_some_iff.1 hc).1
    omega
  obtain rfl := Option.some.inj ha
  obtain rfl := Option.some.inj hb
  obtain rfl := Option.some.inj hc
  exact absurd hset (by decide)

/-- A line of one vertex near the origin has one stretch, which lies in four sectors. It follows the
path of the four, though no cover of one stretch by four spans lets only neighbours share. -/
theorem not_neighboursShare_near_origin :
    let path : List Sector := [.origin, .onAxisWithPositiveX, .onAxisWithPositiveY, .topRight]
    let actual := (Classifier.ofOrder Settings.standard Classifier.standardOrder).sectorSets
      (.ofPoints [⟨0.01, 0.015⟩])
    followsPath path actual = true ∧ (occupied actual).length = 1 ∧
      ¬path.length ≤ 2 * (occupied actual).length ∧
      ¬∃ spans, Cover (occupied actual) 0 path spans ∧ NeighboursShare spans := by
  intro path actual
  have hlength : (occupied actual).length = 1 := by decide +kernel
  have hlong : ¬path.length ≤ 2 * (occupied actual).length := by
    rw [hlength]
    decide
  refine ⟨by decide +kernel, hlength, hlong, ?_⟩
  rintro ⟨spans, hcover, hshare⟩
  exact hlong (hcover.length_le_of_neighboursShare hshare)

end CurveSketch
