import CurveSketch.Polyline
import Mathlib

/-!
# Level runs

The vertices of a polyline fall into runs at one height (`levelRuns`). A run between two others is a
top if it is higher than both, and a bottom if it is lower than both (`turnings`). What the scan for
turning points finds are the tops and bottoms, each by the vertex of the run that is drawn first
(`turns_eq_turnings`).

Drawn backwards, a polyline has the same runs with their ends exchanged, so it has the same tops and
bottoms in the opposite order, each by the vertex that was drawn last (`turns_reverse`).

Heights are told apart by comparing them and by the sign of their difference. `Heights` says of a
kind of scalars that both follow a linear order, so that nothing depends on rounding.
-/

namespace CurveSketch

variable {K L : Type} [Scalar K] [LinearOrder L] {level : K → L} {valid : K → Prop}

/-- Scalars that compare, and whose differences have the sign, as their levels in a linear order
say. -/
structure Heights (level : K → L) (valid : K → Prop) : Prop where
  lt_iff {a b : K} : valid a → valid b → (a < b ↔ level a < level b)
  beq_iff {a b : K} : valid a → valid b → ((a == b) = true ↔ level a = level b)
  rise_pos_iff {a b : K} : valid a → valid b → (0 < b - a ↔ level a < level b)
  rise_neg_iff {a b : K} : valid a → valid b → (b - a < 0 ↔ level b < level a)
  rise_zero_iff {a b : K} : valid a → valid b → ((b - a == 0) = true ↔ level a = level b)
  not_zero_lt_zero : ¬(0 : K) < 0

/-! ## Runs -/

/-- Successive vertices at one height, by the first and the last of them. -/
structure LevelRun (K : Type) where
  /-- The vertex drawn first. -/
  first : Point K
  /-- The vertex drawn last. -/
  last : Point K

/-- The run drawn backwards. -/
def LevelRun.reverse (r : LevelRun K) : LevelRun K :=
  ⟨r.last, r.first⟩

/-- The runs of a polyline with one more vertex in front. -/
def addFirst (p : Point K) : List (LevelRun K) → List (LevelRun K)
  | [] => [⟨p, p⟩]
  | r :: runs => if p.y == r.first.y then ⟨p, r.last⟩ :: runs else ⟨p, p⟩ :: r :: runs

/-- The runs of a polyline, each as long as it can be. -/
def levelRuns : List (Point K) → List (LevelRun K)
  | [] => []
  | p :: rest => addFirst p (levelRuns rest)

/-- The runs of a polyline that is drawn backwards. -/
def backwards (runs : List (LevelRun K)) : List (LevelRun K) :=
  (runs.map LevelRun.reverse).reverse

omit [Scalar K] in
@[simp] theorem backwards_backwards (runs : List (LevelRun K)) :
    backwards (backwards runs) = runs := by
  have hinvolutive : (LevelRun.reverse ∘ LevelRun.reverse : LevelRun K → LevelRun K) = id := rfl
  rw [backwards, backwards, List.map_reverse, List.reverse_reverse, List.map_map, hinvolutive,
    List.map_id]

omit [Scalar K] in
theorem backwards_append (runs runs' : List (LevelRun K)) :
    backwards (runs ++ runs') = backwards runs' ++ backwards runs := by
  simp [backwards]

/-- A vertex in front of a run, at its height or not. -/
theorem addFirst_cons (p : Point K) (r : LevelRun K) (runs : List (LevelRun K)) :
    addFirst p (r :: runs) = addFirst p [r] ++ runs := by
  simp only [addFirst]
  split <;> rfl

/-- Vertices at both ends can be added in either order. -/
theorem addFirst_backwards_comm {p q : Point K} (hsymm : (p.y == q.y) = (q.y == p.y))
    (runs : List (LevelRun K)) :
    addFirst q (backwards (addFirst p (backwards runs))) =
      backwards (addFirst p (backwards (addFirst q runs))) := by
  rcases List.eq_nil_or_concat runs with rfl | ⟨init, r', rfl⟩
  · simp only [addFirst, backwards, LevelRun.reverse, List.map_nil, List.reverse_nil,
      List.map_cons, List.reverse_singleton, hsymm]
    split <;> rfl
  · have hlast : ∀ runs : List (LevelRun K), backwards (addFirst p (backwards (runs ++ [r']))) =
        runs ++ backwards (addFirst p [r'.reverse]) := fun runs => by
      rw [backwards_append]
      exact (congrArg backwards (addFirst_cons p r'.reverse (backwards runs))).trans
        (by rw [backwards_append, backwards_backwards])
    cases init with
    | nil =>
      simp only [List.concat_eq_append, List.nil_append, addFirst, backwards, List.map_cons,
        List.map_nil, List.reverse_singleton]
      by_cases hp : p.y == r'.last.y <;> by_cases hq : q.y == r'.first.y <;>
        simp [hp, hq, LevelRun.reverse]
    | cons r mid =>
      rw [List.concat_eq_append, hlast, List.cons_append, List.cons_append, addFirst_cons,
        addFirst_cons q r (mid ++ [r']), ← List.append_assoc (addFirst q [r]) mid [r'], hlast,
        List.append_assoc]

theorem levelRuns_concat {p : Point K} {points : List (Point K)}
    (hsymm : ∀ q ∈ points, (p.y == q.y) = (q.y == p.y)) :
    levelRuns (points ++ [p]) = backwards (addFirst p (backwards (levelRuns points))) := by
  induction points with
  | nil => rfl
  | cons q rest ih =>
    obtain ⟨hq, hrest⟩ := List.forall_mem_cons.1 hsymm
    rw [List.cons_append, levelRuns, ih hrest, addFirst_backwards_comm hq]
    rfl

/-- Drawn backwards, a polyline has the same runs in the opposite order, each with its ends
exchanged. -/
theorem levelRuns_reverse {points : List (Point K)}
    (hsymm : ∀ p ∈ points, ∀ q ∈ points, (p.y == q.y) = (q.y == p.y)) :
    levelRuns points.reverse = backwards (levelRuns points) := by
  induction points with
  | nil => rfl
  | cons p rest ih =>
    have hrest := ih fun q hq q' hq' =>
      hsymm q (List.mem_cons_of_mem p hq) q' (List.mem_cons_of_mem p hq')
    rw [List.reverse_cons, levelRuns_concat fun q hq => hsymm p List.mem_cons_self q
      (List.mem_cons_of_mem p (List.mem_reverse.1 hq)), hrest, backwards_backwards]
    rfl

/-! ## Tops and bottoms -/

/-- Each element of a list that has neighbours on both sides, between them. -/
def interior {α : Type} : List α → List (α × α × α)
  | a :: b :: c :: rest => (a, b, c) :: interior (b :: c :: rest)
  | _ => []

theorem interior_concat {α : Type} (l : List α) (a b c : α) :
    interior (l ++ [a, b, c]) = interior (l ++ [a, b]) ++ [(a, b, c)] := by
  induction l with
  | nil => rfl
  | cons x l ih =>
    rcases l with _ | ⟨y, l⟩
    · rfl
    · rcases l with _ | ⟨z, l⟩
      · rfl
      · exact congrArg (_ :: ·) ih

/-- Read backwards, a list has the same interior elements between the same neighbours. -/
theorem interior_reverse {α : Type} : ∀ l : List α,
    interior l.reverse = ((interior l).map fun t => (t.2.2, t.2.1, t.1)).reverse
  | [] => rfl
  | [_] => rfl
  | [_, _] => rfl
  | a :: b :: c :: rest => by
    have hsplit : (a :: b :: c :: rest).reverse = rest.reverse ++ [c, b, a] := by simp
    have hsplit' : (b :: c :: rest).reverse = rest.reverse ++ [c, b] := by simp
    rw [hsplit, interior_concat, ← hsplit', interior_reverse (b :: c :: rest), interior,
      List.map_cons, List.reverse_cons]

/-- The way the line turns in a run between two others, if it does. -/
def turnAt? (before run after : LevelRun K) : Option Extremum :=
  if before.first.y < run.first.y ∧ after.first.y < run.first.y then some .maxima
  else if run.first.y < before.first.y ∧ run.first.y < after.first.y then some .minima
  else none

/-- The tops and bottoms among the runs of a polyline. -/
def turnings (runs : List (LevelRun K)) : List (LevelRun K × Extremum) :=
  (interior runs).filterMap fun t => (turnAt? t.1 t.2.1 t.2.2).map (t.2.1, ·)

/-! ## The scan for turning points -/

/-- The first run of a polyline starts at its first vertex. -/
theorem exists_levelRuns_cons (p : Point K) (points : List (Point K)) :
    ∃ last runs, levelRuns (p :: points) = ⟨p, last⟩ :: runs := by
  rw [levelRuns]
  cases levelRuns points with
  | nil => exact ⟨p, [], rfl⟩
  | cons r runs =>
    simp only [addFirst]
    split
    · exact ⟨r.last, runs, rfl⟩
    · exact ⟨p, r :: runs, rfl⟩

/-- What the scan knows in the run that starts at `top` : its last change of height was to this run,
a rise or a fall from the run before, if there was one. -/
def Knows (level : K → L) (valid : K → Prop) (rise : K) (top : Point K) :
    Option (LevelRun K) → Prop
  | none => ¬0 < rise ∧ ¬rise < 0
  | some before => valid before.first.y ∧ (0 < rise ↔ level before.first.y < level top.y) ∧
      (rise < 0 ↔ level top.y < level before.first.y)

/-- The turning point for a top or bottom of a polyline. -/
def atFirst (t : LevelRun K × Extremum) : TurningPoint K :=
  ⟨t.1.first, t.2⟩

theorem turnings_cons (before run after : LevelRun K) (runs : List (LevelRun K)) :
    turnings (before :: run :: after :: runs) =
      ((turnAt? before run after).map (run, ·)).toList ++ turnings (run :: after :: runs) := by
  simp only [turnings, interior, List.filterMap_cons]
  cases turnAt? before run after <;> rfl

/-- At a change of height the scan finds out about the run that ends there. -/
theorem turnsAfter_change (h : Heights level valid) {rise change : K} {top p : Point K}
    {before : LevelRun K} (htop : valid top.y) (hp : valid p.y)
    (hknows : Knows level valid rise top (some before))
    (hrise : 0 < change ↔ level top.y < level p.y) (hfall : change < 0 ↔ level p.y < level top.y)
    (stop stop' : Point K) (found : List (TurningPoint K)) :
    (if 0 < rise ∧ change < 0 then ⟨top, .maxima⟩ :: found
      else if rise < 0 ∧ 0 < change then ⟨top, .minima⟩ :: found else found) =
      ((turnAt? before ⟨top, stop⟩ ⟨p, stop'⟩).map fun kind => ⟨top, kind⟩).toList ++ found := by
  obtain ⟨hbefore, hup, hdown⟩ := hknows
  simp only [turnAt?, h.lt_iff hbefore htop, h.lt_iff htop hbefore, h.lt_iff hp htop,
    h.lt_iff htop hp, hup, hdown, hrise, hfall]
  split
  · rfl
  · split <;> rfl

/-- Read on from a vertex, the scan finds the tops and bottoms from the run that it is in on. -/
theorem turnsAfter_eq (h : Heights level valid) {rise : K} {top last : Point K}
    {points : List (Point K)} {before : Option (LevelRun K)} (htop : valid top.y)
    (hlast : valid last.y) (hpoints : ∀ p ∈ points, valid p.y)
    (hlevel : level top.y = level last.y) (hknows : Knows level valid rise top before)
    {stop : Point K} {runs : List (LevelRun K)}
    (hruns : levelRuns (last :: points) = ⟨last, stop⟩ :: runs) :
    Polyline.turnsAfter rise top last points =
      (turnings (before.toList ++ ⟨top, stop⟩ :: runs)).map atFirst := by
  induction points generalizing rise top last before stop runs with
  | nil =>
    obtain ⟨hrun, rfl⟩ := List.cons.inj hruns
    cases before <;> rfl
  | cons p rest ih =>
    obtain ⟨hp, hrest⟩ := List.forall_mem_cons.1 hpoints
    obtain ⟨stop', runs', hruns'⟩ := exists_levelRuns_cons p rest
    rw [levelRuns, hruns', addFirst] at hruns
    simp only [Polyline.turnsAfter]
    by_cases hsame : last.y == p.y
    · -- the run goes on
      have hlevel' := (h.beq_iff hlast hp).1 hsame
      rw [if_pos hsame] at hruns
      obtain ⟨hrun, rfl⟩ := List.cons.inj hruns
      obtain ⟨-, rfl⟩ := LevelRun.mk.inj hrun
      rw [if_pos ((h.rise_zero_iff hlast hp).2 hlevel'), if_pos hsame]
      exact ih htop hp hrest (hlevel.trans hlevel') hknows hruns'
    · -- the run ends, and what comes after it tells whether it is a top or a bottom
      have hlevel' : level last.y ≠ level p.y := fun heq => hsame ((h.beq_iff hlast hp).2 heq)
      have hrise : 0 < p.y - last.y ↔ level top.y < level p.y :=
        hlevel ▸ h.rise_pos_iff hlast hp
      have hfall : p.y - last.y < 0 ↔ level p.y < level top.y :=
        hlevel ▸ h.rise_neg_iff hlast hp
      rw [if_neg hsame] at hruns
      obtain ⟨hrun, rfl⟩ := List.cons.inj hruns
      obtain ⟨-, rfl⟩ := LevelRun.mk.inj hrun
      have hnext : Knows level valid (p.y - last.y) p (some ⟨top, last⟩) := ⟨htop, hrise, hfall⟩
      rw [if_neg fun hzero => hlevel' ((h.rise_zero_iff hlast hp).1 hzero), if_neg hsame,
        ih hp hp hrest rfl hnext hruns']
      cases before with
      | none =>
        rw [if_neg fun hturn => hknows.1 hturn.1, if_neg fun hturn => hknows.2 hturn.1]
        rfl
      | some before =>
        rw [turnsAfter_change h htop hp hknows hrise hfall last stop']
        change _ = (turnings (before :: ⟨top, last⟩ :: ⟨p, stop'⟩ :: runs')).map atFirst
        rw [turnings_cons, List.map_append]
        cases turnAt? before ⟨top, last⟩ ⟨p, stop'⟩ <;> rfl

/-- The scan finds the tops and bottoms of a polyline, each by its first vertex. -/
theorem turns_eq_turnings (h : Heights level valid) {points : List (Point K)}
    (hpoints : ∀ p ∈ points, valid p.y) :
    Polyline.turns points = (turnings (levelRuns points)).map atFirst := by
  cases points with
  | nil => rfl
  | cons p rest =>
    obtain ⟨hp, hrest⟩ := List.forall_mem_cons.1 hpoints
    obtain ⟨stop, runs, hruns⟩ := exists_levelRuns_cons p rest
    have hknows : Knows level valid 0 p none := ⟨h.not_zero_lt_zero, h.not_zero_lt_zero⟩
    rw [Polyline.turns, turnsAfter_eq h hp hp hrest rfl hknows hruns, hruns]
    rfl

/-! ## Drawing backwards -/

/-- The turning point for a top or bottom of a polyline that is drawn backwards. -/
def atLast (t : LevelRun K × Extremum) : TurningPoint K :=
  ⟨t.1.last, t.2⟩

/-- A run between two ends at one height. -/
structure LevelRun.Level (level : K → L) (valid : K → Prop) (r : LevelRun K) : Prop where
  first : valid r.first.y
  last : valid r.last.y
  eq : level r.first.y = level r.last.y

theorem level_of_mem_levelRuns (h : Heights level valid) {points : List (Point K)}
    (hpoints : ∀ p ∈ points, valid p.y) : ∀ r ∈ levelRuns points, r.Level level valid := by
  induction points with
  | nil => exact fun r hr => absurd hr List.not_mem_nil
  | cons p rest ih =>
    obtain ⟨hp, hrest⟩ := List.forall_mem_cons.1 hpoints
    have hruns := ih hrest
    rw [levelRuns]
    generalize levelRuns rest = runs at hruns ⊢
    cases runs with
    | nil => exact List.forall_mem_singleton.2 ⟨hp, hp, rfl⟩
    | cons r runs =>
      obtain ⟨hr, hruns⟩ := List.forall_mem_cons.1 hruns
      simp only [addFirst]
      split
      · rename_i heq
        have hlevel := (h.beq_iff hp hr.first).1 heq
        exact List.forall_mem_cons.2 ⟨⟨hp, hr.last, hlevel.trans hr.eq⟩, hruns⟩
      · exact List.forall_mem_cons.2 ⟨⟨hp, hp, rfl⟩, List.forall_mem_cons.2 ⟨hr, hruns⟩⟩

theorem turnAt?_reverse (h : Heights level valid) {a b c : LevelRun K} (ha : a.Level level valid)
    (hb : b.Level level valid) (hc : c.Level level valid) :
    turnAt? c.reverse b.reverse a.reverse = turnAt? a b c := by
  simp only [turnAt?, LevelRun.reverse, h.lt_iff ha.first hb.first, h.lt_iff hb.first ha.first,
    h.lt_iff hc.first hb.first, h.lt_iff hb.first hc.first, h.lt_iff ha.last hb.last,
    h.lt_iff hb.last ha.last, h.lt_iff hc.last hb.last, h.lt_iff hb.last hc.last, ← ha.eq, ← hb.eq,
    ← hc.eq]
  simp only [and_comm]

theorem mem_of_mem_interior {α : Type} {t : α × α × α} : ∀ {l : List α}, t ∈ interior l →
    t.1 ∈ l ∧ t.2.1 ∈ l ∧ t.2.2 ∈ l
  | a :: b :: c :: rest, h => by
    rcases List.mem_cons.1 h with rfl | h
    · simp
    · obtain ⟨h1, h2, h3⟩ := mem_of_mem_interior h
      exact ⟨List.mem_cons_of_mem a h1, List.mem_cons_of_mem a h2, List.mem_cons_of_mem a h3⟩

theorem interior_map {α β : Type} (f : α → β) : ∀ l : List α,
    interior (l.map f) = (interior l).map fun t => (f t.1, f t.2.1, f t.2.2)
  | [] => rfl
  | [_] => rfl
  | [_, _] => rfl
  | _ :: b :: c :: rest => congrArg (_ :: ·) (interior_map f (b :: c :: rest))

/-- Drawn backwards, a polyline has its tops and bottoms in the opposite order. -/
theorem turnings_backwards (h : Heights level valid) {runs : List (LevelRun K)}
    (hruns : ∀ r ∈ runs, r.Level level valid) :
    turnings (backwards runs) = ((turnings runs).map fun t => (t.1.reverse, t.2)).reverse := by
  rw [turnings, backwards, interior_reverse, List.filterMap_reverse, interior_map, List.map_map,
    List.filterMap_map, turnings, List.map_filterMap]
  refine congrArg List.reverse (List.filterMap_congr fun t ht => ?_)
  obtain ⟨h1, h2, h3⟩ := mem_of_mem_interior ht
  simp only [Function.comp_apply, turnAt?_reverse h (hruns _ h1) (hruns _ h2) (hruns _ h3),
    Option.map_map]
  rfl

/-- Drawn backwards, a polyline has the same tops and bottoms in the opposite order, each found by
its last vertex. -/
theorem turns_reverse (h : Heights level valid) {points : List (Point K)}
    (hpoints : ∀ p ∈ points, valid p.y) :
    Polyline.turns points.reverse = (turnings (levelRuns points)).reverse.map atLast := by
  have hsymm : ∀ p ∈ points, ∀ q ∈ points, (p.y == q.y) = (q.y == p.y) := fun p hp q hq =>
    Bool.eq_iff_iff.2 ((h.beq_iff (hpoints p hp) (hpoints q hq)).trans
      (eq_comm.trans (h.beq_iff (hpoints q hq) (hpoints p hp)).symm))
  rw [turns_eq_turnings h fun p hp => hpoints p (List.mem_reverse.1 hp), levelRuns_reverse hsymm,
    turnings_backwards h (level_of_mem_levelRuns h hpoints), List.map_reverse, List.map_map,
    List.map_reverse]
  rfl

end CurveSketch
