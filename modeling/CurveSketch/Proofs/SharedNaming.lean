import CurveSketch.Proofs.Naming
import CurveSketch.Specification

/-!
# One naming for all clauses

The clauses of a specification are tested in turn, each narrowing the naming that the next one
starts from. Here the outcome is described without the run : a drawing meets the clauses exactly
when one map from the names they mention to different lines makes all of them true at once
(`Specification.holds_iff`, `Clause.HoldsUnder`), in whatever order they stand.

Every clause acts on a naming as a refinement by a condition, those without names by one that
mentions none (`Clause.holds_eq_refine`). So the invariant of refinements carries over to runs of
clauses, and a clause that fails rules out every map.
-/

namespace CurveSketch

variable {K : Type} [Scalar K]

namespace Clause

/-- The names of lines that a clause mentions. -/
def names : Clause → List (List Char)
  | ofDrawing (.meeting m) => [m.first, m.second]
  | ofLine (.named x) _ => [x]
  | _ => []

/-- What a clause says of a drawing when names stand for the lines with the indices that `f` gives
them. -/
def HoldsUnder (context : Context K) (d : Drawing K) (f : List Char → Nat) : Clause → Prop
  | ofDrawing (.count c) => d.lines.length = c.count
  | ofDrawing (.meeting m) =>
    ∃ a b, d.lines[f m.first]? = some a ∧ d.lines[f m.second]? = some b ∧
      m.holdsOf context a b = true
  | ofLine .any g => ∃ l ∈ d.lines, g.holds context l = true
  | ofLine (.nth n) g => 1 ≤ n ∧ ∃ l, d.lines[n - 1]? = some l ∧ g.holds context l = true
  | ofLine (.named x) g => ∃ l, d.lines[f x]? = some l ∧ g.holds context l = true

/-- The condition by which a clause refines a naming. -/
def condition (context : Context K) (d : Drawing K) : Clause → Condition
  | ofDrawing (.count c) => ⟨[], fun _ => c.holds d⟩
  | ofDrawing (.meeting m) => ⟨[m.first, m.second], fun
    | i :: j :: _ =>
      match d.lines[i]?, d.lines[j]? with
      | some a, some b => m.holdsOf context a b
      | _, _ => false
    | _ => false⟩
  | ofLine .any g => ⟨[], fun _ => d.lines.any (g.holds context)⟩
  | ofLine (.nth 0) _ => ⟨[], fun _ => false⟩
  | ofLine (.nth (i + 1)) g => ⟨[], fun _ => d.lines[i]?.any (g.holds context)⟩
  | ofLine (.named x) g => ⟨[x], fun
    | i :: _ => d.lines[i]?.any (g.holds context)
    | [] => false⟩

@[simp] theorem names_condition (context : Context K) (d : Drawing K) (c : Clause) :
    (c.condition context d).names = c.names := by
  rcases c with (_ | _) | ⟨_ | (_ | _) | _, _⟩ <;> rfl

theorem under_condition_iff (context : Context K) (d : Drawing K) (f : List Char → Nat)
    (c : Clause) : (c.condition context d).Under f ↔ c.HoldsUnder context d f := by
  rcases c with (c | m) | ⟨_ | (_ | i) | x, g⟩
  · simp [condition, Condition.Under, HoldsUnder, CurveCount.holds]
  · simp only [condition, Condition.Under, HoldsUnder, List.map_cons]
    cases ha : d.lines[f m.first]? <;> cases hb : d.lines[f m.second]? <;> simp
  · simp [condition, Condition.Under, HoldsUnder]
  · simp [condition, Condition.Under, HoldsUnder]
  · simp [condition, Condition.Under, HoldsUnder, Option.any_eq_true]
  · simp [condition, Condition.Under, HoldsUnder, Option.any_eq_true]

/-- Without names there is nothing to narrow : the condition is true of all bindings or of none. -/
theorem refine_nil {s : Naming} (hs : s.bindings ≠ []) (n : Nat) (b : Bool) :
    s.refine [] n (fun _ => b) = (b, s) := by
  obtain ⟨names, bindings⟩ := s
  cases b with
  | false => simp [Naming.refine, Naming.known]
  | true =>
    cases bindings with
    | nil => exact absurd rfl hs
    | cons t bindings => simp [Naming.refine, Naming.known]

theorem holds_eq_refine (context : Context K) (d : Drawing K) {s : Naming}
    (hs : s.bindings ≠ []) (c : Clause) :
    c.holds context d s = s.refine (c.condition context d).names d.lines.length
      (c.condition context d).holds := by
  rcases c with (c | m) | ⟨_ | (_ | i) | x, g⟩
  · exact (refine_nil hs _ _).symm
  · rfl
  · exact (refine_nil hs _ _).symm
  · exact (refine_nil hs _ _).symm
  · exact (refine_nil hs _ _).symm
  · rfl

end Clause

namespace Specification

/-- The names of lines that the clauses mention. -/
def names (s : Specification) : List (List Char) :=
  s.clauses.flatMap Clause.names

/-- Clauses all hold in a run exactly when they can be met together with the conditions that held
before the run. -/
theorem runClauses_iff (context : Context K) (d : Drawing K) {held : List Condition} {s : Naming}
    (h : s.Exact d.lines.length held) (cs : List Clause) :
    (runClauses context d s cs).1 = true ↔
      ∃ f, Naming.Meets d.lines.length (held ++ cs.map (Clause.condition context d)) f := by
  induction cs generalizing held s with
  | nil => simpa [runClauses] using h.exists_meets
  | cons c cs ih =>
    rw [runClauses, Clause.holds_eq_refine context d h.nonempty, List.map_cons]
    rcases h.refine (c.condition context d) with ⟨heq, hnone⟩ | ⟨s', heq, hs'⟩
    · -- no map meets the clause, let alone the clauses after it
      simp only [heq, Bool.false_and, Bool.false_eq_true, false_iff]
      rintro ⟨f, hf⟩
      refine hnone ⟨f, hf.assigns.mono fun x hx => ?_, fun b hb => hf.under b ?_⟩
      · simp only [Naming.mentioned, List.flatMap_append, List.flatMap_cons, List.mem_append]
          at hx ⊢
        tauto
      · simp only [List.mem_append, List.mem_cons] at hb ⊢
        tauto
    · simp only [heq, Bool.true_and]
      rw [ih hs', List.append_assoc, List.singleton_append]

theorem meets_conditions_iff (context : Context K) (d : Drawing K) (s : Specification)
    (f : List Char → Nat) :
    Naming.Meets d.lines.length (s.clauses.map (Clause.condition context d)) f ↔
      Assigns d.lines.length s.names f ∧ ∀ c ∈ s.clauses, c.HoldsUnder context d f := by
  have hnames : Naming.mentioned (s.clauses.map (Clause.condition context d)) = s.names := by
    simp [Naming.mentioned, names, List.flatMap_map]
  constructor
  · rintro ⟨ha, hf⟩
    refine ⟨hnames ▸ ha, fun c hc => ?_⟩
    exact (c.under_condition_iff context d f).1 (hf _ (List.mem_map_of_mem hc))
  · rintro ⟨ha, hf⟩
    refine ⟨hnames.symm ▸ ha, fun b hb => ?_⟩
    obtain ⟨c, hc, rfl⟩ := List.mem_map.1 hb
    exact (c.under_condition_iff context d f).2 (hf c hc)

theorem expectsSingleCurve_iff (s : Specification) :
    s.expectsSingleCurve = true ↔ ∀ c ∈ s.clauses, ∃ g, c = .ofLine .any g := by
  rw [expectsSingleCurve, List.all_eq_true]
  refine forall₂_congr fun c _ => ?_
  rcases c with _ | ⟨_ | _ | _, _⟩ <;> simp [Clause.isAboutAnyLine]

/-- A drawing meets a specification exactly when one map of the names to different lines makes all
clauses true, and there is one line if every clause is about any line at all. -/
theorem holds_iff (s : Specification) (context : Context K) (d : Drawing K) :
    s.holds context d = true ↔
      (∃ f, Assigns d.lines.length s.names f ∧ ∀ c ∈ s.clauses, c.HoldsUnder context d f) ∧
        ((∀ c ∈ s.clauses, ∃ g, c = .ofLine .any g) → d.lines.length = 1) := by
  rw [holds, Bool.and_eq_true, runClauses_iff context d (Naming.exact_start _), List.nil_append]
  simp only [meets_conditions_iff]
  refine and_congr_right fun _ => ?_
  rw [← expectsSingleCurve_iff]
  cases s.expectsSingleCurve <;> simp [CurveCount.holds]

/-- The clauses of a specification may stand in any order, and a drawing meets them exactly when
one map of the names they mention to different lines makes all of them true, and there is one line
if every clause is about any line at all. -/
theorem holds_iff_one_naming (s : Specification) (context : Context K) (d : Drawing K) :
    (s.holds context d = true ↔
      (∃ f, Assigns d.lines.length s.names f ∧ ∀ c ∈ s.clauses, c.HoldsUnder context d f) ∧
        ((∀ c ∈ s.clauses, ∃ g, c = .ofLine .any g) → d.lines.length = 1)) ∧
      ∀ t : Specification, t.clauses.Perm s.clauses → t.holds context d = s.holds context d := by
  refine ⟨s.holds_iff context d, fun t hperm => ?_⟩
  have hnames : ∀ x, x ∈ t.names ↔ x ∈ s.names := fun x => (hperm.flatMap_right _).mem_iff
  have hassigns : ∀ f, Assigns d.lines.length t.names f ↔ Assigns d.lines.length s.names f :=
    fun f => ⟨fun h => h.mono fun x => (hnames x).2, fun h => h.mono fun x => (hnames x).1⟩
  rw [Bool.eq_iff_iff, t.holds_iff, s.holds_iff]
  simp only [hassigns, hperm.mem_iff]

end Specification

end CurveSketch
