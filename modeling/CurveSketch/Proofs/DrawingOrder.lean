import CurveSketch.Marking
import CurveSketch.Proofs.KeyOrder
import CurveSketch.Proofs.SharedNaming
import CurveSketch.Proofs.Text

/-!
# The order of drawing

The response to an answer does not depend on the order in which its curves were drawn
(`mark_perm`), as long as no specification numbers lines, or no two curves start at the same place.

Curves that start at different places are put into one order whatever order they come in. Others
keep the order of drawing, so the drawings of the two answers list the same lines in different
orders. A `Renumbering` takes the index of each line in the one to its index in the other, and with
it a map of names to lines that meets the clauses of a specification in the one drawing becomes a
map that meets them in the other; only a clause that picks a line by its number is not carried
over.
-/

namespace CurveSketch

/-! ## Renumbered lists -/

/-- A renumbering from a list to another : each element of the one has, by its index, the index of
an equal element of the other, and different indices stay different. -/
structure Renumbering {α : Type} (l l' : List α) (f : Nat → Nat) : Prop where
  injective : Function.Injective f
  getElem? : ∀ i, l'[f i]? = l[i]?

/-- A renumbering that leaves the first element in its place. -/
def keepFirst (f : Nat → Nat) : Nat → Nat
  | 0 => 0
  | i + 1 => f i + 1

/-- The renumbering that exchanges the first two elements. -/
def swapFirst : Nat → Nat
  | 0 => 1
  | 1 => 0
  | i + 2 => i + 2

namespace Renumbering

variable {α : Type} {l l' l'' : List α} {f g : Nat → Nat}

theorem keepFirst (a : α) (h : Renumbering l l' f) :
    Renumbering (a :: l) (a :: l') (keepFirst f) where
  injective i j hij := by
    cases i <;> cases j
    · rfl
    · exact absurd hij (Nat.succ_ne_zero _).symm
    · exact absurd hij (Nat.succ_ne_zero _)
    · exact congrArg Nat.succ (h.injective (Nat.succ.inj hij))
  getElem? i := by
    cases i with
    | zero => rfl
    | succ i => simpa [CurveSketch.keepFirst] using h.getElem? i

theorem swapFirst (a b : α) (l : List α) :
    Renumbering (a :: b :: l) (b :: a :: l) swapFirst where
  injective i j hij := by
    rcases i with _ | _ | i <;> rcases j with _ | _ | j <;> simp_all [CurveSketch.swapFirst]
  getElem? i := by
    rcases i with _ | _ | i <;> rfl

theorem trans (h : Renumbering l l' f) (h' : Renumbering l' l'' g) :
    Renumbering l l'' (g ∘ f) where
  injective := h'.injective.comp h.injective
  getElem? i := (h'.getElem? (f i)).trans (h.getElem? i)

/-- Lists with the same elements in different orders are renumbered. -/
theorem exists_of_perm (h : l.Perm l') : ∃ f, Renumbering l l' f := by
  induction h with
  | nil => exact ⟨id, Function.injective_id, fun _ => rfl⟩
  | cons a _ ih =>
    obtain ⟨f, hf⟩ := ih
    exact ⟨_, hf.keepFirst a⟩
  | swap a b l => exact ⟨_, swapFirst b a l⟩
  | trans _ _ ih ih' =>
    obtain ⟨f, hf⟩ := ih
    obtain ⟨g, hg⟩ := ih'
    exact ⟨_, hf.trans hg⟩

theorem lt_length (h : Renumbering l l' f) {i : Nat} (hi : i < l.length) : f i < l'.length := by
  have hsome := h.getElem? i
  rw [List.getElem?_eq_getElem hi] at hsome
  exact (List.getElem?_eq_some_iff.1 hsome).1

/-- Different lines stay different when they are renumbered. -/
theorem assigns (h : Renumbering l l' f) {names : List (List Char)} {lineOf : List Char → Nat}
    (ha : Assigns l.length names lineOf) : Assigns l'.length names (f ∘ lineOf) where
  lt x hx := h.lt_length (ha.lt x hx)
  inj x hx y hy hxy := ha.inj x hx y hy (h.injective hxy)

end Renumbering

/-! ## Clauses without numbers -/

variable {K : Type} [Scalar K]

namespace Clause

/-- Tests whether a clause picks its line by number. -/
def isNumbered : Clause → Bool
  | ofLine (.nth _) _ => true
  | _ => false

/-- A clause without a number that is true in a drawing is true in one with the lines renumbered,
names standing for the same lines as before. -/
theorem HoldsUnder.renumber {context : Context K} {d d' : Drawing K} {f : Nat → Nat}
    (hperm : d.lines.Perm d'.lines) (hf : Renumbering d.lines d'.lines f)
    {lineOf : List Char → Nat} {c : Clause} (hc : c.isNumbered = false)
    (h : c.HoldsUnder context d lineOf) : c.HoldsUnder context d' (f ∘ lineOf) := by
  have hline : ∀ x, d'.lines[(f ∘ lineOf) x]? = d.lines[lineOf x]? := fun x =>
    hf.getElem? (lineOf x)
  rcases c with (c | m) | ⟨_ | n | x, g⟩
  · exact hperm.length_eq.symm.trans h
  · obtain ⟨a, b, ha, hb, hab⟩ := h
    exact ⟨a, b, (hline _).trans ha, (hline _).trans hb, hab⟩
  · obtain ⟨l, hl, hg⟩ := h
    exact ⟨l, hperm.mem_iff.1 hl, hg⟩
  · exact absurd hc nofun
  · obtain ⟨l, hl, hg⟩ := h
    exact ⟨l, (hline _).trans hl, hg⟩

end Clause

namespace Specification

/-- A drawing that meets a specification without numbers meets it in any order of its lines. -/
theorem holds_of_perm {s : Specification} {context : Context K} {d d' : Drawing K}
    (hperm : d.lines.Perm d'.lines) (hs : ∀ c ∈ s.clauses, c.isNumbered = false)
    (h : s.holds context d = true) : s.holds context d' = true := by
  obtain ⟨f, hf⟩ := Renumbering.exists_of_perm hperm
  rw [holds_iff] at h ⊢
  obtain ⟨⟨lineOf, hassigns, hclauses⟩, hsingle⟩ := h
  refine ⟨⟨f ∘ lineOf, hf.assigns hassigns, fun c hc => ?_⟩, fun hany => ?_⟩
  · exact (hclauses c hc).renumber hperm hf (hs c hc)
  · exact hperm.length_eq.symm.trans (hsingle hany)

theorem holds_perm {s : Specification} {context : Context K} {d d' : Drawing K}
    (hperm : d.lines.Perm d'.lines) (hs : ∀ c ∈ s.clauses, c.isNumbered = false) :
    s.holds context d = s.holds context d' :=
  Bool.eq_iff_iff.2 ⟨holds_of_perm hperm hs, holds_of_perm hperm.symm hs⟩

end Specification

/-! ## Canonical drawings -/

namespace Drawing

/-- The lines of a canonical drawing are those given, each drawn from left to right, in some
order. -/
theorem lines_canonical_perm (lines : List (Polyline K)) :
    (canonical lines).lines.Perm (lines.map Polyline.leftToRight) :=
  List.mergeSort_perm _ _

theorem lines_canonical_perm_of_perm {lines lines' : List (Polyline K)} (h : lines.Perm lines') :
    (canonical lines).lines.Perm (canonical lines').lines :=
  (lines_canonical_perm lines).trans ((h.map _).trans (lines_canonical_perm lines').symm)

/-- Where a line starts when it is drawn from left to right, as a place in the total order. -/
def startRank (l : Polyline Binary64) : Int :=
  (startX l.leftToRight).rank

/-- Lines that start at different places have one canonical order. -/
theorem canonical_eq_of_perm {lines lines' : List (Polyline Binary64)} (h : lines.Perm lines')
    (hdistinct : (lines.map startRank).Nodup) : canonical lines = canonical lines' := by
  have hnodup : ((lines.map Polyline.leftToRight).map fun l => (startX l).rank).Nodup := by
    rwa [List.map_map]
  exact congrArg Drawing.mk
    (mergeSort_key_eq_of_perm (fun l => (startX l).rank) (h.map Polyline.leftToRight) hnodup)

end Drawing

/-! ## Marking -/

/-- Drawings that meet the same shapes earn the same response. -/
theorem firstMatch_congr {R : Type} {context : Context K} {d d' : Drawing K} {otherwise : R}
    {shapes : List (Specification × R)}
    (h : ∀ shape ∈ shapes, shape.1.holds context d = shape.1.holds context d') :
    firstMatch context d otherwise shapes = firstMatch context d' otherwise shapes := by
  have hfind : (shapes.find? fun shape => shape.1.holds context d) =
      shapes.find? fun shape => shape.1.holds context d' := by
    induction shapes with
    | nil => rfl
    | cons shape shapes ih =>
      rw [List.find?_cons, List.find?_cons, h shape List.mem_cons_self,
        ih fun s hs => h s (List.mem_cons_of_mem _ hs)]
  rw [firstMatch, firstMatch, hfind]

/-- No definition that can be read has a clause about a line with a number. -/
def Solutions.Numberless {R : Type} (solutions : Solutions R) : Prop :=
  ∀ a ∈ solutions.answers, ∀ s, Specification.parse a.definition = .ok s →
    ∀ c ∈ s.clauses, c.isNumbered = false

theorem Solutions.Numberless.of_mem_readAll {R : Type} {solutions : Solutions R}
    (h : solutions.Numberless) {shapes : List (Specification × R)}
    (hread : solutions.readAll = .ok shapes) {shape : Specification × R} (hshape : shape ∈ shapes) :
    ∀ c ∈ shape.1.clauses, c.isNumbered = false := by
  obtain ⟨a, ha, hpair⟩ := Text.exists_of_mem_mapM hread hshape
  obtain ⟨s, hs, heq⟩ := Text.bind_eq_ok.1 hpair
  obtain rfl := Text.pure_eq_ok.1 heq
  exact h a ha s hs

/-- Drawings of the same lines in different orders earn the same response, where no line is spoken
of by number. -/
theorem markDrawing_perm {R : Type} {solutions : Solutions R} (h : solutions.Numberless)
    (context : Context K) {d d' : Drawing K} (hperm : d.lines.Perm d'.lines) :
    markDrawing solutions context d = markDrawing solutions context d' := by
  unfold markDrawing
  cases hread : solutions.readAll with
  | error fault => rfl
  | ok shapes =>
    have hmatch : firstMatch context d solutions.unmatched shapes =
        firstMatch context d' solutions.unmatched shapes :=
      firstMatch_congr fun shape hshape =>
        Specification.holds_perm hperm (h.of_mem_readAll hread hshape)
    exact congrArg Except.ok hmatch

/-- Answers with the same curves, drawn in different orders, earn the same response or have the
same fault, if no definition speaks of a line by number or if the curves all start at different
places. -/
theorem mark_perm {R : Type} (solutions : Solutions R) (context : Context Binary64)
    {a b : Answer} (hperm : a.curves.Perm b.curves)
    (h : solutions.Numberless ∨
      (a.curves.map fun c => Drawing.startRank c.toPolyline).Nodup) :
    mark solutions context a = mark solutions context b := by
  have hlines : (a.curves.map Curve.toPolyline).Perm (b.curves.map Curve.toPolyline) :=
    hperm.map _
  rcases h with hnumberless | hdistinct
  · exact markDrawing_perm hnumberless context (Drawing.lines_canonical_perm_of_perm hlines)
  · have hdrawing : a.toDrawing = b.toDrawing :=
      Drawing.canonical_eq_of_perm hlines (by rwa [List.map_map])
    rw [mark, mark, hdrawing]

/-- Two curves that start at the same place, marked by their crossing, and two that do not, marked
by number. -/
theorem mark_perm_two_curves :
    let level : Curve := ⟨[⟨none, -5, 2⟩, ⟨none, 5, 2⟩], none, none, none, none, none, none⟩
    let rising : Curve := ⟨[⟨none, 5, 5⟩, ⟨none, -5, -5⟩], none, none, none, none, none, none⟩
    let short : Curve := ⟨[⟨none, 1, 0⟩, ⟨none, 2, 1⟩], none, none, none, none, none, none⟩
    (mark ⟨[⟨"intersects: a to b at topRight", true⟩], false⟩ (.ofSettings .standard)
        ⟨10, 10, [level, rising], none⟩ =
      mark ⟨[⟨"intersects: a to b at topRight", true⟩], false⟩ (.ofSettings .standard)
        ⟨10, 10, [rising, level], none⟩) ∧
      mark ⟨[⟨"line: 2; slope: start=up", true⟩], false⟩ (.ofSettings .standard)
          ⟨10, 10, [level, short], none⟩ =
        mark ⟨[⟨"line: 2; slope: start=up", true⟩], false⟩ (.ofSettings .standard)
          ⟨10, 10, [short, level], none⟩ := by
  have hread : Specification.parse "intersects: a to b at topRight" =
      .ok ⟨[.ofDrawing (.meeting ⟨['a'], ['b'], [.topRight]⟩)]⟩ := by rfl
  refine ⟨mark_perm _ _ (.swap _ _ _) (.inl ?_), mark_perm _ _ (.swap _ _ _) (.inr ?_)⟩
  · intro a ha s hs c hc
    obtain rfl := List.mem_singleton.1 ha
    obtain rfl := Except.ok.inj (hread.symm.trans hs)
    obtain rfl := List.mem_singleton.1 hc
    rfl
  · decide +kernel

end CurveSketch
