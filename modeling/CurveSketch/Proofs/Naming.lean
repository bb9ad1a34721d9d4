import CurveSketch.Naming
import Mathlib.Data.List.GetD
import Mathlib.Data.List.Induction
import Mathlib.Data.List.Lex
import Mathlib.Data.List.Nodup

/-!
# What a naming knows

`Naming.refine` keeps a list of bindings and narrows it with each condition on named lines. This
file says what the list is after any number of conditions (`exact_run`) : in lexicographic order
and without repetition, the tuples that the maps from names to different lines give to the names
known, for the maps under which every condition that held so far is true (`Exact`).

The list grows by one name at a time (`Lists.extend`) and is then filtered (`Lists.filter`); both
steps keep it exact, so one refinement does (`Exact.refine`). A condition fails exactly when no map
of the names known and the names it mentions makes it true together with the conditions before it,
and the naming is then left as it was.
-/

namespace CurveSketch

/-- A condition on named lines : the names it mentions, and what it asks of the lines they stand
for, in the order of the names. -/
structure Condition where
  /-- The names, with repetitions. -/
  names : List (List Char)
  /-- The test of the lines that the names stand for. -/
  holds : List Nat → Bool

/-- The condition is true when names stand for lines as `f` says. -/
def Condition.Under (c : Condition) (f : List Char → Nat) : Prop :=
  c.holds (c.names.map f) = true

/-- `f` gives the names in a list different lines below `n`. -/
structure Assigns (n : Nat) (names : List (List Char)) (f : List Char → Nat) : Prop where
  lt : ∀ x ∈ names, f x < n
  inj : ∀ x ∈ names, ∀ y ∈ names, f x = f y → x = y

theorem Assigns.mono {n : Nat} {names names' : List (List Char)} {f : List Char → Nat}
    (h : Assigns n names f) (hsub : ∀ x ∈ names', x ∈ names) : Assigns n names' f :=
  ⟨fun x hx => h.lt x (hsub x hx), fun x hx y hy => h.inj x (hsub x hx) y (hsub y hy)⟩

theorem Assigns.congr {n : Nat} {names : List (List Char)} {f g : List Char → Nat}
    (h : Assigns n names f) (hfg : ∀ x ∈ names, f x = g x) : Assigns n names g :=
  ⟨fun x hx => hfg x hx ▸ h.lt x hx,
    fun x hx y hy e => h.inj x hx y hy (by rw [hfg x hx, hfg y hy, e])⟩

/-- A new name may be sent to any line below `n` that no name stands for. -/
theorem Assigns.update {n : Nat} {names : List (List Char)} {f : List Char → Nat}
    (h : Assigns n names f) {x : List Char} (hx : x ∉ names) {i : Nat} (hi : i < n)
    (hfree : ∀ y ∈ names, f y ≠ i) : Assigns n (names ++ [x]) (Function.update f x i) := by
  have hold : ∀ y ∈ names, f y = Function.update f x i y := fun y hy =>
    (Function.update_of_ne (ne_of_mem_of_not_mem hy hx) i f).symm
  have hnew : Function.update f x i x = i := Function.update_self x i f
  have hother : ∀ y ∈ names, Function.update f x i y ≠ Function.update f x i x :=
    fun y hy => hnew.symm ▸ hold y hy ▸ hfree y hy
  have h' := h.congr hold
  refine ⟨fun y hy => ?_, fun y hy z hz heq => ?_⟩
  · rcases List.mem_append.1 hy with hy | hy
    · exact h'.lt y hy
    · rw [List.mem_singleton.1 hy, hnew]
      exact hi
  · rcases List.mem_append.1 hy with hy | hy <;> rcases List.mem_append.1 hz with hz | hz
    · exact h'.inj y hy z hz heq
    · exact absurd (List.mem_singleton.1 hz ▸ heq) (hother y hy)
    · exact absurd (List.mem_singleton.1 hy ▸ heq.symm) (hother z hz)
    · rw [List.mem_singleton.1 hy, List.mem_singleton.1 hz]

theorem Condition.Under.congr {c : Condition} {f g : List Char → Nat} (h : c.Under f)
    (hfg : ∀ x ∈ c.names, f x = g x) : c.Under g := by
  rw [Under, ← List.map_congr_left hfg]
  exact h

namespace Naming

/-! ## Names and tuples -/

/-- The names known once others have been mentioned are those mentioned in all, each where it was
mentioned first. -/
theorem known_eraseDups (old names : List (List Char)) :
    known old.eraseDups names = (old ++ names).eraseDups := by
  induction names generalizing old with
  | nil => simp [known]
  | cons x names ih =>
    have hx : (if old.eraseDups.contains x then old.eraseDups else old.eraseDups ++ [x]) =
        (old ++ [x]).eraseDups := by
      by_cases hmem : x ∈ old <;>
        simp [List.eraseDups_append, List.removeAll, List.eraseDups_cons, hmem]
    have h := ih (old ++ [x])
    rw [known] at h ⊢
    rw [List.foldl_cons, hx, h, List.append_assoc, List.singleton_append]

theorem nodup_eraseDups (l : List (List Char)) : l.eraseDups.Nodup := by
  induction l using List.reverseRecOn with
  | nil => simp
  | append_singleton l x ih =>
    by_cases hmem : x ∈ l <;>
      simp [List.eraseDups_append, List.removeAll, List.eraseDups_cons, hmem, ih,
        List.nodup_append]
    rintro y hy rfl
    exact hmem hy

/-- A name that is known stands for the line that the map gives it. -/
theorem lookup_zip_map (f : List Char → Nat) {known : List (List Char)} {x : List Char}
    (hx : x ∈ known) : List.lookup x (known.zip (known.map f)) = some (f x) := by
  induction known with
  | nil => simp at hx
  | cons y known ih =>
    rw [List.map_cons, List.zip_cons_cons, List.lookup_cons]
    by_cases hxy : x = y
    · simp [hxy]
    · rw [beq_false_of_ne hxy]
      exact ih ((List.mem_cons.1 hx).resolve_left hxy)

theorem linesOf_map (f : List Char → Nat) {known names : List (List Char)}
    (hsub : ∀ x ∈ names, x ∈ known) : linesOf known (known.map f) names = names.map f :=
  List.filterMap_eq_map_iff_forall_eq_some.2 fun x hx => lookup_zip_map f (hsub x hx)

/-- What is appended to two tuples of one length does not change their order. -/
theorem append_lt_append {a b : List Nat} (h : a < b) (hlen : a.length = b.length)
    (s t : List Nat) : a ++ s < b ++ t := by
  induction h with
  | nil => simp at hlen
  | cons _ ih => exact List.Lex.cons (ih (by simpa using hlen))
  | rel h => exact List.Lex.rel h

theorem append_singleton_lt (b : List Nat) {i j : Nat} (h : i < j) : b ++ [i] < b ++ [j] := by
  induction b with
  | nil => exact List.Lex.rel h
  | cons _ b ih => exact List.Lex.cons ih

/-! ## Tuples of the maps with a property -/

/-- The bindings are, in lexicographic order and each of them once, the tuples that the maps with
property `P` from the names to different lines below `n` give to the names. -/
structure Lists (n : Nat) (names : List (List Char)) (P : (List Char → Nat) → Prop)
    (bindings : List (List Nat)) : Prop where
  sorted : bindings.Pairwise (· < ·)
  mem_iff : ∀ t, t ∈ bindings ↔ ∃ f, Assigns n names f ∧ P f ∧ names.map f = t

namespace Lists

variable {n : Nat} {names : List (List Char)} {P Q : (List Char → Nat) → Prop}
  {bindings : List (List Nat)}

theorem length_eq (h : Lists n names P bindings) {t : List Nat} (ht : t ∈ bindings) :
    t.length = names.length := by
  obtain ⟨f, -, -, rfl⟩ := (h.mem_iff t).1 ht
  exact List.length_map f

theorem eq_nil_iff (h : Lists n names P bindings) :
    bindings = [] ↔ ¬∃ f, Assigns n names f ∧ P f := by
  rw [List.eq_nil_iff_forall_not_mem]
  constructor
  · rintro hnone ⟨f, ha, hp⟩
    exact hnone (names.map f) ((h.mem_iff _).2 ⟨f, ha, hp, rfl⟩)
  · intro hnone t ht
    obtain ⟨f, ha, hp, -⟩ := (h.mem_iff t).1 ht
    exact hnone ⟨f, ha, hp⟩

/-- Only the tuples of maps with another property are kept. -/
theorem filter (h : Lists n names P bindings) {p : List Nat → Bool}
    (hp : ∀ f, p (names.map f) = true ↔ Q f) :
    Lists n names (fun f => P f ∧ Q f) (bindings.filter p) where
  sorted := h.sorted.filter p
  mem_iff t := by
    rw [List.mem_filter, h.mem_iff]
    constructor
    · rintro ⟨⟨f, ha, hf, rfl⟩, hpt⟩
      exact ⟨f, ha, ⟨hf, (hp f).1 hpt⟩, rfl⟩
    · rintro ⟨f, ha, ⟨hf, hq⟩, rfl⟩
      exact ⟨⟨f, ha, hf, rfl⟩, (hp f).2 hq⟩

/-- A new name stands for each line that no other name stands for. A map of the names before it
becomes one of all names by sending the new name there, which a property that only looks at the
names before does not notice. -/
theorem extend (h : Lists n names P bindings) {x : List Char} (hx : x ∉ names)
    (hP : ∀ f g, (∀ y ∈ names, f y = g y) → P f → P g) :
    Lists n (names ++ [x]) P (Naming.extend n bindings) where
  sorted := by
    rw [Naming.extend, List.pairwise_flatMap]
    constructor
    · intro b _
      rw [List.pairwise_map]
      exact (List.pairwise_lt_range.filter _).imp (append_singleton_lt b)
    · refine h.sorted.imp_of_mem fun {a b} ha hb hab s hs t ht => ?_
      obtain ⟨i, -, rfl⟩ := List.mem_map.1 hs
      obtain ⟨j, -, rfl⟩ := List.mem_map.1 ht
      exact append_lt_append hab ((h.length_eq ha).trans (h.length_eq hb).symm) [i] [j]
  mem_iff t := by
    simp only [Naming.extend, List.mem_flatMap, List.mem_map, List.mem_filter, List.mem_range]
    constructor
    · rintro ⟨b, hb, i, ⟨hi, hfree⟩, rfl⟩
      obtain ⟨f, ha, hf, rfl⟩ := (h.mem_iff b).1 hb
      have hold : ∀ y ∈ names, f y = Function.update f x i y := fun y hy =>
        (Function.update_of_ne (ne_of_mem_of_not_mem hy hx) i f).symm
      simp only [List.contains_eq_mem, Bool.not_eq_true', decide_eq_false_iff_not] at hfree
      refine ⟨Function.update f x i,
        ha.update hx hi fun y hy heq => hfree (List.mem_map.2 ⟨y, hy, heq⟩), hP _ _ hold hf, ?_⟩
      rw [List.map_append, ← List.map_congr_left hold, List.map_singleton, Function.update_self]
    · rintro ⟨f, ha, hf, rfl⟩
      have hold : ∀ y ∈ names, y ∈ names ++ [x] := fun y hy => List.mem_append_left _ hy
      have hlast : x ∈ names ++ [x] := List.mem_append_right _ List.mem_cons_self
      refine ⟨names.map f, (h.mem_iff _).2 ⟨f, ha.mono hold, hf, rfl⟩, f x, ⟨ha.lt x hlast, ?_⟩,
        by simp⟩
      simp only [List.contains_eq_mem, Bool.not_eq_true', decide_eq_false_iff_not, List.mem_map]
      rintro ⟨y, hy, e⟩
      exact hx (ha.inj y (hold y hy) x hlast e ▸ hy)

/-- Names that are new and different are taken in one after another. -/
theorem extend_all (h : Lists n names P bindings) {fresh : List (List Char)}
    (hnodup : (names ++ fresh).Nodup) (hP : ∀ f g, (∀ y ∈ names, f y = g y) → P f → P g) :
    Lists n (names ++ fresh) P
      ((List.range fresh.length).foldl (fun bs _ => Naming.extend n bs) bindings) := by
  induction fresh using List.reverseRecOn with
  | nil => simpa using h
  | append_singleton fresh x ih =>
    rw [← List.append_assoc] at hnodup ⊢
    have hold := (List.nodup_append.1 hnodup).1
    have hx : x ∉ names ++ fresh := fun hmem =>
      (List.nodup_append.1 hnodup).2.2 x hmem x List.mem_cons_self rfl
    rw [List.length_append, List.length_singleton, List.range_succ, List.foldl_append]
    exact (ih hold).extend hx fun f g hfg => hP f g fun y hy => hfg y (List.mem_append_left _ hy)

end Lists

/-! ## Runs of conditions -/

/-- The names that conditions mention. -/
def mentioned (cs : List Condition) : List (List Char) :=
  cs.flatMap (·.names)

/-- Under `f` the names that conditions mention stand for different lines below `n`, and every
condition is true. -/
structure Meets (n : Nat) (cs : List Condition) (f : List Char → Nat) : Prop where
  assigns : Assigns n (mentioned cs) f
  under : ∀ c ∈ cs, c.Under f

/-- The naming is what the conditions that held make of it : it knows the names they mention, each
where it was mentioned first, and its bindings are the tuples of the maps that meet them, of which
there is one. -/
structure Exact (n : Nat) (held : List Condition) (s : Naming) : Prop where
  names_eq : s.names = (mentioned held).eraseDups
  lists : Lists n s.names (fun f => ∀ c ∈ held, c.Under f) s.bindings
  nonempty : s.bindings ≠ []

namespace Exact

variable {n : Nat} {held : List Condition} {s : Naming}

theorem mem_names_iff (h : Exact n held s) {x : List Char} :
    x ∈ s.names ↔ x ∈ mentioned held := by
  rw [h.names_eq, List.mem_eraseDups]

theorem exists_meets (h : Exact n held s) : ∃ f, Meets n held f := by
  by_contra hnone
  refine h.nonempty (h.lists.eq_nil_iff.2 ?_)
  rintro ⟨f, ha, hf⟩
  exact hnone ⟨f, ha.mono fun x hx => h.mem_names_iff.2 hx, hf⟩

end Exact

theorem exact_start (n : Nat) : Exact n [] start where
  names_eq := rfl
  nonempty := by simp [start]
  lists :=
    { sorted := List.pairwise_singleton _ _
      mem_iff := fun t => by
        simp only [start, List.mem_singleton, List.not_mem_nil, IsEmpty.forall_iff, implies_true,
          true_and, List.map_nil]
        exact ⟨fun h => ⟨fun _ => 0, ⟨by simp, by simp⟩, h.symm⟩, fun ⟨_, _, h⟩ => h.symm⟩ }

/-- A refinement fails and leaves the naming as it was if nothing meets the new condition together
with those that held; otherwise it succeeds, and the new condition is one of those that held. -/
theorem Exact.refine {n : Nat} {held : List Condition} {s : Naming} (h : Exact n held s)
    (c : Condition) :
    (s.refine c.names n c.holds = (false, s) ∧ ¬∃ f, Meets n (held ++ [c]) f) ∨
      ∃ s', s.refine c.names n c.holds = (true, s') ∧ Exact n (held ++ [c]) s' := by
  have hmentioned : mentioned (held ++ [c]) = mentioned held ++ c.names := by simp [mentioned]
  -- the names known afterwards are those known before and, behind them, the new ones
  obtain ⟨fresh, hfresh⟩ : ∃ fresh, known s.names c.names = s.names ++ fresh :=
    ⟨_, by rw [h.names_eq, known_eraseDups, List.eraseDups_append]⟩
  have hknown : known s.names c.names = (mentioned (held ++ [c])).eraseDups := by
    rw [h.names_eq, known_eraseDups, hmentioned]
  have hmem : ∀ x, x ∈ s.names ++ fresh ↔ x ∈ mentioned (held ++ [c]) := fun x => by
    rw [← hfresh, hknown, List.mem_eraseDups]
  have hlocal : ∀ f g : List Char → Nat, (∀ y ∈ s.names, f y = g y) →
      (∀ b ∈ held, b.Under f) → ∀ b ∈ held, b.Under g := fun f g hfg hf b hb =>
    (hf b hb).congr fun x hx => hfg x (h.mem_names_iff.2 (List.mem_flatMap.2 ⟨b, hb, hx⟩))
  have hcandidates := h.lists.extend_all
    (hfresh ▸ hknown ▸ nodup_eraseDups (mentioned (held ++ [c]))) hlocal
  have hlines : ∀ f, c.holds (linesOf (s.names ++ fresh) ((s.names ++ fresh).map f) c.names) =
      true ↔ c.Under f := fun f => by
    rw [linesOf_map f fun x hx => (hmem x).2 (hmentioned ▸ List.mem_append_right _ hx)]
    rfl
  have hkept := hcandidates.filter (p := fun b => c.holds (linesOf (s.names ++ fresh) b c.names))
    hlines
  have hcount : (s.names ++ fresh).length - s.names.length = fresh.length := by simp
  have hboth : ∀ f, ((∀ b ∈ held, b.Under f) ∧ c.Under f) ↔ ∀ b ∈ held ++ [c], b.Under f :=
    fun f => by simp [or_imp, forall_and]
  unfold Naming.refine
  simp only [hfresh, hcount]
  split
  · rename_i hnil
    refine Or.inl ⟨rfl, ?_⟩
    rintro ⟨f, hf⟩
    exact hkept.eq_nil_iff.1 hnil ⟨f, hf.assigns.mono fun x hx => (hmem x).1 hx,
      (hboth f).2 hf.under⟩
  · rename_i hne
    exact Or.inr ⟨_, rfl, hfresh ▸ hknown, by simpa only [hboth] using hkept, hne⟩

/-- The conditions that held so far and the naming, after one more condition. -/
def impose (n : Nat) (r : List Condition × Naming) (c : Condition) : List Condition × Naming :=
  let (held, naming) := r.2.refine c.names n c.holds
  (if held then r.1 ++ [c] else r.1, naming)

/-- The conditions that hold when some are imposed one after another, starting without names, and
the naming that results. -/
def run (n : Nat) (cs : List Condition) : List Condition × Naming :=
  cs.foldl (impose n) ([], start)

theorem exact_impose {n : Nat} {r : List Condition × Naming} (h : Exact n r.1 r.2)
    (c : Condition) : Exact n (impose n r c).1 (impose n r c).2 := by
  rcases h.refine c with ⟨heq, -⟩ | ⟨s', heq, hs'⟩
  · simpa [impose, heq] using h
  · simpa [impose, heq] using hs'

theorem exact_run (n : Nat) (cs : List Condition) : Exact n (run n cs).1 (run n cs).2 := by
  induction cs using List.reverseRecOn with
  | nil => exact exact_start n
  | append_singleton cs c ih =>
    rw [run, List.foldl_append, List.foldl_cons, List.foldl_nil]
    exact exact_impose ih c

/-! ## Tuples of lines -/

/-- The line that a tuple gives to a name, the names being in the order of the tuple. -/
def lineIn (names : List (List Char)) (t : List Nat) (x : List Char) : Nat :=
  t.getD (names.idxOf x) 0

theorem map_lineIn {names : List (List Char)} {t : List Nat} (hnodup : names.Nodup)
    (hlen : t.length = names.length) : names.map (lineIn names t) = t := by
  apply List.ext_getElem (by simp [hlen])
  intro i hi hi'
  rw [List.getElem_map, lineIn, hnodup.idxOf_getElem, List.getD_eq_getElem _ _ hi']

theorem lineIn_map (names : List (List Char)) (f : List Char → Nat) {x : List Char}
    (hx : x ∈ names) : lineIn names (names.map f) x = f x := by
  have hi : names.idxOf x < (names.map f).length := by simpa [List.idxOf_lt_length_iff] using hx
  rw [lineIn, List.getD_eq_getElem _ _ hi, List.getElem_map, List.getElem_idxOf]

/-- A tuple of different lines below `n`, one for each name that conditions mention in the order of
first mention, under which every condition is true. -/
structure Solves (n : Nat) (cs : List Condition) (t : List Nat) : Prop where
  length_eq : t.length = (mentioned cs).eraseDups.length
  nodup : t.Nodup
  lt : ∀ i ∈ t, i < n
  under : ∀ c ∈ cs, c.Under (lineIn (mentioned cs).eraseDups t)

theorem solves_iff {n : Nat} {cs : List Condition} {t : List Nat} :
    Solves n cs t ↔ ∃ f, Meets n cs f ∧ (mentioned cs).eraseDups.map f = t := by
  have hnodup := nodup_eraseDups (mentioned cs)
  have hmem : ∀ x, x ∈ (mentioned cs).eraseDups ↔ x ∈ mentioned cs := fun x =>
    List.mem_eraseDups
  constructor
  · rintro ⟨hlen, ht, hlt, hunder⟩
    have hmap := map_lineIn hnodup hlen
    refine ⟨lineIn (mentioned cs).eraseDups t, ⟨⟨fun x hx => ?_, fun x hx y hy => ?_⟩, hunder⟩,
      hmap⟩
    · have hi := List.mem_map_of_mem (f := lineIn (mentioned cs).eraseDups t) ((hmem x).2 hx)
      rw [hmap] at hi
      exact hlt _ hi
    · exact (List.nodup_map_iff_inj_on hnodup).1 (hmap.symm ▸ ht) x ((hmem x).2 hx) y
        ((hmem y).2 hy)
  · rintro ⟨f, ⟨ha, hf⟩, rfl⟩
    refine ⟨List.length_map f, (List.nodup_map_iff_inj_on hnodup).2 fun x hx y hy => ?_, ?_,
      fun c hc => (hf c hc).congr fun x hx => (lineIn_map _ f ?_).symm⟩
    · exact ha.inj x ((hmem x).1 hx) y ((hmem y).1 hy)
    · intro i hi
      obtain ⟨x, hx, rfl⟩ := List.mem_map.1 hi
      exact ha.lt x ((hmem x).1 hx)
    · exact (hmem x).2 (List.mem_flatMap.2 ⟨c, hc, hx⟩)

theorem exists_solves_iff {n : Nat} {cs : List Condition} :
    (∃ t, Solves n cs t) ↔ ∃ f, Meets n cs f := by
  constructor
  · rintro ⟨t, ht⟩
    obtain ⟨f, hf, -⟩ := solves_iff.1 ht
    exact ⟨f, hf⟩
  · rintro ⟨f, hf⟩
    exact ⟨_, solves_iff.2 ⟨f, hf, rfl⟩⟩

theorem Exact.mem_bindings_iff {n : Nat} {held : List Condition} {s : Naming}
    (h : Exact n held s) (t : List Nat) : t ∈ s.bindings ↔ Solves n held t := by
  rw [h.lists.mem_iff, solves_iff, h.names_eq]
  constructor
  · rintro ⟨f, ha, hf, rfl⟩
    exact ⟨f, ⟨ha.mono fun x hx => List.mem_eraseDups.2 hx, hf⟩, rfl⟩
  · rintro ⟨f, ⟨ha, hf⟩, rfl⟩
    exact ⟨f, ha.mono fun x hx => List.mem_eraseDups.1 hx, hf, rfl⟩

/-- After any conditions the names are those that the conditions that held mention, each once and
in the order of first mention, and the bindings are, in lexicographic order and each once, the
tuples that solve the conditions that held. One more condition fails, and changes nothing, exactly
when no tuple solves it together with them. -/
theorem bindings_run (n : Nat) (cs : List Condition) (c : Condition) :
    (run n cs).2.names = (mentioned (run n cs).1).eraseDups ∧
      (run n cs).2.names.Nodup ∧
      (run n cs).2.bindings.Nodup ∧
      (run n cs).2.bindings.Pairwise (· < ·) ∧
      (∀ t, t ∈ (run n cs).2.bindings ↔ Solves n (run n cs).1 t) ∧
      ((run n cs).2.refine c.names n c.holds = (false, (run n cs).2) ↔
        ¬∃ t, Solves n ((run n cs).1 ++ [c]) t) ∧
      (((run n cs).2.refine c.names n c.holds).1 = true ↔
        ∃ t, Solves n ((run n cs).1 ++ [c]) t) := by
  have h := exact_run n cs
  refine ⟨h.names_eq, h.names_eq ▸ nodup_eraseDups _, ?_, h.lists.sorted, h.mem_bindings_iff, ?_⟩
  · exact h.lists.sorted.imp fun hlt => ne_of_lt hlt
  · rw [exists_solves_iff]
    rcases h.refine c with ⟨heq, hnone⟩ | ⟨s', heq, hs'⟩
    · simp [heq, hnone]
    · simp [heq, hs'.exists_meets]

end Naming

end CurveSketch
