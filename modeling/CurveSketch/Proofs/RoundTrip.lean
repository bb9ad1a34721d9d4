import CurveSketch.Proofs.Describe
import CurveSketch.Proofs.LegibleFeature
import CurveSketch.Proofs.LineReader

/-!
# Reading back a specification

A specification that was read from a text, or that describes a drawing, is read back from its own
text (`Specification.parse_print_of_legible`). Clauses stand on lines of their own, a selector and
its clause are separated by a semicolon, the items of a clause by commas; since no printed clause
contains a line break, and none that follows a selector a semicolon, each cut finds what was
written. A clause is legible if its feature and its selector are, and the reader and the describer
make legible clauses only.
-/

namespace CurveSketch

open Text

theorem splitTag?_tagged {tag : List Char} (htag : Item tag) (hlower : lower tag = tag)
    (data : List Char) : splitTag? (tagged tag data) = some (tag, ' ' :: data) := by
  rw [splitTag?, tagged, cut?_append (htag.notMem rfl), Option.map_some, trim_eq_self htag.tight,
    hlower]

/-- The text of a clause is tight if its tag and its data are. -/
theorem tight_tagged {tag data : List Char} (htag : Tight tag) (hdata : Tight data) :
    Tight (tagged tag data) := by
  have h := htag.append [':', ' '] hdata
  rwa [List.append_assoc] at h

/-! ## Features of one line -/

namespace LineFeature

/-- A feature of a line can be read back. -/
def Legible : LineFeature → Prop
  | path p => p.Legible
  | slope s => s.Legible
  | symmetry _ => True
  | turning t => t.Legible

theorem legible_of_readData? {tag data : List Char} {f : LineFeature}
    (h : readData? tag data = some (.ok f)) : f.Legible := by
  unfold readData? at h
  split_ifs at h
  · obtain ⟨p, hp, rfl⟩ := map_eq_ok.1 (Option.some.inj h)
    exact Path.legible_of_read hp
  · obtain ⟨s, hs, rfl⟩ := map_eq_ok.1 (Option.some.inj h)
    exact Slope.legible_of_read hs
  · obtain ⟨s, -, rfl⟩ := map_eq_ok.1 (Option.some.inj h)
    trivial
  · obtain ⟨t, ht, rfl⟩ := map_eq_ok.1 (Option.some.inj h)
    exact Turning.legible_of_read ht

theorem legible_of_read {clause : List Char} {f : LineFeature} (h : read clause = .ok f) :
    f.Legible := by
  unfold read at h
  split at h
  · rename_i result hresult
    obtain ⟨p, -, hp⟩ := Option.bind_eq_some_iff.1 hresult
    exact legible_of_readData? (h ▸ hp)
  · exact absurd h nofun

theorem Legible.listing_data {f : LineFeature} (h : f.Legible) : Listing f.data := by
  cases f with
  | path p => exact Path.Legible.listing_data h
  | slope s => exact Slope.Legible.listing_data h
  | symmetry s => exact s.listing_data
  | turning t => exact Turning.Legible.listing_data h

theorem Legible.readData? {f : LineFeature} (h : f.Legible) :
    readData? f.tag (' ' :: f.data) = some (.ok f) := by
  cases f with
  | path p => exact congrArg some (map_eq_ok.2 ⟨p, Path.Legible.read_data h, rfl⟩)
  | slope s => exact congrArg some (map_eq_ok.2 ⟨s, Slope.Legible.read_data h, rfl⟩)
  | symmetry s => exact congrArg some (map_eq_ok.2 ⟨s, s.read_data, rfl⟩)
  | turning t => exact congrArg some (map_eq_ok.2 ⟨t, Turning.Legible.read_data h, rfl⟩)

theorem item_tag (f : LineFeature) : Item f.tag := by
  cases f <;> exact item_of_isAlphanum (List.cons_ne_nil _ _) (List.all_eq_true.1 rfl)

theorem splitTag?_text (f : LineFeature) : splitTag? f.text = some (f.tag, ' ' :: f.data) :=
  splitTag?_tagged f.item_tag (by cases f <;> rfl) _

theorem Legible.read_text {f : LineFeature} (h : f.Legible) : read f.text = .ok f := by
  rw [read, splitTag?_text, Option.bind_some, h.readData?]

theorem Legible.tight_text {f : LineFeature} (h : f.Legible) : Tight f.text :=
  tight_tagged f.item_tag.tight h.listing_data.tight

/-- Of the characters that structure a specification a feature has colons and commas only. -/
theorem Legible.notMem_text {f : LineFeature} (h : f.Legible) {c : Char}
    (hc : isPlain c = false) (hcomma : c ≠ ',') (hcolon : c ≠ ':') : c ∉ f.text := by
  have hblank : c ≠ ' ' := by
    rintro rfl
    exact absurd hc (by decide)
  simp only [text, tagged, List.mem_append, List.mem_cons, not_or]
  exact ⟨f.item_tag.notMem hc, hcolon, hblank, h.listing_data.notMem hc hcomma⟩

end LineFeature

/-! ## Features of the drawing -/

namespace DrawingFeature

/-- A feature of the drawing can be read back. -/
def Legible : DrawingFeature → Prop
  | count c => c.Legible
  | meeting m => m.Legible

theorem legible_of_read? {clause : List Char} {f : DrawingFeature}
    (h : read? clause = some (.ok f)) : f.Legible := by
  unfold read? at h
  split at h
  · exact absurd h nofun
  split_ifs at h
  · obtain ⟨c, hc, rfl⟩ := map_eq_ok.1 (Option.some.inj h)
    exact CurveCount.legible_of_read hc
  · obtain ⟨m, hm, rfl⟩ := map_eq_ok.1 (Option.some.inj h)
    exact Meeting.legible_of_read hm

theorem item_tag (f : DrawingFeature) : Item f.tag := by
  cases f <;> exact item_of_isAlphanum (List.cons_ne_nil _ _) (List.all_eq_true.1 rfl)

theorem splitTag?_text (f : DrawingFeature) : splitTag? f.text = some (f.tag, ' ' :: f.data) :=
  splitTag?_tagged f.item_tag (by cases f <;> rfl) _

theorem Legible.read?_text {f : DrawingFeature} (h : f.Legible) :
    read? f.text = some (.ok f) := by
  rw [read?, splitTag?_text]
  cases f with
  | count c => exact congrArg some (map_eq_ok.2 ⟨c, CurveCount.Legible.read_data h, rfl⟩)
  | meeting m => exact congrArg some (map_eq_ok.2 ⟨m, Meeting.Legible.read_data h, rfl⟩)

theorem Legible.tight_text {f : DrawingFeature} (h : f.Legible) : Tight f.text := by
  refine tight_tagged f.item_tag.tight ?_
  cases f with
  | count c => exact c.listing_data.tight
  | meeting m => exact Meeting.Legible.tight_data h

theorem Legible.newline_notMem_text {f : DrawingFeature} (h : f.Legible) : '\n' ∉ f.text := by
  have hdata : '\n' ∉ f.data := by
    cases f with
    | count c => exact c.listing_data.notMem rfl (by decide)
    | meeting m => exact Meeting.Legible.notMem_data h rfl (by decide)
  simp only [text, tagged, List.mem_append, List.mem_cons, not_or]
  exact ⟨f.item_tag.notMem rfl, by decide, by decide, hdata⟩

end DrawingFeature

/-! ## Selectors -/

namespace Selector

/-- A selector can be read back if its number is at least one and fits in 64 bits, or if its name
is a name. -/
def Legible : Selector → Prop
  | any => True
  | nth n => 1 ≤ n ∧ n < 0x10000000000000000
  | named name => isLineName name = true

theorem SelectedBy.legible {selector : Selector} {tag data : List Char}
    (h : SelectedBy selector tag data) : selector.Legible := by
  cases h with
  | nth _ _ hpos hfits => exact ⟨hpos, hfits⟩
  | named hne hletters => simpa [Legible, isLineName] using ⟨hne, hletters⟩

/-- A name in front of a semicolon is read, with blanks around it or without. -/
theorem readNamed_of_trim {name text : List Char} (hname : isLineName name = true)
    (hcut : ';' ∉ text) (htrim : trim text = name) (rest : List Char) :
    readNamed (text ++ ';' :: rest) = .ok (named name, rest) := by
  subst htrim
  exact readNamed_eq_ok_iff.2 ⟨text, cut?_append hcut rest, selectedBy_of_isLineName hname⟩

/-- What is written in front of a clause selects the line the clause is about. -/
theorem Legible.exists_lead {selector : Selector} (h : selector.Legible) (hne : selector ≠ any) :
    ∃ lead, selector.Leads lead ∧ selector.lead = lead ++ [';', ' '] := by
  cases selector with
  | any => exact absurd rfl hne
  | nth n =>
    have hselected : SelectedBy (nth n) numberTag (natural n) :=
      .nth (fun _ => isDigit_of_mem_natural) Nat.ofDigitChars_ten_toDigits h.1 h.2
    exact ⟨_, hselected.leads, by simp [Selector.lead, tagged]⟩
  | named name =>
    exact ⟨_, (selectedBy_of_isLineName h).leads, by simp [Selector.lead, tagged]⟩

end Selector

/-! ## Clauses -/

namespace Clause

/-- A clause can be read back. -/
def Legible : Clause → Prop
  | ofDrawing f => f.Legible
  | ofLine selector f => selector.Legible ∧ f.Legible

theorem legible_of_readLine {item : List Char} {cs : List Clause} (h : readLine item = .ok cs) :
    ∀ c ∈ cs, c.Legible := by
  cases lineRead_of_readLine h with
  | drawing f hf => exact List.forall_mem_singleton.2 (DrawingFeature.legible_of_read? hf)
  | any f hf => exact List.forall_mem_singleton.2 ⟨trivial, LineFeature.legible_of_read hf⟩
  | selected _ _ hselected _ hcs =>
    intro c hc
    obtain ⟨part, f, hf, rfl⟩ := hcs c hc
    exact ⟨hselected.legible, LineFeature.legible_of_read hf⟩

/-- Without a selector, a feature of a line is about any line. -/
theorem readLine_text_any {f : LineFeature} (h : f.Legible) :
    readLine f.text = .ok [ofLine .any f] := by
  have hdrawing : DrawingFeature.read? f.text = none := by
    rw [DrawingFeature.read?, f.splitTag?_text]
    cases f <;> rfl
  rw [readLine, hdrawing, f.splitTag?_text]
  cases f <;> exact map_eq_ok.2 ⟨_, h.read_text, rfl⟩

theorem Legible.tight_text {c : Clause} (h : c.Legible) : Tight c.text := by
  rcases c with f | ⟨_ | n | name, f⟩
  · exact DrawingFeature.Legible.tight_text h
  · exact h.2.tight_text
  · exact Selector.item_numberTag.tight.append _ h.2.tight_text
  · exact Selector.item_nameTag.tight.append _ h.2.tight_text

/-- A feature after a selector is about the line selected. -/
theorem readLine_text_selected {selector : Selector} {f : LineFeature}
    (h : (ofLine selector f).Legible) (hne : selector ≠ .any) :
    readLine (ofLine selector f).text = .ok [ofLine selector f] := by
  obtain ⟨lead, hlead, htext⟩ := h.1.exists_lead hne
  have hcut : (ofLine selector f).text = [';', ' '].intercalate [lead, f.text] := by
    rw [text, htext, List.intercalate_cons_cons, List.intercalate_singleton]
  have hfeature : trim f.text ≠ [] ∧ ';' ∉ f.text := by
    rw [trim_eq_self h.2.tight_text]
    exact ⟨h.2.tight_text.ne_nil, h.2.notMem_text rfl (by decide) (by decide)⟩
  have hread := readLine_lead hlead (List.cons_ne_nil f.text [])
    (List.forall_mem_singleton.2 hfeature)
  rw [← hcut, trim_eq_self h.tight_text, List.mapM_cons, trim_eq_self h.2.tight_text,
    h.2.read_text] at hread
  exact hread

/-- A legible clause is read back from its text. -/
theorem Legible.readLine_text {c : Clause} (h : c.Legible) : readLine c.text = .ok [c] := by
  rcases c with f | ⟨selector, f⟩
  · have hread : DrawingFeature.read? f.text = some (.ok f) := DrawingFeature.Legible.read?_text h
    rw [readLine, text, hread]
    rfl
  · by_cases hany : selector = .any
    · subst hany
      exact readLine_text_any h.2
    · exact readLine_text_selected h hany

theorem Legible.newline_notMem_text {c : Clause} (h : c.Legible) : '\n' ∉ c.text := by
  rcases c with f | ⟨selector, f⟩
  · exact DrawingFeature.Legible.newline_notMem_text h
  · have hfeature : '\n' ∉ f.text := h.2.notMem_text rfl (by decide) (by decide)
    have hlead : '\n' ∉ selector.lead := by
      by_cases hany : selector = .any
      · rw [hany]
        exact List.not_mem_nil
      · obtain ⟨lead, hlead, htext⟩ := h.1.exists_lead hany
        simp [htext, hlead.1]
    simp only [text, List.mem_append, not_or]
    exact ⟨hlead, hfeature⟩

end Clause

/-! ## Specifications -/

namespace Specification

/-- The lines of the text of a specification are its clauses. -/
theorem textLines_text {s : Specification} (h : ∀ c ∈ s.clauses, c.Legible) :
    textLines s.text = s.clauses.map Clause.text := by
  have htight : ∀ p ∈ s.clauses.map Clause.text, Tight p := by
    intro p hp
    obtain ⟨c, hc, rfl⟩ := List.mem_map.1 hp
    exact (h c hc).tight_text
  have hnewline : ∀ p ∈ s.clauses.map Clause.text, '\n' ∉ p := by
    intro p hp
    obtain ⟨c, hc, rfl⟩ := List.mem_map.1 hp
    exact (h c hc).newline_notMem_text
  by_cases hne : s.clauses.map Clause.text = []
  · rw [textLines, Specification.text, hne]
    rfl
  · have hsplit : (split '\n' s.text).map trim = s.clauses.map Clause.text :=
      (map_trim_split_intercalate [] ['\r'] [] hne hnewline nofun
        (List.forall_mem_singleton.2 (by decide)) nofun).trans (map_trim_eq_self htight)
    rw [textLines, hsplit, filter_isEmpty_of_tight htight]

theorem read_text {s : Specification} (h : ∀ c ∈ s.clauses, c.Legible) : read s.text = .ok s := by
  have hlines : (s.clauses.map Clause.text).mapM Clause.readLine =
      .ok (s.clauses.map fun c => [c]) := by
    rw [mapM_eq_ok_iff, List.forall₂_map_left_iff, List.forall₂_map_right_iff, List.forall₂_same]
    exact fun c hc => (h c hc).readLine_text
  have hflatten : (s.clauses.map fun c => [c]).flatten = s.clauses := by
    rw [← List.flatMap_def, List.flatMap_singleton']
  simp only [read, bind_eq_ok, pure_eq_ok]
  exact ⟨_, (textLines_text h).symm ▸ hlines, by rw [hflatten]⟩

/-- A specification with legible clauses is read back from its text. -/
theorem parse_print_of_legible {s : Specification} (h : ∀ c ∈ s.clauses, c.Legible) :
    parse s.print = .ok s := by
  rw [parse, print, String.toList_ofList, read_text h]

/-- A text makes legible clauses only. -/
theorem legible_of_parse {t : String} {s : Specification} (h : parse t = .ok s) :
    ∀ c ∈ s.clauses, c.Legible := by
  simp only [parse, read, bind_eq_ok, pure_eq_ok] at h
  obtain ⟨lines, hlines, rfl⟩ := h
  intro c hc
  obtain ⟨cs, hcs, hc⟩ := List.mem_flatten.1 hc
  obtain ⟨line, -, hline⟩ := exists_of_mem_mapM hlines hcs
  exact Clause.legible_of_readLine hline c hc

end Specification

/-! ## Descriptions -/

variable {K : Type} [Scalar K]

namespace LineFeature

/-- A line is described by legible features. -/
theorem legible_of_mem_describeAll {context : Context K} {l : Polyline K} {f : LineFeature}
    (h : f ∈ describeAll context l) : f.Legible := by
  simp only [describeAll, List.mem_append, Option.mem_toList, Option.map_eq_some_iff] at h
  rcases h with ((⟨p, hp, rfl⟩ | ⟨s, hs, rfl⟩) | ⟨s, -, rfl⟩) | ⟨t, ht, rfl⟩
  · unfold Path.describe? at hp
    split at hp
    · exact absurd hp nofun
    · rename_i hne
      obtain rfl := Option.some.inj hp
      exact hne
  · unfold Slope.describe? at hs
    split at hs
    · exact absurd hs nofun
    · rename_i hne
      obtain rfl := Option.some.inj hs
      exact fun hnil => hne (congrArg Slope.start? hnil) (congrArg Slope.finish? hnil)
  · trivial
  · unfold Turning.describe? at ht
    split at ht
    · exact absurd ht nofun
    · rename_i hne
      obtain rfl := Option.some.inj ht
      exact hne

end LineFeature

/-- The clauses that describe a drawing are legible, as long as its lines can be counted. -/
theorem Specification.legible_of_mem_describe {context : Context K} {d : Drawing K}
    (hlength : d.lines.length < 0x10000000000000000) {c : Clause}
    (h : c ∈ (describe context d).clauses) : c.Legible := by
  rcases mem_describe_clauses h with ⟨-, rfl⟩ | ⟨i, j, a, b, hij, -, -, -, rfl⟩ |
    ⟨selector, l, f, hselector, hf, rfl⟩
  · exact hlength
  · exact ⟨isLineName_standardName i, isLineName_standardName j,
      fun heq => hij (standardName_injective heq)⟩
  · refine ⟨?_, LineFeature.legible_of_mem_describeAll hf⟩
    rcases Selector.mem_forDrawing hselector with ⟨rfl, -⟩ | ⟨i, hi, rfl | rfl⟩
    · trivial
    · have hlt : i < d.lines.length := (List.getElem?_eq_some_iff.1 hi).1
      exact ⟨by omega, by omega⟩
    · exact isLineName_standardName i

/-- Printing is undone by parsing: for the specification that was read from any text, and for the
one that describes any drawing with as many lines as can be counted in 64 bits, whatever the sectors
it is read in. Whether a single curve is expected is told from the clauses and comes back with
them. -/
theorem Specification.parse_print (K : Type) [Scalar K] :
    (∀ (t : String) (s : Specification), parse t = .ok s → parse s.print = .ok s) ∧
      ∀ (context : Context K) (d : Drawing K), d.lines.length < 0x10000000000000000 →
        parse (describe context d).print = .ok (describe context d) :=
  ⟨fun _ _ h => parse_print_of_legible (legible_of_parse h),
    fun _ _ hlength => parse_print_of_legible fun _ => legible_of_mem_describe hlength⟩

/-- A text with a selector and two clauses after it, and a drawing of two lines that cross. -/
theorem Specification.parse_print_two_lines :
    (∃ s, parse "line: 2; slope: start=up; points: maxima in topLeft" = .ok s ∧
      parse s.print = .ok s) ∧
      let context : Context Rat := .ofOrder ⟨1, 1, 1, 1, 2, 1⟩ [.topLeft, .anywhere]
      let d : Drawing Rat := ⟨[.ofPoints [⟨-1, 0⟩, ⟨1, 2⟩], .ofPoints [⟨-1, 2⟩, ⟨1, 0⟩]]⟩
      parse (describe context d).print = .ok (describe context d) := by
  have hread : parse "line: 2; slope: start=up; points: maxima in topLeft" =
      .ok ⟨[.ofLine (.nth 2) (.slope ⟨some .up, none⟩),
        .ofLine (.nth 2) (.turning ⟨[(.maxima, .topLeft)]⟩)]⟩ := by rfl
  exact ⟨⟨_, hread, (parse_print Rat).1 _ _ hread⟩, (parse_print Rat).2 _ _ (by decide)⟩

end CurveSketch
