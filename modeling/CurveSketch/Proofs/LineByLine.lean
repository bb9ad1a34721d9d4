import CurveSketch.Proofs.LineReader
import CurveSketch.Specification

/-!
# Reading part by part

A specification is read line by line, and what stands after a selector clause by clause : nothing is
skipped, and nothing that one part says changes how another is read
(`Specification.reads_in_parts`). A text is a specification exactly when each of its lines is one by
itself. It then has the clauses of all of them, at least one for each line, and otherwise the fault
of the first line that has one. In the same way a line on which several clauses follow a selector is
read as if each of them stood on a line of its own, after the same selector.

What the lines of a text are is said without the reader (`Specification.LinesOf`) : parts that line
ends of either kind stand between, the blanks at their ends left out, and the blank ones too. So is
which texts select a line (`Selector.Leads`).
-/

namespace CurveSketch

open Text

namespace Specification

/-! ## Parts -/

/-- A text that reads as its parts, one after the other. -/
structure ReadsAs (text : String) (parts : List String) : Prop where
  /-- The text is a specification exactly when every part is one, and has the clauses of all of
  them. -/
  ok_iff : ∀ s, parse text = .ok s ↔ ∃ specs,
    List.Forall₂ (fun part spec => parse part = .ok spec) parts specs ∧
      s.clauses = specs.flatMap clauses
  /-- Every part has a clause. -/
  clauses_ne_nil : ∀ part ∈ parts, ∀ spec, parse part = .ok spec → spec.clauses ≠ []
  /-- The text asks for a single curve exactly when every part does. -/
  expectsSingleCurve_iff : ∀ s, parse text = .ok s → (s.expectsSingleCurve = true ↔
    ∀ part ∈ parts, ∃ spec, parse part = .ok spec ∧ spec.expectsSingleCurve = true)
  /-- The text has the fault of the first part with one. -/
  error_iff : ∀ fault, parse text = .error fault ↔ ∃ before part after,
    parts = before ++ part :: after ∧ (∀ p ∈ before, ∃ spec, parse p = .ok spec) ∧
      parse part = .error fault

/-- A specification of all the clauses of others asks for a single curve if all of them do. -/
theorem expectsSingleCurve_iff_of_flatMap {s : Specification} {specs : List Specification}
    (h : s.clauses = specs.flatMap clauses) :
    s.expectsSingleCurve = true ↔ ∀ spec ∈ specs, spec.expectsSingleCurve = true := by
  simp only [expectsSingleCurve, h, List.all_eq_true, List.mem_flatMap]
  exact ⟨fun h spec hspec c hc => h c ⟨spec, hspec, hc⟩,
    fun h c ⟨spec, hspec, hc⟩ => h spec hspec c hc⟩

theorem ReadsAs.of_parse_eq {text : String} {parts : List String}
    (h : parse text = (fun specs => ⟨specs.flatMap clauses⟩) <$> parts.mapM parse)
    (hne : ∀ part ∈ parts, ∀ spec, parse part = .ok spec → spec.clauses ≠ []) :
    ReadsAs text parts := by
  have hok : ∀ s, parse text = .ok s ↔ ∃ specs,
      List.Forall₂ (fun part spec => parse part = .ok spec) parts specs ∧
        s.clauses = specs.flatMap clauses := fun s => by
    rw [h, map_eq_ok]
    refine exists_congr fun specs => and_congr mapM_eq_ok_iff ?_
    exact ⟨fun h => h ▸ rfl, fun h => congrArg Specification.mk h.symm⟩
  refine ⟨hok, hne, fun s hs => ?_, fun fault => ?_⟩
  · obtain ⟨specs, hspecs, hclauses⟩ := (hok s).1 hs
    rw [expectsSingleCurve_iff_of_flatMap hclauses]
    clear hclauses hs hok h hne
    induction hspecs with
    | nil => simp
    | cons hpart _ ih =>
      rw [List.forall_mem_cons, List.forall_mem_cons, ih]
      refine and_congr_left fun _ => ⟨fun h => ⟨_, hpart, h⟩, ?_⟩
      rintro ⟨spec, hspec, h⟩
      rw [hpart] at hspec
      exact Except.ok.inj hspec ▸ h
  · rw [h, map_eq_error, mapM_eq_error_iff]

/-! ## Lines -/

/-- What one line comes to : nothing if it is blank, and otherwise what stands between the blanks at
its ends. -/
inductive LineIn (raw : List Char) : List (List Char) → Prop
  | blank : (∀ c ∈ raw, isBlank c = true) → LineIn raw []
  | line {line : List Char} : Padded line raw → LineIn raw [line]

/-- The lines of a text that are not blank, without the blanks around them. A line ends in a line
feed or in a carriage return and a line feed, and the last one where the text does. -/
inductive LinesOf : List Char → List (List Char) → Prop
  | last {raw : List Char} {line : List (List Char)} : '\n' ∉ raw → LineIn raw line →
      LinesOf raw line
  | next {raw ending rest : List Char} {line lines : List (List Char)} : '\n' ∉ raw →
      LineIn raw line → ending = ['\n'] ∨ ending = ['\r', '\n'] → LinesOf rest lines →
      LinesOf (raw ++ ending ++ rest) (line ++ lines)

theorem lineIn_iff {raw : List Char} {line : List (List Char)} :
    LineIn raw line ↔ [trim raw].filter (!·.isEmpty) = line := by
  constructor
  · intro h
    cases h with
    | blank hblank =>
      rw [trim_eq_nil_iff.2 hblank]
      rfl
    | line hline =>
      rw [hline.trim_eq]
      exact filter_isEmpty_of_tight (List.forall_mem_singleton.2 hline.tight)
  · rintro rfl
    by_cases h : trim raw = []
    · rw [h]
      exact .blank (trim_eq_nil_iff.1 h)
    · rw [filter_isEmpty_of_tight (List.forall_mem_singleton.2 (tight_trim h))]
      exact .line (padded_trim h)

theorem textLines_of_notMem {text : List Char} (hbreak : '\n' ∉ text) :
    textLines text = [trim text].filter (!·.isEmpty) := by
  rw [textLines, split_of_notMem hbreak, List.map_singleton]

theorem textLines_append {raw : List Char} (hbreak : '\n' ∉ raw) (rest : List Char) :
    textLines (raw ++ '\n' :: rest) = [trim raw].filter (!·.isEmpty) ++ textLines rest := by
  rw [textLines, split_append hbreak, List.map_cons, ← List.singleton_append, List.filter_append]
  rfl

theorem LinesOf.textLines_eq {text : List Char} {lines : List (List Char)}
    (h : LinesOf text lines) : textLines text = lines := by
  induction h with
  | last hbreak hline => exact (textLines_of_notMem hbreak).trans (lineIn_iff.1 hline)
  | @next raw ending rest line lines hbreak hline hending _ ih =>
    rcases hending with rfl | rfl
    · rw [List.append_assoc, List.singleton_append, textLines_append hbreak, lineIn_iff.1 hline, ih]
    · -- the carriage return is a blank at the end of the line
      have hreturn : '\n' ∉ raw ++ ['\r'] := by simp [hbreak]
      have hblank : ∀ c ∈ ['\r'], isBlank c = true := List.forall_mem_singleton.2 rfl
      rw [List.append_cons raw '\r' ['\n'], List.append_assoc, List.singleton_append,
        textLines_append hreturn, trim_append_right raw hblank, lineIn_iff.1 hline, ih]

theorem linesOf_textLines (text : List Char) : LinesOf text (textLines text) := by
  by_cases hbreak : '\n' ∈ text
  · obtain ⟨raw, rest, htext, hraw⟩ := List.eq_append_cons_of_mem hbreak
    have hshorter : rest.length < text.length := by
      rw [htext, List.length_append, List.length_cons]
      omega
    have hrest := linesOf_textLines rest
    rw [htext, textLines_append hraw, List.append_cons]
    exact .next hraw (lineIn_iff.2 rfl) (.inl rfl) hrest
  · rw [textLines_of_notMem hbreak]
    exact .last hbreak (lineIn_iff.2 rfl)
termination_by text.length

/-- Every text has its lines, and they are those the reader finds. -/
theorem linesOf_iff {text : List Char} {lines : List (List Char)} :
    LinesOf text lines ↔ textLines text = lines :=
  ⟨LinesOf.textLines_eq, fun h => h ▸ linesOf_textLines text⟩

theorem mem_textLines {text line : List Char} (h : line ∈ textLines text) :
    Tight line ∧ '\n' ∉ line := by
  obtain ⟨hline, hne⟩ := List.mem_filter.1 h
  obtain ⟨raw, hraw, rfl⟩ := List.mem_map.1 hline
  refine ⟨tight_trim (by simpa using hne), fun hmem => notMem_of_mem_split hraw ?_⟩
  exact (trim_sublist raw).subset hmem

theorem parse_eq (text : String) : parse text =
    (fun css => ⟨css.flatten⟩) <$> (textLines text.toList).mapM Clause.readLine := by
  rw [parse, read]
  cases (textLines text.toList).mapM Clause.readLine <;> rfl

theorem parse_of_notMem {text : List Char} (hbreak : '\n' ∉ text) (hne : trim text ≠ []) :
    parse (String.ofList text) = mk <$> Clause.readLine (trim text) := by
  rw [parse_eq, String.toList_ofList, textLines_of_notMem hbreak,
    filter_isEmpty_of_tight (List.forall_mem_singleton.2 (tight_trim hne)), List.mapM_cons,
    List.mapM_nil]
  cases Clause.readLine (trim text) with
  | error fault => rfl
  | ok cs => exact congrArg (Except.ok ∘ mk) (List.append_nil cs)

theorem readsAs_textLines (text : String) :
    ReadsAs text ((textLines text.toList).map String.ofList) := by
  have hline : ∀ line ∈ textLines text.toList,
      parse (String.ofList line) = mk <$> Clause.readLine line := fun line hline => by
    obtain ⟨htight, hbreak⟩ := mem_textLines hline
    rw [parse_of_notMem hbreak ((trim_eq_self htight).symm ▸ htight.ne_nil), trim_eq_self htight]
  refine .of_parse_eq ?_ ?_
  · rw [mapM_map_eq hline, parse_eq]
    cases (textLines text.toList).mapM Clause.readLine with
    | error fault => rfl
    | ok css =>
      have h : (css.map mk).flatMap clauses = css.flatten := by simp [List.flatMap_map]
      exact congrArg (Except.ok ∘ mk) h.symm
  · intro part hpart spec h
    obtain ⟨line, hmem, rfl⟩ := List.mem_map.1 hpart
    rw [hline line hmem] at h
    obtain ⟨cs, hcs, rfl⟩ := map_eq_ok.1 h
    exact (Clause.lineRead_of_readLine hcs).ne_nil

/-! ## Clauses after a selector -/

/-- What is read of a line on which clauses follow a selector. -/
theorem parse_lead {selector : Selector} {lead : List Char} (hlead : selector.Leads lead)
    {cs : List (List Char)} (hne : cs ≠ [])
    (hcs : ∀ c ∈ cs, trim c ≠ [] ∧ ';' ∉ c ∧ '\n' ∉ c) :
    parse (String.ofList ([';', ' '].intercalate (lead :: cs))) =
      mk <$> cs.mapM fun c => Clause.ofLine selector <$> LineFeature.read (trim c) := by
  have hbreak : '\n' ∉ [';', ' '].intercalate (lead :: cs) := fun hmem => by
    rcases mem_intercalate hmem with h | ⟨part, hpart, h⟩
    · exact absurd h (by decide)
    · rcases List.mem_cons.1 hpart with rfl | hpart
      · exact hlead.1 h
      · exact (hcs part hpart).2.2 h
  have hblank : trim ([';', ' '].intercalate (lead :: cs)) ≠ [] := by
    obtain ⟨c, cs, rfl⟩ := List.exists_cons_of_ne_nil hne
    rw [List.intercalate_cons_cons, trim_ne_nil_iff]
    exact ⟨';', by simp, rfl⟩
  rw [parse_of_notMem hbreak hblank,
    Clause.readLine_lead hlead hne fun c hc => ⟨(hcs c hc).1, (hcs c hc).2.1⟩]

/-- A line on which clauses follow a selector reads as the selector with each of them. -/
theorem readsAs_lead {selector : Selector} {lead : List Char} (hlead : selector.Leads lead)
    {cs : List (List Char)} (hne : cs ≠ [])
    (hcs : ∀ c ∈ cs, trim c ≠ [] ∧ ';' ∉ c ∧ '\n' ∉ c) :
    ReadsAs (String.ofList ([';', ' '].intercalate (lead :: cs)))
      (cs.map fun c => String.ofList ([';', ' '].intercalate [lead, c])) := by
  have hpart : ∀ c ∈ cs, parse (String.ofList ([';', ' '].intercalate [lead, c])) =
      (fun clause => ⟨[clause]⟩) <$> Clause.ofLine selector <$> LineFeature.read (trim c) := by
    intro c hc
    rw [parse_lead hlead (List.cons_ne_nil c []) (List.forall_mem_singleton.2 (hcs c hc)),
      List.mapM_cons, List.mapM_nil]
    cases LineFeature.read (trim c) <;> rfl
  refine .of_parse_eq ?_ ?_
  · rw [mapM_map_eq hpart, parse_lead hlead hne hcs]
    cases cs.mapM fun c => Clause.ofLine selector <$> LineFeature.read (trim c) with
    | error fault => rfl
    | ok clauses =>
      have h : (clauses.map fun clause => ⟨[clause]⟩ : List Specification).flatMap
          Specification.clauses = clauses := by
        rw [List.flatMap_map, List.flatMap_singleton']
      exact congrArg (Except.ok ∘ mk) h.symm
  · intro part hmem spec h
    obtain ⟨c, hc, rfl⟩ := List.mem_map.1 hmem
    rw [hpart c hc] at h
    obtain ⟨clause, -, rfl⟩ := map_eq_ok.1 h
    exact List.cons_ne_nil _ _

/-- What stands in front of the first semicolon of a line selects a line, if a clause of the text is
about a line selected. -/
theorem leads_of_parse {selector : Selector} (hne : selector ≠ .any) {lead rest : List Char}
    (hlead : ';' ∉ lead ∧ '\n' ∉ lead) (hrest : '\n' ∉ rest) {s : Specification} {f : LineFeature}
    (h : parse (String.ofList (lead ++ ';' :: rest)) = .ok s)
    (hmem : Clause.ofLine selector f ∈ s.clauses) : selector.Leads lead := by
  have hbreak : '\n' ∉ lead ++ ';' :: rest := by simp [hlead.2, hrest]
  rw [parse_of_notMem hbreak (trim_ne_nil_iff.2 ⟨';', by simp, rfl⟩)] at h
  obtain ⟨cs, hread, rfl⟩ := map_eq_ok.1 h
  exact (Clause.lineRead_of_readLine hread).leads hlead hmem hne

/-- Reading goes part by part. Every text has its lines, and reads as the lines that are not blank;
a line on which clauses follow a text that selects a line reads as that text with each of them; and
only such a text makes a clause about a line selected. -/
theorem reads_in_parts :
    (∀ text : String, (∃! lines, LinesOf text.toList lines) ∧
      ∀ lines, LinesOf text.toList lines → ReadsAs text (lines.map String.ofList)) ∧
    (∀ (selector : Selector) (lead : List Char), selector.Leads lead →
      ∀ cs : List (List Char), cs ≠ [] →
        (∀ c ∈ cs, (∃ x ∈ c, isBlank x = false) ∧ ';' ∉ c ∧ '\n' ∉ c) →
          ReadsAs (String.ofList ([';', ' '].intercalate (lead :: cs)))
            (cs.map fun c => String.ofList ([';', ' '].intercalate [lead, c]))) ∧
    ∀ selector : Selector, selector ≠ .any → ∀ lead rest : List Char, ';' ∉ lead ∧ '\n' ∉ lead →
      '\n' ∉ rest → ∀ s f, parse (String.ofList (lead ++ ';' :: rest)) = .ok s →
        .ofLine selector f ∈ s.clauses → selector.Leads lead := by
  refine ⟨fun text => ⟨⟨_, linesOf_textLines _, fun lines h => (linesOf_iff.1 h).symm⟩, ?_⟩, ?_, ?_⟩
  · intro lines hlines
    obtain rfl := linesOf_iff.1 hlines
    exact readsAs_textLines text
  · intro selector lead hlead cs hne hcs
    exact readsAs_lead hlead hne fun c hc => ⟨trim_ne_nil_iff.2 (hcs c hc).1, (hcs c hc).2⟩
  · intro selector hne lead rest hlead hrest s f
    exact leads_of_parse hne hlead hrest

/-- Three lines among blank ones, with line ends of both kinds and blanks around them; on the last
line two clauses follow a text that selects a line. -/
theorem reads_in_parts_mixed_lines :
    let text :=
      "\r\n  curves: 2\r\n\n\tslope: start=up \n  \r\nLINE : 02; slope: start=up;  slope: end=down "
    let lines := ["curves: 2", "slope: start=up", "LINE : 02; slope: start=up;  slope: end=down"]
    let lead := "LINE : 02".toList
    let cs := ["slope: start=up".toList, " slope: end=down".toList]
    LinesOf text.toList (lines.map String.toList) ∧ ReadsAs text lines ∧
      (';' ∉ lead ∧ '\n' ∉ lead) ∧ (Selector.nth 2).Leads lead ∧
      (∀ c ∈ cs, (∃ x ∈ c, isBlank x = false) ∧ ';' ∉ c ∧ '\n' ∉ c) ∧
      ReadsAs "LINE : 02; slope: start=up;  slope: end=down"
        ["LINE : 02; slope: start=up", "LINE : 02;  slope: end=down"] ∧
      parse text = .ok ⟨[.ofDrawing (.count ⟨2⟩), .ofLine .any (.slope ⟨some .up, none⟩),
        .ofLine (.nth 2) (.slope ⟨some .up, none⟩), .ofLine (.nth 2) (.slope ⟨none, some .down⟩)]⟩ ∧
      parse " LINE : 02; slope: start=up;  colour: red " =
        .error (.unknownFeature "colour: red".toList) := by
  intro text lines lead cs
  obtain ⟨hlines, hclauses, hleads⟩ := reads_in_parts
  have htext : LinesOf text.toList (lines.map String.toList) := linesOf_iff.2 (by decide)
  have hlead : ';' ∉ lead ∧ '\n' ∉ lead := by decide
  have hfirst : parse (String.ofList (lead ++ ';' :: " slope: start=up".toList)) =
      .ok ⟨[.ofLine (.nth 2) (.slope ⟨some .up, none⟩)]⟩ := by decide
  have hselects : (Selector.nth 2).Leads lead :=
    hleads (.nth 2) nofun lead " slope: start=up".toList hlead (by decide) _ _ hfirst
      List.mem_cons_self
  have hcs : ∀ c ∈ cs, (∃ x ∈ c, isBlank x = false) ∧ ';' ∉ c ∧ '\n' ∉ c :=
    List.forall_mem_cons.2 ⟨⟨⟨'s', by decide⟩, by decide⟩,
      List.forall_mem_singleton.2 ⟨⟨'s', by decide⟩, by decide⟩⟩
  exact ⟨htext, (hlines text).2 _ htext, hlead, hselects, hcs,
    hclauses (.nth 2) lead hselects cs (by decide) hcs, by decide, rfl⟩

end Specification

end CurveSketch
