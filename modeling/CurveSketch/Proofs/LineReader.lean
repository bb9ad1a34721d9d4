import CurveSketch.Clause
import CurveSketch.Proofs.Text

/-!
# Reading one line

What the reader makes of one line, said without the reader. A text in front of a semicolon selects a
line if its tag and its data, without the blanks around them, are `line` and a number or `match` and
a name (`Selector.Leads`). It is read as what it selects, whatever follows the semicolon
(`Selector.Leads.reads`).

A line that is read is a clause about the whole drawing, a clause about any line, or a text that
selects a line with clauses after it (`Clause.LineRead`). The clauses after such a text are read one
by one (`Clause.readLine_lead`).
-/

namespace CurveSketch

open Text

/-! ## Tags -/

/-- The tag of a text is found in front of whatever follows the text, blanks or not. -/
theorem splitTag?_trim_append {lead tag data : List Char} (h : splitTag? lead = some (tag, data))
    (htag : tag ≠ []) {rest : List Char} (hrest : trim rest ≠ []) :
    splitTag? (trim (lead ++ rest)) = some (tag, data ++ trimEnd rest) := by
  obtain ⟨⟨head, body⟩, hcut, heq⟩ := Option.map_eq_some_iff.1 h
  obtain ⟨rfl, rfl⟩ := Prod.mk.inj heq
  obtain ⟨rfl, hcolon⟩ := cut?_eq_some_iff.1 hcut
  have hhead : trim head ≠ [] := fun hnil => htag (by rw [hnil]; rfl)
  have htrim : trim ((head ++ ':' :: body) ++ rest) =
      trimStart head ++ ':' :: (body ++ trimEnd rest) := by
    rw [List.append_assoc, trim, trimStart_append_right (trim_ne_nil_iff.1 hhead),
      ← List.append_assoc, trimEnd_append_left _ (trim_ne_nil_iff.1 hrest)]
    simp
  have hcolon' : ':' ∉ trimStart head := fun hmem => hcolon ((List.dropWhile_sublist _).subset hmem)
  rw [splitTag?, htrim, cut?_append hcolon', Option.map_some, trim, trimStart_trimStart, ← trim]

/-- A tag that is found stands in front of a colon, with blanks around it. -/
theorem exists_of_splitTag?_trim {text tag data : List Char}
    (h : splitTag? (trim text) = some (tag, data)) (htag : tag ≠ []) :
    ∃ tag' head after, lower tag' = tag ∧ Padded tag' head ∧
      text = head ++ ':' :: data ++ after := by
  have htrim : trim text ≠ [] := fun hnil => by
    rw [hnil] at h
    exact absurd h nofun
  simp only [splitTag?, Option.map_eq_some_iff, Prod.mk.injEq] at h
  obtain ⟨⟨head, data'⟩, hcolon, rfl, rfl⟩ := h
  obtain ⟨hitem, -⟩ := cut?_eq_some_iff.1 hcolon
  obtain ⟨before, after, hbefore, -, htext⟩ := (padded_trim htrim).split
  have hhead : trim (before ++ head) = trim head := trim_append_left hbefore head
  have hne : trim (before ++ head) ≠ [] := fun hnil => htag (by rw [← hhead, hnil]; rfl)
  refine ⟨trim head, before ++ head, after, rfl, hhead ▸ padded_trim hne, ?_⟩
  rw [htext, hitem]
  simp

/-! ## Selectors -/

namespace Selector

/-- The tag and the data that select a line : `line` and a number, at least one and less than
`2 ^ 64`, or `match` and a name. -/
inductive SelectedBy : Selector → List Char → List Char → Prop
  | nth {digits : List Char} {n : Nat} : (∀ c ∈ digits, c.isDigit = true) →
      Nat.ofDigitChars 10 digits 0 = n → 1 ≤ n → n < 2 ^ 64 →
      SelectedBy (.nth n) "line".toList digits
  | named {name : List Char} : name ≠ [] → (∀ c ∈ name, c.isAlpha = true) →
      SelectedBy (.named name) "match".toList name

/-- A text that selects a line for the clauses that follow a semicolon : a tag in any case, a colon
and the data, with blanks around both, as in `line: 2` and `Match : a`. -/
def Leads (selector : Selector) (lead : List Char) : Prop :=
  '\n' ∉ lead ∧ ∃ tag data head body, SelectedBy selector (lower tag) data ∧ Padded tag head ∧
    Padded data body ∧ lead = head ++ ':' :: body

variable {selector : Selector} {tag data rest : List Char}

theorem item_numberTag : Item numberTag :=
  item_of_isAlphanum (List.cons_ne_nil _ _) (List.all_eq_true.1 rfl)

theorem item_nameTag : Item nameTag :=
  item_of_isAlphanum (List.cons_ne_nil _ _) (List.all_eq_true.1 rfl)

theorem selectedBy_of_isLineName {name : List Char} (h : isLineName name = true) :
    SelectedBy (.named name) nameTag name := by
  obtain ⟨hne, hletters⟩ : name ≠ [] ∧ ∀ c ∈ name, c.isAlpha = true := by
    simpa [isLineName] using h
  exact .named hne hletters

theorem SelectedBy.tag_eq (h : SelectedBy selector tag data) :
    tag = numberTag ∨ tag = nameTag := by
  cases h with
  | nth => exact .inl rfl
  | named => exact .inr rfl

/-- What selects a line is written with letters and digits. -/
theorem SelectedBy.item (h : SelectedBy selector tag data) : Item data := by
  cases h with
  | nth hdigits hvalue hpos =>
    refine item_of_isAlphanum ?_ fun c hc => by rw [Char.isAlphanum, hdigits c hc, Bool.or_true]
    rintro rfl
    exact absurd (hpos.trans_eq hvalue.symm) (by decide)
  | named hne hletters =>
    exact item_of_isAlphanum hne fun c hc => by rw [Char.isAlphanum, hletters c hc, Bool.true_or]

/-- No tag in any case contains what stands after the tag or after the data. -/
theorem SelectedBy.notMem_tag (h : SelectedBy selector (lower tag) data) :
    ':' ∉ tag ∧ ';' ∉ tag := by
  have htag : ∀ c ∈ tag, c.toLower ∈ numberTag ∨ c.toLower ∈ nameTag := fun c hc => by
    have hlower : c.toLower ∈ lower tag := List.mem_map_of_mem hc
    rcases h.tag_eq with heq | heq
    · exact .inl (heq ▸ hlower)
    · exact .inr (heq ▸ hlower)
  exact ⟨fun hmem => absurd (htag _ hmem) (by decide), fun hmem => absurd (htag _ hmem) (by decide)⟩

theorem readNth_eq_ok_iff : readNth data = .ok (selector, rest) ↔
    ∃ body, cut? ';' data = some (body, rest) ∧ SelectedBy selector numberTag (trim body) := by
  unfold readNth
  cases cut? ';' data with
  | none => exact ⟨nofun, nofun⟩
  | some parts =>
    obtain ⟨body, rest'⟩ := parts
    dsimp only
    constructor
    · intro h
      split at h
      · split_ifs at h with hn
        obtain ⟨rfl, rfl⟩ := Prod.mk.inj (Except.ok.inj h)
        rename_i hread
        obtain ⟨-, hdigits, hvalue, hfits⟩ := (readNatural_eq_ok_iff hn.2).1 hread
        exact ⟨body, rfl, .nth hdigits hvalue hn.1 hfits⟩
      · exact absurd h nofun
    · rintro ⟨body', hcut, hselected⟩
      obtain ⟨rfl, rfl⟩ := Prod.mk.inj (Option.some.inj hcut)
      generalize trim body = index at hselected ⊢
      have hne := hselected.item.tight.ne_nil
      cases hselected with
      | @nth _ n hdigits hvalue hpos hfits =>
        have hplus : index.head? ≠ some '+' := fun h =>
          absurd (hdigits _ (List.mem_of_head? h)) (by decide)
        rw [(readNatural_eq_ok_iff hplus).2 ⟨hne, hdigits, hvalue, hfits⟩]
        exact if_pos ⟨hpos, hplus⟩

theorem readNamed_eq_ok_iff : readNamed data = .ok (selector, rest) ↔
    ∃ body, cut? ';' data = some (body, rest) ∧ SelectedBy selector nameTag (trim body) := by
  unfold readNamed
  cases cut? ';' data with
  | none => exact ⟨nofun, nofun⟩
  | some parts =>
    obtain ⟨body, rest'⟩ := parts
    dsimp only
    constructor
    · intro h
      split_ifs at h with hname
      obtain ⟨rfl, rfl⟩ := Prod.mk.inj (Except.ok.inj h)
      exact ⟨body, rfl, selectedBy_of_isLineName hname⟩
    · rintro ⟨body', hcut, hselected⟩
      obtain ⟨rfl, rfl⟩ := Prod.mk.inj (Option.some.inj hcut)
      generalize trim body = name at hselected ⊢
      cases hselected with
      | named hne hletters =>
        have hname : isLineName name = true := by simpa [isLineName] using ⟨hne, hletters⟩
        exact if_pos hname

/-- A text that selects a line is read, whatever follows the semicolon. -/
theorem Leads.reads {lead : List Char} (h : selector.Leads lead) :
    ∃ tag body, splitTag? lead = some (tag, body) ∧ ∀ rest,
      tag = numberTag ∧ readNth (body ++ ';' :: rest) = .ok (selector, rest) ∨
        tag = nameTag ∧ readNamed (body ++ ';' :: rest) = .ok (selector, rest) := by
  obtain ⟨-, tag, data, head, body, hselected, hhead, hbody, rfl⟩ := h
  refine ⟨lower tag, body, ?_, fun rest => ?_⟩
  · have hcolon : ':' ∉ head := hhead.notMem rfl hselected.notMem_tag.1
    rw [splitTag?, cut?_append hcolon, Option.map_some, hhead.trim_eq]
  · have hsemicolon : ';' ∉ body := hbody.notMem rfl (hselected.item.notMem rfl)
    have hcut := cut?_append hsemicolon rest
    rw [← hbody.trim_eq] at hselected
    rcases hselected.tag_eq with htag | htag
    · rw [htag] at hselected ⊢
      exact .inl ⟨rfl, readNth_eq_ok_iff.2 ⟨body, hcut, hselected⟩⟩
    · rw [htag] at hselected ⊢
      exact .inr ⟨rfl, readNamed_eq_ok_iff.2 ⟨body, hcut, hselected⟩⟩

/-- A tag and data that select a line do so as they are written. -/
theorem SelectedBy.leads (h : SelectedBy selector tag data) : selector.Leads (tagged tag data) := by
  obtain ⟨htag, hlower⟩ : Item tag ∧ lower tag = tag := by
    rcases h.tag_eq with rfl | rfl
    · exact ⟨item_numberTag, rfl⟩
    · exact ⟨item_nameTag, rfl⟩
  have hbreak : '\n' ∉ tagged tag data := by
    simp only [tagged, List.mem_append, List.mem_cons, not_or]
    exact ⟨htag.notMem rfl, by decide, by decide, h.item.notMem rfl⟩
  exact ⟨hbreak, tag, data, tag, ' ' :: data, hlower.symm ▸ h,
    ⟨htag.tight, [], [], nofun, nofun, by simp⟩,
    ⟨h.item.tight, [' '], [], List.forall_mem_singleton.2 rfl, nofun, by simp⟩, rfl⟩

/-- The text in front of the first semicolon selects a line, if the line read does. -/
theorem leads_of_splitTag? {lead body after : List Char} (hlead : ';' ∉ lead ∧ '\n' ∉ lead)
    (htag : splitTag? (trim (lead ++ ';' :: rest)) = some (tag, data))
    (hcut : cut? ';' data = some (body, after)) (h : SelectedBy selector tag (trim body)) :
    selector.Leads lead := by
  have hne : tag ≠ [] := by
    rcases h.tag_eq with rfl | rfl <;> exact List.cons_ne_nil _ _
  obtain ⟨tag, head, blanks, rfl, hhead, htext⟩ := exists_of_splitTag?_trim htag hne
  obtain ⟨rfl, hbody⟩ := cut?_eq_some_iff.1 hcut
  -- the first semicolon of the line is the one after the data
  have hfirst : ';' ∉ head ++ ':' :: body := by
    simp only [List.mem_append, List.mem_cons, not_or]
    exact ⟨hhead.notMem rfl h.notMem_tag.2, by decide, hbody⟩
  have hcuts : some (lead, rest) = some (head ++ ':' :: body, after ++ blanks) := by
    rw [← cut?_append hlead.1 rest, htext, ← cut?_append hfirst]
    simp
  exact ⟨hlead.2, tag, trim body, head, body, h, hhead, padded_trim h.item.tight.ne_nil,
    (Prod.mk.inj (Option.some.inj hcuts)).1⟩

end Selector

/-! ## Lines that are read -/

namespace Clause

/-- What a line is read as. -/
inductive LineRead (item : List Char) : List Clause → Prop
  /-- A clause about the whole drawing. -/
  | drawing (f : DrawingFeature) : DrawingFeature.read? item = some (.ok f) →
      LineRead item [ofDrawing f]
  /-- A clause about any line. -/
  | any (f : LineFeature) : LineFeature.read item = .ok f → LineRead item [ofLine .any f]
  /-- A text that selects a line, and one clause or more about that line. -/
  | selected {tag data body rest : List Char} {selector : Selector} {cs : List Clause} :
      splitTag? item = some (tag, data) → cut? ';' data = some (body, rest) →
      selector.SelectedBy tag (trim body) → cs ≠ [] →
      (∀ c ∈ cs, ∃ part f, LineFeature.read part = .ok f ∧ c = ofLine selector f) →
      LineRead item cs

variable {item : List Char} {cs : List Clause}

theorem exists_of_readSelected {tag : List Char}
    {selected : Except SpecFault (Selector × List Char)}
    (h : readSelected tag item selected = .ok cs) :
    ∃ selector rest, selected = .ok (selector, rest) ∧ cs ≠ [] ∧
      ∀ c ∈ cs, ∃ part f, LineFeature.read part = .ok f ∧ c = ofLine selector f := by
  simp only [readSelected, bind_eq_ok] at h
  obtain ⟨⟨selector, rest⟩, hselected, clauses, hclauses, h⟩ := h
  split at h
  · simp at h
  · rename_i hne
    obtain rfl := pure_eq_ok.1 h
    refine ⟨selector, rest, hselected, by simpa using hne, fun c hc => ?_⟩
    obtain ⟨part, -, hpart⟩ := exists_of_mem_mapM hclauses hc
    obtain ⟨f, hf, heq⟩ := bind_eq_ok.1 hpart
    exact ⟨part, f, hf, (pure_eq_ok.1 heq).symm⟩

theorem lineRead_of_readLine (h : readLine item = .ok cs) : LineRead item cs := by
  have hany : (fun f => [ofLine .any f]) <$> LineFeature.read item = .ok cs →
      LineRead item cs := fun h => by
    obtain ⟨f, hf, rfl⟩ := map_eq_ok.1 h
    exact .any f hf
  unfold readLine at h
  split at h
  · rename_i result hresult
    obtain ⟨f, rfl, rfl⟩ := map_eq_ok.1 h
    exact .drawing f hresult
  split at h
  · exact hany h
  rename_i tag data htag
  split_ifs at h with hnumber hname
  · obtain ⟨selector, rest, hread, hne, hcs⟩ := exists_of_readSelected h
    obtain ⟨body, hcut, hselected⟩ := Selector.readNth_eq_ok_iff.1 hread
    exact .selected htag hcut (hnumber ▸ hselected) hne hcs
  · obtain ⟨selector, rest, hread, hne, hcs⟩ := exists_of_readSelected h
    obtain ⟨body, hcut, hselected⟩ := Selector.readNamed_eq_ok_iff.1 hread
    exact .selected htag hcut (hname ▸ hselected) hne hcs
  · exact hany h

/-- No line is skipped. -/
theorem LineRead.ne_nil (h : LineRead item cs) : cs ≠ [] := by
  cases h with
  | drawing => exact List.cons_ne_nil _ _
  | any => exact List.cons_ne_nil _ _
  | selected _ _ _ hne => exact hne

/-- A clause about a line by its number or name comes from a text that selects the line. -/
theorem LineRead.leads {lead rest : List Char} (h : LineRead (trim (lead ++ ';' :: rest)) cs)
    (hlead : ';' ∉ lead ∧ '\n' ∉ lead) {selector : Selector} {f : LineFeature}
    (hmem : ofLine selector f ∈ cs) (hne : selector ≠ .any) : selector.Leads lead := by
  cases h with
  | drawing => exact absurd (List.mem_singleton.1 hmem) nofun
  | any => exact absurd (ofLine.inj (List.mem_singleton.1 hmem)).1 hne
  | selected htag hcut hselected _ hcs =>
    obtain ⟨_, _, _, heq⟩ := hcs _ hmem
    obtain ⟨rfl, -⟩ := ofLine.inj heq
    exact Selector.leads_of_splitTag? hlead htag hcut hselected

end Clause

/-! ## Clauses after a selector -/

namespace Clause

/-- The clauses after a selector are read one by one. -/
theorem readSelected_eq (tag item : List Char) (selector : Selector) {clauses : List (List Char)}
    (hne : clauses ≠ []) (hclauses : ∀ c ∈ clauses, trim c ≠ [] ∧ ';' ∉ c) :
    readSelected tag item (.ok (selector, trimEnd (' ' :: [';', ' '].intercalate clauses))) =
      clauses.mapM fun c => ofLine selector <$> LineFeature.read (trim c) := by
  have hparts : (split ';' (trimEnd (' ' :: [';', ' '].intercalate clauses))).map trim =
      clauses.map trim := by
    rw [map_trim_split_trimEnd rfl]
    exact map_trim_split_intercalate [' '] [] [' '] hne (fun c hc => (hclauses c hc).2)
      (List.forall_mem_singleton.2 (by decide)) nofun (List.forall_mem_singleton.2 (by decide))
  have hfilter : (clauses.map trim).filter (!·.isEmpty) = clauses.map trim := by
    refine List.filter_eq_self.2 fun part hpart => ?_
    obtain ⟨c, hc, rfl⟩ := List.mem_map.1 hpart
    simpa using (hclauses c hc).1
  have hread : (clauses.map trim).mapM
      (fun part => do return ofLine selector (← LineFeature.read part)) =
        clauses.mapM fun c => ofLine selector <$> LineFeature.read (trim c) :=
    List.mapM_map
  have hselected : ∀ rest : List Char, readSelected tag item (.ok (selector, rest)) = do
      let cs : List Clause ← (((split ';' rest).map trim).filter fun part => !part.isEmpty).mapM
        fun part => do return ofLine selector (← LineFeature.read part)
      if cs.isEmpty then throw (.invalid tag item .noLineClause)
      return cs := fun _ => rfl
  rw [hselected, hparts, hfilter, hread]
  cases h : clauses.mapM fun c => ofLine selector <$> LineFeature.read (trim c) with
  | error fault => rfl
  | ok cs =>
    have hlength : clauses.length = cs.length := (mapM_eq_ok_iff.1 h).length_eq
    have hcs : ¬cs.isEmpty = true := by
      rw [List.isEmpty_iff_length_eq_zero, ← hlength, List.length_eq_zero_iff]
      exact hne
    exact if_neg hcs

/-- The clauses on a line after a selector are read one by one. -/
theorem readLine_lead {selector : Selector} {lead : List Char} (hlead : selector.Leads lead)
    {clauses : List (List Char)} (hne : clauses ≠ [])
    (hclauses : ∀ c ∈ clauses, trim c ≠ [] ∧ ';' ∉ c) :
    readLine (trim ([';', ' '].intercalate (lead :: clauses))) =
      clauses.mapM fun c => ofLine selector <$> LineFeature.read (trim c) := by
  obtain ⟨tag, data, htag, hselector⟩ := hlead.reads
  obtain ⟨first, rest, rfl⟩ := List.exists_cons_of_ne_nil hne
  have hblank : ∃ c ∈ ' ' :: [';', ' '].intercalate (first :: rest), isBlank c = false := by
    obtain ⟨c, hc, hblank⟩ := trim_ne_nil_iff.1 (hclauses first List.mem_cons_self).1
    refine ⟨c, List.mem_cons_of_mem _ ?_, hblank⟩
    cases rest with
    | nil => simpa using hc
    | cons second rest => simp [List.intercalate_cons_cons, hc]
  have hsplit : splitTag? (trim ([';', ' '].intercalate (lead :: first :: rest))) =
      some (tag, data ++ ';' :: trimEnd (' ' :: [';', ' '].intercalate (first :: rest))) := by
    have htagNe : tag ≠ [] := by
      rcases hselector [] with ⟨rfl, -⟩ | ⟨rfl, -⟩ <;> exact List.cons_ne_nil _ _
    have hend := trimEnd_append_left [';'] hblank
    rw [List.intercalate_cons_cons, List.append_assoc, splitTag?_trim_append htag htagNe]
    · exact congrArg (fun rest => some (tag, data ++ rest)) hend
    · exact trim_ne_nil_iff.2 ⟨';', List.mem_cons_self, rfl⟩
  have hdrawing : DrawingFeature.read? (trim ([';', ' '].intercalate (lead :: first :: rest))) =
      none := by
    rw [DrawingFeature.read?, hsplit]
    rcases hselector [] with ⟨rfl, -⟩ | ⟨rfl, -⟩ <;> rfl
  rw [readLine, hdrawing, hsplit]
  rcases hselector _ with ⟨rfl, hselector⟩ | ⟨rfl, hselector⟩
  · refine (if_pos rfl).trans ?_
    rw [hselector]
    exact readSelected_eq _ _ _ hne hclauses
  · refine (if_neg (by decide)).trans ((if_pos rfl).trans ?_)
    rw [hselector]
    exact readSelected_eq _ _ _ hne hclauses

end Clause

end CurveSketch
