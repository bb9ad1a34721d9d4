import CurveSketch.Text
import CurveSketch.Text.Natural
import Mathlib

/-!
# Text that is read back

Facts for reading back what was written. A text is `Tight` if no blank stands at its ends, so that
trimming leaves it as it is; parts that are free of a separator are found again when a text is split
at the separator and the parts are trimmed (`map_trim_split_intercalate`), whatever blanks were
written around it. Words are found again one after the other, counts from their digits.
-/

namespace CurveSketch.Text

/-! ## Blanks -/

theorem isBlank_eq_false_of_isAlphanum {c : Char} (h : c.isAlphanum = true) :
    isBlank c = false := by
  have hc : 48 ≤ c.toNat ∧ c.toNat ≤ 57 ∨ 65 ≤ c.toNat ∧ c.toNat ≤ 90 ∨
      97 ≤ c.toNat ∧ c.toNat ≤ 122 := by
    simp only [Char.isAlphanum, Char.isAlpha, Char.isUpper, Char.isLower, Char.isDigit,
      Bool.or_eq_true, Bool.and_eq_true, decide_eq_true_eq, ge_iff_le, UInt32.le_iff_toNat_le] at h
    change ((65 ≤ c.toNat ∧ c.toNat ≤ 90) ∨ (97 ≤ c.toNat ∧ c.toNat ≤ 122)) ∨
      (48 ≤ c.toNat ∧ c.toNat ≤ 57) at h
    omega
  simp only [isBlank, blankRanges, List.any_cons, List.any_nil, Bool.or_false, Bool.or_eq_false_iff,
    Bool.and_eq_false_iff, decide_eq_false_iff_not]
  omega

/-- A text with no blank at its ends, and not empty. -/
structure Tight (cs : List Char) : Prop where
  head : ∃ c ∈ cs.head?, isBlank c = false
  last : ∃ c ∈ cs.getLast?, isBlank c = false

theorem Tight.ne_nil {cs : List Char} (h : Tight cs) : cs ≠ [] := by
  rintro rfl
  simpa using h.head

/-- A text is tight if it starts and ends with tight texts. -/
theorem Tight.append {a b : List Char} (ha : Tight a) (m : List Char) (hb : Tight b) :
    Tight (a ++ m ++ b) := by
  obtain ⟨c, hc, hblank⟩ := ha.head
  obtain ⟨d, hd, hblank'⟩ := hb.last
  rw [Option.mem_def] at hc hd
  exact ⟨⟨c, by simp [hc], hblank⟩, ⟨d, by simp [hd], hblank'⟩⟩

/-- A word is tight. -/
theorem tight_of_forall {cs : List Char} (hne : cs ≠ []) (h : ∀ c ∈ cs, isBlank c = false) :
    Tight cs := by
  obtain ⟨c, hc⟩ := Option.ne_none_iff_exists'.1 (mt List.head?_eq_none_iff.1 hne)
  obtain ⟨d, hd⟩ := Option.ne_none_iff_exists'.1 (mt List.getLast?_eq_none_iff.1 hne)
  exact ⟨⟨c, hc, h c (List.mem_of_mem_head? hc)⟩, ⟨d, hd, h d (List.mem_of_mem_getLast? hd)⟩⟩

theorem tight_of_isAlphanum {cs : List Char} (hne : cs ≠ [])
    (h : ∀ c ∈ cs, c.isAlphanum = true) : Tight cs :=
  tight_of_forall hne fun c hc => isBlank_eq_false_of_isAlphanum (h c hc)

/-! ## Trimming -/

theorem trimStart_append {pre : List Char} (hpre : ∀ c ∈ pre, isBlank c = true)
    (cs : List Char) : trimStart (pre ++ cs) = trimStart cs :=
  List.dropWhile_append_of_pos hpre

theorem trim_append_left {pre : List Char} (hpre : ∀ c ∈ pre, isBlank c = true)
    (cs : List Char) : trim (pre ++ cs) = trim cs := by
  rw [trim, trimStart_append hpre, trim]

theorem trimStart_blank_cons (cs : List Char) : trimStart (' ' :: cs) = trimStart cs :=
  List.dropWhile_cons_of_pos (by decide)

/-- A text is not trimmed where it starts without a blank. -/
theorem trimStart_eq_self {cs : List Char} (h : ∃ c ∈ cs.head?, isBlank c = false) :
    trimStart cs = cs := by
  obtain ⟨c, hc, hblank⟩ := h
  cases cs with
  | nil => rfl
  | cons d cs =>
    obtain rfl : d = c := by simpa using hc
    exact List.dropWhile_cons_of_neg (by simp [hblank])

/-- A text that is not blank keeps its blanks in front of what is trimmed at the end. -/
theorem trimStart_append_right {a : List Char} (ha : ∃ c ∈ a, isBlank c = false)
    (b : List Char) : trimStart (a ++ b) = trimStart a ++ b := by
  obtain ⟨c, hc, hblank⟩ := ha
  have hrest : (a.dropWhile isBlank).isEmpty = false := by
    rw [List.isEmpty_eq_false_iff, ne_eq, List.dropWhile_eq_nil_iff]
    exact fun h => absurd (h c hc) (by simp [hblank])
  rw [trimStart, List.dropWhile_append, hrest, trimStart]
  rfl

theorem trimEnd_append_left (a : List Char) {b : List Char} (hb : ∃ c ∈ b, isBlank c = false) :
    trimEnd (a ++ b) = a ++ trimEnd b := by
  have hb' : ∃ c ∈ b.reverse, isBlank c = false := by simpa using hb
  rw [trimEnd, List.reverse_append, ← trimStart, trimStart_append_right hb', List.reverse_append,
    List.reverse_reverse]
  rfl

theorem trimEnd_append_right (cs : List Char) {post : List Char}
    (hpost : ∀ c ∈ post, isBlank c = true) : trimEnd (cs ++ post) = trimEnd cs := by
  rw [trimEnd, List.reverse_append, ← trimStart,
    trimStart_append fun c hc => hpost c (List.mem_reverse.1 hc)]
  rfl

/-- Trimming leaves nothing of blanks, and of nothing else. -/
theorem trim_eq_nil_iff {cs : List Char} : trim cs = [] ↔ ∀ c ∈ cs, isBlank c = true := by
  have hend : trim cs = [] ↔ ∀ c ∈ trimStart cs, isBlank c = true := List.rdropWhile_eq_nil_iff
  refine hend.trans (Iff.trans ⟨fun h => ?_, fun h c hc => ?_⟩ List.dropWhile_eq_nil_iff)
  · by_contra hne
    exact absurd (h _ (List.head_mem hne)) (by simpa using List.head_dropWhile_not isBlank hne)
  · rw [trimStart, h] at hc
    exact absurd hc List.not_mem_nil

theorem trim_ne_nil_iff {cs : List Char} : trim cs ≠ [] ↔ ∃ c ∈ cs, isBlank c = false := by
  rw [ne_eq, trim_eq_nil_iff]
  push Not
  simp only [Bool.not_eq_true]

theorem trim_append_right (cs : List Char) {post : List Char}
    (hpost : ∀ c ∈ post, isBlank c = true) : trim (cs ++ post) = trim cs := by
  by_cases h : ∃ c ∈ cs, isBlank c = false
  · rw [trim, trimStart_append_right h, trimEnd_append_right _ hpost, ← trim]
  · have hcs : ∀ c ∈ cs, isBlank c = true := by simpa using h
    rw [trim_append_left hcs, trim_eq_nil_iff.2 hpost, trim_eq_nil_iff.2 hcs]

theorem trim_eq_self {cs : List Char} (h : Tight cs) : trim cs = cs := by
  have hend : trimStart cs.reverse = cs.reverse := trimStart_eq_self (by simpa using h.last)
  rw [trim, trimStart_eq_self h.head, trimEnd, ← trimStart, hend, List.reverse_reverse]

theorem map_trim_eq_self {parts : List (List Char)} (h : ∀ p ∈ parts, Tight p) :
    parts.map trim = parts :=
  (List.map_congr_left fun p hp => trim_eq_self (h p hp)).trans (List.map_id _)

/-- The blank after a colon is trimmed. -/
theorem trim_blank_cons {cs : List Char} (h : Tight cs) : trim (' ' :: cs) = cs := by
  rw [trim, trimStart_blank_cons, ← trim, trim_eq_self h]

theorem trimStart_trimStart (cs : List Char) : trimStart (trimStart cs) = trimStart cs :=
  List.dropWhile_idempotent isBlank cs

/-- What is left of a text by trimming has no blanks at its ends. -/
theorem tight_trim {cs : List Char} (h : trim cs ≠ []) : Tight (trim cs) := by
  have hhead : (trim cs).head h = (trimStart cs).head _ :=
    (List.rdropWhile_prefix isBlank (trimStart cs)).head h
  refine ⟨⟨_, List.head?_eq_some_head h, ?_⟩, ⟨_, List.getLast?_eq_some_getLast h, ?_⟩⟩
  · rw [hhead]
    exact List.head_dropWhile_not isBlank _
  · exact Bool.eq_false_iff.2 (List.rdropWhile_last_not isBlank (trimStart cs) h)

theorem trim_sublist (cs : List Char) : (trim cs).Sublist cs :=
  (List.rdropWhile_prefix isBlank (trimStart cs)).sublist.trans (List.dropWhile_sublist _)

theorem trim_trim (cs : List Char) : trim (trim cs) = trim cs := by
  by_cases h : trim cs = []
  · rw [h]
    rfl
  · exact trim_eq_self (tight_trim h)

/-- A text is written with blanks around it, or none. -/
structure Padded (cs raw : List Char) : Prop where
  tight : Tight cs
  split : ∃ before after, (∀ c ∈ before, isBlank c = true) ∧ (∀ c ∈ after, isBlank c = true) ∧
    raw = before ++ cs ++ after

/-- Trimming finds the text that was written with blanks around it. -/
theorem Padded.trim_eq {cs raw : List Char} (h : Padded cs raw) : trim raw = cs := by
  obtain ⟨before, after, hbefore, hafter, rfl⟩ := h.split
  rw [trim_append_right _ hafter, trim_append_left hbefore, trim_eq_self h.tight]

theorem padded_trim {raw : List Char} (h : trim raw ≠ []) : Padded (trim raw) raw := by
  refine ⟨tight_trim h, raw.takeWhile isBlank, (trimStart raw).rtakeWhile isBlank,
    fun _ => List.mem_takeWhile_imp, fun _ => List.mem_rtakeWhile_imp, ?_⟩
  have hstart : raw.takeWhile isBlank ++ trimStart raw = raw := List.takeWhile_append_dropWhile
  have hend : trim raw ++ (trimStart raw).rtakeWhile isBlank = trimStart raw :=
    List.rdropWhile_append_rtakeWhile
  rw [List.append_assoc, hend, hstart]

/-- A character that is no blank is not among the blanks around a text. -/
theorem Padded.notMem {cs raw : List Char} (h : Padded cs raw) {c : Char}
    (hblank : isBlank c = false) (hc : c ∉ cs) : c ∉ raw := by
  obtain ⟨before, after, hbefore, hafter, rfl⟩ := h.split
  have hnot : ∀ {blanks : List Char}, (∀ c ∈ blanks, isBlank c = true) → c ∉ blanks :=
    fun hblanks hmem => by simp [hblanks c hmem] at hblank
  simp [hnot hbefore, hnot hafter, hc]

/-! ## Cutting -/

theorem cut?_append {sep : Char} {a : List Char} (h : sep ∉ a) (b : List Char) :
    cut? sep (a ++ sep :: b) = some (a, b) := by
  induction a with
  | nil => simp [cut?]
  | cons c a ih =>
    rw [List.mem_cons, not_or] at h
    rw [List.cons_append, cut?, if_neg (Ne.symm h.1), ih h.2]
    rfl

theorem cut?_eq_some_iff {sep : Char} {cs a b : List Char} :
    cut? sep cs = some (a, b) ↔ cs = a ++ sep :: b ∧ sep ∉ a := by
  refine ⟨fun h => ?_, fun ⟨hcs, ha⟩ => hcs ▸ cut?_append ha b⟩
  induction cs generalizing a with
  | nil => exact absurd h nofun
  | cons c cs ih =>
    rw [cut?] at h
    split at h
    · rename_i hc
      obtain ⟨rfl, rfl⟩ := Prod.mk.inj (Option.some.inj h)
      exact ⟨congrArg (· :: cs) hc, List.not_mem_nil⟩
    · rename_i hc
      obtain ⟨⟨a', b'⟩, hcut, heq⟩ := Option.map_eq_some_iff.1 h
      obtain ⟨rfl, rfl⟩ := Prod.mk.inj heq
      obtain ⟨rfl, ha⟩ := ih hcut
      exact ⟨rfl, List.not_mem_cons_of_ne_of_not_mem (Ne.symm hc) ha⟩

theorem split_of_notMem {sep : Char} {a : List Char} (h : sep ∉ a) : split sep a = [a] := by
  induction a with
  | nil => rfl
  | cons c a ih =>
    rw [List.mem_cons, not_or] at h
    rw [split, if_neg (Ne.symm h.1), ih h.2]

theorem split_append {sep : Char} {a : List Char} (h : sep ∉ a) (b : List Char) :
    split sep (a ++ sep :: b) = a :: split sep b := by
  induction a with
  | nil => simp [split]
  | cons c a ih =>
    rw [List.mem_cons, not_or] at h
    rw [List.cons_append, split, if_neg (Ne.symm h.1), ih h.2]

theorem split_ne_nil (sep : Char) (cs : List Char) : split sep cs ≠ [] := by
  cases cs with
  | nil => exact List.cons_ne_nil _ _
  | cons c cs =>
    rw [split]
    split
    · exact List.cons_ne_nil _ _
    · split <;> exact List.cons_ne_nil _ _

/-- What stands at the end of a text belongs to its last part. -/
theorem exists_split_append {sep : Char} (cs : List Char) {post : List Char} (h : sep ∉ post) :
    ∃ init last, split sep cs = init ++ [last] ∧
      split sep (cs ++ post) = init ++ [last ++ post] := by
  induction cs with
  | nil => exact ⟨[], [], rfl, split_of_notMem h⟩
  | cons c cs ih =>
    obtain ⟨init, last, hsplit, hsplit'⟩ := ih
    by_cases hc : c = sep
    · exact ⟨[] :: init, last, by rw [split, if_pos hc, hsplit]; rfl,
        by rw [List.cons_append, split, if_pos hc, hsplit']; rfl⟩
    · rw [List.cons_append, split, if_neg hc, hsplit, split, if_neg hc, hsplit']
      cases init with
      | nil => exact ⟨[], c :: last, rfl, rfl⟩
      | cons part init => exact ⟨(c :: part) :: init, last, rfl, rfl⟩

/-- The blanks at the end of a text do not matter to its parts. -/
theorem map_trim_split_trimEnd {sep : Char} (hsep : isBlank sep = false) (cs : List Char) :
    (split sep (trimEnd cs)).map trim = (split sep cs).map trim := by
  have hpost : ∀ c ∈ cs.rtakeWhile isBlank, isBlank c = true := fun _ => List.mem_rtakeWhile_imp
  have hnotMem : sep ∉ cs.rtakeWhile isBlank := fun h => by simp [hpost _ h] at hsep
  obtain ⟨init, last, hsplit, hsplit'⟩ := exists_split_append (trimEnd cs) hnotMem
  have hcs : trimEnd cs ++ cs.rtakeWhile isBlank = cs := List.rdropWhile_append_rtakeWhile
  rw [hcs] at hsplit'
  rw [hsplit, hsplit']
  simp [trim_append_right last hpost]

/-- No part of a text contains the separator. -/
theorem notMem_of_mem_split {sep : Char} {cs part : List Char} (h : part ∈ split sep cs) :
    sep ∉ part := by
  induction cs generalizing part with
  | nil =>
    obtain rfl := List.mem_singleton.1 h
    exact List.not_mem_nil
  | cons c cs ih =>
    rw [split] at h
    split at h
    · rcases List.mem_cons.1 h with rfl | h
      · exact List.not_mem_nil
      · exact ih h
    · rename_i hc
      cases hsplit : split sep cs with
      | nil => exact absurd hsplit (split_ne_nil sep cs)
      | cons first parts =>
        rw [hsplit] at h ih
        rcases List.mem_cons.1 h with rfl | h
        · rw [List.mem_cons, not_or]
          exact ⟨Ne.symm hc, ih List.mem_cons_self⟩
        · exact ih (List.mem_cons_of_mem _ h)

theorem mem_intercalate {c : Char} {sep : List Char} {parts : List (List Char)}
    (h : c ∈ sep.intercalate parts) : c ∈ sep ∨ ∃ p ∈ parts, c ∈ p := by
  induction parts with
  | nil => simp at h
  | cons p parts ih =>
    cases parts with
    | nil =>
      rw [List.intercalate_singleton] at h
      exact .inr ⟨p, List.mem_cons_self, h⟩
    | cons q parts =>
      rw [List.intercalate_cons_cons, List.mem_append, List.mem_append] at h
      rcases h with (h | h) | h
      · exact .inr ⟨p, List.mem_cons_self, h⟩
      · exact .inl h
      · rcases ih h with h | ⟨r, hr, h⟩
        · exact .inl h
        · exact .inr ⟨r, List.mem_cons_of_mem _ hr, h⟩

/-- Parts without the separator are found again between the separators, but for blanks : those of
the parts, and those that stand before the first part (`lead`) and around the separators (`pre` and
`post`). -/
theorem map_trim_split_intercalate {sep : Char} (lead pre post : List Char)
    {parts : List (List Char)} (hne : parts ≠ []) (hsep : ∀ p ∈ parts, sep ∉ p)
    (hlead : ∀ c ∈ lead, isBlank c = true ∧ c ≠ sep)
    (hpre : ∀ c ∈ pre, isBlank c = true ∧ c ≠ sep)
    (hpost : ∀ c ∈ post, isBlank c = true ∧ c ≠ sep) :
    (split sep (lead ++ (pre ++ sep :: post).intercalate parts)).map trim = parts.map trim := by
  induction parts generalizing lead with
  | nil => exact absurd rfl hne
  | cons p parts ih =>
    have hsepLead : sep ∉ lead := fun h => (hlead sep h).2 rfl
    have hsepPre : sep ∉ pre := fun h => (hpre sep h).2 rfl
    have hsepP : sep ∉ p := hsep p List.mem_cons_self
    cases parts with
    | nil =>
      have h : sep ∉ lead ++ p := by simp [hsepLead, hsepP]
      rw [List.intercalate_singleton, split_of_notMem h, List.map_singleton, List.map_singleton,
        trim_append_left fun c hc => (hlead c hc).1]
    | cons q parts =>
      -- the blanks after the separator lead the parts that follow
      have h : sep ∉ lead ++ p ++ pre := by simp [hsepLead, hsepP, hsepPre]
      have ih := ih post (List.cons_ne_nil _ _)
        (fun r hr => hsep r (List.mem_cons_of_mem _ hr)) hpost
      have hfirst : trim (lead ++ p ++ pre) = trim p := by
        rw [List.append_assoc, trim_append_left (fun c hc => (hlead c hc).1),
          trim_append_right p fun c hc => (hpre c hc).1]
      have hparts : lead ++ (pre ++ sep :: post).intercalate (p :: q :: parts) =
          (lead ++ p ++ pre) ++ sep :: (post ++ (pre ++ sep :: post).intercalate (q :: parts)) := by
        simp [List.intercalate_cons_cons]
      rw [hparts, split_append h, List.map_cons, ih, hfirst]
      rfl

theorem filter_isEmpty_of_tight {parts : List (List Char)} (h : ∀ p ∈ parts, Tight p) :
    parts.filter (!·.isEmpty) = parts := by
  refine List.filter_eq_self.2 fun p hp => ?_
  simpa using (h p hp).ne_nil

/-! ## Lists of items -/

/-- Tests for the characters that the items of a list are written with. -/
def isPlain (c : Char) : Bool :=
  c.isAlphanum || c == ' ' || c == '='

/-- An item of a list, as it is written. -/
structure Item (p : List Char) : Prop where
  tight : Tight p
  plain : ∀ c ∈ p, isPlain c = true

theorem item_of_isAlphanum {p : List Char} (hne : p ≠ []) (h : ∀ c ∈ p, c.isAlphanum = true) :
    Item p :=
  ⟨tight_of_isAlphanum hne h, fun c hc => by rw [isPlain, h c hc]; rfl⟩

theorem Item.notMem {p : List Char} (h : Item p) {c : Char} (hc : isPlain c = false) : c ∉ p :=
  fun hmem => absurd (h.plain c hmem) (by simp [hc])

/-- A list of one or more items, as it is written. -/
def Listing (data : List Char) : Prop :=
  ∃ items ≠ [], (∀ p ∈ items, Item p) ∧ data = commaSeparated items

theorem Item.listing {p : List Char} (h : Item p) : Listing p :=
  ⟨[p], List.cons_ne_nil _ _, by simpa using h, (List.intercalate_singleton).symm⟩

theorem tight_commaSeparated {items : List (List Char)} (hne : items ≠ [])
    (h : ∀ p ∈ items, Tight p) : Tight (commaSeparated items) := by
  induction items with
  | nil => exact absurd rfl hne
  | cons p items ih =>
    have hp : Tight p := h p List.mem_cons_self
    cases items with
    | nil => simpa [commaSeparated] using hp
    | cons q items =>
      rw [commaSeparated, List.intercalate_cons_cons]
      exact hp.append _ (ih (List.cons_ne_nil _ _) fun r hr => h r (List.mem_cons_of_mem _ hr))

theorem Listing.tight {data : List Char} (h : Listing data) : Tight data := by
  obtain ⟨items, hne, hitems, rfl⟩ := h
  exact tight_commaSeparated hne fun p hp => (hitems p hp).tight

/-- A list is written with the characters of its items and with commas. -/
theorem Listing.notMem {data : List Char} (h : Listing data) {c : Char} (hc : isPlain c = false)
    (hcomma : c ≠ ',') : c ∉ data := by
  obtain ⟨items, -, hitems, rfl⟩ := h
  intro hmem
  rcases mem_intercalate hmem with hsep | ⟨p, hp, hmem⟩
  · rcases List.mem_cons.1 hsep with rfl | hblank
    · exact hcomma rfl
    · obtain rfl := List.mem_singleton.1 hblank
      exact absurd hc (by decide)
  · exact (hitems p hp).notMem hc hmem

/-- The items of a list are found again, also after blanks. -/
theorem map_trim_split_commaSeparated (lead : List Char) {items : List (List Char)}
    (hne : items ≠ []) (h : ∀ p ∈ items, Item p)
    (hlead : ∀ c ∈ lead, isBlank c = true ∧ c ≠ ',') :
    (split ',' (lead ++ commaSeparated items)).map trim = items :=
  (map_trim_split_intercalate lead [] [' '] hne (fun p hp => (h p hp).notMem rfl) hlead nofun
    (List.forall_mem_singleton.2 (by decide))).trans
      (map_trim_eq_self fun p hp => (h p hp).tight)

/-! ## Words -/

/-- The first word of a text is found again, and the text after it is left. -/
theorem nextWord_eq (lead word rest : List Char) (hlead : ∀ c ∈ lead, isBlank c = true)
    (hne : word ≠ []) (hword : ∀ c ∈ word, c.isAlphanum = true)
    (hrest : ∀ c ∈ rest.head?, isBlank c = true) :
    nextWord (lead ++ word ++ rest) = (word, trimStart rest) := by
  obtain ⟨c, hc, hblank⟩ := (tight_of_isAlphanum hne hword).head
  rw [Option.mem_def] at hc
  have hstart : trimStart (lead ++ word ++ rest) = word ++ rest := by
    rw [List.append_assoc, trimStart_append hlead]
    exact trimStart_eq_self ⟨c, by simp [hc], hblank⟩
  have hword' : ∀ d ∈ word, (!isBlank d) = true := by
    intro d hd
    rw [isBlank_eq_false_of_isAlphanum (hword d hd), Bool.not_false]
  have htake : rest.takeWhile (!isBlank ·) = [] := by
    cases rest with
    | nil => rfl
    | cons d rest => exact List.takeWhile_cons_of_neg (by simpa using hrest)
  have hdrop : rest.dropWhile (!isBlank ·) = rest := by
    cases rest with
    | nil => rfl
    | cons d rest => exact List.dropWhile_cons_of_neg (by simpa using hrest)
  simp only [nextWord, hstart]
  rw [List.takeWhile_append_of_pos hword', List.dropWhile_append_of_pos hword', htake, hdrop,
    List.append_nil]

theorem nextWord_trimStart (cs : List Char) : nextWord (trimStart cs) = nextWord cs := by
  simp only [nextWord, trimStart_trimStart]

/-! ## Counts -/

theorem digit?_of_isDigit {c : Char} (h : c.isDigit = true) :
    digit? c = some (c.toNat - '0'.toNat) :=
  if_pos h

theorem le_ofDigitChars (cs : List Char) (v : Nat) : v ≤ Nat.ofDigitChars 10 cs v := by
  induction cs generalizing v with
  | nil => exact (Nat.ofDigitChars_nil).ge
  | cons c cs ih =>
    rw [Nat.ofDigitChars_cons]
    exact (by omega : v ≤ 10 * v + (c.toNat - '0'.toNat)).trans (ih _)

/-- Digits are read as the number they denote, if it fits. -/
theorem readDigits_eq_ok_iff {cs : List Char} {v n : Nat} (hv : v < 0x10000000000000000) :
    readDigits v cs = .ok n ↔ (∀ c ∈ cs, c.isDigit = true) ∧ Nat.ofDigitChars 10 cs v = n ∧
      n < 0x10000000000000000 := by
  induction cs generalizing v with
  | nil =>
    rw [readDigits, Nat.ofDigitChars_nil]
    exact ⟨fun h => Except.ok.inj h ▸ ⟨nofun, rfl, hv⟩, fun h => congrArg _ h.2.1⟩
  | cons c cs ih =>
    rw [readDigits, Nat.ofDigitChars_cons, Nat.mul_comm 10 v, List.forall_mem_cons]
    by_cases hc : c.isDigit = true
    · simp only [digit?_of_isDigit hc]
      split_ifs with hlt
      · rw [ih hlt, and_iff_right hc]
      · refine ⟨nofun, fun ⟨_, hn, hfits⟩ => absurd ?_ hlt⟩
        exact (le_ofDigitChars cs _).trans_lt (hn.trans_lt hfits)
    · have hnone : digit? c = none := if_neg hc
      simp only [hnone]
      exact ⟨nofun, fun h => absurd h.1.1 hc⟩

/-- A count without a sign is read from its digits. -/
theorem readNatural_eq_ok_iff {cs : List Char} {n : Nat} (hplus : cs.head? ≠ some '+') :
    readNatural cs = .ok n ↔ cs ≠ [] ∧ (∀ c ∈ cs, c.isDigit = true) ∧
      Nat.ofDigitChars 10 cs 0 = n ∧ n < 0x10000000000000000 := by
  unfold readNatural
  split
  · exact ⟨nofun, fun h => absurd rfl h.1⟩
  · exact absurd rfl hplus
  · exact absurd rfl hplus
  · rename_i hne _ _
    rw [readDigits_eq_ok_iff (by decide), and_iff_right hne]

theorem isDigit_of_mem_natural {n : Nat} {c : Char} (h : c ∈ natural n) : c.isDigit = true :=
  Nat.isDigit_of_mem_toDigits (by decide) (by decide) h

theorem item_natural (n : Nat) : Item (natural n) := by
  refine item_of_isAlphanum Nat.toDigits_ne_nil fun c hc => ?_
  rw [Char.isAlphanum, isDigit_of_mem_natural hc, Bool.or_true]

theorem plus_notMem_natural (n : Nat) : '+' ∉ natural n :=
  fun h => absurd (isDigit_of_mem_natural h) (by decide)

/-- A count that fits in 64 bits is read back from its digits. -/
theorem readNatural_natural {n : Nat} (h : n < 0x10000000000000000) :
    readNatural (natural n) = .ok n :=
  (readNatural_eq_ok_iff fun hplus => plus_notMem_natural n (List.mem_of_head? hplus)).2
    ⟨(item_natural n).tight.ne_nil, fun _ => isDigit_of_mem_natural, Nat.ofDigitChars_ten_toDigits,
      h⟩

/-- A count that is read fits in 64 bits. -/
theorem readNatural_lt {cs : List Char} {n : Nat} (h : readNatural cs = .ok n) :
    n < 0x10000000000000000 := by
  unfold readNatural at h
  split at h
  · simp at h
  · simp at h
  · exact ((readDigits_eq_ok_iff (by decide)).1 h).2.2
  · exact ((readDigits_eq_ok_iff (by decide)).1 h).2.2

/-! ## Readers -/

variable {ε α β : Type}

/-- Steps in sequence succeed when each does. -/
@[simp] theorem bind_eq_ok {x : Except ε α} {f : α → Except ε β} {b : β} :
    x >>= f = .ok b ↔ ∃ a, x = .ok a ∧ f a = .ok b := by
  cases x with
  | error e => exact ⟨nofun, fun ⟨_, h, _⟩ => nomatch h⟩
  | ok a => exact ⟨fun h => ⟨a, rfl, h⟩, fun ⟨_, ha, h⟩ => Except.ok.inj ha ▸ h⟩

@[simp] theorem map_eq_ok {x : Except ε α} {f : α → β} {b : β} :
    f <$> x = .ok b ↔ ∃ a, x = .ok a ∧ f a = b := by
  cases x with
  | error e => exact ⟨nofun, fun ⟨_, h, _⟩ => nomatch h⟩
  | ok a => exact ⟨fun h => ⟨a, rfl, Except.ok.inj h⟩, fun ⟨_, ha, h⟩ => by rw [ha, ← h]; rfl⟩

@[simp] theorem map_eq_error {x : Except ε α} {f : α → β} {e : ε} :
    f <$> x = .error e ↔ x = .error e := by
  cases x with
  | error e' => exact ⟨fun h => congrArg _ (Except.error.inj h), fun h => h ▸ rfl⟩
  | ok a => exact ⟨nofun, nofun⟩

@[simp] theorem pure_eq_ok {a b : α} : (pure a : Except ε α) = .ok b ↔ a = b :=
  ⟨Except.ok.inj, congrArg _⟩

/-- A list is read exactly when each of its items is. -/
theorem mapM_eq_ok_iff {read : α → Except ε β} {items : List α} {xs : List β} :
    items.mapM read = .ok xs ↔ List.Forall₂ (fun t x => read t = .ok x) items xs := by
  induction items generalizing xs with
  | nil => rw [List.mapM_nil, pure_eq_ok, List.forall₂_nil_left_iff, eq_comm]
  | cons t items ih =>
    rw [List.mapM_cons, List.forall₂_cons_left_iff]
    simp only [bind_eq_ok, pure_eq_ok, ih]
    constructor
    · rintro ⟨x, hx, rest, hrest, rfl⟩
      exact ⟨x, rest, hx, hrest, rfl⟩
    · rintro ⟨x, rest, hx, hrest, rfl⟩
      exact ⟨x, hx, rest, hrest, rfl⟩

/-- A list is read back if its items are, and the reader does not mind the blanks around them. -/
theorem mapM_eq_ok {read : List Char → Except ε α} (hread : ∀ t, read (trim t) = read t)
    {items : List (List Char)} {text : α → List Char} {xs : List α}
    (h : items.map trim = xs.map text) (hx : ∀ x ∈ xs, read (text x) = .ok x) :
    items.mapM read = .ok xs := by
  have hitems : List.Forall₂ (fun t x => read t = .ok x) (items.map trim) xs := by
    rw [h, List.forall₂_map_left_iff, List.forall₂_same]
    exact hx
  rw [mapM_eq_ok_iff]
  simpa only [List.forall₂_map_left_iff, hread] using hitems

/-- A list is read alike by a reader that finds, in other words, the same in each item. -/
theorem mapM_map_eq {γ δ : Type} {read : α → Except ε β} {read' : γ → Except ε δ} {f : α → γ}
    {g : β → δ} {items : List α} (h : ∀ t ∈ items, read' (f t) = g <$> read t) :
    (items.map f).mapM read' = List.map g <$> items.mapM read := by
  induction items with
  | nil => rfl
  | cons t items ih =>
    obtain ⟨ht, hitems⟩ := List.forall_mem_cons.1 h
    rw [List.map_cons, List.mapM_cons, List.mapM_cons, ht, ih hitems]
    cases read t with
    | error e => rfl
    | ok x => cases items.mapM read <;> rfl

/-- A list has the fault of the first of its items that has one. -/
theorem mapM_eq_error_iff {read : α → Except ε β} {items : List α} {e : ε} :
    items.mapM read = .error e ↔ ∃ before t after, items = before ++ t :: after ∧
      (∀ u ∈ before, ∃ x, read u = .ok x) ∧ read t = .error e := by
  induction items with
  | nil => exact ⟨nofun, fun ⟨before, t, after, h, _⟩ => absurd h (by simp)⟩
  | cons t items ih =>
    rw [List.mapM_cons]
    constructor
    · intro h
      cases ht : read t with
      | error e' =>
        obtain rfl : e' = e := by
          rw [ht] at h
          exact Except.error.inj h
        exact ⟨[], t, items, rfl, nofun, ht⟩
      | ok x =>
        have hrest : items.mapM read = .error e := by
          rw [ht] at h
          cases hitems : items.mapM read with
          | error e' =>
            rw [hitems] at h
            exact congrArg _ (Except.error.inj h)
          | ok xs =>
            rw [hitems] at h
            exact absurd h nofun
        obtain ⟨before, u, after, rfl, hbefore, hu⟩ := ih.1 hrest
        exact ⟨t :: before, u, after, rfl, List.forall_mem_cons.2 ⟨⟨x, ht⟩, hbefore⟩, hu⟩
    · rintro ⟨before, u, after, heq, hbefore, hu⟩
      cases before with
      | nil =>
        obtain ⟨rfl, rfl⟩ := List.cons.inj heq
        rw [hu]
        rfl
      | cons v before =>
        obtain ⟨rfl, rfl⟩ := List.cons.inj heq
        obtain ⟨⟨x, hx⟩, hbefore⟩ := List.forall_mem_cons.1 hbefore
        rw [hx, ih.2 ⟨before, u, after, rfl, hbefore, hu⟩]
        rfl

/-- Every item that was read comes from some text. -/
theorem exists_of_mem_mapM {read : α → Except ε β} {items : List α} {xs : List β}
    (h : items.mapM read = .ok xs) {x : β} (hx : x ∈ xs) : ∃ t ∈ items, read t = .ok x := by
  rw [mapM_eq_ok_iff] at h
  induction h with
  | nil => simp at hx
  | cons ht _ ih =>
    rcases List.mem_cons.1 hx with rfl | hx
    · exact ⟨_, List.mem_cons_self, ht⟩
    · obtain ⟨t, hmem, ht⟩ := ih hx
      exact ⟨t, List.mem_cons_of_mem _ hmem, ht⟩

end CurveSketch.Text
