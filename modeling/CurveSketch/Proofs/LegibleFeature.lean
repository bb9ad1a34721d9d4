import CurveSketch.Clause
import CurveSketch.Proofs.StandardName
import CurveSketch.Proofs.Text

/-!
# Legible features

A feature is legible if its text can be read back. Every feature that was read from a text is
legible, and so is every feature that describes a drawing; what is left out is a feature that says
nothing, such as a path without sectors, a number that does not fit in 64 bits, and names that are
no names. For each kind of feature the file says when it is legible, shows that a feature read from
a text is, and that a legible one is read back from its own.
-/

namespace CurveSketch

open Text

/-! ## Names of sectors -/

namespace Sector

theorem isAlpha_of_mem_name {s : Sector} {c : Char} (h : c ∈ s.name) : c.isAlpha = true := by
  have hall : ∀ s : Sector, s.name.all Char.isAlpha = true := by
    intro s
    cases s <;> rfl
  exact List.all_eq_true.1 (hall s) c h

theorem item_name (s : Sector) : Item s.name := by
  refine item_of_isAlphanum (by cases s <;> exact List.cons_ne_nil _ _) fun c hc => ?_
  rw [Char.isAlphanum, isAlpha_of_mem_name hc, Bool.true_or]

theorem read_trim (text : List Char) : read (trim text) = read text := by
  simp only [read, trim_trim]

theorem read_name (s : Sector) : read s.name = .ok s := by
  cases s <;> rfl

/-- A list of sectors is read back from their names, whatever blanks stand around them. -/
theorem readAll_eq_ok {items : List (List Char)} {sectors : List Sector}
    (h : items.map trim = sectors.map name) : readAll items = .ok sectors :=
  mapM_eq_ok read_trim h fun s _ => read_name s

theorem forall_item_names (sectors : List Sector) : ∀ p ∈ sectors.map name, Item p := by
  intro p hp
  obtain ⟨s, -, rfl⟩ := List.mem_map.1 hp
  exact s.item_name

end Sector

/-! ## Paths -/

namespace Path

/-- A path can be read back if it names a sector. -/
def Legible (path : Path) : Prop :=
  path.sectors ≠ []

theorem legible_of_read {data : List Char} {path : Path} (h : read data = .ok path) :
    path.Legible := by
  simp only [read, bind_eq_ok] at h
  obtain ⟨sectors, -, h⟩ := h
  split at h
  · simp at h
  · rename_i hne
    obtain rfl := pure_eq_ok.1 h
    simpa [Legible] using hne

theorem Legible.listing_data {path : Path} (h : path.Legible) : Listing path.data :=
  ⟨path.sectors.map Sector.name, by simpa [Legible] using h, Sector.forall_item_names _, rfl⟩

theorem Legible.read_data {path : Path} (h : path.Legible) :
    read (' ' :: path.data) = .ok path := by
  have hitems := Sector.forall_item_names path.sectors
  have hnames : (split ',' (' ' :: path.data)).map trim = path.sectors.map Sector.name :=
    map_trim_split_commaSeparated [' '] (by simpa [Legible] using h) hitems
      (List.forall_mem_singleton.2 (by decide))
  have hall : Sector.readAll (path.sectors.map Sector.name) = .ok path.sectors := by
    refine Sector.readAll_eq_ok ?_
    rw [List.map_map]
    exact List.map_congr_left fun s _ => trim_eq_self s.item_name.tight
  rw [read, hnames, filter_isEmpty_of_tight fun p hp => (hitems p hp).tight]
  simp only [hall, bind_eq_ok]
  refine ⟨_, rfl, ?_⟩
  rw [if_neg (by simpa [Legible] using h)]
  rfl

end Path

/-! ## Slopes -/

namespace Slope

/-- A slope can be read back if it states a gradient. -/
def Legible (slope : Slope) : Prop :=
  slope ≠ unstated

theorem ne_unstated_of_readItem {data item : List Char} {slope slope' : Slope}
    (h : readItem data slope item = .ok slope') : slope' ≠ unstated := by
  unfold readItem at h
  split at h
  · simp at h
  split at h
  · simp at h
  rename_i position _
  split at h
  · simp at h
  split at h
  · simp at h
  obtain rfl := pure_eq_ok.1 h
  cases position <;> simp [state, unstated]

/-- Each item that is read states a gradient, and no later item takes it back. -/
theorem ne_unstated_of_foldlM {data : List Char} {items : List (List Char)} {slope slope' : Slope}
    (h : items.foldlM (readItem data) slope = .ok slope') (hne : items ≠ [] ∨ slope ≠ unstated) :
    slope' ≠ unstated := by
  induction items generalizing slope with
  | nil =>
    rw [List.foldlM_nil, pure_eq_ok] at h
    simpa [h] using hne
  | cons item items ih =>
    rw [List.foldlM_cons, bind_eq_ok] at h
    obtain ⟨next, hnext, h⟩ := h
    exact ih h (.inr (ne_unstated_of_readItem hnext))

theorem legible_of_read {data : List Char} {slope : Slope} (h : read data = .ok slope) :
    slope.Legible :=
  ne_unstated_of_foldlM h (.inl (split_ne_nil _ _))

theorem Legible.listing_data {slope : Slope} (h : slope.Legible) : Listing slope.data := by
  refine ⟨slope.stated.map fun s => s.1.name ++ '=' :: s.2.name, ?_, fun p hp => ?_, rfl⟩
  · rcases slope with ⟨_ | _, _ | _⟩
    · exact absurd rfl h
    all_goals exact List.cons_ne_nil _ _
  · obtain ⟨⟨position, gradient⟩, -, rfl⟩ := List.mem_map.1 hp
    cases position <;> cases gradient <;>
      exact ⟨⟨⟨_, rfl, rfl⟩, ⟨_, rfl, rfl⟩⟩, List.all_eq_true.1 rfl⟩

theorem Legible.read_data {slope : Slope} (h : slope.Legible) :
    read (' ' :: slope.data) = .ok slope := by
  rcases slope with ⟨_ | (_ | _ | _), _ | (_ | _ | _)⟩
  · exact absurd rfl h
  all_goals rfl

end Slope

/-! ## Symmetries -/

namespace Symmetry

theorem listing_data (s : Symmetry) : Listing s.data := by
  refine Item.listing (item_of_isAlphanum ?_ ?_)
  · cases s <;> exact List.cons_ne_nil _ _
  · cases s <;> exact List.all_eq_true.1 rfl

theorem read_data (s : Symmetry) : read (' ' :: s.data) = .ok s := by
  cases s <;> rfl

end Symmetry

/-! ## Turning points -/

namespace Turning

/-- A list of turning points can be read back if there is one. -/
def Legible (turning : Turning) : Prop :=
  turning.expected ≠ []

theorem legible_of_read {data : List Char} {turning : Turning} (h : read data = .ok turning) :
    turning.Legible := by
  simp only [read, bind_eq_ok, pure_eq_ok] at h
  obtain ⟨expected, h, rfl⟩ := h
  rintro rfl
  exact split_ne_nil ',' data (List.forall₂_nil_right_iff.1 (mapM_eq_ok_iff.1 h))

/-- The text of one turning point. -/
def itemText (e : Extremum × Sector) : List Char :=
  e.1.name ++ preposition e.2 ++ e.2.name

theorem item_itemText (e : Extremum × Sector) : Item (itemText e) := by
  have hkind : Item e.1.name := by
    refine item_of_isAlphanum ?_ ?_
    · cases e.1 <;> exact List.cons_ne_nil _ _
    · cases e.1 <;> exact List.all_eq_true.1 rfl
  have hword : ∀ c ∈ preposition e.2, isPlain c = true := by
    cases e.2 <;> exact List.all_eq_true.1 rfl
  refine ⟨hkind.tight.append _ e.2.item_name.tight, fun c hc => ?_⟩
  simp only [itemText, List.mem_append] at hc
  rcases hc with (hc | hc) | hc
  · exact hkind.plain c hc
  · exact hword c hc
  · exact e.2.item_name.plain c hc

/-- The preposition is found where it was written. -/
theorem cutAtWord?_itemText (kind : Extremum) (s : Sector) (rest : List Char) :
    cutAtWord? prepositions (kind.name ++ preposition s ++ rest) = some (kind.name, rest) := by
  have hword : preposition s = " in ".toList ∨ preposition s = " at ".toList := by
    cases s <;> first | exact .inl rfl | exact .inr rfl
  rcases hword with h | h <;> rw [h] <;> cases kind <;> rfl

theorem readItem_trim (data item : List Char) : readItem data (trim item) = readItem data item := by
  simp only [readItem, trim_trim]

theorem readItem_itemText (data : List Char) (e : Extremum × Sector) :
    readItem data (itemText e) = .ok e := by
  have hkind : Extremum.ofName? e.1.name = some e.1 := by cases e.1 <;> rfl
  rw [readItem, trim_eq_self (item_itemText e).tight, itemText, cutAtWord?_itemText]
  simp only [hkind, Sector.read_name]
  rfl

theorem Legible.listing_data {turning : Turning} (h : turning.Legible) : Listing turning.data := by
  refine ⟨turning.expected.map itemText, by simpa [Legible] using h, fun p hp => ?_, rfl⟩
  obtain ⟨e, -, rfl⟩ := List.mem_map.1 hp
  exact item_itemText e

theorem Legible.read_data {turning : Turning} (h : turning.Legible) :
    read (' ' :: turning.data) = .ok turning := by
  have hitems : (split ',' (' ' :: turning.data)).map trim = turning.expected.map itemText := by
    refine map_trim_split_commaSeparated [' '] (by simpa [Legible] using h)
      (fun p hp => ?_) (List.forall_mem_singleton.2 (by decide))
    obtain ⟨e, -, rfl⟩ := List.mem_map.1 hp
    exact item_itemText e
  simp only [read, bind_eq_ok]
  exact ⟨_, mapM_eq_ok (readItem_trim _) hitems fun e _ => readItem_itemText _ e, rfl⟩

end Turning

/-! ## Numbers of curves -/

namespace CurveCount

/-- A number of curves can be read back if it fits in 64 bits. -/
def Legible (c : CurveCount) : Prop :=
  c.count < 0x10000000000000000

theorem legible_of_read {data : List Char} {c : CurveCount} (h : read data = .ok c) :
    c.Legible := by
  unfold read at h
  split at h
  · rename_i count hread
    obtain rfl := Except.ok.inj h
    exact readNatural_lt hread
  · simp at h

theorem listing_data (c : CurveCount) : Listing c.data :=
  (item_natural c.count).listing

theorem Legible.read_data {c : CurveCount} (h : c.Legible) : read (' ' :: c.data) = .ok c := by
  have htrim : trim (' ' :: c.data) = natural c.count := trim_blank_cons (item_natural _).tight
  rw [read, htrim, readNatural_natural h]

end CurveCount

/-! ## Crossings of two lines -/

theorem isAlphanum_of_isLineName {name : List Char} (h : isLineName name = true) {c : Char}
    (hc : c ∈ name) : c.isAlphanum = true := by
  rw [isLineName, Bool.and_eq_true] at h
  rw [Char.isAlphanum, List.all_eq_true.1 h.2 c hc, Bool.true_or]

theorem item_of_isLineName {name : List Char} (h : isLineName name = true) : Item name := by
  refine item_of_isAlphanum ?_ fun _ => isAlphanum_of_isLineName h
  rintro rfl
  exact absurd h (by decide)

namespace Meeting

/-- A relation of two lines can be read back if it names two different lines. -/
structure Legible (m : Meeting) : Prop where
  first : isLineName m.first = true
  second : isLineName m.second = true
  ne : m.first ≠ m.second

theorem legible_of_read {data : List Char} {m : Meeting} (h : read data = .ok m) : m.Legible := by
  simp only [read] at h
  split at h
  · simp at h
  rename_i hpair
  split at h
  · simp at h
  rename_i hne
  obtain ⟨sectors, -, h⟩ := bind_eq_ok.1 h
  obtain rfl := pure_eq_ok.1 h
  simp only [not_or, Bool.not_eq_true', Bool.not_eq_false] at hpair
  exact ⟨hpair.2.1, hpair.2.2, hne⟩

/-- The text that says where the lines cross. -/
def placeText (m : Meeting) : List Char :=
  match m.sectors with
  | [] => " nowhere".toList
  | sectors => " at ".toList ++ commaSeparated (sectors.map Sector.name)

theorem nextWord_at {t : List Char} (h : Tight t) :
    nextWord (" at ".toList ++ t) = ("at".toList, t) := by
  have hword := nextWord_eq [' '] "at".toList (' ' :: t)
    (List.forall_mem_singleton.2 rfl) (List.cons_ne_nil _ _) (List.all_eq_true.1 rfl)
    (by simp; rfl)
  rw [trimStart_blank_cons, trimStart_eq_self h.head] at hword
  exact hword

theorem readPlace_placeText (data : List Char) (m : Meeting) :
    readPlace data (trimStart m.placeText) = .ok m.sectors := by
  unfold readPlace placeText
  rw [nextWord_trimStart]
  cases m.sectors with
  | nil => rfl
  | cons s sectors =>
    have hitems := Sector.forall_item_names (s :: sectors)
    have hne : (s :: sectors).map Sector.name ≠ [] := List.cons_ne_nil _ _
    have htight := tight_commaSeparated hne fun p hp => (hitems p hp).tight
    simp only [nextWord_at htight]
    rw [if_neg (fun h => absurd h.1 (by decide)), if_pos (Or.inl trivial)]
    exact Sector.readAll_eq_ok
      (map_trim_split_commaSeparated [] hne hitems (by simp))

theorem isBlank_head_placeText (m : Meeting) : ∀ c ∈ m.placeText.head?, isBlank c = true := by
  unfold placeText
  cases m.sectors <;> exact fun c hc => Option.mem_some.1 hc ▸ rfl

/-- The text of a place is a word and a list. -/
theorem exists_placeText (m : Meeting) :
    ∃ word t, m.placeText = word ++ t ∧ (∀ c ∈ word, isPlain c = true) ∧ Listing t := by
  unfold placeText
  cases m.sectors with
  | nil =>
    exact ⟨[' '], "nowhere".toList, rfl, List.all_eq_true.1 rfl,
      (item_of_isAlphanum (List.cons_ne_nil _ _) (List.all_eq_true.1 rfl)).listing⟩
  | cons s sectors =>
    exact ⟨" at ".toList, _, rfl, List.all_eq_true.1 rfl, _, List.cons_ne_nil _ _,
      Sector.forall_item_names (s :: sectors), rfl⟩

theorem data_eq (m : Meeting) : m.data = m.first ++ " to ".toList ++ m.second ++ m.placeText := by
  unfold data placeText
  cases m.sectors <;> rfl

theorem Legible.tight_data {m : Meeting} (h : m.Legible) : Tight m.data := by
  obtain ⟨word, t, hplace, -, ht⟩ := m.exists_placeText
  rw [data_eq, hplace, ← List.append_assoc, List.append_assoc m.first,
    List.append_assoc m.first]
  exact (item_of_isLineName h.first).tight.append _ ht.tight

theorem Legible.notMem_data {m : Meeting} (h : m.Legible) {c : Char} (hc : isPlain c = false)
    (hcomma : c ≠ ',') : c ∉ m.data := by
  obtain ⟨word, t, hplace, hword, ht⟩ := m.exists_placeText
  have hto : ∀ c ∈ " to ".toList, isPlain c = true := List.all_eq_true.1 rfl
  rw [data_eq, hplace]
  simp only [List.mem_append, not_or]
  exact ⟨⟨⟨(item_of_isLineName h.first).notMem hc, fun hmem => by simp [hto c hmem] at hc⟩,
    (item_of_isLineName h.second).notMem hc⟩, fun hmem => by simp [hword c hmem] at hc,
    ht.notMem hc hcomma⟩

theorem Legible.read_data {m : Meeting} (h : m.Legible) : read (' ' :: m.data) = .ok m := by
  have hfirst : nextWord (' ' :: m.data) =
      (m.first, trimStart (" to ".toList ++ m.second ++ m.placeText)) := by
    have hword := nextWord_eq [' '] m.first (" to ".toList ++ m.second ++ m.placeText)
      (List.forall_mem_singleton.2 rfl) (item_of_isLineName h.first).tight.ne_nil
      (fun _ => isAlphanum_of_isLineName h.first) (by simp; rfl)
    simpa [data_eq] using hword
  have hto : nextWord (" to ".toList ++ m.second ++ m.placeText) =
      ("to".toList, trimStart (' ' :: (m.second ++ m.placeText))) :=
    nextWord_eq [' '] "to".toList (' ' :: (m.second ++ m.placeText))
      (List.forall_mem_singleton.2 rfl) (List.cons_ne_nil _ _) (List.all_eq_true.1 rfl)
      (by simp; rfl)
  have hsecond : nextWord (' ' :: (m.second ++ m.placeText)) =
      (m.second, trimStart m.placeText) :=
    nextWord_eq [' '] m.second m.placeText (List.forall_mem_singleton.2 rfl)
      (item_of_isLineName h.second).tight.ne_nil (fun _ => isAlphanum_of_isLineName h.second)
      m.isBlank_head_placeText
  simp only [read, hfirst, nextWord_trimStart, hto, hsecond, readPlace_placeText, h.first,
    h.second]
  rw [if_neg (by simp), if_neg h.ne]
  rfl

end Meeting

end CurveSketch
