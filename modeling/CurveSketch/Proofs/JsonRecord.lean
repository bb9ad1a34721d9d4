import CurveSketch.Json.Decoder
import CurveSketch.Proofs.JsonRange
import CurveSketch.Proofs.KeyOrder

/-!
# Values found again

A decoder and an encoder belong together if what was found in a value that was read is found again
in its encoding, which can be written (`Json.Recovers`). Plain values, lists and records are put
together from their parts: a record is an object of its fields (`Json.record`), and each field is
recovered on its own (`Json.FieldRecovers`). Free content is recovered as it is, its members being
distinct and in the order of their names (`Json.recovers_content?`).
-/

namespace CurveSketch.Json

/-! ## Doubles -/

mutual

/-- The doubles in a value. -/
def floats : Json → List Float
  | number (some (.float x)) => [x]
  | array items => floatsOfItems items
  | object members => floatsOfMembers members
  | _ => []

/-- The doubles in the items of an array. -/
def floatsOfItems : List Json → List Float
  | [] => []
  | v :: rest => floats v ++ floatsOfItems rest

/-- The doubles in the members of an object. -/
def floatsOfMembers : List (Option String × Json) → List Float
  | [] => []
  | (_, v) :: rest => floats v ++ floatsOfMembers rest

end

theorem mem_floatsOfItems {items : List Json} {v : Json} (hv : v ∈ items) {x : Float}
    (hx : x ∈ v.floats) : x ∈ floatsOfItems items := by
  induction items with
  | nil => exact absurd hv List.not_mem_nil
  | cons w items ih =>
    rw [floatsOfItems, List.mem_append]
    rcases List.mem_cons.1 hv with rfl | hv
    · exact .inl hx
    · exact .inr (ih hv)

theorem mem_floatsOfMembers {members : List (Option String × Json)} {m : Option String × Json}
    (hm : m ∈ members) {x : Float} (hx : x ∈ m.2.floats) : x ∈ floatsOfMembers members := by
  induction members with
  | nil => exact absurd hm List.not_mem_nil
  | cons w members ih =>
    obtain ⟨name, v⟩ := w
    rw [floatsOfMembers, List.mem_append]
    rcases List.mem_cons.1 hm with rfl | hm
    · exact .inl hx
    · exact .inr (ih hm)

/-- The printer writes the doubles of a value as numbers that read back, if they are finite. -/
def PrintedBy (printFloat : Float → String) (v : Json) : Prop :=
  ∀ x ∈ v.floats, x.isFinite = true → Numeral.Spells (printFloat x).toList (.float x)

/-- Everything in a value could be represented, and its numbers are in range. -/
def Clean : Json → Prop :=
  Every (fun n? => ∃ n, n? = some n ∧ n.InRange) fun s? => s?.isSome = true

/-- A clean value is legible, if its doubles are. -/
theorem Clean.legible {printFloat : Float → String} {v : Json} (h : v.Clean)
    (hprint : v.PrintedBy printFloat) : v.Legible printFloat := by
  induction h with
  | null => exact .null
  | bool b => exact .bool b
  | number h =>
    obtain ⟨n, rfl, hn⟩ := h
    refine .number ⟨n, rfl, ?_⟩
    cases n with
    | int n => exact Numeral.spells_writeInt hn.1 hn.2
    | float x =>
      have hfinite : x.isFinite = true := hn
      rw [writeNumber, if_pos hfinite]
      exact hprint x List.mem_cons_self hfinite
  | string h => exact .string h
  | array _ ih =>
    exact .array fun v hv => ih v hv fun x hx => hprint x (mem_floatsOfItems hv hx)
  | object hnames _ ih =>
    exact .object hnames fun m hm => ih m hm fun x hx => hprint x (mem_floatsOfMembers hm hx)

/-! ## Recovering values -/

variable {α : Type}

/-- What is found in a value that was read is found again in its encoding, which is clean, and not
`null` but for `null`. -/
def Recovers (decode? : Json → Option α) (encode : α → Json) : Prop :=
  ∀ v a, v.InRange → decode? v = some a →
    decode? (encode a) = some a ∧ (encode a).Clean ∧ (encode a = .null → v = .null)

theorem isFinite_ofInt {n : Int} (hlow : -0x8000000000000000 ≤ n)
    (hhigh : n < 0x10000000000000000) : (Float.ofInt n).isFinite = true := by
  cases n with
  | ofNat n =>
    have hn : (n : Int) < 0x10000000000000000 := hhigh
    exact (Numeral.within_ofNat (by omega)).isFinite
  | negSucc n => exact Numeral.isFinite_neg (Numeral.within_ofNat (by omega)).isFinite

theorem recovers_float? : Recovers float? ofFloat := by
  intro v x hv h
  have hfinite : x.isFinite = true := by
    unfold float? at h
    split at h
    · obtain rfl := Option.some.inj h
      have hn := every_number_iff.1 hv _ rfl
      exact isFinite_ofInt hn.1 hn.2
    · obtain rfl := Option.some.inj h
      exact every_number_iff.1 hv _ rfl
    · exact absurd h nofun
  exact ⟨rfl, .number ⟨_, rfl, hfinite⟩, nofun⟩

theorem recovers_int? : Recovers int? ofInt := by
  intro v n _ h
  unfold int? at h
  split at h
  · split at h
    · rename_i hn
      obtain rfl := Option.some.inj h
      exact ⟨if_pos hn, .number ⟨_, rfl, hn.1, hn.2.trans (by decide)⟩, nofun⟩
    · exact absurd h nofun
  · exact absurd h nofun

theorem recovers_bool? : Recovers bool? bool :=
  fun _ b _ _ => ⟨rfl, .bool b, nofun⟩

theorem recovers_text? : Recovers text? ofString :=
  fun _ _ _ _ => ⟨rfl, .string rfl, nofun⟩

section

variable {decode? : Json → Option α} {encode : α → Json} (h : Recovers decode? encode)

include h

theorem recovers_list? : Recovers (list? decode?) fun as => array (as.map encode) := by
  intro v as hv hread
  unfold list? at hread
  split at hread
  · rename_i items
    suffices hall : (as.map encode).mapM decode? = some as ∧ ∀ a ∈ as, (encode a).Clean from
      ⟨hall.1, .array (List.forall_mem_map.2 hall.2), nofun⟩
    have hitems := every_array_iff.1 hv
    clear hv
    induction items generalizing as with
    | nil =>
      obtain rfl : [] = as := Option.some.inj hread
      exact ⟨rfl, nofun⟩
    | cons v items ih =>
      simp only [List.mapM_cons, Option.bind_eq_bind, Option.bind_eq_some_iff] at hread
      obtain ⟨a, ha, as', has, heq⟩ := hread
      obtain rfl := Option.some.inj heq
      obtain ⟨hv, hitems⟩ := List.forall_mem_cons.1 hitems
      obtain ⟨hagain, hclean, -⟩ := h v a hv ha
      obtain ⟨hagain', hclean'⟩ := ih as' has hitems
      refine ⟨?_, List.forall_mem_cons.2 ⟨hclean, hclean'⟩⟩
      simp [hagain, hagain']
  · exact absurd hread nofun

end

/-! ## Recovering fields -/

/-- What a field gives is given again by what is written for it. -/
def FieldRecovers (read? : Option Json → Option α) (write : α → Option Json) : Prop :=
  ∀ v? a, (∀ v ∈ v?, v.InRange) → read? v? = some a →
    read? (write a) = some a ∧ ∀ w ∈ write a, w.Clean

theorem optional_some (decode? : Json → Option α) {v : Json} (hv : v ≠ .null) :
    optional decode? (some v) = (decode? v).map some := by
  cases v <;> first | rfl | exact absurd rfl hv

section

variable {decode? : Json → Option α} {encode : α → Json} (h : Recovers decode? encode)

include h

theorem fieldRecovers_required : FieldRecovers (required decode?) fun a => some (encode a) := by
  intro v? a hv hread
  cases v? with
  | none => exact absurd hread nofun
  | some v =>
    obtain ⟨hagain, hclean, -⟩ := h v a (hv v rfl) hread
    exact ⟨hagain, fun w hw => Option.some.inj hw ▸ hclean⟩

theorem fieldRecovers_defaulted (value : α) (hvalue : decode? (encode value) = some value)
    (hclean : (encode value).Clean) :
    FieldRecovers (defaulted value decode?) fun a => some (encode a) := by
  intro v? a hv hread
  cases v? with
  | none =>
    obtain rfl := Option.some.inj hread
    exact ⟨hvalue, fun w hw => Option.some.inj hw ▸ hclean⟩
  | some v =>
    obtain ⟨hagain, hclean, -⟩ := h v a (hv v rfl) hread
    exact ⟨hagain, fun w hw => Option.some.inj hw ▸ hclean⟩

theorem fieldRecovers_optional : FieldRecovers (optional decode?) (Option.map encode) := by
  intro v? a? hv hread
  cases v? with
  | none =>
    obtain rfl := Option.some.inj hread
    exact ⟨rfl, nofun⟩
  | some v =>
    by_cases hnull : v = .null
    · subst hnull
      obtain rfl := Option.some.inj hread
      exact ⟨rfl, nofun⟩
    · rw [optional_some decode? hnull] at hread
      obtain ⟨a, ha, rfl⟩ := Option.map_eq_some_iff.1 hread
      obtain ⟨hagain, hclean, hne⟩ := h v a (hv v rfl) ha
      refine ⟨?_, fun w hw => Option.some.inj hw ▸ hclean⟩
      rw [Option.map_some, optional_some decode? (mt hne hnull), hagain]
      rfl

end

/-! ## Records -/

/-- The object of some fields, without those that have no value. -/
def record (fields : List (String × Option Json)) : Json :=
  object (fields.flatMap fun f => member? f.1 f.2)

/-- The fields of a record that have a value. -/
def present (fields : List (String × Option Json)) : List (String × Json) :=
  fields.filterMap fun f => f.2.map (f.1, ·)

theorem record_eq (fields : List (String × Option Json)) :
    record fields = object ((present fields).map fun f => (some f.1, f.2)) := by
  have hmember : ∀ f : String × Option Json,
      member? f.1 f.2 = ((f.2.map (f.1, ·)).map fun e => (some e.1, e.2)).toList := fun f => by
    rw [Option.map_map]
    rfl
  rw [record, present, List.map_filterMap, List.filterMap_eq_flatMap_toList]
  simp only [hmember]

theorem mem_present_iff {fields : List (String × Option Json)} {name : String} {v : Json} :
    (name, v) ∈ present fields ↔ (name, some v) ∈ fields := by
  simp only [present, List.mem_filterMap, Option.map_eq_some_iff, Prod.mk.injEq]
  constructor
  · rintro ⟨⟨name', v?⟩, hf, w, rfl, rfl, rfl⟩
    exact hf
  · intro hf
    exact ⟨_, hf, v, rfl, rfl, rfl⟩

theorem clean_record {fields : List (String × Option Json)}
    (h : ∀ f ∈ fields, ∀ v ∈ f.2, v.Clean) : (record fields).Clean := by
  rw [record_eq]
  refine .object ?_ ?_
  · exact List.forall_mem_map.2 fun _ _ => rfl
  · exact List.forall_mem_map.2 fun f hf => h _ (mem_present_iff.1 hf) f.2 rfl

theorem sublist_present (fields : List (String × Option Json)) :
    ((present fields).map (·.1)).Sublist (fields.map (·.1)) := by
  induction fields with
  | nil => exact .slnil
  | cons f fields ih =>
    obtain ⟨name, v?⟩ := f
    cases v? with
    | none => exact ih.cons name
    | some v => exact ih.cons_cons name

theorem mem_of_lookup {entries : List (String × Json)} {name : String} {v : Json}
    (h : List.lookup name entries = some v) : (name, v) ∈ entries := by
  obtain ⟨before, after, rfl, -⟩ := List.lookup_eq_some_iff.1 h
  exact List.mem_append_right _ List.mem_cons_self

theorem lookup_present {fields : List (String × Option Json)}
    (hnodup : (fields.map (·.1)).Nodup) {f : String × Option Json} (hf : f ∈ fields) :
    List.lookup f.1 (present fields) = f.2 := by
  obtain ⟨name, v?⟩ := f
  cases hlookup : List.lookup name (present fields) with
  | none =>
    cases v? with
    | none => rfl
    | some v =>
      have hne := List.lookup_eq_none_iff.1 hlookup _ (mem_present_iff.2 hf)
      exact absurd rfl (bne_iff_ne.1 hne)
  | some w =>
    have hw := mem_present_iff.1 (mem_of_lookup hlookup)
    exact congrArg (·.2) (List.inj_on_of_nodup_map hnodup hw hf rfl)

theorem mapM_some_map (entries : List (String × Json)) :
    (entries.map fun e => (some e.1, e.2)).mapM (fun m : Option String × Json => m.1.map (·, m.2)) =
      some entries := by
  induction entries with
  | nil => rfl
  | cons e entries ih => simp [ih]

/-- The fields of a record are found under their names. -/
theorem exists_fields?_record (fields : List (String × Option Json))
    (hnodup : (fields.map (·.1)).Nodup) :
    ∃ field, fields? (fields.map (·.1)) (record fields) = some field ∧
      ∀ f ∈ fields, field f.1 = f.2 := by
  have hknown : (present fields).filter (fun m => (fields.map (·.1)).contains m.1) =
      present fields :=
    List.filter_eq_self.2 fun m hm => List.contains_iff_mem.2
      ((sublist_present fields).subset (List.mem_map_of_mem hm))
  refine ⟨fun name => List.lookup name (present fields), ?_, fun f => lookup_present hnodup⟩
  rw [record_eq]
  simp only [fields?, mapM_some_map, Option.bind_eq_bind, Option.bind_some, hknown]
  exact if_pos ((sublist_present fields).nodup hnodup)

theorem exists_of_mem_mapM {β : Type} {f : α → Option β} {xs : List α} {ys : List β}
    (h : xs.mapM f = some ys) {y : β} (hy : y ∈ ys) : ∃ x ∈ xs, f x = some y := by
  induction xs generalizing ys with
  | nil =>
    obtain rfl : [] = ys := Option.some.inj h
    exact absurd hy List.not_mem_nil
  | cons x xs ih =>
    simp only [List.mapM_cons, Option.bind_eq_bind, Option.bind_eq_some_iff] at h
    obtain ⟨y', hy', ys', hys', heq⟩ := h
    obtain rfl := Option.some.inj heq
    rcases List.mem_cons.1 hy with rfl | hy
    · exact ⟨x, List.mem_cons_self, hy'⟩
    · obtain ⟨x', hx', hfx'⟩ := ih hys' hy
      exact ⟨x', List.mem_cons_of_mem _ hx', hfx'⟩

/-- The fields of a value in range are in range. -/
theorem inRange_of_fields? {names : List String} {v : Json} (hv : v.InRange)
    {field : String → Option Json} (h : fields? names v = some field) (name : String) :
    ∀ w ∈ field name, w.InRange := by
  intro w hw
  unfold fields? at h
  split at h
  · rename_i members
    simp only [Option.bind_eq_bind, Option.bind_eq_some_iff] at h
    obtain ⟨entries, hentries, h⟩ := h
    split at h
    · obtain rfl := Option.some.inj h
      obtain ⟨m, hm, hmw⟩ := exists_of_mem_mapM hentries (List.mem_filter.1 (mem_of_lookup hw)).1
      obtain ⟨_, -, heq⟩ := Option.map_eq_some_iff.1 hmw
      obtain ⟨-, rfl⟩ := Prod.mk.inj heq
      exact (every_object_iff.1 hv).2 m hm
    · exact absurd h nofun
  · split at h
    · obtain rfl := Option.some.inj h
      exact every_array_iff.1 hv w (List.of_mem_zip (mem_of_lookup hw)).2
    · exact absurd h nofun
  · exact absurd h nofun

/-- A record is recovered, if what is built of its fields is built again of what is written for
them. -/
theorem recovers_record {decode? : Json → Option α} {encode : α → Json}
    (fields : α → List (String × Option Json)) (hencode : ∀ a, encode a = record (fields a))
    {names : List String} (hnames : ∀ a, (fields a).map (·.1) = names) (hnodup : names.Nodup)
    {build : (String → Option Json) → Option α}
    (hdecode : ∀ v, decode? v = (fields? names v).bind build)
    (h : ∀ field a, (∀ name, ∀ v ∈ field name, v.InRange) → build field = some a →
      (∀ f ∈ fields a, ∀ v ∈ f.2, v.Clean) ∧
        ∀ field', (∀ f ∈ fields a, field' f.1 = f.2) → build field' = some a) :
    Recovers decode? encode := by
  intro v a hv hread
  rw [hdecode] at hread
  obtain ⟨field, hfield, hbuild⟩ := Option.bind_eq_some_iff.1 hread
  obtain ⟨hclean, hagain⟩ := h field a (inRange_of_fields? hv hfield) hbuild
  obtain ⟨field', hfield', hvalues⟩ := exists_fields?_record (fields a)
    (by rwa [hnames])
  rw [hnames] at hfield'
  rw [hdecode, hencode, hfield']
  exact ⟨hagain field' hvalues, clean_record hclean, nofun⟩

/-! ## Free content -/

theorem lastOfEach_sublist (members : List (Option String × Json)) :
    (lastOfEach members).Sublist members := by
  induction members with
  | nil => exact .slnil
  | cons m rest ih =>
    unfold lastOfEach
    split
    · exact ih.cons m
    · exact ih.cons_cons m

theorem nodup_lastOfEach (members : List (Option String × Json)) :
    ((lastOfEach members).map (·.1)).Nodup := by
  induction members with
  | nil => exact List.nodup_nil
  | cons m rest ih =>
    unfold lastOfEach
    split
    · exact ih
    · rename_i hnone
      refine List.nodup_cons.2 ⟨fun hm => hnone ?_, ih⟩
      obtain ⟨m', hm', heq⟩ := List.mem_map.1 hm
      exact List.any_eq_true.2 ⟨m', (lastOfEach_sublist rest).subset hm', beq_iff_eq.2 heq⟩

/-- Members with names of their own are all the last with their names. -/
theorem lastOfEach_of_nodup {members : List (Option String × Json)}
    (h : (members.map (·.1)).Nodup) : lastOfEach members = members := by
  induction members with
  | nil => rfl
  | cons m rest ih =>
    obtain ⟨hm, hrest⟩ := List.nodup_cons.1 h
    rw [lastOfEach, if_neg, ih hrest]
    intro hany
    obtain ⟨m', hm', heq⟩ := List.any_eq_true.1 hany
    exact hm (List.mem_map.2 ⟨m', hm', beq_iff_eq.1 heq⟩)

theorem inNameOrder_inNameOrder (members : List (Option String × Json)) :
    inNameOrder (inNameOrder members) = inNameOrder members := by
  let name (m : Option String × Json) : String := m.1.getD ""
  exact List.mergeSort_of_pairwise
    (List.pairwise_mergeSort (key_le_trans name) (key_le_total name) members)

/-- The members that are kept are kept again. -/
theorem inNameOrder_lastOfEach (members : List (Option String × Json)) :
    inNameOrder (lastOfEach (inNameOrder (lastOfEach members))) =
      inNameOrder (lastOfEach members) := by
  have hperm : (inNameOrder (lastOfEach members)).Perm (lastOfEach members) :=
    List.mergeSort_perm _ _
  rw [lastOfEach_of_nodup ((hperm.map (·.1)).nodup_iff.2 (nodup_lastOfEach members)),
    inNameOrder_inNameOrder]

/-- What is kept of an item or a member : it is clean, and kept as it is. -/
def Kept (depth : Nat) (v : Json) : Prop :=
  content? depth v = some v ∧ v.Clean

theorem contentItems?_of_kept {depth : Nat} {items : List Json} (h : ∀ v ∈ items, Kept depth v) :
    contentItems? depth items = some items := by
  induction items with
  | nil => rfl
  | cons v rest ih =>
    obtain ⟨hv, hrest⟩ := List.forall_mem_cons.1 h
    rw [contentItems?, hv.1, ih hrest]
    rfl

theorem contentMembers?_of_kept {depth : Nat} {members : List (Option String × Json)}
    (hnames : ∀ m ∈ members, m.1.isSome = true) (h : ∀ m ∈ members, Kept depth m.2) :
    contentMembers? depth members = some members := by
  induction members with
  | nil => rfl
  | cons m rest ih =>
    obtain ⟨name?, v⟩ := m
    obtain ⟨hname, hrestNames⟩ := List.forall_mem_cons.1 hnames
    obtain ⟨hv, hrest⟩ := List.forall_mem_cons.1 h
    obtain ⟨name, rfl⟩ := Option.isSome_iff_exists.1 hname
    rw [contentMembers?, hv.1, ih hrestNames hrest]
    rfl

/-- The content of values whose content is kept. -/
theorem kept_of_contentItems? {depth : Nat} {items kept : List Json}
    (ih : ∀ v ∈ items, ∀ w, content? depth v = some w → Kept depth w)
    (h : contentItems? depth items = some kept) : ∀ w ∈ kept, Kept depth w := by
  induction items generalizing kept with
  | nil =>
    obtain rfl := Option.some.inj h
    exact nofun
  | cons v rest ihRest =>
    simp only [contentItems?, Option.bind_eq_bind, Option.bind_eq_some_iff] at h
    obtain ⟨w, hw, kept', hkept, heq⟩ := h
    obtain rfl := Option.some.inj heq
    obtain ⟨hv, hrest⟩ := List.forall_mem_cons.1 ih
    exact List.forall_mem_cons.2 ⟨hv w hw, ihRest hrest hkept⟩

theorem kept_of_contentMembers? {depth : Nat} {members kept : List (Option String × Json)}
    (ih : ∀ m ∈ members, ∀ w, content? depth m.2 = some w → Kept depth w)
    (h : contentMembers? depth members = some kept) :
    ∀ m ∈ kept, m.1.isSome = true ∧ Kept depth m.2 := by
  induction members generalizing kept with
  | nil =>
    obtain rfl := Option.some.inj h
    exact nofun
  | cons m rest ihRest =>
    obtain ⟨name?, v⟩ := m
    cases name? with
    | none => exact absurd h nofun
    | some name =>
      simp only [contentMembers?, Option.bind_eq_bind, Option.bind_eq_some_iff] at h
      obtain ⟨w, hw, kept', hkept, heq⟩ := h
      obtain rfl := Option.some.inj heq
      obtain ⟨hv, hrest⟩ := List.forall_mem_cons.1 ih
      exact List.forall_mem_cons.2 ⟨⟨rfl, hv w hw⟩, ihRest hrest hkept⟩

/-- Content that was found is clean, and its own content. -/
theorem kept_of_content? {v : Json} (hv : v.InRange) {depth : Nat} {w : Json}
    (h : content? depth v = some w) : Kept depth w := by
  induction hv generalizing depth w with
  | null =>
    obtain rfl := Option.some.inj h
    exact ⟨rfl, .null⟩
  | bool b =>
    obtain rfl := Option.some.inj h
    exact ⟨rfl, .bool b⟩
  | @number n? hn =>
    cases n? with
    | none => exact absurd h nofun
    | some n =>
      obtain rfl := Option.some.inj h
      exact ⟨rfl, .number ⟨n, rfl, hn n rfl⟩⟩
  | @string s? _ =>
    cases s? with
    | none => exact absurd h nofun
    | some s =>
      obtain rfl := Option.some.inj h
      exact ⟨rfl, .string rfl⟩
  | @array items _ ih =>
    rw [content?] at h
    split at h
    · exact absurd h nofun
    · rename_i hdepth
      obtain ⟨kept, hkept, rfl⟩ := Option.map_eq_some_iff.1 h
      have hall := kept_of_contentItems? (fun v hv w hw => ih v hv hw) hkept
      refine ⟨?_, .array fun v hv => (hall v hv).2⟩
      rw [content?, if_neg hdepth, contentItems?_of_kept hall]
      rfl
  | @object members _ _ ih =>
    rw [content?] at h
    split at h
    · exact absurd h nofun
    · rename_i hdepth
      obtain ⟨kept, hkept, rfl⟩ := Option.map_eq_some_iff.1 h
      have hall := kept_of_contentMembers? (fun m hm w hw => ih m hm hw) hkept
      have hsub : ∀ m ∈ inNameOrder (lastOfEach kept), m.1.isSome = true ∧ Kept (depth - 1) m.2 :=
        fun m hm => hall m ((lastOfEach_sublist kept).subset (List.mem_mergeSort.1 hm))
      refine ⟨?_, .object (fun m hm => (hsub m hm).1) fun m hm => (hsub m hm).2.2⟩
      rw [content?, if_neg hdepth, contentMembers?_of_kept (fun m hm => (hsub m hm).1)
        fun m hm => (hsub m hm).2, Option.map_some, inNameOrder_lastOfEach]

theorem recovers_content? (depth : Nat) : Recovers (content? depth) id := by
  intro v w hv h
  obtain ⟨hagain, hclean⟩ := kept_of_content? hv h
  refine ⟨hagain, hclean, fun hnull => ?_⟩
  obtain rfl : w = .null := hnull
  cases v with
  | null => rfl
  | bool b => exact absurd h nofun
  | number n? => cases n? <;> exact absurd h nofun
  | string s? => cases s? <;> exact absurd h nofun
  | array items =>
    rw [content?] at h
    split at h
    · exact absurd h nofun
    · exact absurd (Option.map_eq_some_iff.1 h) (by simp)
  | object members =>
    rw [content?] at h
    split at h
    · exact absurd h nofun
    · exact absurd (Option.map_eq_some_iff.1 h) (by simp)

/-! ## Texts -/

/-- What was found in a text is found again in the text of its encoding. -/
theorem Recovers.parse? {decode? : Json → Option α} {encode : α → Json}
    (h : Recovers decode? encode) {text : String} {a : α}
    (hread : (Json.parse? text).bind decode? = some a) {printFloat : Float → String}
    (hprint : (encode a).PrintedBy printFloat) :
    (Json.parse? ((encode a).text printFloat)).bind decode? = some a := by
  obtain ⟨v, hv, ha⟩ := Option.bind_eq_some_iff.1 hread
  obtain ⟨hagain, hclean, -⟩ := h v a (inRange_of_parse? hv) ha
  rw [parse?_text (hclean.legible hprint)]
  exact hagain

end CurveSketch.Json
