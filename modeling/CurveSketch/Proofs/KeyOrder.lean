import Mathlib

/-!
# Lists sorted by a key

Lines are sorted by where they start, turning points by their horizontal coordinate and crossings by
their parameter : always by a key in a linear order, and elements with equal keys stay in the order
in which they were. What is known of such a list is that it is in order and that elements with equal
keys have kept theirs, and these two facts leave no choice (`eq_of_filter_key_eq`). So it makes no
difference whether elements are left out before or after, nor in which order they were before if
their keys are different, and lists whose elements correspond, with equal keys, are sorted alike.
-/

namespace CurveSketch

/-- A list in which what has a property comes first falls into two parts. -/
theorem filter_append_filter_not {α : Type} {p : α → Bool} {l : List α}
    (h : l.Pairwise fun a b => p b = true → p a = true) :
    (l.filter p ++ l.filter fun a => !p a) = l := by
  induction l with
  | nil => rfl
  | cons a l ih =>
    obtain ⟨hfirst, hrest⟩ := List.pairwise_cons.1 h
    cases ha : p a with
    | true => simpa [ha] using ih hrest
    | false =>
      have hnone : ∀ b ∈ l, p b = false := fun b hb => by
        cases hpb : p b with
        | false => rfl
        | true => exact absurd (ha.symm.trans (hfirst b hb hpb)) Bool.false_ne_true
      have hall : (l.filter fun a => !p a) = l :=
        List.filter_eq_self.2 fun b hb => by rw [hnone b hb, Bool.not_false]
      have hnil : l.filter p = [] :=
        List.filter_eq_nil_iff.2 fun b hb => by simp [hnone b hb]
      simp [ha, hnil, hall]

section

variable {α κ : Type} [LinearOrder κ]

theorem key_le_trans (key : α → κ) (a b c : α) (hab : decide (key a ≤ key b) = true)
    (hbc : decide (key b ≤ key c) = true) : decide (key a ≤ key c) = true :=
  decide_eq_true ((of_decide_eq_true hab).trans (of_decide_eq_true hbc))

theorem key_le_total (key : α → κ) (a b : α) :
    (decide (key a ≤ key b) || decide (key b ≤ key a)) = true := by
  rw [Bool.or_eq_true, decide_eq_true_eq, decide_eq_true_eq]
  exact le_total _ _

theorem pairwise_mergeSort_key (key : α → κ) (l : List α) :
    (l.mergeSort fun a b => decide (key a ≤ key b)).Pairwise fun a b => key a ≤ key b :=
  (List.pairwise_mergeSort (key_le_trans key) (key_le_total key) l).imp of_decide_eq_true

/-- Elements with equal keys stay in their order. -/
theorem filter_mergeSort_key (key : α → κ) (l : List α) (k : κ) :
    (l.mergeSort fun a b => decide (key a ≤ key b)).filter (key · = k) =
      l.filter (key · = k) := by
  have hkey : ∀ {a}, a ∈ l.filter (key · = k) → key a = k := fun ha =>
    of_decide_eq_true (List.mem_filter.1 ha).2
  have hequal : (l.filter (key · = k)).Pairwise fun a b => decide (key a ≤ key b) = true :=
    List.pairwise_of_forall_mem_list fun a ha b hb =>
      decide_eq_true ((hkey ha).trans (hkey hb).symm).le
  have hsublist := (List.sublist_mergeSort (key_le_trans key) (key_le_total key) hequal
    List.filter_sublist).filter (key · = k)
  rw [List.filter_eq_self.2 fun a ha => decide_eq_true (hkey ha)] at hsublist
  exact (hsublist.eq_of_length ((List.mergeSort_perm l _).filter _).length_eq.symm).symm

/-- Lists in order with the same elements of each key, in the same order, are equal. -/
theorem eq_of_filter_key_eq (key : α → κ) {l l' : List α}
    (hl : l.Pairwise fun a b => key a ≤ key b) (hl' : l'.Pairwise fun a b => key a ≤ key b)
    (h : ∀ k, l.filter (key · = k) = l'.filter (key · = k)) : l = l' := by
  have hmem : ∀ a, a ∈ l ↔ a ∈ l' := fun a => by
    simpa [List.mem_filter] using congrArg (a ∈ ·) (h (key a))
  induction l generalizing l' with
  | nil =>
    exact (List.eq_nil_iff_forall_not_mem.2 fun a ha =>
      absurd ((hmem a).2 ha) List.not_mem_nil).symm
  | cons a l ih =>
    cases l' with
    | nil => exact absurd ((hmem a).1 List.mem_cons_self) List.not_mem_nil
    | cons b l' =>
      obtain ⟨ha, hl⟩ := List.pairwise_cons.1 hl
      obtain ⟨hb, hl'⟩ := List.pairwise_cons.1 hl'
      have hab : key a = key b := by
        refine le_antisymm ?_ ?_
        · rcases List.mem_cons.1 ((hmem b).2 List.mem_cons_self) with heq | hmem
          · rw [heq]
          · exact ha b hmem
        · rcases List.mem_cons.1 ((hmem a).1 List.mem_cons_self) with heq | hmem
          · rw [heq]
          · exact hb a hmem
      have hcons : ∀ k, (a :: l).filter (key · = k) = (b :: l').filter (key · = k) := h
      simp only [List.filter_cons, hab] at hcons
      have hhead : a = b := by
        have := hcons (key b)
        rw [if_pos (decide_eq_true rfl), if_pos (decide_eq_true rfl)] at this
        exact (List.cons.inj this).1
      have htail : ∀ k, l.filter (key · = k) = l'.filter (key · = k) := fun k => by
        have := hcons k
        split at this
        · exact (List.cons.inj this).2
        · exact this
      rw [hhead, ih hl hl' htail fun c => by
        simpa [List.mem_filter] using congrArg (c ∈ ·) (htail (key c))]

/-- It makes no difference whether elements are left out before or after the others are sorted. -/
theorem filter_mergeSort (key : α → κ) (p : α → Bool) (l : List α) :
    (l.mergeSort fun a b => decide (key a ≤ key b)).filter p =
      (l.filter p).mergeSort fun a b => decide (key a ≤ key b) := by
  refine eq_of_filter_key_eq key ((pairwise_mergeSort_key key l).filter p)
    (pairwise_mergeSort_key key _) fun k => ?_
  rw [List.filter_comm, filter_mergeSort_key, filter_mergeSort_key, List.filter_comm]

/-- A list in order is what it has with each key, one after another. -/
theorem eq_flatMap_filter_key (key : α → κ) {l : List α} (hl : l.Pairwise fun a b => key a ≤ key b)
    {keys : List κ} (hkeys : keys.Pairwise (· < ·)) (hmem : ∀ a ∈ l, key a ∈ keys) :
    l = keys.flatMap fun k => l.filter (key · = k) := by
  induction keys generalizing l with
  | nil => exact List.eq_nil_iff_forall_not_mem.2 fun a ha => absurd (hmem a ha) List.not_mem_nil
  | cons k keys ih =>
    obtain ⟨hfirst, hkeys⟩ := List.pairwise_cons.1 hkeys
    have hle : ∀ a ∈ l, k ≤ key a := fun a ha =>
      (List.mem_cons.1 (hmem a ha)).elim Eq.ge fun hlater => (hfirst _ hlater).le
    have hsplit : (l.filter (key · = k) ++ l.filter fun a => !decide (key a = k)) = l :=
      filter_append_filter_not (hl.imp_of_mem fun {a b} ha _ hab hb =>
        decide_eq_true ((hab.trans (of_decide_eq_true hb).le).antisymm (hle a ha)))
    have hlater := ih (hl.filter fun a => !decide (key a = k)) hkeys fun a ha => by
      obtain ⟨ha, hne⟩ := List.mem_filter.1 ha
      exact (List.mem_cons.1 (hmem a ha)).resolve_left (by simpa using hne)
    rw [List.flatMap_cons]
    conv_lhs => rw [← hsplit, hlater]
    refine congrArg (_ ++ ·) (List.flatMap_congr fun k' hk' => ?_)
    rw [List.filter_filter]
    refine List.filter_congr fun a _ => ?_
    by_cases hk : key a = k'
    · simp [hk, (hfirst k' hk').ne']
    · simp [hk]

/-- Elements with different keys have one order. -/
theorem mergeSort_key_eq_of_perm (key : α → κ) {l l' : List α} (h : l.Perm l')
    (hdistinct : (l.map key).Nodup) :
    (l.mergeSort fun a b => decide (key a ≤ key b)) =
      l'.mergeSort fun a b => decide (key a ≤ key b) := by
  refine List.Perm.eq_of_pairwise (fun a b ha hb hab hba => ?_) (pairwise_mergeSort_key key l)
    (pairwise_mergeSort_key key l')
    ((List.mergeSort_perm l _).trans (h.trans (List.mergeSort_perm l' _).symm))
  exact List.inj_on_of_nodup_map hdistinct (List.mem_mergeSort.1 ha)
    (h.mem_iff.2 (List.mem_mergeSort.1 hb)) (le_antisymm hab hba)

end

/-- Lists with related elements have related elements when they are sorted by what related elements
have in common. -/
theorem forall₂_mergeSort {α β : Type} {R : α → β → Prop} {le : α → α → Bool} {le' : β → β → Bool}
    (hle : ∀ {a a' b b'}, R a b → R a' b' → le a a' = le' b b') {l : List α} {l' : List β}
    (h : List.Forall₂ R l l') : List.Forall₂ R (l.mergeSort le) (l'.mergeSort le') := by
  obtain ⟨hlength, hzip⟩ := List.forall₂_iff_zip.1 h
  have hfirst : (l.zip l').map Prod.fst = l := List.map_fst_zip hlength.le
  have hsecond : (l.zip l').map Prod.snd = l' := List.map_snd_zip hlength.ge
  have hsort : ((l.zip l').mergeSort fun p q => le p.1 q.1).map Prod.snd = l'.mergeSort le' := by
    rw [List.map_mergeSort (fun p hp q hq => hle (hzip hp) (hzip hq)), hsecond]
  have hsort' : ((l.zip l').mergeSort fun p q => le p.1 q.1).map Prod.fst = l.mergeSort le := by
    rw [List.map_mergeSort (s := le) (fun _ _ _ _ => rfl), hfirst]
  rw [← hsort, ← hsort', List.forall₂_map_left_iff, List.forall₂_map_right_iff, List.forall₂_same]
  exact fun p hp => hzip (List.mem_mergeSort.1 hp)

end CurveSketch
