import CurveSketch.Proofs.CrossingMerge
import CurveSketch.Proofs.TotalOrder

/-!
# The walk as one sorted list

The walk along a piece keeps a queue of crossings for each sector and takes, again and again, a
first one from all queues. It could also do without queues : put all crossings in one list, each
with the number of the sector it is about, sort them by parameter, and let those at one parameter
change the flags of their sectors together (`Classifier.mergedSets`). `Classifier.merged_stops` says
that this comes to the same, and what happens to a single queue meanwhile.

A walk and a sort do not take the crossings at one parameter in the same order. The sort tells the
zeros apart, while the walk takes them for one parameter and empties one queue after another. Only
the order within a queue matters, and there the two agree, as the queues are sorted themselves.
-/

namespace CurveSketch

/-- Where what is in order is divided by parameter, that at the first parameter comes first. -/
theorem Graded.splitBy_eq_cons {K L α : Type} [Scalar K] [LinearOrder L] {level : K → L}
    {valid : K → Prop} (h : Graded level valid) {param : α → K} {l : List α}
    (hvalid : ∀ a ∈ l, valid (param a))
    (hsorted : l.Pairwise fun a b => level (param a) ≤ level (param b)) {t : K} (ht : valid t)
    (hle : ∀ a ∈ l, level t ≤ level (param a)) (hsome : ∃ a ∈ l, param a ≤ t) :
    (l.splitBy fun a b => param a == param b) = (l.filter fun a => decide (param a ≤ t)) ::
      (l.filter fun a => !decide (param a ≤ t)).splitBy fun a b => param a == param b := by
  have hfirst : ∀ a ∈ l.filter fun a => decide (param a ≤ t),
      valid (param a) ∧ level (param a) = level t := fun a ha => by
    obtain ⟨ha, hat⟩ := List.mem_filter.1 ha
    have hat := (h.le_iff (hvalid a ha) ht).1 (of_decide_eq_true hat)
    exact ⟨hvalid a ha, hat.antisymm (hle a ha)⟩
  have hrest : ∀ b ∈ l.filter fun a => !decide (param a ≤ t),
      valid (param b) ∧ level t < level (param b) := fun b hb => by
    obtain ⟨hb, hbt⟩ := List.mem_filter.1 hb
    rw [Bool.not_eq_true', decide_eq_false_iff_not, h.le_iff (hvalid b hb) ht, not_le] at hbt
    exact ⟨hvalid b hb, hbt⟩
  have hne : (l.filter fun a => decide (param a ≤ t)) ≠ [] := by
    obtain ⟨a, ha, hat⟩ := hsome
    exact List.ne_nil_of_mem (List.mem_filter.2 ⟨ha, decide_eq_true hat⟩)
  have hchain : (l.filter fun a => decide (param a ≤ t)).IsChain fun a b =>
      (param a == param b) = true :=
    (List.pairwise_of_forall_mem_list fun a ha b hb =>
      (h.beq_iff (hfirst a ha).1 (hfirst b hb).1).2
        ((hfirst a ha).2.trans (hfirst b hb).2.symm)).isChain
  have hcut : ∀ a ∈ (l.filter fun a => decide (param a ≤ t)).getLast?,
      ∀ b ∈ (l.filter fun a => !decide (param a ≤ t)).head?, (param a == param b) = false :=
    fun a ha b hb => by
      obtain ⟨ha, hat⟩ := hfirst a (List.mem_of_getLast? ha)
      obtain ⟨hb, htb⟩ := hrest b (List.mem_of_head? hb)
      rw [Bool.eq_false_iff, Ne, h.beq_iff ha hb, hat]
      exact htb.ne
  conv_lhs => rw [← h.filter_append_filter hvalid hsorted ht]
  rw [List.splitBy_append hcut, List.splitBy_of_isChain hne hchain, List.singleton_append]

namespace Crossing

/-! ## All queues in one list -/

section

variable {K : Type}

/-- The crossings in a queue, each with the number of the queue. -/
def withNumber (queue : List (Crossing K) × Nat) : List (Nat × Crossing K) :=
  queue.1.map fun c => (queue.2, c)

/-- The crossings in some queues in one list, each with the number of its queue. -/
def numbered (queues : List (List (Crossing K))) : List (Nat × Crossing K) :=
  queues.zipIdx.flatMap withNumber

/-- The flags of the queues after some crossings, each of which sets that of its queue. -/
def pass (flags : List Bool) (group : List (Nat × Crossing K)) : List Bool :=
  group.foldl (fun flags x => flags.set x.1 x.2.inside) flags

variable [Scalar K]

/-- The crossings in some queues, sorted by parameter. -/
def merged (queues : List (List (Crossing K))) : List (Nat × Crossing K) :=
  (numbered queues).mergeSort fun x y => Scalar.totalLe x.2.param y.2.param

/-- The crossings in some queues, sorted by parameter, those at one parameter together. -/
def groups (queues : List (List (Crossing K))) : List (List (Nat × Crossing K)) :=
  (merged queues).splitBy fun x y => x.2.param == y.2.param

end

section

variable {K : Type}

theorem mem_withNumber {queue : List (Crossing K) × Nat} {x : Nat × Crossing K} :
    x ∈ withNumber queue ↔ x.1 = queue.2 ∧ x.2 ∈ queue.1 := by
  obtain ⟨j, c⟩ := x
  simp [withNumber, and_comm, eq_comm]

theorem mem_numbered {queues : List (List (Crossing K))} {x : Nat × Crossing K} :
    x ∈ numbered queues ↔ ∃ queue, queues[x.1]? = some queue ∧ x.2 ∈ queue := by
  simp only [numbered, List.mem_flatMap, mem_withNumber, Prod.exists,
    List.mk_mem_zipIdx_iff_getElem?]
  constructor
  · rintro ⟨queue, i, hqueue, hi, hx⟩
    exact ⟨queue, hi ▸ hqueue, hx⟩
  · rintro ⟨queue, hqueue, hx⟩
    exact ⟨queue, x.1, hqueue, rfl, hx⟩

theorem numbered_map_filter (p : Crossing K → Bool) (queues : List (List (Crossing K))) :
    numbered (queues.map (List.filter p)) = (numbered queues).filter fun x => p x.2 := by
  rw [numbered, numbered, List.zipIdx_map, List.flatMap_map, List.filter_flatMap]
  refine List.flatMap_congr fun queue _ => ?_
  rw [withNumber, withNumber, List.filter_map]
  rfl

/-- Of queues numbered from `n` on, the crossings with one number are those of one queue. -/
theorem filter_flatMap_zipIdx (queues : List (List (Crossing K))) (n j : Nat) :
    ((queues.zipIdx n).flatMap withNumber).filter (·.1 = n + j) =
      withNumber (queues[j]?.getD [], n + j) := by
  induction queues generalizing n j with
  | nil => rfl
  | cons queue queues ih =>
    rw [List.zipIdx_cons, List.flatMap_cons, List.filter_append]
    cases j with
    | zero =>
      have hall : (withNumber (queue, n)).filter (·.1 = n + 0) = withNumber (queue, n) :=
        List.filter_eq_self.2 fun x hx => decide_eq_true (mem_withNumber.1 hx).1
      -- the other queues are numbered from `n + 1` on
      have hlater : ((queues.zipIdx (n + 1)).flatMap withNumber).filter (·.1 = n + 0) = [] := by
        refine List.filter_eq_nil_iff.2 fun x hx => ?_
        obtain ⟨queue', hqueue', hx⟩ := List.mem_flatMap.1 hx
        have hle := List.le_snd_of_mem_zipIdx hqueue'
        have heq := (mem_withNumber.1 hx).1
        simp only [decide_eq_true_eq]
        omega
      rw [hall, hlater, List.append_nil]
      rfl
    | succ j =>
      have hnone : (withNumber (queue, n)).filter (·.1 = n + (j + 1)) = [] :=
        List.filter_eq_nil_iff.2 fun x hx => by simp [(mem_withNumber.1 hx).1]
      rw [hnone, List.nil_append, List.getElem?_cons_succ, ← Nat.succ_add_eq_add_succ]
      exact ih (n + 1) j

theorem filter_numbered (queues : List (List (Crossing K))) (j : Nat) :
    (numbered queues).filter (·.1 = j) = withNumber (queues[j]?.getD [], j) := by
  have hfilter := filter_flatMap_zipIdx queues 0 j
  rwa [Nat.zero_add] at hfilter

/-- The last crossing of a queue decides about its flag. -/
theorem getElem?_pass (flags : List Bool) (group : List (Nat × Crossing K)) (j : Nat) :
    (pass flags group)[j]? = flags[j]?.map fun flag =>
      ((group.filter (·.1 = j)).getLast?.map (·.2.inside)).getD flag := by
  -- a crossing sets the flag that the later ones start from, hence the flags are generalised
  induction group generalizing flags with
  | nil => exact Option.map_id'.symm
  | cons x group ih =>
    have hcons : pass flags (x :: group) = pass (flags.set x.1 x.2.inside) group := rfl
    rw [hcons, ih, List.getElem?_set]
    by_cases hx : x.1 = j
    · have hfilter : (x :: group).filter (·.1 = j) = [x] ++ group.filter (·.1 = j) :=
        List.filter_cons_of_pos (decide_eq_true hx)
      rw [if_pos hx, hfilter]
      simp only [getD_getLast?_append]
      subst hx
      by_cases hlt : x.1 < flags.length
      · rw [if_pos hlt, List.getElem?_eq_getElem hlt]
        rfl
      · rw [if_neg hlt, List.getElem?_eq_none (not_lt.1 hlt)]
        rfl
    · rw [if_neg hx, List.filter_cons_of_neg (by simpa using hx)]

end

/-! ## Leaving out and dividing -/

section

variable {K κ L : Type} [Scalar K] [LinearOrder κ] [LinearOrder L] {key : K → κ} {level : K → L}
  {valid : K → Prop} (h : Ranked key level valid)

include h

theorem merged_eq (queues : List (List (Crossing K))) : merged queues =
    (numbered queues).mergeSort fun x y => decide (key x.2.param ≤ key y.2.param) := by
  simp only [merged, h.totalLe_eq]

theorem merged_map_filter (p : Crossing K → Bool) (queues : List (List (Crossing K))) :
    merged (queues.map (List.filter p)) = (merged queues).filter fun x => p x.2 := by
  rw [merged_eq h, merged_eq h, numbered_map_filter]
  exact (filter_mergeSort (fun x : Nat × Crossing K => key x.2.param) _ _).symm

/-- A queue that is sorted stays as it is when all queues are merged. -/
theorem filter_merged {queues : List (List (Crossing K))}
    (hsorted : ∀ queue ∈ queues, queue.Pairwise fun c d => key c.param ≤ key d.param) (j : Nat) :
    (merged queues).filter (·.1 = j) = withNumber (queues[j]?.getD [], j) := by
  have hqueue : (queues[j]?.getD []).Pairwise fun c d => key c.param ≤ key d.param := by
    cases hj : queues[j]? with
    | none => exact .nil
    | some queue => exact hsorted queue (List.mem_of_getElem? hj)
  have hmerge := filter_mergeSort (fun x : Nat × Crossing K => key x.2.param) (·.1 = j)
    (numbered queues)
  rw [merged_eq h, hmerge, filter_numbered]
  exact List.mergeSort_of_pairwise
    (List.pairwise_map.2 (hqueue.imp fun hle => decide_eq_true hle))

omit h in
theorem mem_merged {queues : List (List (Crossing K))} {x : Nat × Crossing K} :
    x ∈ merged queues ↔ ∃ queue, queues[x.1]? = some queue ∧ x.2 ∈ queue :=
  List.mem_mergeSort.trans mem_numbered

omit h in
theorem forall_mem_merged {p : Crossing K → Prop} {queues : List (List (Crossing K))}
    (hqueues : ∀ queue ∈ queues, ∀ c ∈ queue, p c) : ∀ x ∈ merged queues, p x.2 := fun x hx => by
  obtain ⟨queue, hqueue, hx⟩ := mem_merged.1 hx
  exact hqueues queue (List.mem_of_getElem? hqueue) x.2 hx

theorem pairwise_merged {queues : List (List (Crossing K))}
    (hvalid : ∀ queue ∈ queues, ∀ c ∈ queue, valid c.param) :
    (merged queues).Pairwise fun x y => level x.2.param ≤ level y.2.param := by
  have hkey := pairwise_mergeSort_key (fun x : Nat × Crossing K => key x.2.param) (numbered queues)
  rw [← merged_eq h] at hkey
  have hvalid := forall_mem_merged hvalid
  exact hkey.imp_of_mem fun hx hy hxy => h.level_le (hvalid _ hx) (hvalid _ hy) hxy

/-- If no crossing comes before `t`, those up to `t` are the first to be divided off. -/
theorem groups_eq_cons {queues : List (List (Crossing K))} {t : K} (ht : valid t)
    (hvalid : ∀ queue ∈ queues, ∀ c ∈ queue, valid c.param)
    (hle : ∀ queue ∈ queues, ∀ c ∈ queue, level t ≤ level c.param)
    (hsome : ∃ queue ∈ queues, ∃ c ∈ queue, c.param ≤ t) :
    groups queues = ((merged queues).filter fun x => decide (x.2.param ≤ t)) ::
      groups (queues.map (List.filter fun c => !decide (c.param ≤ t))) := by
  obtain ⟨queue, hqueue, c, hc, hct⟩ := hsome
  obtain ⟨j, hj⟩ := List.mem_iff_getElem?.1 hqueue
  rw [groups, groups, merged_map_filter h]
  exact h.splitBy_eq_cons (forall_mem_merged hvalid) (pairwise_merged h hvalid) ht
    (forall_mem_merged hle) ⟨(j, c), mem_merged.2 ⟨queue, hj, hc⟩, hct⟩

end

end Crossing

/-! ## The walk -/

namespace Lane

open Crossing

section

variable {K κ L : Type} [Scalar K] [LinearOrder κ] [LinearOrder L] {key : K → κ} {level : K → L}
  {valid : K → Prop}

/-- The sorted crossings up to a parameter set the flags that the lanes have after it. -/
theorem pass_merged (h : Ranked key level valid) {lanes : List (Lane K)}
    (hlanes : ∀ lane ∈ lanes, lane.Ordered key valid) (t : K) :
    pass (lanes.map (·.inside))
        ((merged (lanes.map (·.ahead))).filter fun x => decide (x.2.param ≤ t)) =
      (lanes.map (after t)).map (·.inside) := by
  have hsorted : ∀ queue ∈ lanes.map (·.ahead),
      queue.Pairwise fun c d => key c.param ≤ key d.param :=
    List.forall_mem_map.2 fun lane hlane => (hlanes lane hlane).sorted
  refine List.ext_getElem? fun j => ?_
  rw [getElem?_pass, List.filter_comm, filter_merged h hsorted]
  simp only [List.getElem?_map, withNumber, List.filter_map, List.getLast?_map, Option.map_map]
  cases lanes[j]? with
  | none => rfl
  | some lane => rfl

/-- The flags at the start and after each event are those that the groups of sorted crossings set
one after another. -/
theorem flags_stops (h : Ranked key level valid) {lanes : List (Lane K)}
    (hlanes : ∀ lane ∈ lanes, lane.Ordered key valid) :
    lanes.map (·.inside) :: (stops lanes).map (fun stop => stop.2.map (·.inside)) =
      (groups (lanes.map (·.ahead))).scanl pass (lanes.map (·.inside)) := by
  -- each event takes the first group, and leaves the queues that the other groups are made of
  fun_induction stops lanes with
  | case1 lanes j t hearliest passed fewer ih =>
    have hlevel : ∀ lane ∈ lanes, lane.Ordered level valid := fun lane hlane =>
      (hlanes lane hlane).of_key h
    obtain ⟨⟨lane, c, rest, hlane, hahead, rfl⟩, hle⟩ :=
      of_earliest?_eq_some h.toGraded hlevel hearliest
    have hpassed : passed = lanes.map (after c.param) :=
      passAll_advance_eq h.toGraded hlevel hearliest
    have hmem : c ∈ lane.ahead := hahead ▸ List.mem_cons_self
    have hlane := List.mem_of_getElem? hlane
    have hc := (hlanes lane hlane).valid c hmem
    have hrest : (lanes.map (·.ahead)).map (List.filter fun d => !decide (d.param ≤ c.param)) =
        (lanes.map (after c.param)).map (·.ahead) := by
      rw [List.map_map, List.map_map]
      rfl
    have hgroups := groups_eq_cons h hc
      (List.forall_mem_map.2 fun lane hlane => (hlanes lane hlane).valid)
      (List.forall_mem_map.2 hle)
      ⟨_, List.mem_map_of_mem hlane, c, hmem, (h.le_iff hc hc).2 le_rfl⟩
    rw [hpassed] at ih ⊢
    rw [hgroups, List.scanl_cons, pass_merged h hlanes, hrest, List.map_cons,
      ih (List.forall_mem_map.2 fun lane hlane => (hlanes lane hlane).after _)]
  | case2 lanes hnone =>
    have hnone : ∀ queue ∈ lanes.map (·.ahead), ∀ c ∈ queue, False :=
      List.forall_mem_map.2 fun lane hlane c hc => by
        rw [(earliestFrom_eq_none hnone).2 lane hlane] at hc
        exact absurd hc List.not_mem_nil
    have hnil := List.eq_nil_iff_forall_not_mem.2 (forall_mem_merged hnone)
    rw [groups, hnil]
    rfl

/-- The crossings of a lane are those at each event, one after another. -/
theorem Events.ahead_eq_flatMap (hgraded : Graded level valid) {lanes : List (Lane K)}
    {events : List (K × List (Lane K))} (h : Events level lanes events)
    (hlanes : ∀ lane ∈ lanes, lane.Ordered level valid) {lane : Lane K} (hlane : lane ∈ lanes) :
    lane.ahead = events.flatMap fun e => lane.ahead.filter (·.param == e.1) := by
  have hkeys := eq_flatMap_filter_key (fun c : Crossing K => level c.param)
    (hlanes lane hlane).sorted (List.pairwise_map.2 h.sorted) fun c hc => by
      obtain ⟨e, he, heq⟩ := h.complete lane hlane c hc
      exact heq ▸ List.mem_map_of_mem he
  rw [List.flatMap_map] at hkeys
  refine hkeys.trans (List.flatMap_congr fun e he => List.filter_congr fun c hc => ?_)
  rw [Bool.eq_iff_iff, decide_eq_true_iff,
    hgraded.beq_iff ((hlanes lane hlane).valid c hc) (h.valid_param hlanes e he)]

/-- Nothing is ahead after the last event. -/
theorem Events.ahead_getLast? (hgraded : Graded level valid) {lanes : List (Lane K)}
    {events : List (K × List (Lane K))} (h : Events level lanes events)
    (hlanes : ∀ lane ∈ lanes, lane.Ordered level valid) {last : K × List (Lane K)}
    (hlast : last ∈ events.getLast?) : ∀ lane ∈ last.2, lane.ahead = [] := by
  obtain ⟨init, rfl⟩ := List.getLast?_eq_some_iff.1 hlast
  have hmem : last ∈ init ++ [last] := List.mem_concat_self
  have hvalid := h.valid_param hlanes last hmem
  have hup : ∀ e ∈ init ++ [last], level e.1 ≤ level last.1 := fun e he => by
    rcases List.mem_append.1 he with he | he
    · exact ((List.pairwise_append.1 h.sorted).2.2 e he last (List.mem_singleton_self last)).le
    · rw [List.mem_singleton.1 he]
  rw [h.state last hmem]
  refine List.forall_mem_map.2 fun lane hlane =>
    List.eq_nil_iff_forall_not_mem.2 fun c hc => ?_
  obtain ⟨hc, hbeyond⟩ := mem_ahead_after.1 hc
  obtain ⟨e, he, heq⟩ := h.complete lane hlane c hc
  exact hbeyond ((hgraded.le_iff ((hlanes lane hlane).valid c hc) hvalid).2 (heq ▸ hup e he))

end

/-- The sectors whose flags are set, from sectors and flags in two lists. -/
theorem current_eq {K : Type} (lanes : List (Lane K)) : current lanes =
    .ofList ((((lanes.map (·.sector)).zip (lanes.map (·.inside))).filter (·.2)).map (·.1)) := by
  rw [List.zip_map', List.filter_map, List.map_map]
  rfl

end Lane

/-- Binary64 numbers are sorted by rank, and the ranks follow the units. -/
theorem Ranked.binary64 :
    Ranked Binary64.rank Binary64.units fun a : Binary64 => a.float.isNaN = false where
  le_iff := Binary64.le_iff_units
  beq_iff := Binary64.beq_iff_units
  totalLe_eq _ _ := rfl
  level_le := Binary64.units_le_of_rank_le

namespace Classifier

section

variable {K : Type} [Scalar K]

/-- The sets along a piece, from one sorted list of all crossings: the members after each group are
the sectors whose flags are set. -/
def mergedSets (c : Classifier K) (piece : Segment K) : List SectorSet :=
  let start := c.entries.map fun entry => entry.2.contains piece.start
  let queues := c.entries.map fun entry => entry.2.crossings piece
  ((Crossing.groups queues).scanl Crossing.pass start).tail.map fun flags =>
    .ofList (((c.order.zip flags).filter (·.2)).map (·.1))

/-- What the walk along a piece does at its events, each with its parameter and the lanes after
it. -/
structure Merges (c : Classifier K) (piece : Segment K) (events : List (K × List (Lane K))) :
    Prop where
  /-- The events come in the order of their parameters, and no two at one parameter. -/
  sorted : events.Pairwise fun e e' => e.1 < e'.1
  /-- The parameter of an event is that of a crossing. -/
  source : ∀ e ∈ events, ∃ entry ∈ c.entries, ∃ x ∈ entry.2.crossings piece, x.param = e.1
  /-- The crossings of a region are those it has at each event, one after another. -/
  once : ∀ entry ∈ c.entries, entry.2.crossings piece =
    events.flatMap fun e => (entry.2.crossings piece).filter (·.param == e.1)
  /-- After an event, a region has the flag of its last crossing up to the event, or else that of
  the start, and ahead are the crossings beyond the event. -/
  state : ∀ e ∈ events, e.2 = c.entries.map fun entry =>
    { sector := entry.1
      inside := (((entry.2.crossings piece).filter fun x => decide (x.param ≤ e.1)).getLast?.map
        (·.inside)).getD (entry.2.contains piece.start)
      ahead := (entry.2.crossings piece).filter fun x => !decide (x.param ≤ e.1) }
  /-- After the last event nothing is ahead. -/
  ended : ∀ e ∈ events.getLast?, ∀ lane ∈ e.2, lane.ahead = []

end

section

variable {K κ L : Type} [Scalar K] [LinearOrder κ] [LinearOrder L] {key : K → κ} {level : K → L}
  {valid : K → Prop} {c : Classifier K} {piece : Segment K}

/-- To merge the queues of all regions comes to the same as to sort one list. -/
theorem pieceSets_eq_mergedSets (h : Ranked key level valid)
    (hvalid : ∀ entry ∈ c.entries, ∀ x ∈ entry.2.crossings piece, valid x.param) :
    c.pieceSets piece = c.mergedSets piece := by
  have hflags := congrArg List.tail (Lane.flags_stops h (ordered_lanes h hvalid))
  have hqueues : (c.lanes piece).map (·.ahead) =
      c.entries.map fun entry => entry.2.crossings piece := List.map_map
  have hstart : (c.lanes piece).map (·.inside) =
      c.entries.map fun entry => entry.2.contains piece.start := List.map_map
  rw [List.tail_cons, hqueues, hstart] at hflags
  rw [mergedSets, ← hflags, pieceSets, List.map_map]
  refine List.map_congr_left fun e he => ?_
  have horder : e.2.map (·.sector) = c.order := by
    rw [(events_lanes_of_ranked h hvalid).state e he, List.map_map, lanes, List.map_map]
    rfl
  rw [Lane.current_eq, horder]
  rfl

end

/-- The walk along a piece passes every crossing once, in the order of parameters, and comes to the
sets that one sorted list of all crossings comes to. -/
theorem merged_stops (c : Classifier Binary64) (piece : Segment Binary64)
    (h : ∀ entry ∈ c.entries, ∀ x ∈ entry.2.crossings piece, x.param.float.isNaN = false) :
    c.Merges piece (Lane.stops (c.lanes piece)) ∧ c.pieceSets piece = c.mergedSets piece := by
  have hgraded := Ranked.binary64.toGraded
  have hlanes : ∀ lane ∈ c.lanes piece,
      lane.Ordered Binary64.units fun a => a.float.isNaN = false :=
    fun lane hlane => (ordered_lanes .binary64 h lane hlane).of_key .binary64
  have hevents := events_lanes_of_ranked .binary64 h
  have hsource : ∀ e ∈ Lane.stops (c.lanes piece),
      ∃ entry ∈ c.entries, ∃ x ∈ entry.2.crossings piece, x.param = e.1 := fun e he => by
    obtain ⟨lane, hlane, x, hx, heq⟩ := hevents.source e he
    obtain ⟨entry, hentry, rfl⟩ := List.mem_map.1 hlane
    exact ⟨entry, hentry, x, hx, heq⟩
  have hnumber := hevents.valid_param hlanes
  refine ⟨⟨?_, hsource, fun entry hentry => ?_, fun e he => ?_, fun e he => ?_⟩,
    pieceSets_eq_mergedSets .binary64 h⟩
  · exact hevents.sorted.imp_of_mem fun he he' hlt =>
      (Binary64.lt_iff_units (hnumber _ he) (hnumber _ he')).2 hlt
  · exact hevents.ahead_eq_flatMap hgraded hlanes (List.mem_map_of_mem hentry)
  · rw [hevents.state e he, lanes, List.map_map]
    rfl
  · exact hevents.ahead_getLast? hgraded hlanes he

/-- A piece that leaves one half plane where it enters the other. -/
theorem merged_stops_halfPlanes :
    let c : Classifier Binary64 := ⟨[(.topRight, .rightOf 0), (.topLeft, .leftOf 0)]⟩
    let piece : Segment Binary64 := .closed ⟨1, 0⟩ ⟨-1, 0⟩
    (∀ entry ∈ c.entries, entry.2.crossings piece ≠ []) ∧
      (∀ entry ∈ c.entries, ∀ x ∈ entry.2.crossings piece, x.param.float.isNaN = false) ∧
      c.Merges piece (Lane.stops (c.lanes piece)) ∧ c.pieceSets piece = c.mergedSets piece := by
  intro c piece
  have hnumbers : ∀ entry ∈ c.entries, ∀ x ∈ entry.2.crossings piece,
      x.param.float.isNaN = false := by decide +kernel
  exact ⟨by decide +kernel, hnumbers, merged_stops c piece hnumbers⟩

end Classifier

end CurveSketch
