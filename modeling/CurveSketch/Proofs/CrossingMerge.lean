import CurveSketch.SectorWalk
import CurveSketch.Proofs.KeyOrder

/-!
# The crossings as they are passed

The walk along a piece takes the crossings of all lanes one by one, always one that comes first.
What it comes to is the same as taking, lane by lane, all that has a parameter up to that of the
event (`Lane.after`). So the walk can be read off without following it : the lanes after an event
are the lanes at the start, each after the parameter of the event, and the parameters of the events
are those of the crossings, in increasing order (`Lane.events_stops`).

None of this depends on how parameters are computed. It is enough that they compare as the places
of a linear order do, which is what `Graded` says, and that the crossings of a region are sorted
accordingly, which is what `Ranked` adds.
-/

namespace CurveSketch

variable {K κ L : Type} [Scalar K] [LinearOrder κ] [LinearOrder L]
  {key : K → κ} {level : K → L} {valid : K → Prop}

/-- Scalars that compare as their levels do in a linear order. -/
structure Graded (level : K → L) (valid : K → Prop) : Prop where
  le_iff {a b : K} : valid a → valid b → (a ≤ b ↔ level a ≤ level b)
  beq_iff {a b : K} : valid a → valid b → ((a == b) = true ↔ level a = level b)

/-- Scalars that are sorted by a key which never goes against their levels. Scalars at one level may
have different keys, as the two zeros do. -/
structure Ranked (key : K → κ) (level : K → L) (valid : K → Prop) : Prop
    extends Graded level valid where
  totalLe_eq (a b : K) : Scalar.totalLe a b = decide (key a ≤ key b)
  level_le {a b : K} : valid a → valid b → key a ≤ key b → level a ≤ level b

theorem Ranked.rat : Ranked (id : Rat → Rat) (id : Rat → Rat) fun _ => True where
  le_iff _ _ := Iff.rfl
  beq_iff _ _ := beq_iff_eq
  totalLe_eq _ _ := rfl
  level_le _ _ h := h

/-- Of what is in order, that up to a parameter comes first. -/
theorem Graded.filter_append_filter {α : Type} (h : Graded level valid) {param : α → K} {l : List α}
    (hvalid : ∀ a ∈ l, valid (param a))
    (hsorted : l.Pairwise fun a b => level (param a) ≤ level (param b)) {t : K} (ht : valid t) :
    (l.filter fun a => decide (param a ≤ t)) ++ (l.filter fun a => !decide (param a ≤ t)) = l := by
  refine filter_append_filter_not (hsorted.imp_of_mem fun {a b} ha hb hab hbt => ?_)
  have hbt := (h.le_iff (hvalid b hb) ht).1 (of_decide_eq_true hbt)
  exact decide_eq_true ((h.le_iff (hvalid a ha) ht).2 (hab.trans hbt))

/-- What the last element says, or else what was the case before. -/
theorem getD_getLast?_append {α β : Type} (f : α → β) (l l' : List α) (b : β) :
    ((l ++ l').getLast?.map f).getD b =
      (l'.getLast?.map f).getD ((l.getLast?.map f).getD b) := by
  rw [List.getLast?_append]
  cases l'.getLast? <;> rfl

namespace Lane

/-! ## What lies behind a parameter -/

/-- The lane once its crossings up to the parameter `t` are passed. -/
def after (t : K) (lane : Lane K) : Lane K where
  sector := lane.sector
  inside :=
    ((lane.ahead.filter fun c => decide (c.param ≤ t)).getLast?.map (·.inside)).getD lane.inside
  ahead := lane.ahead.filter fun c => !decide (c.param ≤ t)

/-- A lane whose crossings are listed in order. -/
structure Ordered (level : K → L) (valid : K → Prop) (lane : Lane K) : Prop where
  valid : ∀ c ∈ lane.ahead, valid c.param
  sorted : lane.ahead.Pairwise fun c d => level c.param ≤ level d.param

/-- The crossings of a region are listed in the order of their keys. -/
theorem ordered_crossings_of_ranked (h : Ranked key level valid) (s : Sector) (inside : Bool)
    {r : Region K} {piece : Segment K} (hvalid : ∀ c ∈ r.crossings piece, valid c.param) :
    Lane.Ordered key valid ⟨s, inside, r.crossings piece⟩ where
  valid := hvalid
  sorted := by
    simp only [Region.crossings, h.totalLe_eq]
    exact pairwise_mergeSort_key (fun c : Crossing K => key c.param) _

/-- What is in the order of keys is in the order of levels. -/
theorem Ordered.of_key (hranked : Ranked key level valid) {lane : Lane K}
    (h : lane.Ordered key valid) : lane.Ordered level valid where
  valid := h.valid
  sorted := h.sorted.imp_of_mem fun hc hd hcd => hranked.level_le (h.valid _ hc) (h.valid _ hd) hcd

theorem mem_ahead_after {t : K} {lane : Lane K} {c : Crossing K} :
    c ∈ (lane.after t).ahead ↔ c ∈ lane.ahead ∧ ¬c.param ≤ t := by
  simp [after]

theorem Ordered.after {lane : Lane K} (h : lane.Ordered level valid) (t : K) :
    (lane.after t).Ordered level valid where
  valid c hc := h.valid c (mem_ahead_after.1 hc).1
  sorted := h.sorted.filter _

omit [Scalar K] in
theorem Ordered.advance {lane : Lane K} (h : lane.Ordered level valid) :
    lane.advance.Ordered level valid := by
  obtain ⟨s, inside, ahead⟩ := lane
  cases ahead with
  | nil => exact h
  | cons c rest =>
    exact ⟨fun d hd => h.valid d (List.mem_cons_of_mem _ hd), (List.pairwise_cons.1 h.sorted).2⟩

/-- A lane with nothing up to a parameter is not changed by it. -/
theorem after_eq_self {t : K} {lane : Lane K} (h : ∀ c ∈ lane.ahead, ¬c.param ≤ t) :
    lane.after t = lane := by
  have hnone : (lane.ahead.filter fun c => decide (c.param ≤ t)) = [] :=
    List.filter_eq_nil_iff.2 fun c hc => by simpa using h c hc
  have hall : (lane.ahead.filter fun c => !decide (c.param ≤ t)) = lane.ahead :=
    List.filter_eq_self.2 fun c hc => by simpa using h c hc
  rw [after, hnone, hall]
  rfl

/-- To pass the first crossing and then the others is to pass them all. -/
theorem after_advance {t : K} {lane : Lane K} {c : Crossing K} {rest : List (Crossing K)}
    (hahead : lane.ahead = c :: rest) (hc : c.param ≤ t) : lane.advance.after t = lane.after t := by
  obtain ⟨s, inside, ahead⟩ := lane
  obtain rfl : ahead = c :: rest := hahead
  have hlast : ∀ l : List (Crossing K), ((c :: l).getLast?.map (·.inside)).getD inside =
      (l.getLast?.map (·.inside)).getD c.inside := fun l =>
    getD_getLast?_append (·.inside) [c] l inside
  simp only [after, advance, List.filter_cons, hc, decide_true, if_true, Bool.not_true,
    Bool.false_eq_true, if_false, hlast]

/-- To pass the crossings up to one parameter and then up to a later one. -/
theorem after_after (hgraded : Graded level valid) {t u : K} (ht : valid t) (hu : valid u)
    (htu : level t ≤ level u) {lane : Lane K} (h : lane.Ordered level valid) :
    (lane.after t).after u = lane.after u := by
  have hup : ∀ c ∈ lane.ahead, c.param ≤ t → c.param ≤ u := fun c hc hct =>
    (hgraded.le_iff (h.valid c hc) hu).2 (((hgraded.le_iff (h.valid c hc) ht).1 hct).trans htu)
  have hahead : ((lane.after t).after u).ahead = (lane.after u).ahead := by
    simp only [after, List.filter_filter]
    refine List.filter_congr fun c hc => ?_
    by_cases hct : c.param ≤ t
    · simp [hct, hup c hc hct]
    · simp [hct]
  have hsplit : (lane.ahead.filter fun c => decide (c.param ≤ u)) =
      (lane.ahead.filter fun c => decide (c.param ≤ t)) ++
        ((lane.after t).ahead.filter fun c => decide (c.param ≤ u)) := by
    conv_lhs => rw [← hgraded.filter_append_filter h.valid h.sorted ht, List.filter_append]
    refine congrArg (· ++ _) (List.filter_eq_self.2 fun c hc => ?_)
    obtain ⟨hc, hct⟩ := List.mem_filter.1 hc
    exact decide_eq_true (hup c hc (of_decide_eq_true hct))
  have hinside : ((lane.after t).after u).inside = (lane.after u).inside := by
    change (((lane.after t).ahead.filter _).getLast?.map _).getD (lane.after t).inside =
      ((lane.ahead.filter _).getLast?.map _).getD lane.inside
    rw [hsplit, getD_getLast?_append]
    rfl
  exact (congr (congrArg (Lane.mk lane.sector) hinside) hahead :)

/-- The crossing that decides about a lane in order, once all up to a parameter are passed. -/
theorem Ordered.of_getLast?_eq_some {lane : Lane K} (h : lane.Ordered level valid) {t : K}
    {c : Crossing K} (hc : (lane.ahead.filter fun c => decide (c.param ≤ t)).getLast? = some c) :
    c ∈ lane.ahead ∧ c.param ≤ t ∧
      ∀ d ∈ lane.ahead, d.param ≤ t → level d.param ≤ level c.param := by
  obtain ⟨init, hinit⟩ := List.getLast?_eq_some_iff.1 hc
  obtain ⟨hmem, hct⟩ := List.mem_filter.1 (hinit ▸ List.mem_concat_self : c ∈ lane.ahead.filter _)
  have hsorted := h.sorted.filter fun c => decide (c.param ≤ t)
  refine ⟨hmem, of_decide_eq_true hct, fun d hd hdt => ?_⟩
  have hd : d ∈ lane.ahead.filter fun c => decide (c.param ≤ t) :=
    List.mem_filter.2 ⟨hd, decide_eq_true hdt⟩
  rw [hinit] at hsorted hd
  rcases List.mem_append.1 hd with hd | hd
  · exact (List.pairwise_append.1 hsorted).2.2 d hd c (List.mem_singleton_self c)
  · rw [List.mem_singleton.1 hd]

/-! ## The crossing that comes first -/

/-- A search finds something unless nothing lies ahead. -/
theorem earliestFrom_eq_none {i : Nat} {best : Option (Nat × K)} {lanes : List (Lane K)}
    (h : earliestFrom i best lanes = none) : best = none ∧ ∀ lane ∈ lanes, lane.ahead = [] := by
  induction lanes generalizing i best with
  | nil => exact ⟨h, fun _ hlane => absurd hlane List.not_mem_nil⟩
  | cons lane lanes ih =>
    unfold earliestFrom at h
    split at h
    · rename_i hahead
      obtain ⟨hbest, hlanes⟩ := ih h
      exact ⟨hbest, List.forall_mem_cons.2 ⟨hahead, hlanes⟩⟩
    · exact absurd (ih h).1 nofun
    · exact absurd (ih h).1 (by split <;> exact nofun)

omit [Scalar K] in
/-- What is not beyond the next crossing of a lane in order is not beyond any. -/
theorem Ordered.le_of_ahead {lane : Lane K} (h : lane.Ordered level valid) {c : Crossing K}
    {rest : List (Crossing K)} (hahead : lane.ahead = c :: rest) {t : K}
    (ht : level t ≤ level c.param) : ∀ d ∈ lane.ahead, level t ≤ level d.param := by
  have hsorted := h.sorted
  rw [hahead] at hsorted ⊢
  exact List.forall_mem_cons.2 ⟨ht, fun d hd => ht.trans ((List.pairwise_cons.1 hsorted).1 d hd)⟩

/-- No crossing of lanes in order comes before the one found. -/
theorem le_of_earliestFrom (hgraded : Graded level valid) {i j : Nat} {best : Option (Nat × K)}
    {lanes : List (Lane K)} {t : K} (hlanes : ∀ lane ∈ lanes, lane.Ordered level valid)
    (hbest : ∀ b ∈ best, valid b.2) (h : earliestFrom i best lanes = some (j, t)) :
    (∀ b ∈ best, level t ≤ level b.2) ∧
      ∀ lane ∈ lanes, ∀ c ∈ lane.ahead, level t ≤ level c.param := by
  induction lanes generalizing i best with
  | nil =>
    refine ⟨fun b hb => ?_, fun _ hlane => absurd hlane List.not_mem_nil⟩
    obtain rfl := Option.some.inj (hb.symm.trans h)
    exact le_rfl
  | cons lane lanes ih =>
    obtain ⟨hlane, hlanes⟩ := List.forall_mem_cons.1 hlanes
    have hvalid : ∀ {c : Crossing K} {rest : List (Crossing K)}, lane.ahead = c :: rest →
        valid c.param := fun hahead => hlane.valid _ (hahead ▸ List.mem_cons_self)
    unfold earliestFrom at h
    split at h
    · rename_i hahead
      obtain ⟨hle, hle'⟩ := ih hlanes hbest h
      refine ⟨hle, List.forall_mem_cons.2 ⟨fun c hc => ?_, hle'⟩⟩
      rw [hahead] at hc
      exact absurd hc List.not_mem_nil
    · rename_i c rest hahead
      obtain ⟨hle, hle'⟩ := ih hlanes (by simpa using hvalid hahead) h
      exact ⟨fun b hb => absurd hb (Option.not_mem_none b),
        List.forall_mem_cons.2 ⟨hlane.le_of_ahead hahead (hle _ rfl), hle'⟩⟩
    · rename_i c rest j' u hahead
      have hu : valid u := hbest _ rfl
      have hiff := hgraded.le_iff hu (hvalid hahead)
      split at h
      · rename_i hbefore
        obtain ⟨hle, hle'⟩ := ih hlanes (by simpa using hu) h
        have hc : level t ≤ level c.param := (hle _ rfl).trans (hiff.1 hbefore)
        exact ⟨hle, List.forall_mem_cons.2 ⟨hlane.le_of_ahead hahead hc, hle'⟩⟩
      · rename_i hafter
        obtain ⟨hle, hle'⟩ := ih hlanes (by simpa using hvalid hahead) h
        have hc : level t ≤ level c.param := hle _ rfl
        have hcu : level c.param ≤ level u := (not_le.1 fun h => hafter (hiff.2 h)).le
        refine ⟨fun b hb => ?_, List.forall_mem_cons.2 ⟨hlane.le_of_ahead hahead hc, hle'⟩⟩
        obtain rfl := Option.some.inj hb
        exact hc.trans hcu

/-- What the search for the first crossing finds in lanes in order. -/
theorem of_earliest?_eq_some (hgraded : Graded level valid) {lanes : List (Lane K)} {j : Nat}
    {t : K} (hlanes : ∀ lane ∈ lanes, lane.Ordered level valid)
    (h : earliest? lanes = some (j, t)) :
    (∃ lane c rest, lanes[j]? = some lane ∧ lane.ahead = c :: rest ∧ c.param = t) ∧
      ∀ lane ∈ lanes, ∀ c ∈ lane.ahead, level t ≤ level c.param := by
  have hnone : ∀ b ∈ (none : Option (Nat × K)), valid b.2 := fun b hb =>
    absurd hb (Option.not_mem_none b)
  refine ⟨?_, (le_of_earliestFrom hgraded hlanes hnone h).2⟩
  rcases earliestFrom_eq_some h with h | ⟨k, lane, c, rest, rfl, hlane, hahead, ht⟩
  · cases h
  · exact ⟨lane, c, rest, by rwa [Nat.zero_add], hahead, ht⟩

/-! ## One event -/

omit [Scalar K] in
/-- To change one lane makes no difference to what does not see the change. -/
theorem map_modify_of_eq {β : Type} {g : Lane K → β} {f : Lane K → Lane K} {lanes : List (Lane K)}
    {j : Nat} (h : ∀ lane, lanes[j]? = some lane → g (f lane) = g lane) :
    (lanes.modify j f).map g = lanes.map g := by
  refine List.ext_getElem? fun i => ?_
  rw [List.getElem?_map, List.getElem?_map, List.getElem?_modify]
  by_cases hij : j = i
  · subst hij
    cases hlane : lanes[j]? with
    | none => rfl
    | some lane => simpa using h lane hlane
  · simp [hij]

omit [Scalar K] in
theorem forall_mem_modify_advance {p : Lane K → Prop} {lanes : List (Lane K)} {j : Nat}
    (hlanes : ∀ lane ∈ lanes, p lane) (hadvance : ∀ lane, p lane → p lane.advance) :
    ∀ lane ∈ lanes.modify j advance, p lane := by
  intro lane hlane
  obtain ⟨i, hi⟩ := List.mem_iff_getElem?.1 hlane
  rw [List.getElem?_modify] at hi
  obtain ⟨lane', hlane', heq⟩ := Option.map_eq_some_iff.1 hi
  have hlane' := hlanes lane' (List.mem_of_getElem? hlane')
  split at heq
  · exact heq ▸ hadvance lane' hlane'
  · exact heq ▸ hlane'

omit [Scalar K] in
theorem mem_ahead_of_mem_ahead_advance {lane : Lane K} {c : Crossing K}
    (h : c ∈ lane.advance.ahead) : c ∈ lane.ahead := by
  obtain ⟨s, inside, ahead⟩ := lane
  cases ahead with
  | nil => exact h
  | cons d rest => exact List.mem_cons_of_mem d h

theorem map_after_eq_self {t : K} {lanes : List (Lane K)}
    (h : ∀ lane ∈ lanes, ∀ c ∈ lane.ahead, ¬c.param ≤ t) : lanes.map (after t) = lanes :=
  (List.map_congr_left fun lane hlane => after_eq_self (h lane hlane)).trans (List.map_id' lanes)

/-- If no crossing comes before `t`, the ones passed at `t` are those with a parameter up to it. -/
theorem passAll_eq_map_after (hgraded : Graded level valid) {t : K} (ht : valid t)
    {lanes : List (Lane K)} (hlanes : ∀ lane ∈ lanes, lane.Ordered level valid)
    (hle : ∀ lane ∈ lanes, ∀ c ∈ lane.ahead, level t ≤ level c.param) :
    passAll t lanes = lanes.map (after t) := by
  fun_induction passAll t lanes with
  | case1 lanes j u hearliest fewer hu ih =>
    obtain ⟨⟨lane, c, rest, hlane, hahead, rfl⟩, -⟩ :=
      of_earliest?_eq_some hgraded hlanes hearliest
    have hc : valid c.param :=
      (hlanes lane (List.mem_of_getElem? hlane)).valid c (hahead ▸ List.mem_cons_self)
    have hct : c.param ≤ t := (hgraded.le_iff hc ht).2 ((hgraded.beq_iff hc ht).1 hu).le
    rw [ih (forall_mem_modify_advance hlanes fun _ h => h.advance)
      (forall_mem_modify_advance hle fun _ h d hd => h d (mem_ahead_of_mem_ahead_advance hd))]
    refine map_modify_of_eq fun lane' hlane' => ?_
    obtain rfl := Option.some.inj (hlane.symm.trans hlane')
    exact after_advance hahead hct
  | case2 lanes j u hearliest fewer hu =>
    obtain ⟨⟨lane, c, rest, hlane, hahead, rfl⟩, hfirst⟩ :=
      of_earliest?_eq_some hgraded hlanes hearliest
    have hmem : c ∈ lane.ahead := hahead ▸ List.mem_cons_self
    have hlane := List.mem_of_getElem? hlane
    have hc : valid c.param := (hlanes lane hlane).valid c hmem
    have hlt : level t < level c.param :=
      lt_of_le_of_ne (hle lane hlane c hmem) fun h => hu ((hgraded.beq_iff hc ht).2 h.symm)
    refine (map_after_eq_self fun lane' hlane' d hd hdt => ?_).symm
    rw [hgraded.le_iff ((hlanes lane' hlane').valid d hd) ht] at hdt
    exact (hlt.trans_le ((hfirst lane' hlane' d hd).trans hdt)).false
  | case3 lanes hnone =>
    refine (map_after_eq_self fun lane hlane c hc => ?_).symm
    rw [(earliestFrom_eq_none hnone).2 lane hlane] at hc
    exact absurd hc List.not_mem_nil

/-- The event of the first crossing passes, on each lane, what has a parameter up to that of the
crossing. -/
theorem passAll_advance_eq (hgraded : Graded level valid) {lanes : List (Lane K)} {j : Nat} {t : K}
    (hlanes : ∀ lane ∈ lanes, lane.Ordered level valid) (h : earliest? lanes = some (j, t)) :
    passAll t (lanes.modify j advance) = lanes.map (after t) := by
  obtain ⟨⟨lane, c, rest, hlane, hahead, rfl⟩, hfirst⟩ := of_earliest?_eq_some hgraded hlanes h
  have hc : valid c.param :=
    (hlanes lane (List.mem_of_getElem? hlane)).valid c (hahead ▸ List.mem_cons_self)
  rw [passAll_eq_map_after hgraded hc (forall_mem_modify_advance hlanes fun _ h => h.advance)
    (forall_mem_modify_advance hfirst fun _ h d hd => h d (mem_ahead_of_mem_ahead_advance hd))]
  refine map_modify_of_eq fun lane' hlane' => ?_
  obtain rfl := Option.some.inj (hlane.symm.trans hlane')
  exact after_advance hahead ((hgraded.le_iff hc hc).2 le_rfl)

/-! ## All events -/

/-- The events of lanes in order. -/
structure Events (level : K → L) (lanes : List (Lane K)) (events : List (K × List (Lane K))) :
    Prop where
  /-- After an event, each lane is past the crossings with a parameter up to that of the event. -/
  state : ∀ e ∈ events, e.2 = lanes.map (after e.1)
  /-- The parameter of an event is that of a crossing. -/
  source : ∀ e ∈ events, ∃ lane ∈ lanes, ∃ c ∈ lane.ahead, c.param = e.1
  /-- The events come in the order of their parameters, and no two at one parameter. -/
  sorted : events.Pairwise fun e e' => level e.1 < level e'.1
  /-- Each crossing has an event at its parameter. -/
  complete : ∀ lane ∈ lanes, ∀ c ∈ lane.ahead, ∃ e ∈ events, level e.1 = level c.param

theorem Events.valid_param {lanes : List (Lane K)} {events : List (K × List (Lane K))}
    (h : Events level lanes events) (hlanes : ∀ lane ∈ lanes, lane.Ordered level valid) :
    ∀ e ∈ events, valid e.1 := fun e he => by
  obtain ⟨lane, hlane, c, hc, heq⟩ := h.source e he
  exact heq ▸ (hlanes lane hlane).valid c hc

/-- A crossing has its event, somewhere in the order of events. -/
theorem Events.exists_getElem? {lanes : List (Lane K)} {events : List (K × List (Lane K))}
    (h : Events level lanes events) {lane : Lane K} (hlane : lane ∈ lanes) {c : Crossing K}
    (hc : c ∈ lane.ahead) :
    ∃ (i : Nat) (e : K × List (Lane K)), events[i]? = some e ∧ level e.1 = level c.param := by
  obtain ⟨e, he, heq⟩ := h.complete lane hlane c hc
  obtain ⟨i, hi⟩ := List.mem_iff_getElem?.1 he
  exact ⟨i, e, hi, heq⟩

theorem Events.lt_of_lt {lanes : List (Lane K)} {events : List (K × List (Lane K))}
    (h : Events level lanes events) {i j : Nat} (hij : i < j) {e e' : K × List (Lane K)}
    (hi : events[i]? = some e) (hj : events[j]? = some e') : level e.1 < level e'.1 := by
  obtain ⟨hi', rfl⟩ := List.getElem?_eq_some_iff.1 hi
  obtain ⟨hj', rfl⟩ := List.getElem?_eq_some_iff.1 hj
  exact List.pairwise_iff_getElem.1 h.sorted i j hi' hj' hij

/-- Where the first crossing has its event, and those beyond it have theirs, all do. -/
theorem Events.cons (hgraded : Graded level valid) {lanes : List (Lane K)}
    (hlanes : ∀ lane ∈ lanes, lane.Ordered level valid) {t : K}
    (hsource : ∃ lane ∈ lanes, ∃ c ∈ lane.ahead, c.param = t)
    (hle : ∀ lane ∈ lanes, ∀ c ∈ lane.ahead, level t ≤ level c.param)
    {events : List (K × List (Lane K))} (h : Events level (lanes.map (after t)) events) :
    Events level lanes ((t, lanes.map (after t)) :: events) := by
  have ht : valid t := by
    obtain ⟨lane, hlane, c, hc, rfl⟩ := hsource
    exact (hlanes lane hlane).valid c hc
  have hlater : ∀ e ∈ events,
      ∃ lane ∈ lanes, ∃ c ∈ lane.ahead, c.param = e.1 ∧ level t < level e.1 := by
    intro e he
    obtain ⟨lane', hlane', c, hc, hparam⟩ := h.source e he
    obtain ⟨lane, hlane, rfl⟩ := List.mem_map.1 hlane'
    obtain ⟨hc, hbeyond⟩ := mem_ahead_after.1 hc
    rw [hgraded.le_iff ((hlanes lane hlane).valid c hc) ht, not_le] at hbeyond
    exact ⟨lane, hlane, c, hc, hparam, hparam ▸ hbeyond⟩
  refine ⟨List.forall_mem_cons.2 ⟨rfl, fun e he => ?_⟩,
    List.forall_mem_cons.2 ⟨hsource, fun e he => ?_⟩,
    List.pairwise_cons.2 ⟨fun e he => ?_, h.sorted⟩, fun lane hlane c hc => ?_⟩
  · obtain ⟨lane, hlane, c, hc, hparam, hlt⟩ := hlater e he
    have hvalid : valid e.1 := hparam ▸ (hlanes lane hlane).valid c hc
    rw [h.state e he, List.map_map]
    exact List.map_congr_left fun lane hlane =>
      after_after hgraded ht hvalid hlt.le (hlanes lane hlane)
  · obtain ⟨lane, hlane, c, hc, hparam, -⟩ := hlater e he
    exact ⟨lane, hlane, c, hc, hparam⟩
  · obtain ⟨-, -, -, -, -, hlt⟩ := hlater e he
    exact hlt
  · by_cases hct : c.param ≤ t
    · rw [hgraded.le_iff ((hlanes lane hlane).valid c hc) ht] at hct
      exact ⟨_, List.mem_cons_self, (hle lane hlane c hc).antisymm hct⟩
    · obtain ⟨e, he, heq⟩ :=
        h.complete _ (List.mem_map_of_mem hlane) c (mem_ahead_after.2 ⟨hc, hct⟩)
      exact ⟨e, List.mem_cons_of_mem _ he, heq⟩

/-- The walk along lanes in order stops at their events. -/
theorem events_stops (hgraded : Graded level valid) {lanes : List (Lane K)}
    (hlanes : ∀ lane ∈ lanes, lane.Ordered level valid) : Events level lanes (stops lanes) := by
  fun_induction stops lanes with
  | case1 lanes j t hearliest passed fewer ih =>
    obtain ⟨⟨lane, c, rest, hlane, hahead, ht⟩, hle⟩ :=
      of_earliest?_eq_some hgraded hlanes hearliest
    have hpassed : passed = lanes.map (after t) := passAll_advance_eq hgraded hlanes hearliest
    rw [hpassed] at ih ⊢
    have hordered : ∀ lane ∈ lanes.map (after t), lane.Ordered level valid :=
      List.forall_mem_map.2 fun lane hlane => (hlanes lane hlane).after t
    refine .cons hgraded hlanes ?_ hle (ih hordered)
    exact ⟨lane, List.mem_of_getElem? hlane, c, hahead ▸ List.mem_cons_self, ht⟩
  | case2 lanes hnone =>
    have hnil := (earliestFrom_eq_none hnone).2
    refine ⟨nofun, nofun, .nil, fun lane hlane c hc => ?_⟩
    rw [hnil lane hlane] at hc
    exact absurd hc List.not_mem_nil

end Lane

namespace Classifier

/-! ## The events along a piece -/

variable {c : Classifier K} {piece : Segment K}

theorem ordered_lanes (h : Ranked key level valid)
    (hvalid : ∀ entry ∈ c.entries, ∀ x ∈ entry.2.crossings piece, valid x.param) :
    ∀ lane ∈ c.lanes piece, lane.Ordered key valid :=
  List.forall_mem_map.2 fun entry hentry =>
    Lane.ordered_crossings_of_ranked h _ _ (hvalid entry hentry)

/-- The walk along a piece stops at the events of its lanes. -/
theorem events_lanes_of_ranked (h : Ranked key level valid)
    (hvalid : ∀ entry ∈ c.entries, ∀ x ∈ entry.2.crossings piece, valid x.param) :
    Lane.Events level (c.lanes piece) (Lane.stops (c.lanes piece)) :=
  Lane.events_stops h.toGraded fun lane hlane => (ordered_lanes h hvalid lane hlane).of_key h

end Classifier

end CurveSketch
