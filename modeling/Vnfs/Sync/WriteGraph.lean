import Vnfs.Lib.DependencyGraph
import Vnfs.Sync.WriteFrontier

/-!
The dependency graph of `vwrite_all_native`. Requests are added in input order,
to the group of their object or, once an identity is unknown, all to one group.
A small group keeps its members and compares the new request with each of them;
a larger one keeps only the frontier. Either way, and across the switch, every
two requests of a group that conflict are joined by a path of edges.
-/

namespace Vnfs.Sync

open WriteFrontier DependencyGraph

open List hiding lt_irrefl

variable {ι : Type}

/-- One group: its members while it is small, its frontier after that. -/
structure WriteDependencies (ι : Type) where
  prior : List (WriteRange ι)
  frontier : Option (WriteFrontier ι)

/-- The graph, and the requests that wait for nobody. -/
structure Schedule (ι : Type) where
  graph : DependencyGraph ι
  waveIndices : List ι

def Schedule.empty : Schedule ι := ⟨.empty, []⟩

namespace WriteDependencies

def empty : WriteDependencies ι := ⟨[], none⟩

/-- The last member waits for more than a quarter of its group. -/
def dense (remaining : ι → Nat) (prior : List (WriteRange ι)) : Bool :=
  match prior.getLast? with
  | some last => remaining last.index > prior.length / 4
  | none => false

variable [LinearOrder ι]

/-- The switch to a frontier: the members are replayed without new edges. -/
def compact (remaining : ι → Nat) (group : WriteDependencies ι) : WriteDependencies ι :=
  if group.frontier.isNone ∧ group.prior.length ≥ 16 ∧
      (group.prior.length ≥ 256 ∨ dense remaining group.prior) then
    ⟨[], some (group.prior.foldl (fun frontier previous => (frontier.insert previous).1) .empty)⟩
  else group

/-- The group with `range`, and the members `range` gets an edge from. -/
def link (group : WriteDependencies ι) (range : WriteRange ι) : WriteDependencies ι × List ι :=
  match group.frontier with
  | some frontier =>
    let (frontier, earlier) := frontier.insert range
    ({group with frontier := some frontier}, earlier)
  | none =>
    ({group with prior := group.prior ++ [range]},
      (group.prior.filter fun earlier => earlier.Conflicts range).map WriteRange.index)

end WriteDependencies

def addWriteDependencies [LinearOrder ι] (range : WriteRange ι) (prior : WriteDependencies ι)
    (schedule : Schedule ι) : WriteDependencies ι × Schedule ι :=
  let (prior, earlier) := (prior.compact schedule.graph.remaining).link range
  let graph := schedule.graph.dependAll range.index earlier
  (prior, ⟨graph, if graph.remaining range.index = 0 then schedule.waveIndices ++ [range.index]
    else schedule.waveIndices⟩)

/-- What a group knows about its members under the order `before`. -/
structure WriteDependencies.Orders (before : ι → ι → Prop) (members : List (WriteRange ι))
    (group : WriteDependencies ι) : Prop where
  nonempty : ∀ m ∈ members, m.start < m.stop
  ordered : members.Pairwise fun earlier later =>
    earlier.Conflicts later → before earlier.index later.index
  prior_eq : group.frontier = none → group.prior = members
  tracks : ∀ frontier, group.frontier = some frontier → frontier.Tracks before members

namespace WriteDependencies

variable {before : ι → ι → Prop} {members : List (WriteRange ι)} {group : WriteDependencies ι}
  {range : WriteRange ι}

theorem orders_empty (before : ι → ι → Prop) : Orders before [] (empty : WriteDependencies ι) :=
  ⟨by simp, .nil, fun _ => rfl, by simp [empty]⟩

theorem Orders.mono {before' : ι → ι → Prop} (h : Orders before members group)
    (hle : ∀ i j, before i j → before' i j) : Orders before' members group where
  nonempty := h.nonempty
  ordered := h.ordered.imp fun hab hc => hle _ _ (hab hc)
  prior_eq := h.prior_eq
  tracks frontier hf := (h.tracks frontier hf).mono hle

variable [LinearOrder ι]

/-- Replaying members whose conflicts are already ordered needs no edge. -/
theorem tracks_replay (hrefl : ∀ i, before i i)
    (htrans : ∀ i j k, before i j → before j k → before i k) {seen rest : List (WriteRange ι)}
    {frontier : WriteFrontier ι} (h : frontier.Tracks before seen)
    (hne : ∀ m ∈ seen ++ rest, m.start < m.stop) (ho : (seen ++ rest).Pairwise fun earlier later =>
      earlier.Conflicts later → before earlier.index later.index) :
    (rest.foldl (fun frontier previous => (frontier.insert previous).1) frontier).Tracks before
      (seen ++ rest) := by
  induction rest generalizing seen frontier with
  | nil => simpa using h
  | cons range rest ih =>
    have hr := hne range (by simp)
    have hp := (pairwise_append.mp ho).2.2
    have he : ∀ w ∈ (frontier.insert range).2, before w range.index := by
      intro w hw
      obtain ⟨m, hm, rfl, hc⟩ := conflicts_of_mem_insert h hr hw
      exact hp m hm range (by simp) hc
    have hn := tracks_insert h (fun m hm => hne m (mem_append_left _ hm)) hr htrans he hrefl
    rw [append_cons] at hne ho ⊢
    exact ih hn hne ho

variable (h : Orders before members group) (hrefl : ∀ i, before i i)
  (htrans : ∀ i j k, before i j → before j k → before i k)

include h hrefl htrans in
theorem orders_compact (remaining : ι → Nat) : Orders before members (group.compact remaining) := by
  unfold compact
  split
  · rename_i hs
    have hp := h.prior_eq (Option.isNone_iff_eq_none.mp hs.1)
    refine ⟨h.nonempty, h.ordered, by simp, ?_⟩
    rintro frontier ⟨⟩
    rw [hp]
    exact tracks_replay hrefl htrans (tracks_empty before) h.nonempty h.ordered
  · exact h

include h in
theorem conflicts_of_mem_link (hr : range.start < range.stop) {w : ι}
    (hw : w ∈ (group.link range).2) : ∃ m ∈ members, m.index = w ∧ m.Conflicts range := by
  unfold link at hw
  split at hw
  · rename_i frontier hf
    exact conflicts_of_mem_insert (h.tracks frontier hf) hr hw
  rename_i hn
  rw [h.prior_eq hn] at hw
  obtain ⟨m, hm, hi⟩ := mem_map.mp hw
  obtain ⟨hme, hc⟩ := mem_filter.mp hm
  exact ⟨m, hme, hi, by simpa using hc⟩

include h hrefl htrans in
theorem orders_link (hr : range.start < range.stop)
    (he : ∀ w ∈ (group.link range).2, before w range.index) :
    Orders before (members ++ [range]) (group.link range).1 := by
  have hne : ∀ m ∈ members ++ [range], m.start < m.stop := by
    intro m hm
    rcases mem_append.mp hm with hm | hm
    · exact h.nonempty m hm
    · exact mem_singleton.mp hm ▸ hr
  have ho (hnew : ∀ m ∈ members, m.Conflicts range → before m.index range.index) :
      (members ++ [range]).Pairwise fun earlier later =>
        earlier.Conflicts later → before earlier.index later.index := by
    refine pairwise_append.mpr ⟨h.ordered, pairwise_singleton .., ?_⟩
    intro m hm later hl
    rw [mem_singleton.mp hl]
    exact hnew m hm
  unfold link at he ⊢
  split at he
  · rename_i frontier hf
    have ht := h.tracks frontier hf
    refine ⟨hne, ho fun m hm hc => ?_, by simp, ?_⟩
    · exact before_of_conflicts ht h.nonempty hr htrans he hm hc
    · rintro frontier' ⟨⟩
      exact tracks_insert ht h.nonempty hr htrans he hrefl
  rename_i hn
  have hp := h.prior_eq hn
  refine ⟨hne, ho fun m hm hc => ?_, fun _ => by rw [hp], by simp [hn]⟩
  apply he
  rw [hp]
  exact mem_map.mpr ⟨m, mem_filter.mpr ⟨hm, by simpa using hc⟩, rfl⟩

end WriteDependencies

variable [LinearOrder ι] [Fintype ι]

/-- The schedule of `ranges`: counters agree with edges, edges go forward, and
the first wave is whoever waits for nobody, in input order. -/
structure Schedule.Over (ranges : List (WriteRange ι)) (schedule : Schedule ι) : Prop where
  counted : schedule.graph.Counted
  edge : ∀ i j, schedule.graph.Edge i j →
    i < j ∧ i ∈ ranges.map WriteRange.index ∧ j ∈ ranges.map WriteRange.index
  wave_eq : schedule.waveIndices =
    (ranges.map WriteRange.index).filter fun j => schedule.graph.remaining j = 0

theorem Schedule.over_empty : Schedule.Over [] (Schedule.empty : Schedule ι) :=
  ⟨counted_empty, by simp [empty, DependencyGraph.Edge, DependencyGraph.empty],
    rfl⟩

open WriteDependencies

/-- Adding a request orders it behind every member of its group it conflicts
with, and keeps the order there was. -/
theorem addWriteDependencies_spec {ranges members : List (WriteRange ι)} {range : WriteRange ι}
    {group : WriteDependencies ι} {schedule : Schedule ι} (hsc : schedule.Over ranges)
    (hg : group.Orders schedule.graph.Before members) (hme : ∀ m ∈ members, m ∈ ranges)
    (hrn : range.start < range.stop) (hl : ∀ r ∈ ranges, r.index < range.index) :
    (addWriteDependencies range group schedule).2.Over (ranges ++ [range]) ∧
    (addWriteDependencies range group schedule).1.Orders
      (addWriteDependencies range group schedule).2.graph.Before (members ++ [range]) ∧
    ∀ i j, schedule.graph.Before i j →
      (addWriteDependencies range group schedule).2.graph.Before i j := by
  have hc := orders_compact hg (fun _ => .refl) (fun _ _ _ => .trans) schedule.graph.remaining
  unfold addWriteDependencies
  dsimp only
  generalize group.compact schedule.graph.remaining = compacted at *
  have he : ∀ i j, (schedule.graph.dependAll range.index (compacted.link range).2).Edge i j ↔
      schedule.graph.Edge i j ∨ (i ∈ (compacted.link range).2 ∧ j = range.index) :=
    fun i j => edge_dependAll
  have hmo : ∀ i j, schedule.graph.Before i j →
      (schedule.graph.dependAll range.index (compacted.link range).2).Before i j :=
    fun i j => DependencyGraph.Before.mono fun i j h => (he i j).mpr (.inl h)
  refine ⟨⟨hsc.counted.dependAll _ _, ?_, ?_⟩, ?_, hmo⟩
  · intro i j hij
    simp only [map_append, mem_append, map_cons, map_nil, mem_singleton]
    rcases (he i j).mp hij with hold | ⟨hi, rfl⟩
    · obtain ⟨hlt, hi, hj⟩ := hsc.edge i j hold
      exact ⟨hlt, .inl hi, .inl hj⟩
    · obtain ⟨m, hm, rfl, -⟩ := conflicts_of_mem_link hc hrn hi
      have hm := hme m hm
      exact ⟨hl m hm, .inl (mem_map_of_mem hm), .inr rfl⟩
  · have hs : (ranges.map WriteRange.index).filter (fun j =>
        (schedule.graph.dependAll range.index (compacted.link range).2).remaining j = 0) =
        schedule.waveIndices := by
      rw [hsc.wave_eq]
      apply filter_congr
      intro j hj
      obtain ⟨r, hr, rfl⟩ := mem_map.mp hj
      rw [remaining_dependAll_of_ne (ne_of_lt (hl r hr))]
    rw [map_append, filter_append, hs]
    split
    · rename_i hz
      simp [hz]
    · rename_i hz
      simp [hz]
  apply orders_link (hc.mono hmo) (fun _ => .refl) (fun _ _ _ => .trans) hrn
  intro w hw
  exact .single ((he w _).mpr (.inr ⟨hw, rfl⟩))

/-- The state of the loop over the requests: the groups and the schedule. -/
structure Grouping (ρ ι : Type) where
  unknown : Bool
  priorByObject : ρ → WriteDependencies ι
  priorUnknown : WriteDependencies ι
  schedule : Schedule ι

namespace Grouping

variable {ρ : Type} [DecidableEq ρ]

def empty : Grouping ρ ι := ⟨false, fun _ => .empty, .empty, .empty⟩

def addUnknown (st : Grouping ρ ι) (range : WriteRange ι) : Grouping ρ ι :=
  let (prior, schedule) := addWriteDependencies range st.priorUnknown st.schedule
  {st with priorUnknown := prior, schedule}

def addKnown (st : Grouping ρ ι) (object : ρ) (range : WriteRange ι) : Grouping ρ ι :=
  let (prior, schedule) := addWriteDependencies range (st.priorByObject object) st.schedule
  {st with priorByObject := Function.update st.priorByObject object prior, schedule}

/-- The first unknown identity: all earlier requests are regrouped as one. -/
def rebuild (st : Grouping ρ ι) (earlier : List (WriteRange ι)) : Grouping ρ ι :=
  earlier.foldl addUnknown
    {st with unknown := true, priorByObject := fun _ => .empty, schedule := .empty}

/-- One request; `earlier` are the non-empty requests before it. -/
def add (st : Grouping ρ ι) (earlier : List (WriteRange ι)) (range : WriteRange ι)
    (object : Option ρ) : Grouping ρ ι :=
  match st.unknown, object with
  | false, none => (st.rebuild earlier).addUnknown range
  | false, some object => st.addKnown object range
  | true, _ => st.addUnknown range

/-- All of `ranges` in one group. -/
structure Together (ranges : List (WriteRange ι)) (st : Grouping ρ ι) : Prop where
  unknown : st.unknown = true
  scheduled : st.schedule.Over ranges
  orders : st.priorUnknown.Orders st.schedule.graph.Before ranges

/-- `ranges` grouped by the references they got, all of them known. -/
structure Apart (seen : List (WriteRange ι × Option ρ)) (st : Grouping ρ ι) : Prop where
  unknown : st.unknown = false
  scheduled : st.schedule.Over (seen.map Prod.fst)
  known : ∀ entry ∈ seen, entry.2.isSome
  fresh : st.priorUnknown = .empty
  orders : ∀ object, (st.priorByObject object).Orders st.schedule.graph.Before
    ((seen.filter fun entry => entry.2 = some object).map Prod.fst)

/-- Requests come in input order and are not empty. -/
structure InOrder (ranges : List (WriteRange ι)) : Prop where
  increasing : ranges.Pairwise fun earlier later => earlier.index < later.index
  nonempty : ∀ r ∈ ranges, r.start < r.stop

omit [Fintype ι] in
theorem InOrder.last {ranges : List (WriteRange ι)} {range : WriteRange ι}
    (h : InOrder (ranges ++ [range])) :
    range.start < range.stop ∧ ∀ r ∈ ranges, r.index < range.index :=
  ⟨h.nonempty range (by simp),
    fun r hr => (pairwise_append.mp h.increasing).2.2 r hr range (by simp)⟩

omit [Fintype ι] in
theorem InOrder.init {front back : List (WriteRange ι)} (h : InOrder (front ++ back)) :
    InOrder front :=
  ⟨(pairwise_append.mp h.increasing).1, fun r hr => h.nonempty r (mem_append_left _ hr)⟩

omit [DecidableEq ρ] in
theorem Together.addUnknown {ranges : List (WriteRange ι)} {st : Grouping ρ ι}
    {range : WriteRange ι} (h : Together ranges st) (hor : InOrder (ranges ++ [range])) :
    Together (ranges ++ [range]) (st.addUnknown range) := by
  obtain ⟨hr, hl⟩ := hor.last
  obtain ⟨hov, ho, -⟩ := addWriteDependencies_spec h.scheduled h.orders (fun _ hm => hm) hr hl
  exact ⟨h.unknown, hov, ho⟩

omit [DecidableEq ρ] in
theorem Together.foldl {ranges rest : List (WriteRange ι)} {st : Grouping ρ ι}
    (h : Together ranges st) (ho : InOrder (ranges ++ rest)) :
    Together (ranges ++ rest) (rest.foldl Grouping.addUnknown st) := by
  induction rest generalizing ranges st with
  | nil => simpa using h
  | cons range rest ih =>
    rw [append_cons] at ho ⊢
    exact ih (h.addUnknown ho.init) ho

variable {seen : List (WriteRange ι × Option ρ)} {st : Grouping ρ ι} {range : WriteRange ι}

theorem Apart.rebuild (h : Apart seen st) (ho : InOrder (seen.map Prod.fst)) :
    Together (seen.map Prod.fst) (st.rebuild (seen.map Prod.fst)) := by
  have hst : Together []
      {st with unknown := true, priorByObject := fun _ : ρ => .empty, schedule := .empty} := by
    refine ⟨rfl, Schedule.over_empty, ?_⟩
    rw [h.fresh]
    exact orders_empty _
  exact hst.foldl ho

theorem Apart.addKnown {object : ρ} (h : Apart seen st)
    (hord : InOrder (seen.map Prod.fst ++ [range])) :
    Apart (seen ++ [(range, some object)]) (st.addKnown object range) := by
  obtain ⟨hr, hl⟩ := hord.last
  have hme : ∀ m ∈ (seen.filter fun entry => entry.2 = some object).map Prod.fst,
      m ∈ seen.map Prod.fst := by
    intro m hm
    obtain ⟨entry, he, rfl⟩ := mem_map.mp hm
    exact mem_map_of_mem (mem_filter.mp he).1
  obtain ⟨hov, hor, hmo⟩ := addWriteDependencies_spec h.scheduled (h.orders object) hme hr hl
  have hs : (st.addKnown object range).schedule =
      (addWriteDependencies range (st.priorByObject object) st.schedule).2 := rfl
  have hp : (st.addKnown object range).priorByObject = Function.update st.priorByObject object
      (addWriteDependencies range (st.priorByObject object) st.schedule).1 := rfl
  refine ⟨h.unknown, ?_, ?_, h.fresh, ?_⟩
  · rw [hs, map_append]
    exact hov
  · intro entry he
    rcases mem_append.mp he with hold | hn
    · exact h.known entry hold
    · rw [mem_singleton.mp hn]
      rfl
  intro other
  rw [hs, hp, filter_append, map_append]
  by_cases ho : other = object
  · subst ho
    rw [Function.update_self]
    simpa only [filter_cons, decide_true, if_true, filter_nil, map_cons, map_nil] using hor
  have hne : ¬ some object = some other := fun heq => ho (Option.some.inj heq).symm
  rw [Function.update_of_ne ho]
  simpa only [filter_cons, hne, decide_false, Bool.false_eq_true, if_false,
    filter_nil, map_nil, append_nil] using (h.orders other).mono hmo

def Groups (seen : List (WriteRange ι × Option ρ)) (st : Grouping ρ ι) : Prop :=
  Apart seen st ∨ Together (seen.map Prod.fst) st

theorem groups_empty : Groups [] (empty : Grouping ρ ι) :=
  .inl ⟨rfl, Schedule.over_empty, by simp, rfl, fun _ => orders_empty _⟩

theorem Groups.add {object : Option ρ} (h : Groups seen st)
    (ho : InOrder (seen.map Prod.fst ++ [range])) :
    Groups (seen ++ [(range, object)]) (st.add (seen.map Prod.fst) range object) := by
  have hm : (seen ++ [(range, object)]).map Prod.fst = seen.map Prod.fst ++ [range] := by simp
  rcases h with hap | ht
  · cases object with
    | none =>
      right
      rw [hm]
      simpa only [Grouping.add, hap.unknown] using (hap.rebuild ho.init).addUnknown ho
    | some object =>
      left
      simpa only [Grouping.add, hap.unknown] using hap.addKnown ho
  · right
    rw [hm]
    simpa only [Grouping.add, ht.unknown] using ht.addUnknown ho

theorem Groups.scheduled (h : Groups seen st) : st.schedule.Over (seen.map Prod.fst) := by
  rcases h with hap | ht
  · exact hap.scheduled
  · exact ht.scheduled

theorem Groups.ordered (h : Groups seen st) : seen.Pairwise fun earlier later =>
      (∀ r r', earlier.2 = some r → later.2 = some r' → r = r') → earlier.1.Conflicts later.1 →
        st.schedule.graph.Before earlier.1.index later.1.index := by
  apply pairwise_iff_forall_sublist.mpr
  intro earlier later hs hsa hc
  rcases h with hap | ht
  · obtain ⟨r, hr⟩ := Option.isSome_iff_exists.mp (hap.known earlier (hs.subset (by simp)))
    obtain ⟨r', hr'⟩ := Option.isSome_iff_exists.mp (hap.known later (hs.subset (by simp)))
    obtain rfl := hsa r r' hr hr'
    have hg := (hs.filter fun entry => entry.2 = some r).map Prod.fst
    simp only [filter_cons, hr, hr', decide_true, if_true, filter_nil, map_cons, map_nil] at hg
    exact pairwise_iff_forall_sublist.mp (hap.orders r).ordered hg hc
  · exact pairwise_iff_forall_sublist.mp ht.orders.ordered (hs.map Prod.fst) hc

/-- Two requests that conflict and may be on one object are joined by a path. -/
theorem Groups.before (h : Groups seen st) (ho : InOrder (seen.map Prod.fst))
    {earlier later : WriteRange ι × Option ρ} (hear : earlier ∈ seen) (hl : later ∈ seen)
    (hlt : earlier.1.index < later.1.index)
    (hs : ∀ r r', earlier.2 = some r → later.2 = some r' → r = r')
    (hc : earlier.1.Conflicts later.1) :
    st.schedule.graph.Before earlier.1.index later.1.index := by
  have hin := pairwise_map.mp ho.increasing
  have hp := hin.and h.ordered
  obtain ⟨i, hi, rfl⟩ := mem_iff_getElem.mp hear
  obtain ⟨j, hj, rfl⟩ := mem_iff_getElem.mp hl
  rcases Nat.lt_trichotomy i j with hij | rfl | hji
  · exact (pairwise_iff_getElem.mp hp i j hi hj hij).2 hs hc
  · exact absurd hlt (lt_irrefl _)
  · exact absurd hlt (not_lt_of_gt (pairwise_iff_getElem.mp hp j i hj hi hji).1)

end Grouping

end Vnfs.Sync
