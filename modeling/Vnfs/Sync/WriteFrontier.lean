import Vnfs.Lib.Loop
import Vnfs.Lib.SortedMap

/-!
The interval frontier of `vfsi-sync`'s write graph. It remembers the latest
writer of each byte since the last append, as disjoint fragments keyed by their
left end. Inserting a request cuts out the bytes it overwrites and reports the
writers that lost some.
-/

namespace Vnfs.Sync

open SortedMap

open List hiding Disjoint max

/-- One request: its index, its bytes `start..stop`, and whether it appends. -/
structure WriteRange (ι : Type) where
  index : ι
  start : Nat
  stop : Nat
  append : Bool
  deriving DecidableEq, Repr

/-- Fragments `left ↦ (right, writer)`. -/
abbrev Fragments (ι : Type) := SortedMap Nat (Nat × ι)

namespace Fragments

variable {ι : Type}

/-- Keep the uncovered tail of a fragment that reaches behind `stop`. -/
def keepTail (ranges : Fragments ι) (right : Nat) (writer : ι) (stop : Nat) : Fragments ι :=
  if stop < right then ranges.insert stop (right, writer) else ranges

/-- Keep the uncovered front of a fragment that begins before `start`. -/
def keepFront (ranges : Fragments ι) (left : Nat) (writer : ι) (start : Nat) : Fragments ι :=
  if left < start then ranges.insert left (start, writer) else ranges

/-- The fragment that contains `start`, if any, is cut. -/
def cutFirst (ranges : Fragments ι) (start stop : Nat) : Fragments ι × List ι :=
  match ranges.lastLE start with
  | some (left, right, writer) =>
    if right > start then
      (keepTail (keepFront (ranges.remove left) left writer start) right writer stop, [writer])
    else (ranges, [])
  | none => (ranges, [])

/-- One turn of the loop over the fragments that begin in `start..stop`. -/
def cutStep (start stop : Nat) (st : Fragments ι × List ι) :
    (Fragments ι × List ι) ⊕ (Fragments ι × List ι) :=
  match st.1.firstIn start stop with
  | some (left, right, writer) =>
    .inl (keepTail (st.1.remove left) right writer stop, st.2 ++ [writer])
  | none => .inr st

/-- The fragments that begin in `start..stop`. -/
def beginIn (start stop : Nat) (entries : List (Nat × Nat × ι)) : List (Nat × Nat × ι) :=
  entries.filter fun entry => start ≤ entry.1 ∧ entry.1 < stop

theorem beginIn_insert_stop (start stop : Nat) (value : Nat × ι) (entries : List (Nat × Nat × ι)) :
    beginIn start stop (insertEntry stop value entries) = beginIn start stop entries := by
  induction entries with
  | nil => simp [beginIn, insertEntry]
  | cons entry rest ih =>
    unfold insertEntry
    split
    · simp [beginIn]
    split
    · rename_i heq
      simp [beginIn, ← heq]
    · simp only [beginIn, filter_cons] at ih ⊢
      rw [ih]

theorem beginIn_keepTail (ranges : Fragments ι) (right : Nat) (writer : ι) (start stop : Nat) :
    beginIn start stop (keepTail ranges right writer stop).entries =
      beginIn start stop ranges.entries := by
  unfold keepTail
  split
  · exact beginIn_insert_stop start stop _ _
  · rfl

variable {ranges : Fragments ι} {start stop : Nat} {st st' : Fragments ι × List ι}

theorem beginIn_remove {entry : Nat × Nat × ι} (hmem : entry ∈ ranges.entries)
    (hl : start ≤ entry.1) (hh : entry.1 < stop) :
    (beginIn start stop (ranges.remove entry.1).entries).length <
      (beginIn start stop ranges.entries).length := by
  unfold beginIn remove
  rw [filter_comm]
  apply length_filter_lt_length_iff_exists.mpr
  refine ⟨entry, mem_filter.mpr ⟨hmem, ?_⟩, ?_⟩
  · simp [hl, hh]
  · simp

theorem cutStep_inl (h : cutStep start stop st = .inl st') :
    ∃ left right writer, (left, right, writer) ∈ st.1.entries ∧ start ≤ left ∧ left < stop ∧
      st' = (keepTail (st.1.remove left) right writer stop, st.2 ++ [writer]) := by
  unfold cutStep at h
  split at h
  · rename_i left right writer hf
    obtain ⟨hmem, hl, hh⟩ := firstIn_eq_some hf
    exact ⟨left, right, writer, hmem, hl, hh, (Sum.inl.inj h).symm⟩
  · cases h

theorem cutStep_inr (h : cutStep start stop st = .inr st') :
    st' = st ∧ ∀ entry ∈ st.1.entries, start ≤ entry.1 → stop ≤ entry.1 := by
  unfold cutStep at h
  split at h
  · cases h
  · rename_i hn
    exact ⟨(Sum.inr.inj h).symm, firstIn_eq_none hn⟩

/-- The loop that cuts every fragment beginning in `start..stop`. Each round
removes one of them; what it puts back begins at `stop`. -/
def cutBody (start stop : Nat) : Loop.Body (Fragments ι × List ι) (Fragments ι × List ι) Nat where
  step := cutStep start stop
  variant st := (beginIn start stop st.1.entries).length
  decreases := by
    intro st st' h
    obtain ⟨left, right, writer, hmem, hlow, hhigh, rfl⟩ := cutStep_inl h
    change (beginIn start stop (keepTail _ _ _ _).entries).length < _
    rw [beginIn_keepTail]
    exact beginIn_remove hmem hlow hhigh

def cut (ranges : Fragments ι) (start stop : Nat) : Fragments ι × List ι :=
  Loop.run (cutBody start stop) (cutFirst ranges start stop)

/-- `writer` owns the byte at `b`. -/
def Covers (ranges : Fragments ι) (b : Nat) (writer : ι) : Prop :=
  ∃ entry ∈ ranges.entries, entry.1 ≤ b ∧ b < entry.2.1 ∧ entry.2.2 = writer

/-- Fragments are non-empty and disjoint. -/
structure Disjoint (ranges : Fragments ι) : Prop where
  nonempty : ∀ entry ∈ ranges.entries, entry.1 < entry.2.1
  apart : ∀ entry ∈ ranges.entries, ∀ other ∈ ranges.entries,
    entry.1 < other.1 → entry.2.1 ≤ other.1

/-- `start..stop` cut out of one fragment. -/
def cutFragment (ranges : Fragments ι) (left right : Nat) (writer : ι) (start stop : Nat) :
    Fragments ι :=
  keepTail (keepFront (ranges.remove left) left writer start) right writer stop

section

variable {ranges : Fragments ι} {left right start stop : Nat} {writer : ι}

theorem mem_keepFront {entry : Nat × Nat × ι} :
    entry ∈ (keepFront (ranges.remove left) left writer start).entries ↔
      (entry ∈ ranges.entries ∧ entry.1 ≠ left) ∨
        (left < start ∧ entry = (left, start, writer)) := by
  unfold keepFront
  split
  · rename_i hlt
    simp only [mem_insert, mem_remove, hlt, true_and]
    tauto
  · rename_i hlt
    simp [hlt]

variable (hranges : Disjoint ranges) (hmem : (left, right, writer) ∈ ranges.entries)
  (hleft : left < stop) (hright : start < right)

include hranges hmem hleft in
theorem mem_cutFragment (entry : Nat × Nat × ι) :
    entry ∈ (cutFragment ranges left right writer start stop).entries ↔
      (entry ∈ ranges.entries ∧ entry.1 ≠ left) ∨ (left < start ∧ entry = (left, start, writer)) ∨
        (stop < right ∧ entry = (stop, right, writer)) := by
  unfold cutFragment keepTail
  split
  · rename_i hlt
    -- No other fragment begins at `stop`: it would lie inside the one being cut.
    have hf : ∀ other ∈ (keepFront (ranges.remove left) left writer start).entries,
        other.1 ≠ stop := by
      intro other ho heq
      rcases mem_keepFront.mp ho with ⟨hold, hne⟩ | ⟨-, rfl⟩
      · have := hranges.apart _ hmem other hold (by simp only; omega)
        simp only at this
        omega
      · simp only at heq
        omega
    rw [mem_insert]
    constructor
    · rintro (rfl | ⟨hold, -⟩)
      · exact .inr (.inr ⟨hlt, rfl⟩)
      · rcases mem_keepFront.mp hold with h | h
        · exact .inl h
        · exact .inr (.inl h)
    rintro (h | h | ⟨-, rfl⟩)
    · have hk : entry ∈ (keepFront (ranges.remove left) left writer start).entries :=
        mem_keepFront.mpr (.inl h)
      exact .inr ⟨hk, hf entry hk⟩
    · have hk : entry ∈ (keepFront (ranges.remove left) left writer start).entries :=
        mem_keepFront.mpr (.inr h)
      exact .inr ⟨hk, hf entry hk⟩
    · exact .inl rfl
  · rename_i hlt
    rw [mem_keepFront]
    simp [hlt]

include hranges hmem hleft hright in
theorem disjoint_cutFragment (hrange : start < stop) :
    Disjoint (cutFragment ranges left right writer start stop) := by
  constructor
  · intro entry he
    rcases (mem_cutFragment hranges hmem hleft entry).mp he with ⟨hold, -⟩ | ⟨hlt, rfl⟩ | ⟨hlt, rfl⟩
    · exact hranges.nonempty entry hold
    · exact hlt
    · exact hlt
  -- A piece lies inside the fragment it came from, and the front before the tail.
  intro entry he other ho hlt
  have hb := hranges.apart entry
  have ha := hranges.apart _ hmem other
  have hwh := hranges.nonempty _ hmem
  rcases (mem_cutFragment hranges hmem hleft entry).mp he with
      ⟨hold, hne⟩ | ⟨hfr, rfl⟩ | ⟨ht, rfl⟩ <;>
    rcases (mem_cutFragment hranges hmem hleft other).mp ho with
      ⟨hold', hne'⟩ | ⟨hfr', rfl⟩ | ⟨ht', rfl⟩
  · exact hb hold other hold' hlt
  · exact hb hold (left, right, writer) hmem hlt
  · have hc := hb hold _ hmem
    have hc' := hranges.apart _ hmem entry hold
    simp only at hc hc' hlt hne ⊢
    omega
  · have := ha hold' hlt
    simp only at this hlt ⊢
    omega
  · simp only at hlt
    omega
  · simp only at hlt ⊢
    omega
  · simp only at hlt ha ⊢
    exact ha hold' (by omega)
  · simp only at hlt
    omega
  · simp only at hlt
    omega

include hranges hmem hleft hright in
theorem covers_cutFragment {b : Nat} {w : ι} :
    Covers (cutFragment ranges left right writer start stop) b w ↔
      ∃ entry ∈ ranges.entries, entry.1 ≤ b ∧ b < entry.2.1 ∧ entry.2.2 = w ∧
        (entry.1 = left → b < start ∨ stop ≤ b) := by
  constructor
  · rintro ⟨entry, he, hl, hh, hw⟩
    rcases (mem_cutFragment hranges hmem hleft entry).mp he with
      ⟨hold, hne⟩ | ⟨hfr, rfl⟩ | ⟨ht, rfl⟩
    · exact ⟨entry, hold, hl, hh, hw, fun heq => absurd heq hne⟩
    · exact ⟨_, hmem, hl, Nat.lt_trans hh hright, hw, fun _ => .inl hh⟩
    · exact ⟨_, hmem, Nat.le_trans (Nat.le_of_lt hleft) hl, hh, hw, fun _ => .inr hl⟩
  rintro ⟨entry, hold, hl, hh, hw, ho⟩
  by_cases hk : entry.1 = left
  · obtain rfl := entry_unique hold hmem hk
    rcases ho rfl with hb | hbe
    · exact ⟨(left, start, writer), (mem_cutFragment hranges hmem hleft _).mpr
        (.inr (.inl ⟨Nat.lt_of_le_of_lt hl hb, rfl⟩)), hl, hb, hw⟩
    · exact ⟨(stop, right, writer), (mem_cutFragment hranges hmem hleft _).mpr
        (.inr (.inr ⟨Nat.lt_of_le_of_lt hbe hh, rfl⟩)), hbe, hh, hw⟩
  · exact ⟨entry, (mem_cutFragment hranges hmem hleft _).mpr (.inl ⟨hold, hk⟩), hl, hh, hw⟩

end

/-- While `start..stop` is being cut out of `initial`: the bytes outside keep
their writers, and the writers of the bytes inside are those already reported
and those still to be found. -/
structure Cutting (initial : Fragments ι) (start stop : Nat) (st : Fragments ι × List ι) :
    Prop where
  disjoint : Disjoint st.1
  outside : ∀ b w, b < start ∨ stop ≤ b → (Covers st.1 b w ↔ Covers initial b w)
  inside : ∀ w, (∃ b, start ≤ b ∧ b < stop ∧ Covers initial b w) ↔
    w ∈ st.2 ∨ ∃ b, start ≤ b ∧ b < stop ∧ Covers st.1 b w

section

variable {initial ranges : Fragments ι} {found : List ι} {left right start stop : Nat} {writer : ι}

theorem Cutting.fragment (h : Cutting initial start stop (ranges, found)) (hrange : start < stop)
    (hmem : (left, right, writer) ∈ ranges.entries) (hleft : left < stop) (hright : start < right) :
    Cutting initial start stop
      (cutFragment ranges left right writer start stop, found ++ [writer]) := by
  have hc := fun b w => covers_cutFragment (b := b) (w := w) h.disjoint hmem hleft hright
  refine ⟨disjoint_cutFragment h.disjoint hmem hleft hright hrange, ?_, ?_⟩
  · intro b w hb
    rw [← h.outside b w hb, hc]
    constructor
    · rintro ⟨entry, he, hl, hh, hw, -⟩
      exact ⟨entry, he, hl, hh, hw⟩
    · rintro ⟨entry, he, hl, hh, hw⟩
      exact ⟨entry, he, hl, hh, hw, fun _ => hb⟩
  intro w
  rw [h.inside w, mem_append, mem_singleton]
  constructor
  · rintro (hf | ⟨b, hl, hh, entry, he, hb, hb', hw⟩)
    · exact .inl (.inl hf)
    by_cases hk : entry.1 = left
    · obtain rfl := entry_unique he hmem hk
      exact .inl (.inr hw.symm)
    · exact .inr ⟨b, hl, hh, (hc b w).mpr ⟨entry, he, hb, hb', hw, fun heq => absurd heq hk⟩⟩
  rintro ((hf | rfl) | ⟨b, hl, hh, hco⟩)
  · exact .inl hf
  · have hwh := h.disjoint.nonempty _ hmem
    exact .inr ⟨max left start, Nat.le_max_right .., Nat.max_lt.mpr ⟨hleft, hrange⟩,
      _, hmem, Nat.le_max_left .., Nat.max_lt.mpr ⟨hwh, hright⟩, rfl⟩
  · obtain ⟨entry, he, hb, hb', hw, -⟩ := (hc b w).mp hco
    exact .inr ⟨b, hl, hh, entry, he, hb, hb', hw⟩

end

/-- Nothing that begins before `start` reaches into it. -/
def FrontClear (ranges : Fragments ι) (start : Nat) : Prop :=
  ∀ entry ∈ ranges.entries, entry.1 < start → entry.2.1 ≤ start

theorem cutFirst_spec (hranges : Disjoint ranges) (hrange : start < stop) :
    Cutting ranges start stop (cutFirst ranges start stop) ∧
      FrontClear (cutFirst ranges start stop).1 start := by
  have hi : Cutting ranges start stop (ranges, []) :=
    ⟨hranges, fun _ _ _ => Iff.rfl, fun w => by simp⟩
  unfold cutFirst
  split
  · rename_i left right writer hl
    obtain ⟨hmem, hle, hm⟩ := lastLE_eq_some hl
    have hb : ∀ entry ∈ ranges.entries, entry.1 ≠ left → entry.1 < start → entry.2.1 ≤ left := by
      intro entry he hne hlt
      have := hm entry he (Nat.le_of_lt hlt)
      exact hranges.apart entry he _ hmem (Nat.lt_of_le_of_ne this hne)
    split
    · rename_i hright
      have hleft : left < stop := Nat.lt_of_le_of_lt hle hrange
      refine ⟨hi.fragment hrange hmem hleft hright, ?_⟩
      intro entry he hlt
      rcases (mem_cutFragment hranges hmem hleft entry).mp he with
        ⟨hold, hne⟩ | ⟨-, rfl⟩ | ⟨-, rfl⟩
      · exact Nat.le_trans (hb entry hold hne hlt) hle
      · exact Nat.le_refl _
      · simp only at hlt
        omega
    rename_i hright
    refine ⟨hi, ?_⟩
    intro entry he hlt
    by_cases hk : entry.1 = left
    · obtain rfl := entry_unique he hmem hk
      exact Nat.not_lt.mp hright
    · exact Nat.le_trans (hb entry he hk hlt) hle
  rename_i hn
  refine ⟨hi, ?_⟩
  intro entry he hlt
  have := lastLE_eq_none hn entry he
  omega

/-- What `cut` leaves and reports: the bytes outside `start..stop` keep their
writers, no fragment touches `start..stop`, and the writers reported are those
that owned one of its bytes. -/
theorem cut_spec (hranges : Disjoint ranges) (hrange : start < stop) :
    Disjoint (cut ranges start stop).1 ∧
    (∀ entry ∈ (cut ranges start stop).1.entries, entry.2.1 ≤ start ∨ stop ≤ entry.1) ∧
    (∀ b w, b < start ∨ stop ≤ b → (Covers (cut ranges start stop).1 b w ↔ Covers ranges b w)) ∧
    ∀ w, w ∈ (cut ranges start stop).2 ↔ ∃ b, start ≤ b ∧ b < stop ∧ Covers ranges b w := by
  refine Loop.run_invariant (cutBody start stop)
    (P := fun st => Cutting ranges start stop st ∧ FrontClear st.1 start)
    (Q := fun st => Disjoint st.1 ∧ (∀ entry ∈ st.1.entries, entry.2.1 ≤ start ∨ stop ≤ entry.1) ∧
      (∀ b w, b < start ∨ stop ≤ b → (Covers st.1 b w ↔ Covers ranges b w)) ∧
      ∀ w, w ∈ st.2 ↔ ∃ b, start ≤ b ∧ b < stop ∧ Covers ranges b w)
    ?_ ?_ (cutFirst_spec hranges hrange)
  · rintro ⟨current, found⟩ st' ⟨hc, hfr⟩ hs
    obtain ⟨left, right, writer, hmem, hl, hh, rfl⟩ := cutStep_inl hs
    have hright : start < right := Nat.lt_of_le_of_lt hl (hc.disjoint.nonempty _ hmem)
    have hsa : keepTail (remove current left) right writer stop =
        cutFragment current left right writer start stop := by
      simp [cutFragment, keepFront, Nat.not_lt.mpr hl]
    simp only [hsa]
    refine ⟨hc.fragment hrange hmem hh hright, ?_⟩
    intro entry he hlt
    rcases (mem_cutFragment hc.disjoint hmem hh entry).mp he with
      ⟨hold, -⟩ | ⟨hfs, rfl⟩ | ⟨-, rfl⟩
    · exact hfr entry hold hlt
    · exact Nat.le_refl _
    · simp only at hlt
      omega
  rintro st r ⟨hc, hfr⟩ hs
  obtain ⟨rfl, hla⟩ := cutStep_inr hs
  have hclear : ∀ entry ∈ r.1.entries, entry.2.1 ≤ start ∨ stop ≤ entry.1 := by
    intro entry he
    rcases Nat.lt_or_ge entry.1 start with hlt | hge
    · exact .inl (hfr entry he hlt)
    · exact .inr (hla entry he hge)
  refine ⟨hc.disjoint, hclear, hc.outside, ?_⟩
  intro w
  rw [hc.inside w]
  constructor
  · exact .inl
  · rintro (hf | ⟨b, hl, hh, entry, he, hb, hb', -⟩)
    · exact hf
    · rcases hclear entry he with h | h <;> omega

section

variable {ranges : Fragments ι} {start stop : Nat} (hranges : Disjoint ranges)
  (hclear : ∀ entry ∈ ranges.entries, entry.2.1 ≤ start ∨ stop ≤ entry.1)

include hranges hclear

/-- Nothing else begins at `start`, so inserting there replaces nothing. -/
theorem mem_insert_iff (hrange : start < stop) (writer : ι) (entry : Nat × Nat × ι) :
    entry ∈ (SortedMap.insert ranges start (stop, writer)).entries ↔
      entry = (start, stop, writer) ∨ entry ∈ ranges.entries := by
  rw [mem_insert]
  constructor
  · rintro (hn | ⟨hold, -⟩)
    · exact .inl hn
    · exact .inr hold
  rintro (hn | hold)
  · exact .inl hn
  · have hne := hranges.nonempty entry hold
    have hap := hclear entry hold
    exact .inr ⟨hold, by omega⟩

theorem disjoint_insert (hrange : start < stop) (writer : ι) :
    Disjoint (SortedMap.insert ranges start (stop, writer)) := by
  have hmem := mem_insert_iff hranges hclear hrange writer
  constructor
  · intro entry he
    rcases (hmem entry).mp he with rfl | hold
    · exact hrange
    · exact hranges.nonempty entry hold
  intro entry he other ho hlt
  rcases (hmem entry).mp he with rfl | hold <;>
    rcases (hmem other).mp ho with rfl | hold'
  · exact absurd hlt (Nat.lt_irrefl _)
  · have hne := hranges.nonempty other hold'
    have hap := hclear other hold'
    simp only at hlt ⊢
    omega
  · have hap := hclear entry hold
    omega
  · exact hranges.apart entry hold other hold' hlt

theorem covers_insert (hrange : start < stop) (writer : ι) {b : Nat} {w : ι} :
    Covers (SortedMap.insert ranges start (stop, writer)) b w ↔
      (start ≤ b ∧ b < stop ∧ writer = w) ∨ (Covers ranges b w ∧ (b < start ∨ stop ≤ b)) := by
  have hmem := mem_insert_iff hranges hclear hrange writer
  constructor
  · rintro ⟨entry, he, hl, hh, hw⟩
    rcases (hmem entry).mp he with rfl | hold
    · exact .inl ⟨hl, hh, hw⟩
    · have hap := hclear entry hold
      exact .inr ⟨⟨entry, hold, hl, hh, hw⟩, by omega⟩
  · rintro (⟨hl, hh, hw⟩ | ⟨⟨entry, hold, hb⟩, -⟩)
    · exact ⟨_, (hmem _).mpr (.inl rfl), hl, hh, hw⟩
    · exact ⟨entry, (hmem entry).mpr (.inr hold), hb⟩

end

end Fragments

/-- The test of the linear scan: one of the two appends, or they overlap. -/
def WriteRange.Conflicts {ι : Type} (earlier range : WriteRange ι) : Prop :=
  earlier.append = true ∨ range.append = true ∨
    (range.start < earlier.stop ∧ earlier.start < range.stop)

instance {ι : Type} (earlier range : WriteRange ι) : Decidable (earlier.Conflicts range) :=
  inferInstanceAs (Decidable (_ ∨ _ ∨ _))

/-- The latest writers since the last append, and that append. -/
structure WriteFrontier (ι : Type) where
  ranges : Fragments ι
  append : Option ι

namespace WriteFrontier

variable {ι : Type}

def empty : WriteFrontier ι := ⟨.empty, none⟩

/-- `sort_unstable` followed by `dedup`. -/
def sortDedup [LinearOrder ι] (dependencies : List ι) : List ι :=
  (dependencies.insertionSort (· ≤ ·)).dedup

@[simp] theorem mem_sortDedup [LinearOrder ι] {dependencies : List ι} {w : ι} :
    w ∈ sortDedup dependencies ↔ w ∈ dependencies := by
  simp [sortDedup]

/-- The frontier after a request, and the earlier requests it must wait for. -/
def insert [LinearOrder ι] (frontier : WriteFrontier ι) (range : WriteRange ι) :
    WriteFrontier ι × List ι :=
  if range.append then
    (⟨.empty, some range.index⟩,
      sortDedup (frontier.append.toList ++ frontier.ranges.entries.map fun entry => entry.2.2))
  else
    let (ranges, writers) := frontier.ranges.cut range.start range.stop
    (⟨ranges.insert range.start (range.stop, range.index), frontier.append⟩,
      sortDedup (frontier.append.toList ++ writers))

/-- The frontier speaks for `members`: whoever is not ordered before the last
append owns, or is ordered before the owner of, each of its bytes. -/
structure Tracks (before : ι → ι → Prop) (members : List (WriteRange ι))
    (frontier : WriteFrontier ι) : Prop where
  disjoint : frontier.ranges.Disjoint
  owned : ∀ b w, frontier.ranges.Covers b w → ∃ m ∈ members, m.index = w ∧ m.start ≤ b ∧ b < m.stop
  appended : ∀ a, frontier.append = some a → ∃ m ∈ members, m.index = a ∧ m.append = true
  latest : ∀ m ∈ members, (∃ a, frontier.append = some a ∧ before m.index a) ∨
    (m.append = false ∧ ∀ b, m.start ≤ b → b < m.stop →
      ∃ w, frontier.ranges.Covers b w ∧ before m.index w)

theorem tracks_empty (before : ι → ι → Prop) : Tracks before [] (empty : WriteFrontier ι) where
  disjoint := ⟨by simp [empty], by simp [empty]⟩
  owned := by simp [empty, Fragments.Covers]
  appended := by simp [empty]
  latest := by simp

theorem Tracks.mono {before before' : ι → ι → Prop} {members : List (WriteRange ι)}
    {frontier : WriteFrontier ι} (h : Tracks before members frontier)
    (hle : ∀ i j, before i j → before' i j) : Tracks before' members frontier where
  disjoint := h.disjoint
  owned := h.owned
  appended := h.appended
  latest := by
    intro m hm
    rcases h.latest m hm with ⟨a, ha, hb⟩ | ⟨hap, hc⟩
    · exact .inl ⟨a, ha, hle _ _ hb⟩
    refine .inr ⟨hap, ?_⟩
    intro b hl hh
    obtain ⟨w, hw, hb⟩ := hc b hl hh
    exact ⟨w, hw, hle _ _ hb⟩

section

variable [LinearOrder ι] {before : ι → ι → Prop} {members : List (WriteRange ι)}
  {frontier : WriteFrontier ι} {range : WriteRange ι}

theorem mem_insert_of_append (frontier : WriteFrontier ι) (ha : range.append = true)
    {w : ι} : w ∈ (frontier.insert range).2 ↔
      frontier.append = some w ∨ ∃ entry ∈ frontier.ranges.entries, entry.2.2 = w := by
  simp only [insert, ha, if_true, mem_sortDedup, mem_append, Option.mem_toList, mem_map]

theorem mem_insert_of_positional (hd : frontier.ranges.Disjoint)
    (hrange : range.start < range.stop) (ha : range.append = false) {w : ι} :
    w ∈ (frontier.insert range).2 ↔ frontier.append = some w ∨
      ∃ b, range.start ≤ b ∧ b < range.stop ∧ frontier.ranges.Covers b w := by
  have hc := (Fragments.cut_spec hd hrange).2.2.2 w
  simp only [insert, ha, Bool.false_eq_true, if_false, mem_sortDedup, mem_append,
    Option.mem_toList, hc]

/-- The frontier never adds an edge the linear scan would not add. -/
theorem conflicts_of_mem_insert (h : Tracks before members frontier)
    (hrange : range.start < range.stop) {w : ι} (hw : w ∈ (frontier.insert range).2) :
    ∃ m ∈ members, m.index = w ∧ m.Conflicts range := by
  cases ha : range.append with
  | true =>
    rcases (mem_insert_of_append frontier ha).mp hw with hl | ⟨entry, he, rfl⟩
    · obtain ⟨m, hm, hi, -⟩ := h.appended w hl
      exact ⟨m, hm, hi, .inr (.inl ha)⟩
    have hc : frontier.ranges.Covers entry.1 entry.2.2 :=
      ⟨entry, he, Nat.le_refl _, h.disjoint.nonempty entry he, rfl⟩
    obtain ⟨m, hm, hi, -⟩ := h.owned _ _ hc
    exact ⟨m, hm, hi, .inr (.inl ha)⟩
  | false =>
    rcases (mem_insert_of_positional h.disjoint hrange ha).mp hw with
      hl | ⟨b, hlo, hh, hc⟩
    · obtain ⟨m, hm, hi, hma⟩ := h.appended w hl
      exact ⟨m, hm, hi, .inl hma⟩
    · obtain ⟨m, hm, hi, hml, hmh⟩ := h.owned _ _ hc
      exact ⟨m, hm, hi, .inr (.inr ⟨by omega, by omega⟩)⟩

variable (h : Tracks before members frontier) (hmembers : ∀ m ∈ members, m.start < m.stop)
  (hrange : range.start < range.stop) (htrans : ∀ i j k, before i j → before j k → before i k)
  (hedges : ∀ w ∈ (frontier.insert range).2, before w range.index)

include h hmembers hrange htrans hedges in
/-- Every earlier request in conflict is ordered before the new one, through the
writers that replaced it. -/
theorem before_of_conflicts {m : WriteRange ι} (hm : m ∈ members) (hconf : m.Conflicts range) :
    before m.index range.index := by
  cases hap : range.append with
  | true =>
    have hmem := fun w => mem_insert_of_append (w := w) frontier hap
    rcases h.latest m hm with ⟨a, ha, hb⟩ | ⟨-, hc⟩
    · exact htrans _ _ _ hb (hedges a ((hmem a).mpr (.inl ha)))
    · obtain ⟨w, ⟨entry, he, -, -, rfl⟩, hb⟩ := hc m.start (Nat.le_refl _) (hmembers m hm)
      exact htrans _ _ _ hb (hedges _ ((hmem _).mpr (.inr ⟨entry, he, rfl⟩)))
  | false =>
    have hmem := fun w => mem_insert_of_positional (w := w) h.disjoint hrange hap
    rcases h.latest m hm with ⟨a, ha, hb⟩ | ⟨hma, hc⟩
    · exact htrans _ _ _ hb (hedges a ((hmem a).mpr (.inl ha)))
    have ho : range.start < m.stop ∧ m.start < range.stop := by
      simpa [WriteRange.Conflicts, hma, hap] using hconf
    have hmr := hmembers m hm
    obtain ⟨w, hco, hb⟩ := hc (max m.start range.start) (Nat.le_max_left ..) (by omega)
    exact htrans _ _ _ hb (hedges w ((hmem w).mpr (.inr ⟨_, Nat.le_max_right .., by omega, hco⟩)))

variable (hrefl : ∀ i, before i i)

include h hmembers hrange htrans hedges hrefl in
theorem tracks_insert : Tracks before (members ++ [range]) (frontier.insert range).1 := by
  have hco := fun m hm =>
    before_of_conflicts (m := m) h hmembers hrange htrans hedges hm
  cases hap : range.append with
  | true =>
    have hi : (frontier.insert range).1 = ⟨.empty, some range.index⟩ := by
      simp [insert, hap]
    rw [hi]
    refine ⟨⟨by simp, by simp⟩, by simp [Fragments.Covers], ?_, ?_⟩
    · intro a ha
      exact ⟨range, by simp, Option.some.inj ha, hap⟩
    intro m hm
    rcases mem_append.mp hm with hm | hm
    · exact .inl ⟨range.index, rfl, hco m hm (.inr (.inl hap))⟩
    · rw [mem_singleton.mp hm]
      exact .inl ⟨range.index, rfl, hrefl _⟩
  | false =>
    obtain ⟨hd, hclear, ho, -⟩ := Fragments.cut_spec h.disjoint hrange
    have hi : (frontier.insert range).1 =
        ⟨(frontier.ranges.cut range.start range.stop).1.insert range.start
          (range.stop, range.index), frontier.append⟩ := by
      simp [insert, hap]
    rw [hi]
    have hc := fun b w => Fragments.covers_insert (b := b) (w := w) hd hclear hrange range.index
    refine ⟨Fragments.disjoint_insert hd hclear hrange range.index, ?_, ?_, ?_⟩
    · intro b w hw
      rcases (hc b w).mp hw with ⟨hl, hh, rfl⟩ | ⟨hold, hou⟩
      · exact ⟨range, by simp, rfl, hl, hh⟩
      · obtain ⟨m, hm, hby⟩ := h.owned b w ((ho b w hou).mp hold)
        exact ⟨m, mem_append_left _ hm, hby⟩
    · intro a ha
      obtain ⟨m, hm, hla⟩ := h.appended a ha
      exact ⟨m, mem_append_left _ hm, hla⟩
    intro m hm
    rcases mem_append.mp hm with hm | hm
    · rcases h.latest m hm with hla | ⟨hma, hcov⟩
      · exact .inl hla
      refine .inr ⟨hma, ?_⟩
      intro b hl hh
      by_cases hb : range.start ≤ b ∧ b < range.stop
      · exact ⟨range.index, (hc b _).mpr (.inl ⟨hb.1, hb.2, rfl⟩),
          hco m hm (.inr (.inr ⟨by omega, by omega⟩))⟩
      · have hou : b < range.start ∨ range.stop ≤ b := by omega
        obtain ⟨w, hw, hbe⟩ := hcov b hl hh
        exact ⟨w, (hc b w).mpr (.inr ⟨(ho b w hou).mpr hw, hou⟩), hbe⟩
    rw [mem_singleton.mp hm]
    refine .inr ⟨hap, ?_⟩
    intro b hl hh
    exact ⟨range.index, (hc b _).mpr (.inl ⟨hl, hh, rfl⟩), hrefl _⟩

end

end WriteFrontier

end Vnfs.Sync
