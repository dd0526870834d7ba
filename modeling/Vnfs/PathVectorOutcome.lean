import Vnfs.Planner.Attribution
import Vnfs.PathVectorPack

/-!
What the outcome of a path vector is worth. An item was executed if a reply of the
call says that its operation succeeded. The executed items are always the first
ones; the slots name them, except that an item whose path is rejected gets a slot
as well once everything before it is done, and an error returns no slots at all.
-/

namespace Vnfs

open List PathExchange CompoundRes Client

/-- The operation of an item succeeded in this exchange. -/
def PathExchange.ran (exchange : PathExchange) (index : Nat) : Bool :=
  match exchange.called with
  | .error _ => false
  | .ok res => exchange.ops.zipIdx.any fun entry =>
    entry.1.1 = index && entry.1.2.changesNames && entry.2 + 1 < res.nops &&
      res.opStatus (entry.2 + 1) = Status.ok

def executed (log : List PathExchange) (index : Nat) : Bool := log.any (·.ran index)

def CompoundRes.okOps (res : CompoundRes) : Nat :=
  if res.status = Status.ok then res.nops else res.nops - 1

theorem ReplyShape.opStatus_ok_iff {request : List ArgOp} {res : CompoundRes}
    (h : ReplyShape request res) (op : Nat) :
    op < res.nops ∧ res.opStatus op = Status.ok ↔ op < res.okOps := by
  unfold okOps
  constructor
  · rintro ⟨hop, hs⟩
    split
    · exact hop
    rename_i hb
    rcases Nat.lt_or_eq_of_le (Nat.succ_le_of_lt hop) with hlt | heq
    · omega
    · exact absurd ((h.last_status op heq).symm.trans hs) hb
  intro hop
  split at hop
  · rename_i hok
    rcases Nat.lt_or_eq_of_le (Nat.succ_le_of_lt hop) with hlt | heq
    · exact ⟨hop, h.ok_before_last op hlt⟩
    · exact ⟨hop, (h.last_status op heq).trans hok⟩
  · exact ⟨by omega, h.ok_before_last op (by omega)⟩

section

variable {request : List ArgOp} {res : CompoundRes} {map : ExecutionMap}

/-- A reply that succeeded has no failed item. -/
theorem firstFailedRange_of_ok (hsh : ReplyShape request res) (hcn : map.next = request.length)
    (hok : res.status = Status.ok) : firstFailedRange res map = .ok none := by
  obtain ⟨front, failure, rest, hs, ha⟩ := map.analyze_split hsh hcn
  have hranges := hs.ranges_eq
  unfold firstFailedRange
  rw [ha]
  cases failure with
  | none => simp [hok]
  | some f =>
    obtain ⟨-, -, -, -, hfirst, -⟩ := hranges
    exact absurd hok ((hsh.firstFailure_iff _).mp hfirst).2

/-- The failure of a reply is nobody's if no range has its last operation. -/
theorem firstFailedRange_error_iff (hsh : ReplyShape request res)
    (hcn : map.next = request.length) :
    (∃ error, firstFailedRange res map = .error error) ↔
      res.status ≠ Status.ok ∧ ∀ r ∈ map.ranges, ¬ r.Owns (res.nops - 1) := by
  obtain ⟨front, failure, rest, hs, ha⟩ := map.analyze_split hsh hcn
  have hranges := hs.ranges_eq
  unfold firstFailedRange
  rw [ha]
  cases failure with
  | none =>
    by_cases hok : res.status = Status.ok
    · simp [hok]
    refine iff_of_true ⟨_, by simp [hok]; rfl⟩ ⟨hok, ?_⟩
    intro r hr howns
    have hstart := (map.bounded r hr).1
    rw [hranges] at hr
    rcases mem_append.mp hr with hr | hr
    · have hlast := (hs.done_succeeded r hr _ howns).2
      have hn := hs.done_started r hr
      exact hok ((hsh.last_status _ (by omega)).symm.trans hlast)
    · have hn := hs.rest_unreached r hr
      have := howns.1
      omega
  | some f =>
    obtain ⟨r, heq, -, howns, hfirst, -⟩ := hranges
    have hlast := ((hsh.firstFailure_iff _).mp hfirst).1
    refine iff_of_false (by simp) fun hstray => hstray.2 r ?_ ?_
    · rw [heq]
      simp
    · rwa [← hlast]

end

section

variable {T : Type} {vector : PathVector T} {items : List T} {start : Nat} {chunk : PathChunk}
  {done : List OpRange} {request : List ArgOp} {res : CompoundRes} {tail : List OpRange}

theorem PathChunk.Packed.ran_iff (h : chunk.Packed vector items start done)
    (hsh : ReplyShape request res) (index : Nat) :
    ran ⟨chunk.ops, .ok res⟩ index = true ↔ ∃ r ∈ done, r.caller = index ∧ r.stop ≤ res.okOps := by
  simp only [ran, any_eq_true, Bool.and_eq_true, decide_eq_true_eq]
  constructor
  · rintro ⟨⟨⟨i, op⟩, j⟩, hm, ⟨⟨rfl, hc⟩, hlt⟩, hs⟩
    have hop := mem_zipIdx_iff_getElem?.mp hm
    obtain ⟨r, hr, hca, hst⟩ := h.changes j i op hop hc
    have hra := (hsh.opStatus_ok_iff (j + 1)).mp ⟨hlt, hs⟩
    exact ⟨r, hr, hca, by omega⟩
  rintro ⟨r, hr, rfl, hst⟩
  obtain ⟨ht, -, op, hop, hc⟩ := h.final r hr
  have hra := (hsh.opStatus_ok_iff (r.stop - 2 + 1)).mpr (by omega)
  exact ⟨((r.caller, op), r.stop - 2), mem_zipIdx_iff_getElem?.mpr hop, ⟨⟨rfl, hc⟩, hra.1⟩, hra.2⟩

theorem PathChunk.Packed.caller_mem_iff (h : chunk.Packed vector items start done) (index : Nat) :
    (∃ r ∈ done, r.caller = index) ↔ start ≤ index ∧ index < start + done.length := by
  rw [← mem_range'_1, ← h.callers, mem_map]

/-- The ranges are those of the complete items and perhaps one without operations. -/
theorem ranges_ordered (h : chunk.Packed vector items start done)
    (ht : ∀ r ∈ tail, r.caller = start + done.length) (hle : tail.length ≤ 1) :
    (done ++ tail).Pairwise fun earlier later => earlier.caller < later.caller := by
  have hd : done.Pairwise fun earlier later => earlier.caller < later.caller := by
    rw [← pairwise_map (f := OpRange.caller) (R := (· < ·)), h.callers]
    exact pairwise_lt_range'
  refine pairwise_append.mpr ⟨hd, ?_, ?_⟩
  · match tail, hle with
    | [], _ => exact .nil
    | [r], _ => exact pairwise_singleton ..
  · intro r hr later hl
    rw [ht later hl]
    exact ((h.caller_mem_iff r.caller).mp ⟨r, hr, rfl⟩).2

/-- The item a reply says failed is the first one that was not executed. -/
theorem PathChunk.Packed.firstFailedRange (h : chunk.Packed vector items start done)
    (hrg : chunk.map.ranges = done ++ tail)
    (ht : ∀ r ∈ tail, r.caller = start + done.length ∧ r.start = r.stop) (hlen : tail.length ≤ 1)
    (hsh : ReplyShape request res) (hcn : chunk.map.next = request.length)
    {failed : Option (Nat × Status)} (hfa : firstFailedRange res chunk.map = .ok failed) :
    match failed with
    | none => res.status = Status.ok
    | some (caller, _) => (∃ r ∈ done, r.caller = caller) ∧
        ∀ r ∈ done, r.stop ≤ res.okOps ↔ r.caller < caller := by
  obtain ⟨front, failure, rest, hs, ha⟩ := chunk.map.analyze_split hsh hcn
  unfold Vnfs.firstFailedRange at hfa
  rw [ha] at hfa
  have hranges_eq := hs.ranges_eq
  cases failure with
  | none =>
    cases hst : decide (res.status = Status.ok) with
    | true =>
      have hok := of_decide_eq_true hst
      simp only [Option.isNone_none, hok, ne_eq, not_true_eq_false, and_false, if_false,
        Option.map_none, Except.ok.injEq] at hfa
      subst hfa
      exact hok
    | false =>
      have hb := of_decide_eq_false hst
      simp [hb] at hfa
  | some f =>
    simp only [Option.isNone_some, Bool.false_eq_true, false_and, if_false, Option.map_some,
      Except.ok.injEq] at hfa
    subst hfa
    obtain ⟨owner, heq, hc, ho, hf, -⟩ := hranges_eq
    have hor := ranges_ordered h (fun r hr => (ht r hr).1) hlen
    rw [← hrg, heq, pairwise_append, pairwise_cons] at hor
    obtain ⟨-, ⟨hre, -⟩, hfr⟩ := hor
    have hown : owner ∈ done := by
      have hm : owner ∈ done ++ tail := by
        rw [← hrg, heq]
        simp
      rcases mem_append.mp hm with hd | he
      · exact hd
      have hn := (ht owner he).2
      have := ho.1
      have := ho.2
      omega
    dsimp only
    rw [hc]
    refine ⟨⟨owner, hown, rfl⟩, ?_⟩
    intro r hr
    have hm : r ∈ front ++ owner :: rest := by
      rw [← heq, hrg]
      exact mem_append_left _ hr
    have hne := (h.final r hr).2.1
    rcases mem_append.mp hm with hd | hla
    · -- all operations of an earlier item succeeded
      have hl := hs.done_succeeded r hd (r.stop - 1) ⟨by omega, by omega⟩
      have hra := (hsh.opStatus_ok_iff _).mp hl
      have hless := hfr r hd owner mem_cons_self
      omega
    rcases mem_cons.mp hla with rfl | hbe
    · have hb : ¬ f.opIndex < res.okOps := by
        intro hra
        exact hf.2.1 ((hsh.opStatus_ok_iff _).mpr hra).2
      have := ho.2
      omega
    have hu := hs.rest_unreached r hbe
    have hless := hre r hbe
    have hle : res.okOps ≤ res.nops := by
      unfold okOps
      split <;> omega
    omega

end

@[simp] theorem markDone_length (slots : List (Option Unit)) (ranges : List OpRange) :
    (markDone slots ranges).length = slots.length := by
  unfold markDone
  induction ranges generalizing slots with
  | nil => rfl
  | cons r ranges ih =>
    rw [foldl_cons, ih]
    exact length_set

theorem getElem?_markDone (slots : List (Option Unit)) (ranges : List OpRange) (i : Nat) :
    (markDone slots ranges)[i]? = some (some ()) ↔
      i < slots.length ∧ (slots[i]? = some (some ()) ∨ ∃ r ∈ ranges, r.caller = i) := by
  unfold markDone
  induction ranges generalizing slots with
  | nil =>
    simp only [foldl_nil, not_mem_nil, false_and, exists_false, or_false]
    constructor
    · intro h
      exact ⟨(List.getElem?_eq_some_iff.mp h).1, h⟩
    · exact And.right
  | cons r ranges ih =>
    rw [foldl_cons, ih, length_set, getElem?_set]
    constructor
    · rintro ⟨hlt, hs | ⟨r', hr', hc⟩⟩
      · split at hs
        · rename_i heq
          exact ⟨hlt, .inr ⟨r, mem_cons_self, heq⟩⟩
        · exact ⟨hlt, .inl hs⟩
      · exact ⟨hlt, .inr ⟨r', mem_cons_of_mem _ hr', hc⟩⟩
    rintro ⟨hlt, hold | ⟨r', hr', hc⟩⟩
    · refine ⟨hlt, .inl ?_⟩
      split
      · simp_all
      · exact hold
    rcases mem_cons.mp hr' with rfl | hr'
    · refine ⟨hlt, .inl ?_⟩
      simp [hc, hlt]
    · exact ⟨hlt, .inr ⟨r', hr', hc⟩⟩

theorem executed_append (log : List PathExchange) (exchange : PathExchange) (index : Nat) :
    executed (log ++ [exchange]) index = (executed log index || exchange.ran index) := by
  simp [executed]

section Loop

variable {T σ : Type} (vector : PathVector T) (wire : Wire σ) (maxArgBytes : Nat)
  (items : List T)

/-- The path of item `index` has no final component. -/
def Malformed (index : Nat) : Prop := ∃ item, items[index]? = some item ∧ vector.malformed item

/-- The items before `bound` were executed and no others. -/
structure Reached (log : List PathExchange) (bound : Nat) : Prop where
  le : bound ≤ items.length
  before : ∀ i < bound, executed log i = true ∧ ¬ Malformed vector items i
  behind : ∀ i, bound ≤ i → executed log i = false

/-- The slots name the items before `bound`. -/
def Marked (slots : List (Option Unit)) (bound : Nat) : Prop :=
  slots.length = items.length ∧ ∀ i < items.length, slots[i]? = some (some ()) ↔ i < bound

/-- Between two compounds. A failure that is already known is that of a path, met
in a chunk that has to be sent again. -/
structure Going (st : PathVectorState σ) : Prop where
  reached : Reached vector items st.log st.global
  marked : Marked items st.slots st.global
  pending : ∀ m status, st.failed = some (m, status) → st.global ≤ m ∧
    Malformed vector items m ∧ 1 + vector.perFile ≤ st.remote.client.maxOps

/-- Everything before a rejected path was done. -/
structure CutAt (log : List PathExchange) (slots : List (Option Unit))
    (failed : Option (Nat × Status)) (m : Nat) : Prop where
  reached : Reached vector items log m
  malformed : Malformed vector items m
  marked : Marked items slots (m + 1)
  failed : failed = some (m, .inval)

namespace PathVectorState

variable (st : PathVectorState σ)

/-- The next compound ends with the walks of a path without a final component, and all
of it succeeds. -/
def Overtakes : Prop :=
  ∃ remote res, st.Sends vector wire maxArgBytes items remote (.ok res) ∧
    res.status = Status.ok ∧
    ∃ r ∈ (st.chunk vector maxArgBytes items).map.ranges, Malformed vector items r.caller

/-- The call ends here with an error behind an item that was executed: the next compound
cannot be encoded or gets no answer when there are items in front of it, or its reply is
final and fails in an operation that no item owns, such as SEQUENCE or a walk of a rejected
path, when there are items in front of that operation. -/
def Drops : Prop :=
  0 < st.global ∧
      ((st.Packs vector maxArgBytes items ∧
        ∃ error, st.needsRepack vector maxArgBytes items = .error error) ∨
      ∃ remote error, st.Sends vector wire maxArgBytes items remote (.error error)) ∨
    ∃ remote res, st.Sends vector wire maxArgBytes items remote (.ok res) ∧
      remote.client.canRetryMergedResource vector.tag res (st.budget vector) pathReserve
        vector.perFile = false ∧
      (res.status ≠ Status.ok ∧
        ∀ r ∈ (st.chunk vector maxArgBytes items).map.ranges, ¬ r.Owns (res.nops - 1)) ∧
      (0 < st.global ∨ ∃ r ∈ (st.chunk vector maxArgBytes items).map.ranges,
        r.start < r.stop ∧ r.stop < res.nops)

end PathVectorState

/-- Behind the items of a call, with a rejected path among those reported done. -/
def Overtaken (st : PathVectorState σ) : Prop :=
  items.length ≤ st.global ∧ ∃ m, CutAt vector items st.log st.slots st.failed m

structure Told (maxOps : Nat) (st : PathVectorState σ) : Prop where
  limit : st.remote.client.maxOps = maxOps
  window : 0 < st.maxItems
  told : Going vector items st ∨ Overtaken vector items st

def Reported (done : PathVectorDone σ) : Prop :=
  ∀ outcome, done.result = .ok outcome →
    ∃ bound, Reached vector items done.log bound ∧ Marked items outcome.slots bound ∧
      (bound = items.length ∨ ∃ status, outcome.failed = some (bound, status))

variable {vector wire maxArgBytes items}
  {index : Nat} {chunk : PathChunk} {done : List OpRange} {remote : Remote σ}
  {res : CompoundRes} {log : List PathExchange} {bound : Nat} {request : List ArgOp}
  {failed : Option (Nat × Status)} {m : Nat} {st : PathVectorState σ}
  {outcome : PathVectorOutcome}

theorem Malformed.lt (h : Malformed vector items index) : index < items.length := by
  obtain ⟨item, hi, -⟩ := h
  exact (List.getElem?_eq_some_iff.mp hi).1

theorem Packed.not_malformed {start : Nat} (h : chunk.Packed vector items start done)
    (hst : start ≤ index) (hs : index < start + done.length) : ¬ Malformed vector items index := by
  obtain ⟨r, hr, rfl⟩ := (h.caller_mem_iff index).mpr ⟨hst, hs⟩
  obtain ⟨item, hi, hw⟩ := h.wellFormed r hr
  rintro ⟨item', hi', hb⟩
  obtain rfl := Option.some.inj (hi.symm.trans hi')
  exact absurd (hw.symm.trans hb) (by simp)

theorem opBudgetFor_le (client : Client) (tag : Tag) (oneItemOps : Nat) :
    (client.opBudgetFor tag oneItemOps).maxOps ≤ client.maxOps := by
  unfold opBudgetFor
  dsimp only
  omega

theorem mergedLimit_le (budget : CompoundBudget) (reserve minOps : Nat) :
    budget.mergedLimit reserve minOps ≤ budget.maxOps := by
  unfold CompoundBudget.mergedLimit
  dsimp only
  split
  · exact Nat.zero_le _
  · exact Nat.min_le_right ..

/-- The limit of a merged compound has room for an item if a compound has. -/
theorem mergedLimit_iff {client : Client} (hl : client.maxOps < usizeMax) (tag : Tag)
    (perItem : Nat) :
    1 + perItem ≤ (client.opBudgetFor tag (1 + perItem)).mergedLimit pathReserve perItem ↔
      1 + perItem ≤ client.maxOps := by
  have hle := mergedLimit_le (client.opBudgetFor tag (1 + perItem)) pathReserve perItem
  have hh := opBudgetFor_le client tag (1 + perItem)
  constructor
  · intro hr
    omega
  intro hr
  have ho : 1 + perItem ≤ (client.opBudgetFor tag (1 + perItem)).maxOps := by
    unfold opBudgetFor
    dsimp only
    omega
  have hm : saturatingAdd 1 perItem = 1 + perItem := by
    unfold saturatingAdd
    omega
  unfold CompoundBudget.mergedLimit
  rw [hm, if_neg (by omega)]
  omega

theorem pack_ranges_ge {count budget maxItems : Nat} {rest : List T}
    (chunk : PathChunk) : chunk.map.ranges.length ≤
      (vector.pack count maxArgBytes budget maxItems rest chunk).map.ranges.length := by
  induction rest generalizing chunk with
  | nil => exact Nat.le_refl _
  | cons item rest ih =>
    have ha := (vector.add_spec count chunk item).ranges_length
    unfold PathVector.pack
    split
    · split
      · exact Nat.le_refl _
      split
      · rename_i next hi
        rw [hi] at ha
        exact Nat.le_of_lt (Nat.lt_of_succ_le ha.ge)
      rename_i next hi
      rw [hi] at ha
      have hle : chunk.map.ranges.length ≤ next.map.ranges.length :=
        Nat.le_of_lt (Nat.lt_of_succ_le ha.ge)
      split
      · exact hle
      · exact hle.trans (ih next)
    · exact Nat.le_refl _

theorem chunk_ranges_iff (st : PathVectorState σ) (hw : 0 < st.maxItems)
    (hg : st.global < items.length) (hl : st.remote.client.maxOps < usizeMax) :
    (st.chunk vector maxArgBytes items).map.ranges ≠ [] ↔
      1 + vector.perFile ≤ st.remote.client.maxOps := by
  rw [← mergedLimit_iff hl vector.tag]
  unfold PathVectorState.chunk
  obtain ⟨item, rest, hre⟩ : ∃ item rest, items.drop st.global = item :: rest :=
    ⟨_, _, drop_eq_getElem_cons hg⟩
  rw [hre]
  unfold PathVector.pack
  constructor
  · intro hs
    split at hs
    · rename_i hr
      exact hr.2
    · exact absurd rfl hs
  intro hr
  have ha := (vector.add_spec items.length {global := st.global, failed := st.failed}
    item).ranges_length
  rw [if_pos ⟨hw, hr⟩, if_neg (by simp), ← length_pos_iff]
  split
  · rename_i next hi
    rw [hi] at ha
    exact ha ▸ Nat.succ_pos _
  rename_i next hi
  rw [hi] at ha
  split
  · exact ha ▸ Nat.succ_pos _
  · exact Nat.lt_of_lt_of_le (ha ▸ Nat.succ_pos _) (pack_ranges_ge next)

/-- A compound that was answered is a packed one, and its reply fits its map. -/
theorem answered (st : PathVectorState σ) (hli : st.remote.client.maxOps < usizeMax)
    (hca : st.remote.callMutation wire vector.tag
      (st.chunk vector maxArgBytes items).compound = (remote, .ok res)) :
    ∃ request done, ReplyShape request res ∧
      (st.chunk vector maxArgBytes items).map.next = request.length ∧
      ((st.chunk vector maxArgBytes items).Open vector items st.global st.failed done ∨
        (st.chunk vector maxArgBytes items).Cut vector items st.global done) := by
  obtain ⟨request, hp, -, -, hv⟩ := Remote.callCompound_ok wire (Remote.callMutation_ok wire hca)
  have hs := prepareCompound_ok hp
  have hl : request.length = (st.chunk vector maxArgBytes items).ops.length + 1 := by
    unfold Session.sequenced at hs
    split at hs
    · cases hs
    · obtain rfl := Except.ok.inj hs
      simp [PathChunk.compound]
  have hsm : (st.chunk vector maxArgBytes items).ops.length < usizeMax := by
    have he := prepareCompound_ensure hp
    unfold saturatingAdd PathChunk.compound at he
    rw [length_map] at he
    omega
  obtain ⟨done, hpa⟩ := pack_spec (PathChunk.open_start vector items st.failed) rfl hsm
  refine ⟨request, done, validateResponseOps_shape hv, ?_, hpa⟩
  rcases hpa with ho | hc
  · rw [hl]
    exact ho.packed.next.trans (Nat.add_comm ..)
  · rw [hl]
    exact hc.packed.next.trans (Nat.add_comm ..)

theorem status_of_rejected (h : resourceRejectedBeforeMutation res = true) :
    res.status ≠ Status.ok := by
  unfold resourceRejectedBeforeMutation at h
  simp only [replyView_status, replyView_nops, replyView_opStatus] at h
  split at h
  · cases h
  rename_i hs
  intro hok
  rw [hok] at hs
  exact hs ⟨by decide, by decide⟩

/-- A compound that was rejected before any mutation executed nothing. -/
theorem okOps_of_rejected (h : resourceRejectedBeforeMutation res = true) : res.okOps ≤ 1 := by
  unfold okOps
  rw [if_neg (status_of_rejected h)]
  unfold resourceRejectedBeforeMutation at h
  simp only [replyView_status, replyView_nops, replyView_opStatus] at h
  split at h
  · cases h
  split at h
  · omega
  · omega
  · omega
  · cases h

theorem Packed.bound_le {start : Nat} (h : chunk.Packed vector items start done)
    (hst : start ≤ items.length) : start + done.length ≤ items.length := by
  rcases Nat.eq_zero_or_pos done.length with hz | hp
  · omega
  obtain ⟨r, hr, hc⟩ := (h.caller_mem_iff (start + done.length - 1)).mpr ⟨by omega, by omega⟩
  obtain ⟨item, hi, -⟩ := h.wellFormed r hr
  have hlt := (List.getElem?_eq_some_iff.mp hi).1
  omega

open Packed

theorem Reached.extend {start : Nat} (h : Reached vector items log start)
    (hp : chunk.Packed vector items start done) {exchange : PathExchange}
    (hst : start ≤ bound) (hb : bound ≤ start + done.length)
    (hr : ∀ index, exchange.ran index = true ↔ start ≤ index ∧ index < bound) :
    Reached vector items (log ++ [exchange]) bound where
  le := hb.trans (bound_le hp h.le)
  before i hi := by
    rw [executed_append, Bool.or_eq_true]
    rcases Nat.lt_or_ge i start with hlt | hge
    · exact ⟨.inl (h.before i hlt).1, (h.before i hlt).2⟩
    · exact ⟨.inr ((hr i).mpr ⟨hge, hi⟩), not_malformed hp hge (by omega)⟩
  behind i hi := by
    rw [executed_append, Bool.or_eq_false_iff]
    refine ⟨h.behind i (hst.trans hi), ?_⟩
    rw [← Bool.not_eq_true, hr]
    omega

theorem Packed.ran_rejected {start : Nat} (h : chunk.Packed vector items start done)
    (hsh : ReplyShape request res) (hre : resourceRejectedBeforeMutation res = true)
    (index : Nat) : ran ⟨chunk.ops, .ok res⟩ index = true ↔ start ≤ index ∧ index < start := by
  have hok := okOps_of_rejected hre
  rw [h.ran_iff hsh]
  constructor
  · rintro ⟨r, hr, -, hs⟩
    have := (h.final r hr).1
    omega
  · omega

/-- A compound that failed at an item executed the items before it. -/
theorem Packed.ran_before {start : Nat} (h : chunk.Packed vector items start done)
    (hsh : ReplyShape request res) {caller : Nat}
    (hb : ∀ r ∈ done, r.stop ≤ res.okOps ↔ r.caller < caller)
    (hc : caller ≤ start + done.length) (index : Nat) :
    ran ⟨chunk.ops, .ok res⟩ index = true ↔ start ≤ index ∧ index < caller := by
  rw [h.ran_iff hsh]
  constructor
  · rintro ⟨r, hr, rfl, hs⟩
    exact ⟨((h.caller_mem_iff r.caller).mp ⟨r, hr, rfl⟩).1, (hb r hr).mp hs⟩
  · rintro ⟨hge, hlt⟩
    obtain ⟨r, hr, rfl⟩ := (h.caller_mem_iff index).mpr ⟨hge, by omega⟩
    exact ⟨r, hr, rfl, (hb r hr).mpr hlt⟩

theorem Packed.stop_le {start : Nat} {tail : List OpRange}
    (h : chunk.Packed vector items start done) (hrg : chunk.map.ranges = done ++ tail)
    (hsh : ReplyShape request res) (hcn : chunk.map.next = request.length)
    (hok : res.status = Status.ok) :
    ∀ r ∈ done, r.stop ≤ res.okOps ↔ r.caller < start + done.length := by
  intro r hr
  have hs := (chunk.map.bounded r (by rw [hrg]; exact mem_append_left _ hr)).2.2
  have hc := ((h.caller_mem_iff r.caller).mp ⟨r, hr, rfl⟩).2
  have ho : res.okOps = request.length := by
    unfold okOps
    rw [if_pos hok, hsh.nops_of_ok hok]
  omega

theorem Marked.extend {slots : List (Option Unit)} {start : Nat} (h : Marked items slots start)
    (hst : start ≤ bound) {ranges : List OpRange}
    (hr : ∀ i, (∃ r ∈ ranges, r.caller = i) ↔ start ≤ i ∧ i < bound) :
    Marked items (markDone slots ranges) bound := by
  refine ⟨(markDone_length _ _).trans h.1, ?_⟩
  intro i hi
  rw [getElem?_markDone, h.1, h.2 i hi, hr]
  omega

/-- The ranges of a chunk: complete items, and perhaps the one that was rejected. -/
theorem built_ranges {start : Nat}
    (h : chunk.Open vector items start failed done ∨ chunk.Cut vector items start done) :
    chunk.Packed vector items start done ∧ ∃ tail, chunk.map.ranges = done ++ tail ∧
      (∀ r ∈ tail, r.caller = start + done.length ∧ r.start = r.stop) ∧ tail.length ≤ 1 := by
  rcases h with ho | hc
  · exact ⟨ho.packed, [], by simp [ho.ranges], by simp, by simp⟩
  · obtain ⟨p, hr⟩ := hc.ranges
    exact ⟨hc.packed, [⟨start + done.length, p, p⟩], hr, by simp, by simp⟩

theorem Open.pending {start : Nat} (h : chunk.Open vector items start failed done)
    (hst : start ≤ m) (hb : Malformed vector items m) : chunk.global ≤ m := by
  rw [h.global]
  rcases Nat.lt_or_ge m (start + done.length) with hlt | hge
  · exact absurd hb (not_malformed h.packed hst hlt)
  · exact hge

section Reply

variable {st : PathVectorState σ} {remote : Remote σ} {request : List ArgOp} {res : CompoundRes}
  {chunk : PathChunk} {done : List OpRange} {maxOps : Nat}

theorem Going.resend (h : Going vector items st)
    (hbu : chunk.Open vector items st.global st.failed done ∨ chunk.Cut vector items st.global done)
    (hsh : ReplyShape request res) (hre : resourceRejectedBeforeMutation res = true)
    (hr : 1 + vector.perFile ≤ remote.client.maxOps) :
    Going vector items {st with
      remote := remote
      failed := chunk.failed
      maxItems := usizeMax
      log := st.log ++ [⟨chunk.ops, .ok res⟩]} := by
  obtain ⟨hp, -⟩ := built_ranges hbu
  refine ⟨h.reached.extend hp (Nat.le_refl _) (Nat.le_add_right ..)
    (ran_rejected hp hsh hre), h.marked, ?_⟩
  intro m status hf
  rcases hbu with ho | hc
  · obtain ⟨hge, hb, -⟩ := h.pending m status (ho.failed.symm.trans hf)
    exact ⟨hge, hb, hr⟩
  · obtain ⟨rfl, -⟩ := Prod.mk.inj (Option.some.inj (hc.failed.symm.trans hf))
    exact ⟨Nat.le_add_right .., hc.rejected, hr⟩

theorem Going.failure (h : Going vector items st)
    (hbu : chunk.Open vector items st.global st.failed done ∨ chunk.Cut vector items st.global done)
    (hsh : ReplyShape request res) (hc : chunk.map.next = request.length) {caller : Nat}
    {status : Status} (hf : firstFailedRange res chunk.map = .ok (some (caller, status))) :
    Reported vector items ⟨remote, st.log ++ [⟨chunk.ops, .ok res⟩],
      .ok ⟨markDone st.slots (chunk.map.ranges.filter fun r => r.caller < caller),
        some (caller, status)⟩⟩ := by
  obtain ⟨hp, tail, hrg, ht, hle⟩ := built_ranges hbu
  obtain ⟨⟨owner, ho, rfl⟩, hb⟩ := hp.firstFailedRange hrg ht hle hsh hc hf
  obtain ⟨hge, hlt⟩ := (hp.caller_mem_iff owner.caller).mp ⟨owner, ho, rfl⟩
  intro outcome hou
  obtain rfl := Except.ok.inj hou
  refine ⟨owner.caller, h.reached.extend hp hge hlt.le
    (ran_before hp hsh hb hlt.le), h.marked.extend hge ?_, .inr ⟨status, rfl⟩⟩
  intro i
  rw [hrg]
  simp only [mem_filter, mem_append, decide_eq_true_eq]
  constructor
  · rintro ⟨r, ⟨hr | hr, hl⟩, rfl⟩
    · exact ⟨((hp.caller_mem_iff r.caller).mp ⟨r, hr, rfl⟩).1, hl⟩
    · have := (ht r hr).1
      omega
  · rintro ⟨hst, hl⟩
    obtain ⟨r, hr, rfl⟩ := (hp.caller_mem_iff i).mpr ⟨hst, by omega⟩
    exact ⟨r, ⟨.inl hr, hl⟩, rfl⟩

theorem Going.executes (h : Going vector items st)
    (hbu : chunk.Open vector items st.global st.failed done ∨ chunk.Cut vector items st.global done)
    (hsh : ReplyShape request res) (hcn : chunk.map.next = request.length)
    (hok : res.status = Status.ok) :
    Reached vector items (st.log ++ [⟨chunk.ops, .ok res⟩]) (st.global + done.length) := by
  obtain ⟨hp, tail, hrg, -, -⟩ := built_ranges hbu
  exact h.reached.extend hp (Nat.le_add_right ..) (Nat.le_refl _)
    (ran_before hp hsh (stop_le hp hrg hsh hcn hok) (Nat.le_refl _))

theorem Going.success (h : Going vector items st)
    (ho : chunk.Open vector items st.global st.failed done) (hsh : ReplyShape request res)
    (hcn : chunk.map.next = request.length) (hok : res.status = Status.ok)
    (hli : remote.client.maxOps = st.remote.client.maxOps) :
    Going vector items {st with
      remote := remote
      failed := chunk.failed
      maxItems := usizeMax
      log := st.log ++ [⟨chunk.ops, .ok res⟩]
      slots := markDone st.slots chunk.map.ranges
      global := chunk.global} := by
  refine ⟨ho.global ▸ h.executes (.inl ho) hsh hcn hok, ?_, ?_⟩
  · dsimp only
    rw [ho.global, ho.ranges]
    exact h.marked.extend (Nat.le_add_right ..) ho.packed.caller_mem_iff
  · intro m status hf
    obtain ⟨hge, hb, hro⟩ := h.pending m status (ho.failed.symm.trans hf)
    exact ⟨Open.pending ho hge hb, hb, hli.symm ▸ hro⟩

/-- A compound that ends at a rejected path and succeeds marks that item as well. -/
theorem Going.cut (h : Going vector items st) (hc : chunk.Cut vector items st.global done)
    (hsh : ReplyShape request res) (hcn : chunk.map.next = request.length)
    (hok : res.status = Status.ok) :
    CutAt vector items (st.log ++ [⟨chunk.ops, .ok res⟩]) (markDone st.slots chunk.map.ranges)
      chunk.failed (st.global + done.length) := by
  have hp := hc.packed
  obtain ⟨p, hcu⟩ := hc.ranges
  refine ⟨h.executes (.inr hc) hsh hcn hok, hc.rejected, ?_, hc.failed⟩
  rw [hcu]
  apply h.marked.extend (by omega)
  intro i
  simp only [mem_append, mem_singleton]
  constructor
  · rintro ⟨r, hr | rfl, rfl⟩
    · have := (hp.caller_mem_iff r.caller).mp ⟨r, hr, rfl⟩
      omega
    · dsimp only
      omega
  rintro ⟨hst, hl⟩
  rcases Nat.lt_or_eq_of_le (Nat.le_of_lt_succ hl) with hlt | rfl
  · obtain ⟨r, hr, rfl⟩ := (hp.caller_mem_iff i).mpr ⟨hst, hlt⟩
    exact ⟨r, .inl hr, rfl⟩
  · exact ⟨_, .inr rfl, rfl⟩

end Reply

/-- A round of a call keeps what is told, unless a rejected path is overtaken, or ends
with what is reported. -/
theorem Going.reply (h : Going vector items st) (hw : 0 < st.maxItems)
    (hli : st.remote.client.maxOps < usizeMax)
    (hsends : st.Sends vector wire maxArgBytes items remote (.ok res)) :
    ((st.received vector maxArgBytes items remote res).reply vector
      (st.budget vector) (st.chunk vector maxArgBytes items) res).elim
      (fun next => next.remote.client.maxOps = st.remote.client.maxOps ∧ 0 < next.maxItems ∧
        (Going vector items next ∨
          st.Overtakes vector wire maxArgBytes items ∧ Overtaken vector items next))
      (Reported vector items) := by
  have hc : remote.client.maxOps = st.remote.client.maxOps := by
    have hk := (st.remote.callCompound_client wire vector.tag
      (st.chunk vector maxArgBytes items).compound).1
    rwa [Remote.callMutation_ok wire hsends.called] at hk
  obtain ⟨hg, hso⟩ := hsends.packs
  obtain ⟨request, done, hsh, hcn, hb⟩ := answered st hli hsends.called
  have hro := (chunk_ranges_iff st hw hg hli).mp hso
  unfold PathVectorState.reply
  split
  · rename_i hr
    unfold canRetryMergedResource at hr
    simp only [Bool.and_eq_true] at hr
    exact ⟨hc, Nat.succ_pos _, .inl (h.resend hb hsh hr.1 (hc.symm ▸ hro))⟩
  split
  · intro outcome hou
    cases hou
  · rename_i caller status hf
    exact h.failure hb hsh hcn hf
  rename_i hf
  dsimp only
  split
  · rename_i hs
    -- A chunk with items moves forward.
    exfalso
    change st.global = (st.chunk vector maxArgBytes items).global at hs
    rcases hb with ho | hcu
    · have hl := length_pos_iff.mpr (ho.ranges ▸ hso)
      have hm := ho.global
      omega
    · have hm := hcu.global
      omega
  · obtain ⟨hp, tail, hrg, ht, hl⟩ := built_ranges hb
    have hok := hp.firstFailedRange hrg ht hl hsh hcn hf
    refine ⟨hc, Nat.succ_pos _, ?_⟩
    rcases hb with ho | hcu
    · exact .inl (h.success ho hsh hcn hok hc)
    · obtain ⟨p, hranges⟩ := hcu.ranges
      have hover : st.Overtakes vector wire maxArgBytes items := by
        refine ⟨remote, res, hsends, hok, ⟨_, p, p⟩, ?_, hcu.rejected⟩
        rw [hranges]
        simp
      exact .inr ⟨hover, hcu.global.ge, _, h.cut hcu hsh hcn hok⟩

theorem Going.round (h : Going vector items st) (hw : 0 < st.maxItems)
    (hli : st.remote.client.maxOps < usizeMax) {next : PathVectorState σ ⊕ PathVectorDone σ}
    (hrn : PathVectorRound vector wire maxArgBytes items st next) :
    next.elim
      (fun next => next.remote.client.maxOps = st.remote.client.maxOps ∧ 0 < next.maxItems ∧
        (Going vector items next ∨
          st.Overtakes vector wire maxArgBytes items ∧ Overtaken vector items next))
      (Reported vector items) := by
  cases hrn with
  | finished hgl =>
    intro outcome ho
    obtain rfl := Except.ok.inj ho
    exact ⟨st.global, h.reached, h.marked, .inl (Nat.le_antisymm h.reached.le hgl)⟩
  | full hgl hem =>
    intro outcome ho
    obtain rfl := Except.ok.inj ho
    have hfu := mt (chunk_ranges_iff st hw hgl hli).mpr (not_not_intro hem)
    refine ⟨st.global, h.reached, h.marked, .inr ⟨.tooManyOps, ?_⟩⟩
    cases hf : st.failed with
    | none => rfl
    | some at_ =>
      obtain ⟨-, -, hr⟩ := h.pending at_.1 at_.2 hf
      exact absurd hr hfu
  | unsent error =>
    intro outcome ho
    cases ho
  | repack _ _ hl => exact ⟨rfl, by dsimp only; omega, .inl ⟨h.1, h.2, h.3⟩⟩
  | failed remote error =>
    intro outcome ho
    cases ho
  | replied remote res hsends => exact h.reply hw hli hsends

theorem Going.start (remote : Remote σ) :
    Going vector items (pathVectorStart items remote) := by
  refine ⟨⟨Nat.zero_le _, ?_, ?_⟩, ⟨length_replicate, ?_⟩, ?_⟩
  · exact fun i hi => absurd hi (Nat.not_lt_zero i)
  · exact fun i _ => rfl
  · intro i hi
    simp [pathVectorStart, hi]
  · intro m status hf
    cases hf

/-- What is told at every state of a call. -/
theorem Told.visits (hli : remote.client.maxOps < usizeMax)
    (h : Loop.Visits (pathVectorBody vector wire maxArgBytes items)
      (pathVectorStart items remote) st) : Told vector items remote.client.maxOps st := by
  induction h with
  | refl => exact ⟨rfl, Nat.succ_pos _, .inl (Going.start remote)⟩
  | @tail st next _ hstep ih =>
    obtain ⟨hlimit, hw, hg | ⟨hover, -⟩⟩ := ih
    · obtain ⟨hl, hm, htold⟩ := hg.round hw (hlimit ▸ hli) (pathVectorBody_round hstep)
      exact ⟨hl.trans hlimit, hm, htold.imp_right And.right⟩
    · cases (PathVectorRound.finished hover).step_eq.symm.trans hstep

/-- Until a rejected path is overtaken the items are done one by one. -/
theorem Going.visits (hli : remote.client.maxOps < usizeMax)
    (hno : ∀ st, Loop.Visits (pathVectorBody vector wire maxArgBytes items)
      (pathVectorStart items remote) st → ¬ st.Overtakes vector wire maxArgBytes items)
    (h : Loop.Visits (pathVectorBody vector wire maxArgBytes items)
      (pathVectorStart items remote) st) : Going vector items st := by
  induction h with
  | refl => exact Going.start remote
  | @tail st next hvisits hstep ih =>
    obtain ⟨hlimit, hw, -⟩ := Told.visits hli hvisits
    obtain ⟨-, -, hg | ⟨hover, -⟩⟩ := ih.round hw (hlimit ▸ hli) (pathVectorBody_round hstep)
    · exact hg
    · exact absurd hover (hno st hvisits)

theorem Going.overtakes (h : Going vector items st) (hli : st.remote.client.maxOps < usizeMax)
    (hover : st.Overtakes vector wire maxArgBytes items) :
    ∃ next, pathVectorStep vector wire maxArgBytes items st = .inl next ∧
      Overtaken vector items next := by
  obtain ⟨remote, res, hsends, hok, r, hr, hmalformed⟩ := hover
  obtain ⟨request, done, hsh, hcn, ho | hc⟩ := answered st hli hsends.called
  · rw [ho.ranges] at hr
    obtain ⟨hge, hlt⟩ := (ho.packed.caller_mem_iff r.caller).mp ⟨r, hr, rfl⟩
    exact absurd hmalformed (not_malformed ho.packed hge hlt)
  have hretry : canRetryMergedResource remote.client vector.tag res (st.budget vector)
      pathReserve vector.perFile = false := by
    rw [Bool.eq_false_iff]
    intro hretry
    unfold canRetryMergedResource at hretry
    rw [Bool.and_eq_true] at hretry
    exact status_of_rejected hretry.1 hok
  have hmore : st.global ≠ (st.chunk vector maxArgBytes items).global := by
    have hlt := hsends.packs.1
    have hglobal := hc.global
    omega
  refine ⟨{st.received vector maxArgBytes items remote res with
    slots := markDone st.slots (st.chunk vector maxArgBytes items).map.ranges
    global := (st.chunk vector maxArgBytes items).global},
    (PathVectorRound.replied remote res hsends).step_eq.trans ?_, hc.global.ge, _,
    h.cut hc hsh hcn hok⟩
  refine (if_neg (Bool.eq_false_iff.mp hretry)).trans ?_
  rw [firstFailedRange_of_ok hsh hcn hok]
  exact if_neg hmore

theorem PathVectorState.Drops.packs (h : st.Drops vector wire maxArgBytes items) :
    st.Packs vector maxArgBytes items := by
  rcases h with ⟨-, ⟨hpacks, -⟩ | ⟨_, _, hsends⟩⟩ | ⟨_, _, hsends, -⟩
  · exact hpacks
  · exact hsends.packs
  · exact hsends.packs

theorem Going.executed_iff (h : Going vector items st) :
    (∃ i, executed st.log i = true) ↔ 0 < st.global := by
  constructor
  · rintro ⟨i, hran⟩
    by_contra hz
    rw [h.reached.behind i (by omega)] at hran
    cases hran
  · exact fun hpos => ⟨0, (h.reached.before 0 hpos).1⟩

/-- The reply to a compound executed an item in front of its failed operation. -/
theorem Packed.ran_stray {start : Nat}
    (hbu : chunk.Open vector items start failed done ∨ chunk.Cut vector items start done)
    (hsh : ReplyShape request res) (hbad : res.status ≠ Status.ok) :
    (∃ i, ran ⟨chunk.ops, .ok res⟩ i = true) ↔
      ∃ r ∈ chunk.map.ranges, r.start < r.stop ∧ r.stop < res.nops := by
  obtain ⟨hp, tail, hrg, ht, -⟩ := built_ranges hbu
  have hops : res.okOps = res.nops - 1 := by
    unfold okOps
    rw [if_neg hbad]
  constructor
  · rintro ⟨i, hran⟩
    obtain ⟨r, hr, -, hstop⟩ := (hp.ran_iff hsh i).mp hran
    obtain ⟨htwo, hless, -⟩ := hp.final r hr
    refine ⟨r, ?_, hless, by omega⟩
    rw [hrg]
    exact mem_append_left _ hr
  · rintro ⟨r, hr, hless, hstop⟩
    rw [hrg] at hr
    rcases mem_append.mp hr with hr | hr
    · exact ⟨r.caller, (hp.ran_iff hsh _).mpr ⟨r, hr, rfl, by omega⟩⟩
    · have := (ht r hr).2
      omega

/-- A call drops executed items exactly if it ends here with an error behind one. -/
theorem Going.drops_iff (h : Going vector items st) (hli : st.remote.client.maxOps < usizeMax) :
    st.Drops vector wire maxArgBytes items ↔ ∃ last error,
      pathVectorStep vector wire maxArgBytes items st = .inr last ∧
        last.result = .error error ∧ ∃ i, executed last.log i = true := by
  have hlater {exchange : PathExchange} : (∃ i, executed (st.log ++ [exchange]) i = true) ↔
      0 < st.global ∨ ∃ i, exchange.ran i = true := by
    rw [← h.executed_iff, ← exists_or]
    simp only [executed_append, Bool.or_eq_true]
  constructor
  · rintro (⟨hpos, ⟨hpacks, error, hneeded⟩ | ⟨remote, error, hsends⟩⟩ |
      ⟨remote, res, hsends, hretry, hstray, hbefore⟩)
    · exact ⟨_, error, (PathVectorRound.unsent error hpacks hneeded).step_eq, rfl,
        h.executed_iff.mpr hpos⟩
    · exact ⟨_, error, (PathVectorRound.failed remote error hsends).step_eq, rfl,
        hlater.mpr (.inl hpos)⟩
    · obtain ⟨request, done, hsh, hcn, hbuilt⟩ := answered st hli hsends.called
      obtain ⟨error, hfailed⟩ := (firstFailedRange_error_iff hsh hcn).mpr hstray
      refine ⟨⟨remote, st.log ++ [⟨(st.chunk vector maxArgBytes items).ops, .ok res⟩],
        .error error⟩, error, (PathVectorRound.replied remote res hsends).step_eq.trans ?_, rfl,
        hlater.mpr (hbefore.imp_right (Packed.ran_stray hbuilt hsh hstray.1).mpr)⟩
      refine (if_neg (Bool.eq_false_iff.mp hretry)).trans ?_
      rw [hfailed]
      rfl
  rintro ⟨last, error, hstep, hresult, hran⟩
  have hround := pathVectorStep_round vector wire maxArgBytes items st
  rw [hstep] at hround
  generalize hnext : (Sum.inr last : PathVectorState σ ⊕ PathVectorDone σ) = next at hround
  cases hround with
  | finished hglobal =>
    obtain rfl := Sum.inr.inj hnext
    cases hresult
  | full hglobal hempty =>
    obtain rfl := Sum.inr.inj hnext
    cases hresult
  | unsent error hpacks hneeded =>
    obtain rfl := Sum.inr.inj hnext
    exact .inl ⟨h.executed_iff.mp hran, .inl ⟨hpacks, error, hneeded⟩⟩
  | repack => cases hnext
  | failed remote error hsends =>
    obtain rfl := Sum.inr.inj hnext
    rcases hlater.mp hran with hpos | ⟨i, hno⟩
    · exact .inl ⟨hpos, .inr ⟨remote, error, hsends⟩⟩
    · cases hno
  | replied remote res hsends =>
    unfold PathVectorState.reply at hnext
    split at hnext
    · cases hnext
    rename_i hretry
    split at hnext
    · rename_i error hfailed
      obtain rfl := Sum.inr.inj hnext
      obtain ⟨request, done, hsh, hcn, hbuilt⟩ := answered st hli hsends.called
      have hstray := (firstFailedRange_error_iff hsh hcn).mp ⟨error, hfailed⟩
      exact .inr ⟨remote, res, hsends, Bool.eq_false_iff.mpr hretry, hstray,
        (hlater.mp hran).imp_right (Packed.ran_stray hbuilt hsh hstray.1).mp⟩
    · obtain rfl := Sum.inr.inj hnext
      cases hresult
    dsimp only at hnext
    split at hnext
    · obtain rfl := Sum.inr.inj hnext
      cases hresult
    · cases hnext

variable (vector items) in
/-- An outcome that can be relied on. The item of a rejected path is the failed
one once its turn has come, that is if everything before it was executed. -/
structure Truthful (done : PathVectorDone σ) : Prop where
  slots : ∀ outcome, done.result = .ok outcome → ∀ i < items.length,
    outcome.slots[i]? = some (some ()) ↔ executed done.log i = true
  rejected : ∀ outcome, done.result = .ok outcome → ∀ i, Malformed vector items i →
    outcome.slots[i]? ≠ some (some ()) ∧
      ((∀ j < i, executed done.log j = true) → ∃ status, outcome.failed = some (i, status))
  kept : ∀ error, done.result = .error error → ∀ i, executed done.log i = false

theorem Reached.bound_eq {i : Nat} (h : Reached vector items log bound)
    (hb : Malformed vector items i) (hbe : ∀ j < i, executed log j = true) : i = bound := by
  apply Nat.le_antisymm
  · by_contra hlt
    have hr := hbe bound (Nat.lt_of_not_le hlt)
    rw [h.behind bound (Nat.le_refl _)] at hr
    cases hr
  · exact Nat.le_of_not_lt fun hlt => (h.before i hlt).2 hb

theorem Reached.executed_iff (h : Reached vector items log bound) (i : Nat) :
    executed log i = true ↔ i < bound := by
  constructor
  · intro hr
    by_contra hge
    rw [h.behind i (Nat.le_of_not_lt hge)] at hr
    cases hr
  · exact fun hlt => (h.before i hlt).1

theorem truthful_of_marked {done : PathVectorDone σ} (hr : done.result = .ok outcome)
    (hrc : Reached vector items done.log bound) (hm : Marked items outcome.slots bound)
    (hen : bound = items.length ∨ ∃ status, outcome.failed = some (bound, status)) :
    Truthful vector items done := by
  refine ⟨?_, ?_, ?_⟩
  · intro outcome' hr' i hi
    obtain rfl := Except.ok.inj (hr.symm.trans hr')
    rw [hrc.executed_iff]
    exact hm.2 i hi
  · intro outcome' hr' i hb
    obtain rfl := Except.ok.inj (hr.symm.trans hr')
    refine ⟨?_, ?_⟩
    · rw [ne_eq, hm.2 i hb.lt]
      exact fun hlt => (hrc.before i hlt).2 hb
    intro hbe
    obtain rfl := hrc.bound_eq hb hbe
    rcases hen with ha | hf
    · exact absurd hb.lt (ha ▸ Nat.lt_irrefl _)
    · exact hf
  · intro error he
    cases hr.symm.trans he

theorem CutAt.not_truthful {done : PathVectorDone σ} (hr : done.result = .ok outcome)
    (h : CutAt vector items done.log outcome.slots outcome.failed m) :
    ¬ Truthful vector items done := by
  intro ht
  apply (ht.rejected outcome hr m h.malformed).1
  exact (h.marked.2 m h.malformed.lt).mpr (Nat.lt_succ_self m)

/-- The outcome of a call against any server tells the truth exactly if none of its
compounds ends at a rejected path and succeeds, and the call does not end with an error
behind an item that was executed. -/
theorem pathVectorCompound_truthful_iff (vector : PathVector T) (wire : Wire σ) (maxArgBytes : Nat)
    (items : List T) (remote : Remote σ) (hlimit : remote.client.maxOps < usizeMax) :
    Truthful vector items (pathVectorCompound vector wire maxArgBytes items remote) ↔
      ∀ st, Loop.Visits (pathVectorBody vector wire maxArgBytes items)
        (pathVectorStart items remote) st →
          ¬ st.Overtakes vector wire maxArgBytes items ∧
            ¬ st.Drops vector wire maxArgBytes items := by
  constructor
  · intro htruthful st hvisits
    obtain ⟨hmax, -, hgoing | hover⟩ := Told.visits hlimit hvisits
    · refine ⟨?_, ?_⟩
      · intro hovertakes
        obtain ⟨next, hstep, hnext, m, hcut⟩ := hgoing.overtakes (hmax ▸ hlimit) hovertakes
        have hdone : pathVectorCompound vector wire maxArgBytes items remote = _ :=
          hvisits.run_eq.trans ((Loop.run_of_inl _ hstep).trans
            (Loop.run_of_inr _ (PathVectorRound.finished hnext).step_eq))
        rw [hdone] at htruthful
        exact hcut.not_truthful rfl htruthful
      · intro hdrops
        obtain ⟨done, error, hstep, hresult, i, hran⟩ :=
          (hgoing.drops_iff (hmax ▸ hlimit)).mp hdrops
        have hdone : pathVectorCompound vector wire maxArgBytes items remote = done :=
          hvisits.run_eq.trans (Loop.run_of_inr _ hstep)
        rw [hdone] at htruthful
        rw [htruthful.kept error hresult i] at hran
        cases hran
    · -- nothing is sent any more
      have hended := Nat.not_lt.mpr hover.1
      refine ⟨?_, fun hdrops => hended hdrops.packs.1⟩
      rintro ⟨_, _, hsends, -⟩
      exact hended hsends.packs.1
  · intro hnone
    obtain ⟨last, hvisits, hlast⟩ :=
      Loop.exists_last (pathVectorBody vector wire maxArgBytes items) (pathVectorStart items remote)
    have hgoing := Going.visits hlimit (fun st hst => (hnone st hst).1) hvisits
    obtain ⟨hmax, hwindow, -⟩ := Told.visits hlimit hvisits
    have hreported := hgoing.round hwindow (hmax ▸ hlimit) (pathVectorBody_round hlast)
    cases hresult : (pathVectorCompound vector wire maxArgBytes items remote).result with
    | error error =>
      refine ⟨?_, ?_, ?_⟩
      · exact fun outcome hok => absurd (hresult.symm.trans hok) (by simp)
      · exact fun outcome hok => absurd (hresult.symm.trans hok) (by simp)
      · intro _ _ i
        rw [← Bool.not_eq_true]
        intro hran
        exact (hnone last hvisits).2
          ((hgoing.drops_iff (hmax ▸ hlimit)).mpr ⟨_, error, hlast, hresult, i, hran⟩)
    | ok outcome =>
      obtain ⟨bound, hreached, hmarked, hend⟩ := hreported outcome hresult
      exact truthful_of_marked hresult hreached hmarked hend

end Loop

/-- A server that has no directory but the root. -/
def flatWire : Wire Unit := fun _ request =>
  let succeeded := (request.takeWhile fun arg => arg.opNum ≠ .lookup).map
    fun arg => (⟨arg.opNum, Status.ok, .none, false⟩ : ResOp)
  if succeeded.length = request.length then ((), .ok ⟨Status.ok, succeeded, false⟩)
  else ((), .ok ⟨.noent, succeeded ++ [⟨.lookup, .noent, .none, false⟩], false⟩)

def freshRemote (maxOps : Nat) : Remote Unit :=
  ⟨⟨Session.fresh, maxOps, .new maxOps, fun _ => .ok true⟩, ()⟩

/-- An item fails in a directory that is missing: the outcome names the items
before it. -/
theorem pathVectorCompound_truthful_iff_missing :
    let paths : List Bytes := [[97], [98], [109, 47, 120]]
    let done := pathVectorCompound removev flatWire 0 paths (freshRemote 256)
    (freshRemote 256).client.maxOps < usizeMax ∧
      done.result = .ok ⟨[some (), some (), none], some (2, .noent)⟩ ∧
      Truthful removev paths done := by
  intro paths done
  have hresult : done.result = .ok ⟨[some (), some (), none], some (2, .noent)⟩ := by
    apply Loop.run_of_runFor _ 2
    decide +kernel
  refine ⟨by decide, hresult, ?_⟩
  apply (pathVectorCompound_truthful_iff removev flatWire 0 paths (freshRemote 256)
    (by decide)).mpr
  intro st hvisits
  obtain rfl := hvisits.eq_of_isRight (by decide +kernel)
  have hanswer : ((pathVectorStart paths (freshRemote 256)).remote.callMutation flatWire removev.tag
      ((pathVectorStart paths (freshRemote 256)).chunk removev 0 paths).compound).2.toOption.map
        (fun res => (res.status, res.nops)) = some (.noent, 6) := by decide +kernel
  have howner : ∃ r ∈ ((pathVectorStart paths (freshRemote 256)).chunk removev 0 paths).map.ranges,
      r.Owns 5 := by decide +kernel
  have hreply {remote : Remote Unit} {res : CompoundRes}
      (hsends : (pathVectorStart paths (freshRemote 256)).Sends removev flatWire 0 paths remote
        (.ok res)) : res.status = .noent ∧ res.nops = 6 := by
    rw [hsends.called] at hanswer
    exact Prod.mk.inj (Option.some.inj hanswer)
  refine ⟨?_, ?_⟩
  · rintro ⟨remote, res, hsends, hok, -⟩
    cases hok.symm.trans (hreply hsends).1
  · rintro (⟨hpos, -⟩ | ⟨remote, res, hsends, -, hstray, -⟩)
    · exact absurd hpos (Nat.lt_irrefl 0)
    · obtain ⟨r, hr, howns⟩ := howner
      rw [(hreply hsends).2] at hstray
      exact hstray.2 r hr howns

/-- Removing "a" and "/" reports both done, and the second failed. Removing "a" and
"b/c/d" within four operations, and renaming "a" to "b" and "m/x" to "/", removes
and renames "a" and returns only an error. -/
theorem pathVectorCompound_not_truthful :
    (let done := removevPathCompound flatWire 0 [[97], [47]] (freshRemote 256)
     done.result = .ok ⟨[some (), some ()], some (1, .inval)⟩ ∧ executed done.log 1 = false) ∧
    (let done := removevPathCompound flatWire 0 [[97], [98, 47, 99, 47, 100]] (freshRemote 4)
     done.result = .error (.op 0 .tooManyOps) ∧ executed done.log 0 = true) ∧
    (let done := renamevPathCompound flatWire 0 [⟨[97], [98]⟩, ⟨[109, 47, 120], [47]⟩]
        (freshRemote 256)
     done.result = .error (.op 0 .noent) ∧ executed done.log 0 = true) := by
  refine ⟨⟨?_, ?_⟩, ⟨?_, ?_⟩, ⟨?_, ?_⟩⟩
  · apply Loop.run_of_runFor _ 3
    decide +kernel
  · apply Loop.run_of_runFor _ 3 (fun done : PathVectorDone Unit => executed done.log 1)
    decide +kernel
  · apply Loop.run_of_runFor _ 3
    decide +kernel
  · apply Loop.run_of_runFor _ 3 (fun done : PathVectorDone Unit => executed done.log 0)
    decide +kernel
  · apply Loop.run_of_runFor _ 3
    decide +kernel
  · apply Loop.run_of_runFor _ 3 (fun done : PathVectorDone Unit => executed done.log 0)
    decide +kernel

end Vnfs
