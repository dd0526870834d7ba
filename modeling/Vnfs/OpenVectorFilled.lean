import Vnfs.OpenVectorKept

/-!
What `openv_path_compound` returns: the slots are filled from the front, one for each
OPEN the server confirmed and no other. A compound of the loop has an OPEN for every
item but one whose path has no parent, and such an item is its last; so the files of
a reply continue those of the replies before it, up to the item that failed.
-/

namespace Vnfs

open List CompoundRes

/-- The slots hold what was confirmed and nothing else, and the items below `bound`
are those with a file. -/
structure OpenvState.FilledTo {σ : Type} (bound : Nat) (st : OpenvState σ) : Prop where
  filled : ∀ i < bound, ∃ path, (i, path) ∈ st.confirmed
  below : ∀ file ∈ st.confirmed, file.1 < bound
  slots : ∀ i path, st.opened[i]? = some (some path) → (i, path) ∈ st.confirmed

def PathChunk.OpensAt (chunk : PathChunk) (r : OpRange) (i : Nat) : Prop :=
  r.Owns (i + 1) ∧ r.stop = i + 3 ∧ ∃ item op, chunk.ops[i]? = some (item, op) ∧
    op.opNum = .openFile

/-- The path of item `index` has no final component. -/
def RejectedOpen (ops : List PathOpenOp) (index : Nat) : Prop :=
  ∃ op, ops[index]? = some op ∧ (CursorCall.setParent op.path).rejected = true

/-- The items from `start` to `bound` have an OPEN each; an item behind them has no
operation. It is the rejected one at which the chunk ends, if there is one. -/
structure PathChunk.OpensTo (ops : List PathOpenOp) (failed : Option (Nat × Status))
    (start bound : Nat) (chunk : PathChunk) : Prop where
  start_le : start ≤ bound
  opens : ∀ j, start ≤ j → j < bound → ∃ r ∈ chunk.map.ranges, r.caller = j ∧ ∃ i, chunk.OpensAt r i
  empty : ∀ r ∈ chunk.map.ranges, bound ≤ r.caller → r.stop ≤ r.start
  accepted : ∀ j, start ≤ j → j < bound → ¬ RejectedOpen ops j
  ended : chunk.global = bound ∧ chunk.failed = failed ∨
    chunk.global = ops.length ∧ RejectedOpen ops bound ∧ chunk.failed = some (bound, .inval)

theorem RejectedOpen.lt {ops : List PathOpenOp} {index : Nat} (h : RejectedOpen ops index) :
    index < ops.length := by
  obtain ⟨op, hop, -⟩ := h
  exact (List.getElem?_eq_some_iff.mp hop).1

section Packing

variable {start : Nat} {chunk : PathChunk} {op : PathOpenOp} {ops : List PathOpenOp}
  {failed : Option (Nat × Status)}

/-- An item that is added becomes the last one, or the end of the vector. -/
theorem PathChunk.OpensTo.add (h : chunk.OpensTo ops failed start chunk.global)
    (hitem : ops[chunk.global]? = some op) (hne : chunk.map.next = chunk.ops.length + 1)
    (hf : (openvAdd ops.length chunk op).1.ops.length < usizeMax) :
    (openvAdd ops.length chunk op).1.OpensTo ops failed start
      (if (openvAdd ops.length chunk op).2 then chunk.global + 1 else chunk.global) := by
  have hst := h.start_le
  have hrejected := chunk.cursor.call_isNone (.setParent op.path)
  unfold openvAdd at hf ⊢
  split
  · rename_i hs
    rw [hs] at hrejected
    refine ⟨h.start_le, ?_, ?_, h.accepted, .inr ⟨rfl, ⟨op, hitem, hrejected.symm⟩, rfl⟩⟩
    · intro j hj hlt
      obtain ⟨r, hr, hc, hopn⟩ := h.opens j hj hlt
      exact ⟨r, mem_append_left _ hr, hc, hopn⟩
    intro r hr hge
    rcases mem_append.mp hr with hold | hn
    · exact h.empty r hold hge
    · rw [mem_singleton.mp hn]
  rename_i step hs
  rw [hs] at hf hrejected
  have hcn : step.count = step.ops.length := CfhCursor.call_count hs
  have hl : chunk.ops.length + (step.ops.length + 2) < usizeMax := by
    simpa using hf
  obtain ⟨-, hrg⟩ := openItem_map chunk.global hne hcn hl
  have hfailed : chunk.failed = failed := by
    rcases h.ended with ⟨-, hfailed⟩ | ⟨-, hrej, -⟩
    · exact hfailed
    · obtain ⟨other, hother, hno⟩ := hrej
      obtain rfl := Option.some.inj (hitem.symm.trans hother)
      cases hrejected.trans hno
  rw [if_pos rfl]
  refine ⟨by omega, ?_, ?_, ?_, .inl ⟨rfl, hfailed⟩⟩
  · dsimp only
    rw [hrg]
    intro j hj hlt
    rcases Nat.lt_or_ge j chunk.global with hold | hn
    · obtain ⟨r, hr, hc, i, ho, hstop, item, op, hop, hopen⟩ := h.opens j hj hold
      refine ⟨r, mem_append_left _ hr, hc, i, ho, hstop, item, op, ?_, hopen⟩
      rw [getElem?_append_left (List.getElem?_eq_some_iff.mp hop).1, hop]
    refine ⟨_, mem_append_right _ (mem_singleton.mpr rfl), ?_,
      chunk.ops.length + step.ops.length, ⟨?_, ?_⟩, ?_, chunk.global,
      .openFile ⟨0, op.access, op.owner, op.how, some (leafOf op.path)⟩, ?_, rfl⟩
    · dsimp only
      omega
    · dsimp only
      omega
    · dsimp only
      omega
    · dsimp only
      omega
    · rw [getElem?_append_right (Nat.le_add_right ..), Nat.add_sub_cancel_left,
        map_append, getElem?_append_right (by simp)]
      simp
  · dsimp only
    rw [hrg]
    intro r hr hge
    rcases mem_append.mp hr with hold | hn
    · exact h.empty r hold (by omega)
    · rw [mem_singleton.mp hn] at hge
      dsimp only at hge
      omega
  · intro j hj hlt
    rcases Nat.lt_or_eq_of_le (Nat.le_of_lt_succ hlt) with hold | rfl
    · exact h.accepted j hj hold
    rintro ⟨other, hother, hno⟩
    obtain rfl := Option.some.inj (hitem.symm.trans hother)
    cases hrejected.trans hno

theorem openvPack_opensTo {maxArgBytes budget maxItems : Nat} {rest : List PathOpenOp}
    (h : chunk.ops.length < usizeMax →
      chunk.OneOpenEach start ops.length ∧ chunk.OpensTo ops failed start chunk.global)
    (hst : start ≤ chunk.global) (hre : rest = ops.drop chunk.global)
    (hfi : (openvPack ops.length maxArgBytes budget maxItems rest chunk).ops.length < usizeMax) :
    ∃ bound, (openvPack ops.length maxArgBytes budget maxItems rest chunk).OpensTo ops failed
      start bound := by
  induction rest generalizing chunk with
  | nil => exact ⟨_, (h hfi).2⟩
  | cons op rest ih =>
    have hlt : chunk.global < ops.length := by
      have hlen := congrArg length hre
      rw [length_cons, length_drop] at hlen
      omega
    rw [drop_eq_getElem_cons hlt] at hre
    obtain ⟨hop, hre⟩ := List.cons.inj hre
    have hitem : ops[chunk.global]? = some op := hop ▸ getElem?_eq_getElem hlt
    have ha : (openvAdd ops.length chunk op).1.ops.length < usizeMax →
        (openvAdd ops.length chunk op).1.OneOpenEach start ops.length ∧
        (openvAdd ops.length chunk op).1.OpensTo ops failed start
          (if (openvAdd ops.length chunk op).2 then chunk.global + 1 else chunk.global) := by
      intro hl
      obtain ⟨ho, hopn⟩ := h (Nat.lt_of_le_of_lt length_le_openvAdd hl)
      exact ⟨ho.add hst hlt hl, hopn.add hitem ho.next_eq hl⟩
    have hg := @openvAdd_global ops.length chunk op
    unfold openvPack at hfi ⊢
    split at hfi
    · rename_i hr
      rw [if_pos hr]
      split at hfi
      · rename_i hp
        rw [if_pos hp]
        exact ⟨_, (h hfi).2⟩
      rename_i hp
      rw [if_neg hp]
      generalize openvAdd ops.length chunk op = next at ha hg hfi
      obtain ⟨next, more⟩ := next
      cases more with
      | false => exact ⟨_, (ha hfi).2⟩
      | true =>
        have hf : next.global = chunk.global + 1 := hg rfl
        rw [if_pos rfl, ← hf] at ha
        dsimp only at ha hfi ⊢
        split at hfi
        · rename_i he
          rw [if_pos he]
          exact ⟨_, (ha hfi).2⟩
        · rename_i he
          rw [if_neg he]
          exact ih ha (by omega) (by rw [hf]; exact hre) hfi
    · rename_i hr
      rw [if_neg hr]
      exact ⟨_, (h hfi).2⟩

theorem openvAdd_ranges (count : Nat) (chunk : PathChunk) (op : PathOpenOp) :
    chunk.map.ranges.length < (openvAdd count chunk op).1.map.ranges.length := by
  unfold openvAdd
  split <;>
    simp [ExecutionMap.begin, ExecutionMap.noteOps, ExecutionMap.endItem, modifyLast_concat]

theorem openvPack_ranges_ge {count maxArgBytes budget maxItems : Nat} {rest : List PathOpenOp}
    (chunk : PathChunk) : chunk.map.ranges.length ≤
      (openvPack count maxArgBytes budget maxItems rest chunk).map.ranges.length := by
  induction rest generalizing chunk with
  | nil => exact Nat.le_refl _
  | cons op rest ih =>
    have ha := openvAdd_ranges count chunk op
    unfold openvPack
    split
    · split
      · exact Nat.le_refl _
      generalize openvAdd count chunk op = next at ha
      obtain ⟨next, more⟩ := next
      cases more with
      | false => exact ha.le
      | true =>
        dsimp only
        split
        · exact ha.le
        · exact ha.le.trans (ih next)
    · exact Nat.le_refl _

/-- There is a compound to send if the limit has room for one item. -/
theorem OpenvState.chunk_ranges_iff {σ : Type} {st : OpenvState σ} {maxArgBytes : Nat}
    (hw : 0 < st.maxItems) (hg : st.global < ops.length)
    (hl : st.remote.client.maxOps < usizeMax) :
    (st.chunk maxArgBytes ops).map.ranges ≠ [] ↔
      1 + openvPerFile ≤ st.remote.client.maxOps := by
  rw [← mergedLimit_iff hl "openv1"]
  unfold OpenvState.chunk
  rw [drop_eq_getElem_cons hg]
  generalize ops[st.global] = op
  unfold openvPack
  constructor
  · intro hs
    split at hs
    · rename_i hr
      exact hr.2
    · exact absurd rfl hs
  intro hr
  have ha := openvAdd_ranges ops.length {global := st.global, failed := st.failed} op
  rw [if_pos ⟨hw, hr⟩, if_neg (by simp), ← length_pos_iff]
  generalize openvAdd ops.length _ op = next at ha
  obtain ⟨next, more⟩ := next
  cases more with
  | false => exact Nat.zero_lt_of_lt ha
  | true =>
    dsimp only
    split
    · exact Nat.zero_lt_of_lt ha
    · exact Nat.lt_of_lt_of_le (Nat.zero_lt_of_lt ha) (openvPack_ranges_ge next)

end Packing

section Replies

variable {start count bound : Nat} {chunk : PathChunk} {sequence : ArgOp} {res : CompoundRes}
  {ops : List PathOpenOp} {failed : Option (Nat × Status)}

theorem PathChunk.OneOpenEach.stop_le_start (h : chunk.OneOpenEach start count) {r r' : OpRange}
    (hr : r ∈ chunk.map.ranges) (hr' : r' ∈ chunk.map.ranges) (hlt : r.caller < r'.caller) :
    r.stop ≤ r'.start := by
  have hne : r ≠ r' := by
    rintro rfl
    omega
  rcases h.before_or_after hr hr' hne with hb | ha
  · exact hb.1
  · omega

theorem CompoundRes.confirms_of_isOpen {request : List ArgOp} (hsh : ReplyShape request res)
    {i : Nat} (ho : res.isOpen i = true) (hok : i + 2 ≤ res.okOps) : res.confirms i = true := by
  obtain ⟨-, hs⟩ := (hsh.opStatus_ok_iff i).mpr (by omega)
  obtain ⟨hlt, hg⟩ := (hsh.opStatus_ok_iff (i + 1)).mpr (by omega)
  exact decide_eq_true ⟨ho, hs, hlt, hg⟩

theorem PathChunk.OpensAt.isOpen {r : OpRange} {i : Nat} (h : chunk.OpensAt r i)
    (hsh : ReplyShape (sequence :: chunk.compound) res) (hlt : i + 1 < res.nops) :
    res.isOpen (i + 1) = true := by
  obtain ⟨-, -, item, op, hop, ho⟩ := h
  have ha : (sequence :: chunk.compound)[i + 1]? = some op := by
    rw [getElem?_cons_succ, PathChunk.compound, getElem?_map, hop]
    rfl
  have hro := getElem?_eq_getElem hlt
  have hn := hsh.opNum_eq (i + 1) op _ ha hro
  unfold CompoundRes.isOpen
  rw [hro]
  exact decide_eq_true (hn.trans ho)

/-- The items whose operations all succeeded have a confirmed file each. -/
theorem PathChunk.OpensTo.confirmed (h : chunk.OpensTo ops failed start bound)
    (hsh : ReplyShape (sequence :: chunk.compound) res) {reached : Nat} (hrc : reached ≤ bound)
    (hok : ∀ r ∈ chunk.map.ranges, r.caller < reached → r.stop ≤ res.okOps) {j : Nat}
    (hj : start ≤ j) (hlt : j < reached) :
    ∃ path, (j, path) ∈ res.openedAt res.confirms chunk.map.ranges := by
  obtain ⟨r, hr, rfl, i, ho⟩ := h.opens j hj (by omega)
  have hs := hok r hr hlt
  rw [ho.2.1] at hs
  obtain ⟨hn, -⟩ := (hsh.opStatus_ok_iff (i + 1)).mpr (by omega)
  have hopen := ho.isOpen hsh hn
  exact ⟨res.openedPath (i + 1), mem_openedAt.mpr ⟨r, hr, i + 1, ho.1,
    confirms_of_isOpen hsh hopen (by omega), rfl⟩⟩

theorem PathChunk.OneOpenEach.confirmed (h : chunk.OneOpenEach start count)
    (hsh : ReplyShape (sequence :: chunk.compound) res) {done : List OpRange}
    (hd : ∀ r ∈ done, r ∈ chunk.map.ranges ∧ r.stop ≤ res.okOps) :
    ∀ file ∈ res.openedAt res.isOpen done, file ∈ res.openedAt res.confirms chunk.map.ranges := by
  intro file hf
  obtain ⟨r, hr, i, ho, hopen, rfl⟩ := mem_openedAt.mp hf
  obtain ⟨hm, hok⟩ := hd r hr
  have hs := h.stop_of_isOpen hsh hm ho hopen
  exact mem_openedAt.mpr ⟨r, hm, i, ho, confirms_of_isOpen hsh hopen (by omega), rfl⟩

theorem okOps_of_firstFailedRange_none (h : chunk.OneOpenEach start count)
    (hsh : ReplyShape (sequence :: chunk.compound) res)
    (hn : firstFailedRange res chunk.map = .ok none) : res.okOps = chunk.map.next := by
  have hc : chunk.map.next = (sequence :: chunk.compound).length := by
    rw [h.next_eq, length_cons, PathChunk.compound, length_map]
  obtain ⟨report, hru, hre⟩ := chunk.map.analyze_attributes hsh hc
  unfold firstFailedRange at hn
  rw [hru] at hn
  dsimp only at hn
  split at hn
  · cases hn
  rename_i hco
  have hfl : report.failure = none := Option.map_eq_none_iff.mp (Except.ok.inj hn)
  have hcl := mt hre.compoundFailure_iff.mpr (not_not.mpr hco)
  rw [not_or] at hcl
  have hok : res.status = Status.ok := by
    by_contra hb
    have hf := (hsh.firstFailure_iff (res.nops - 1)).mpr ⟨by omega, hb⟩
    apply hcl.2
    refine ⟨_, hf, fun r hr ho => ?_⟩
    have hs := (hre.failure_iff ⟨r.caller, res.nops - 1, res.opStatus (res.nops - 1)⟩).mpr
      ⟨r, hr, rfl, ho, hf, rfl⟩
    rw [hfl] at hs
    cases hs
  rw [okOps, if_pos hok, hsh.nops_of_ok hok, hc]

theorem okOps_of_firstFailedRange_some (h : chunk.OneOpenEach start count)
    (hsh : ReplyShape (sequence :: chunk.compound) res) {caller : Nat} {status : Status}
    (hs : firstFailedRange res chunk.map = .ok (some (caller, status))) :
    ∃ r ∈ chunk.map.ranges, r.caller = caller ∧ r.start < r.stop ∧ r.start ≤ res.okOps := by
  have hcn : chunk.map.next = (sequence :: chunk.compound).length := by
    rw [h.next_eq, length_cons, PathChunk.compound, length_map]
  obtain ⟨report, hru, hre⟩ := chunk.map.analyze_attributes hsh hcn
  unfold firstFailedRange at hs
  rw [hru] at hs
  dsimp only at hs
  split at hs
  · cases hs
  obtain ⟨failure, hf, heq⟩ := Option.map_eq_some_iff.mp (Except.ok.inj hs)
  obtain ⟨r, hr, hc, ho, hfs, -⟩ := (hre.failure_iff failure).mp hf
  obtain ⟨hl, hb⟩ := (hsh.firstFailure_iff _).mp hfs
  have hok : res.okOps = res.nops - 1 := if_neg hb
  have hlo := ho.1
  have hh := ho.2
  exact ⟨r, hr, hc.symm.trans (Prod.mk.inj heq).1, by omega, by omega⟩

end Replies

section Rounds

variable {σ : Type} {wire : Wire σ} {calls : OpenvCalls σ} {maxArgBytes : Nat}
  {ops : List PathOpenOp} {st : OpenvState σ} {chunk : PathChunk} {sequence : ArgOp}
  {res : CompoundRes}

theorem of_recordOpens_getElem {opened : List (Option OpenedPath)} {files : List (Nat × OpenedPath)}
    {i : Nat} {path : OpenedPath} (h : (recordOpens opened files)[i]? = some (some path)) :
    opened[i]? = some (some path) ∨ (i, path) ∈ files := by
  induction files generalizing opened with
  | nil => exact .inl h
  | cons first rest ih =>
    rcases ih h with hs | hr
    · rw [getElem?_set] at hs
      split at hs
      · rename_i hf
        split at hs
        · obtain rfl := Option.some.inj (Option.some.inj hs)
          exact .inr (hf ▸ mem_cons_self ..)
        · cases hs
      · exact .inl hs
    · exact .inr (mem_cons_of_mem _ hr)

/-- The files of a reply continue those of the replies before it. -/
theorem OpenvState.FilledTo.record {start : Nat} (h : st.FilledTo start)
    (files : List (Nat × OpenedPath)) {new : List (Nat × OpenedPath)} {reached : Nat}
    (hfs : ∀ file ∈ files, file ∈ new) (hb : ∀ file ∈ new, file.1 < reached) (hst : start ≤ reached)
    (hn : ∀ j, start ≤ j → j < reached → ∃ path, (j, path) ∈ new) (remote : Remote σ)
    (failed : Option (Nat × Status)) (global maxItems : Nat) :
    (OpenvState.mk remote (recordOpens st.opened files) failed global maxItems
      (st.confirmed ++ new)).FilledTo reached where
  filled i hi := by
    rcases Nat.lt_or_ge i start with hlt | hge
    · obtain ⟨path, hp⟩ := h.filled i hlt
      exact ⟨path, mem_append_left _ hp⟩
    · obtain ⟨path, hp⟩ := hn i hge hi
      exact ⟨path, mem_append_right _ hp⟩
  below file hf := by
    rcases mem_append.mp hf with hold | ha
    · exact Nat.lt_of_lt_of_le (h.below file hold) hst
    · exact hb file ha
  slots i path hs := by
    rcases of_recordOpens_getElem hs with hold | ha
    · exact mem_append_left _ (h.slots i path hold)
    · exact mem_append_right _ (hfs _ ha)

/-- The item `bound` is next. A failure that is already known is that of a path, met in a
compound that has to be sent again. -/
structure OpenvState.Waits (ops : List PathOpenOp) (bound : Nat) (st : OpenvState σ) : Prop where
  global_eq : st.global = bound
  le : bound ≤ ops.length
  pending : ∀ m status, st.failed = some (m, status) → bound ≤ m ∧ RejectedOpen ops m ∧
    1 + openvPerFile ≤ st.remote.client.maxOps

/-- Between two rounds: the items below `bound` have their files, and `bound` is next or
known to have failed. -/
structure OpenvState.Turn (ops : List PathOpenOp) (bound : Nat) (st : OpenvState σ) : Prop where
  filled : st.FilledTo bound
  window : 0 < st.maxItems
  turn : st.Waits ops bound ∨ ops.length ≤ st.global ∧ bound < ops.length ∧
    ∃ status, st.failed = some (bound, status)

/-- The failure an outcome has is that of the first item without a file. -/
def FirstUnfilled (ops : List PathOpenOp) (bound : Nat) (failed : Option (Nat × Status)) : Prop :=
  bound = ops.length ∧ failed = none ∨
    bound < ops.length ∧ ∃ status, failed = some (bound, status)

def OpenvFills (ops : List PathOpenOp) : OpenvState σ ⊕ OpenvState σ × OpenvExit → Prop
  | .inl next => ∃ bound, next.Turn ops bound
  | .inr (last, .returned failed) => ∃ bound, last.FilledTo bound ∧ FirstUnfilled ops bound failed
  | .inr _ => True

theorem openvReply_fills {bound : Nat} (h : st.FilledTo st.global) (hwaits : st.Waits ops st.global)
    (hc : chunk.OneOpenEach st.global ops.length)
    (hopn : chunk.OpensTo ops st.failed st.global bound) (hs : chunk.map.ranges ≠ [])
    (hsh : ReplyShape (sequence :: chunk.compound) res) (budget : Nat) {remote : Remote σ}
    (hmax : remote.client.maxOps = st.remote.client.maxOps)
    (hroom : 1 + openvPerFile ≤ st.remote.client.maxOps) :
    OpenvFills ops (openvReply calls budget chunk res {st with
      remote := remote
      failed := chunk.failed
      maxItems := usizeMax
      confirmed := st.confirmed ++ res.openedAt res.confirms chunk.map.ranges}) := by
  have hpending : ∀ m status, chunk.failed = some (m, status) →
      st.global ≤ m ∧ RejectedOpen ops m ∧ 1 + openvPerFile ≤ remote.client.maxOps := by
    intro m status hfailed
    rcases hopn.ended with ⟨-, hsame⟩ | ⟨-, hrejected, hcut⟩
    · obtain ⟨hge, hrejected, -⟩ := hwaits.pending m status (hsame.symm.trans hfailed)
      exact ⟨hge, hrejected, hmax ▸ hroom⟩
    · obtain ⟨rfl, -⟩ := Prod.mk.inj (Option.some.inj (hcut.symm.trans hfailed))
      exact ⟨hopn.start_le, hrejected, hmax ▸ hroom⟩
  unfold openvReply
  dsimp only
  split
  · rename_i hrt
    have hrej : resourceRejectedBeforeMutation res = true := ((Bool.and_eq_true ..).mp hrt).1
    rw [openedAt_of_rejected hrej, append_nil]
    exact ⟨st.global, ⟨h.filled, h.below, h.slots⟩, Nat.succ_pos _,
      .inl ⟨rfl, hwaits.le, hpending⟩⟩
  split
  · trivial
  · rename_i caller status hfa
    obtain ⟨failing, hm, rfl, hne, hrc⟩ := okOps_of_firstFailedRange_some hc hsh hfa
    have hlt : failing.caller < bound := by
      by_contra hge
      have := hopn.empty failing hm (by omega)
      omega
    have hb : ∀ r ∈ chunk.map.ranges, r.caller < failing.caller → r.stop ≤ res.okOps :=
      fun r hr hr' => Nat.le_trans (hc.stop_le_start hr hm hr') hrc
    have hre := h.record
      (res.openedAt res.isOpen (chunk.map.ranges.filter fun r => r.caller < failing.caller))
      (hc.confirmed hsh fun r hr =>
        ⟨(mem_filter.mp hr).1, hb r (mem_filter.mp hr).1 (of_decide_eq_true (mem_filter.mp hr).2)⟩)
      (fun file hf => by
        obtain ⟨r, hr, i, -, -, rfl⟩ := mem_openedAt.mp (confirmed_before_failure hc hsh hfa hf)
        exact of_decide_eq_true (mem_filter.mp hr).2)
      (hc.between failing hm).1
      (fun j hj hj' => hopn.confirmed hsh (Nat.le_of_lt hlt) hb hj hj')
    split
    · trivial
    · have hinside := Nat.lt_of_lt_of_le (hc.between failing hm).2 hc.global_le
      exact ⟨failing.caller, hre .., .inr ⟨hinside, status, rfl⟩⟩
  rename_i hn
  have ha := okOps_of_firstFailedRange_none hc hsh hn
  have hrc : ∀ r ∈ chunk.map.ranges, r.stop ≤ res.okOps :=
    fun r hr => ha ▸ (chunk.map.bounded r hr).2.2
  have hre := h.record (res.openedAt res.isOpen chunk.map.ranges)
    (hc.confirmed hsh fun r hr => ⟨hr, hrc r hr⟩)
    (fun file hf => by
      obtain ⟨r, hr, i, ho, -, rfl⟩ := mem_openedAt.mp hf
      by_contra hge
      have := hopn.empty r hr (Nat.le_of_not_lt hge)
      have := ho.1
      have := ho.2
      omega)
    hopn.start_le
    (fun j hj hj' => hopn.confirmed hsh (Nat.le_refl _) (fun r hr _ => hrc r hr) hj hj')
  split
  · trivial
  rename_i remote' _ hcleanup
  split
  · rename_i hstill
    -- A chunk with items moves forward.
    exfalso
    obtain ⟨r, hr⟩ := exists_mem_of_ne_nil _ hs
    have hbetween := hc.between r hr
    omega
  refine ⟨bound, hre .., Nat.succ_pos _, ?_⟩
  rcases hopn.ended with ⟨hglobal, hsame⟩ | ⟨hglobal, hrejected, hcut⟩
  · left
    refine ⟨hglobal, hglobal ▸ hc.global_le, ?_⟩
    intro m status hfailed
    obtain ⟨hge, hrejected, hlimit⟩ := hpending m status hfailed
    refine ⟨?_, hrejected, ?_⟩
    · by_contra hlt
      exact hopn.accepted m hge (Nat.lt_of_not_le hlt) hrejected
    · have hkept := calls.cleanup_maxOps remote
        (recordOpens st.opened (res.openedAt res.isOpen chunk.map.ranges))
        ((res.openedAt res.isOpen chunk.map.ranges).map Prod.fst)
      rw [hcleanup] at hkept
      exact hkept ▸ hlimit
  · exact .inr ⟨hglobal.ge, hrejected.lt, .inval, hcut⟩

theorem openvStep_fills {bound : Nat} (hru : st.Running ops) (h : st.Turn ops bound) :
    OpenvFills ops (openvStep wire calls maxArgBytes ops st) := by
  obtain ⟨hf, hw, hturn⟩ := h
  unfold openvStep
  dsimp only
  split
  · rename_i hlt
    have hwaits := hturn.resolve_right fun hover => Nat.not_le_of_lt hlt hover.1
    obtain rfl : st.global = bound := hwaits.global_eq
    have hroom : (st.chunk maxArgBytes ops).map.ranges ≠ [] ↔
        1 + openvPerFile ≤ st.remote.client.maxOps :=
      OpenvState.chunk_ranges_iff hw hlt hru.limit
    split
    · rename_i hem
      refine ⟨_, hf, .inr ⟨hlt, .tooManyOps, ?_⟩⟩
      cases hfailed : st.failed with
      | none => rfl
      | some known =>
        have hr := (hwaits.pending known.1 known.2 hfailed).2.2
        exact absurd (List.isEmpty_iff.mp hem) (hroom.mpr hr)
    rename_i hs
    rw [List.isEmpty_iff] at hs
    split
    · trivial
    · rename_i hneeded
      refine ⟨_, ⟨hf.filled, hf.below, hf.slots⟩, ?_, .inl ⟨rfl, hwaits.le, hwaits.pending⟩⟩
      split at hneeded
      · unfold Client.mergedPathsNeedRepack at hneeded
        split at hneeded
        · rename_i hmany
          dsimp only
          omega
        · cases hneeded
      · cases hneeded
    split
    · trivial
    split
    · trivial
    rename_i remote res hc
    obtain ⟨hfi, sequence, hsh⟩ := hru.call_shape hc
    have hst : ({global := st.global, failed := st.failed} : PathChunk).OneOpenEach
        st.global ops.length :=
      ⟨rfl, .nil, by simp [ExecutionMap.new], Nat.le_of_lt hlt, by simp [ExecutionMap.new]⟩
    have he : ({global := st.global, failed := st.failed} : PathChunk).OpensTo
        ops st.failed st.global st.global :=
      ⟨Nat.le_refl _, (fun j hj hj' => by omega), by simp [ExecutionMap.new],
        (fun j hj hj' => by omega), .inl ⟨rfl, rfl⟩⟩
    have hr : st.global + (ops.drop st.global).length ≤ ops.length := by
      rw [length_drop]
      omega
    obtain ⟨bound, ho⟩ := openvPack_opensTo (fun _ => ⟨hst, he⟩) (Nat.le_refl _) rfl hfi
    have hon := openvPack_oneOpenEach (fun _ => hst) (Nat.le_refl _) hr hfi
    have hmax := (st.remote.callCompound_client wire "openv1"
      (st.chunk maxArgBytes ops).compound).1
    rw [Remote.callMutation_ok wire hc] at hmax
    exact openvReply_fills hf hwaits hon ho hs hsh _ hmax (hroom.mp hs)
  · rename_i hge
    rcases hturn with hwaits | ⟨-, hlt, hfailed⟩
    · have heq : bound = ops.length :=
        Nat.le_antisymm hwaits.le (hwaits.global_eq ▸ Nat.le_of_not_lt hge)
      refine ⟨bound, hf, .inl ⟨heq, ?_⟩⟩
      cases hfailed : st.failed with
      | none => rfl
      | some known =>
        obtain ⟨hle, hrejected, -⟩ := hwaits.pending known.1 known.2 hfailed
        have := hrejected.lt
        omega
    · exact ⟨bound, hf, .inr ⟨hlt, hfailed⟩⟩

theorem OpenvReachable.turn {remote : Remote σ} (hl : remote.client.maxOps < usizeMax)
    (h : OpenvReachable wire calls maxArgBytes ops remote st) : ∃ bound, st.Turn ops bound := by
  induction h with
  | refl =>
    refine ⟨0, ⟨(fun i hi => by omega), by simp [openvStart], ?_⟩, Nat.succ_pos _,
      .inl ⟨rfl, Nat.zero_le _, fun m status hfailed => by cases hfailed⟩⟩
    intro i path hs
    simp [openvStart, getElem?_replicate] at hs
  | @tail st next hr hst ih =>
    obtain ⟨bound, hturn⟩ := ih
    have hf : OpenvFills ops (openvStep wire calls maxArgBytes ops st) :=
      openvStep_fills (OpenvReachable.running hl hr) hturn
    rw [hst] at hf
    exact hf

end Rounds

end Vnfs
