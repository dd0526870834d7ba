import Vnfs.OpenVector
import Vnfs.PathIoPairing
import Vnfs.PathVectorOutcome

/-!
Where the files of `openv_path_compound` end up. As long as the loop goes on, what
the server confirmed is in the slots; an outcome hands the slots over, and the
cleanup closes or puts off all of them. What is confirmed is lost exactly where an
error is handed on directly, and doubled where the batch of CLOSEs fails half way:
it is put off as a whole then.
-/

namespace Vnfs

open List CompoundRes PathChunk

namespace OpenvDone

variable (done : OpenvDone) (file : Nat × OpenedPath)

def Returned : Prop :=
  ∃ outcome, done.result = .ok outcome ∧ outcome.1[file.1]? = some (some file.2)

/-- Every state the server confirmed is in exactly one place. -/
def Kept : Prop := ∀ file ∈ done.confirmed,
  (done.Returned file ∧ file ∉ done.closed ∧ file ∉ done.deferred) ∨
  (¬ done.Returned file ∧ file ∈ done.closed ∧ file ∉ done.deferred) ∨
  (¬ done.Returned file ∧ file ∉ done.closed ∧ file ∈ done.deferred)

end OpenvDone

def OpenvState.Holds {σ : Type} (st : OpenvState σ) : Prop :=
  ∀ file ∈ st.confirmed, st.opened[file.1]? = some (some file.2)

structure OpenvState.Running {σ : Type} (ops : List PathOpenOp) (st : OpenvState σ) : Prop where
  length_eq : st.opened.length = ops.length
  holds : st.Holds
  behind : ∀ file ∈ st.confirmed, file.1 < st.global
  limit : st.remote.client.maxOps < usizeMax

variable {opened : List (Option OpenedPath)} {file : Nat × OpenedPath}

theorem recordOpens_getElem {files : List (Nat × OpenedPath)} {item : Nat} {path : OpenedPath}
    (ho : ∀ file ∈ files, file.1 = item → file.2 = path) (hl : item < opened.length)
    (hs : opened[item]? = some (some path) ∨ ∃ file ∈ files, file.1 = item) :
    (recordOpens opened files)[item]? = some (some path) := by
  induction files generalizing opened with
  | nil =>
    rcases hs with hold | ⟨file, hf, -⟩
    · exact hold
    · cases hf
  | cons first rest ih =>
    change (recordOpens (opened.set first.1 (some first.2)) rest)[item]? = _
    apply ih (fun file hf => ho file (mem_cons_of_mem _ hf)) (by simpa using hl)
    by_cases hfs : first.1 = item
    · left
      rw [hfs, getElem?_set_self hl, ho first (mem_cons_self ..) hfs]
    rw [getElem?_set_ne hfs]
    rcases hs with hold | ⟨file, hf, heq⟩
    · exact .inl hold
    · rcases mem_cons.mp hf with rfl | hr
      · exact absurd heq hfs
      · exact .inr ⟨file, hr, heq⟩

theorem length_recordOpens (opened : List (Option OpenedPath)) (files : List (Nat × OpenedPath)) :
    (recordOpens opened files).length = opened.length := by
  induction files generalizing opened with
  | nil => rfl
  | cons first rest ih =>
    change (recordOpens (opened.set first.1 (some first.2)) rest).length = _
    rw [ih, length_set]

theorem mem_heldOpens : file ∈ heldOpens opened ↔ opened[file.1]? = some (some file.2) := by
  unfold heldOpens
  rw [mem_filterMap]
  constructor
  · rintro ⟨slot, hs, heq⟩
    obtain ⟨path, hp, rfl⟩ := Option.map_eq_some_iff.mp heq
    have hg := mem_zipIdx_iff_getElem?.mp hs
    rw [hg, hp]
  · intro hg
    exact ⟨(some file.2, file.1), mem_zipIdx_iff_getElem?.mpr hg, rfl⟩

theorem CompoundRes.mem_openedAt {res : CompoundRes} {picks : Nat → Bool} {ranges : List OpRange} :
    file ∈ res.openedAt picks ranges ↔
      ∃ r ∈ ranges, ∃ i, r.Owns i ∧ picks i = true ∧ file = (r.caller, res.openedPath i) := by
  unfold openedAt
  simp only [mem_flatMap, mem_map, mem_filter, mem_range'_1, OpRange.Owns]
  constructor
  · rintro ⟨r, hr, i, ⟨⟨hst, hs⟩, hp⟩, rfl⟩
    exact ⟨r, hr, i, ⟨hst, by omega⟩, hp, rfl⟩
  · rintro ⟨r, hr, i, ⟨hst, hs⟩, hp, rfl⟩
    exact ⟨r, hr, i, ⟨⟨hst, by omega⟩, hp⟩, rfl⟩

/-- The compounds: one item after the other, each with one OPEN, before its last
operation. -/
structure PathChunk.OneOpenEach (start count : Nat) (chunk : PathChunk) : Prop where
  next_eq : chunk.map.next = chunk.ops.length + 1
  callers : chunk.map.ranges.Pairwise fun earlier later => earlier.caller < later.caller
  between : ∀ r ∈ chunk.map.ranges, start ≤ r.caller ∧ r.caller < chunk.global
  global_le : chunk.global ≤ count
  opens : ∀ r ∈ chunk.map.ranges, ∀ i item op, r.Owns (i + 1) →
    chunk.ops[i]? = some (item, op) → op.opNum = .openFile → r.stop = i + 3

section Packing

variable {start count : Nat} {chunk : PathChunk} {op : PathOpenOp}

theorem length_le_openvAdd : chunk.ops.length ≤ (openvAdd count chunk op).1.ops.length := by
  unfold openvAdd
  split
  · exact Nat.le_refl _
  · simp

theorem openvAdd_global (h : (openvAdd count chunk op).2 = true) :
    (openvAdd count chunk op).1.global = chunk.global + 1 := by
  unfold openvAdd at h ⊢
  split at h
  · cases h
  · rfl

/-- The operations of an item: a walk, then OPEN and GETFH. -/
theorem opNum_of_walk {ops : List ArgOp} {args : OpenArgs} {k : Nat} {op : ArgOp}
    (hwk : ∀ op ∈ ops, op.walks = true) (hop : (ops ++ [.openFile args, .getfh])[k]? = some op)
    (ho : op.opNum = .openFile) : k = ops.length := by
  rcases Nat.lt_or_ge k ops.length with hlt | hge
  · rw [getElem?_append_left hlt] at hop
    have hw := hwk op (mem_of_getElem? hop)
    cases op <;> simp [ArgOp.walks, ArgOp.opNum] at hw ho
  rw [getElem?_append_right hge] at hop
  cases hk : k - ops.length with
  | zero => omega
  | succ k' =>
    rw [hk] at hop
    cases k' with
    | zero =>
      obtain rfl := Option.some.inj hop
      cases ho
    | succ k'' => cases hop

theorem openItem_map {map : ExecutionMap} {sent count walk : Nat} (caller : Nat)
    (hn : map.next = sent + 1) (hc : count = walk) (hf : sent + (walk + 2) < usizeMax) :
    let item := ((((map.begin caller).noteOps count).noteOps 1).noteOps 1).endItem
    item.next = sent + 1 + (walk + 2) ∧
      item.ranges = map.ranges ++ [⟨caller, map.next, sent + 1 + (walk + 2)⟩] := by
  intro item
  have he : item.next = sent + 1 + (walk + 2) := by
    change ((((map.begin caller).noteOps count).noteOps 1).noteOps 1).next = _
    rw [ExecutionMap.noteOps_noteOps, ExecutionMap.noteOps_noteOps]
    change saturatingAdd map.next (count + 1 + 1) = _
    unfold saturatingAdd
    omega
  refine ⟨he, ?_⟩
  rw [← he]
  exact modifyLast_concat ..

theorem PathChunk.OneOpenEach.add (h : chunk.OneOpenEach start count) (hst : start ≤ chunk.global)
    (hlt : chunk.global < count) (hf : (openvAdd count chunk op).1.ops.length < usizeMax) :
    (openvAdd count chunk op).1.OneOpenEach start count := by
  have hc (last : OpRange) (hl : last.caller = chunk.global) :
      (chunk.map.ranges ++ [last]).Pairwise fun earlier later => earlier.caller < later.caller := by
    refine pairwise_append.mpr ⟨h.callers, pairwise_singleton .., ?_⟩
    intro earlier hear later hla
    rw [mem_singleton.mp hla, hl]
    exact (h.between earlier hear).2
  unfold openvAdd at hf ⊢
  split
  · refine ⟨h.next_eq, hc _ rfl, ?_, Nat.le_refl _, ?_⟩
    · intro r hr
      rcases mem_append.mp hr with hold | hn
      · have := h.between r hold
        exact ⟨this.1, by dsimp only; omega⟩
      · rw [mem_singleton.mp hn]
        exact ⟨hst, hlt⟩
    intro r hr i item op' ho hop hopen
    rcases mem_append.mp hr with hold | hn
    · exact h.opens r hold i item op' ho hop hopen
    rw [mem_singleton.mp hn] at ho
    have := ho.1
    have := ho.2
    dsimp only at *
    omega
  rename_i step hs
  rw [hs] at hf
  have hcn : step.count = step.ops.length := CfhCursor.call_count hs
  have hwk := CfhCursor.setParent_walks hs
  have hle : chunk.ops.length + (step.ops.length + 2) < usizeMax := by
    simpa using hf
  obtain ⟨hne, hrg⟩ := openItem_map chunk.global h.next_eq hcn hle
  refine ⟨?_, ?_, ?_, hlt, ?_⟩
  · dsimp only
    simp
    omega
  · dsimp only
    rw [hrg]
    exact hc _ rfl
  · dsimp only
    rw [hrg]
    intro r hr
    rcases mem_append.mp hr with hold | hn
    · have := h.between r hold
      omega
    · rw [mem_singleton.mp hn]
      exact ⟨hst, Nat.lt_succ_self _⟩
  rw [hrg]
  intro r hr i item op' ho hop hopen
  rcases mem_append.mp hr with hold | hn
  · have hstop := (chunk.map.bounded r hold).2.2
    have hne := h.next_eq
    have := ho.2
    rw [getElem?_append_left (by omega)] at hop
    exact h.opens r hold i item op' ho hop hopen
  rw [mem_singleton.mp hn] at ho ⊢
  have hge : chunk.ops.length ≤ i := by
    have := ho.1
    have := h.next_eq
    dsimp only at *
    omega
  rw [getElem?_append_right hge, getElem?_map] at hop
  obtain ⟨arg, ha, heq⟩ := Option.map_eq_some_iff.mp hop
  obtain ⟨-, rfl⟩ := Prod.mk.inj heq
  have hk := opNum_of_walk hwk ha hopen
  dsimp only
  omega

theorem openvPack_oneOpenEach {maxArgBytes budget maxItems : Nat} {rest : List PathOpenOp}
    (h : chunk.ops.length < usizeMax → chunk.OneOpenEach start count)
    (hst : start ≤ chunk.global) (hr : chunk.global + rest.length ≤ count) :
    (openvPack count maxArgBytes budget maxItems rest chunk).ops.length < usizeMax →
      (openvPack count maxArgBytes budget maxItems rest chunk).OneOpenEach start count := by
  induction rest generalizing chunk with
  | nil => exact h
  | cons op rest ih =>
    rw [length_cons] at hr
    have ha : (openvAdd count chunk op).1.ops.length < usizeMax →
        (openvAdd count chunk op).1.OneOpenEach start count := fun hf =>
      (h (Nat.lt_of_le_of_lt length_le_openvAdd hf)).add hst (by omega) hf
    have hg := @openvAdd_global count chunk op
    unfold openvPack
    split
    · split
      · exact h
      generalize openvAdd count chunk op = next at ha hg
      obtain ⟨next, more⟩ := next
      cases more with
      | false => exact ha
      | true =>
        have hfw : next.global = chunk.global + 1 := hg rfl
        dsimp only at ha ⊢
        split
        · exact ha
        · exact ih ha (by omega) (by omega)
    · exact h

end Packing

section Replies

variable {start count : Nat} {chunk : PathChunk} {sequence : ArgOp} {res : CompoundRes}

namespace PathChunk.OneOpenEach

variable {r r' : OpRange} {i : Nat}

theorem before_or_after (h : chunk.OneOpenEach start count) (hr : r ∈ chunk.map.ranges)
    (hr' : r' ∈ chunk.map.ranges) (hne : r ≠ r') :
    (r.stop ≤ r'.start ∧ r.caller < r'.caller) ∨ (r'.stop ≤ r.start ∧ r'.caller < r.caller) := by
  have hs : Std.Symm fun a b : OpRange =>
      (a.stop ≤ b.start ∧ a.caller < b.caller) ∨ (b.stop ≤ a.start ∧ b.caller < a.caller) :=
    ⟨fun a b hab => hab.symm⟩
  have hp : chunk.map.ranges.Pairwise fun a b =>
      (a.stop ≤ b.start ∧ a.caller < b.caller) ∨ (b.stop ≤ a.start ∧ b.caller < a.caller) :=
    (chunk.map.ordered.and h.callers).imp fun hab => Or.inl hab
  exact hp.forall hr hr' hne

theorem eq_of_caller (h : chunk.OneOpenEach start count) (hr : r ∈ chunk.map.ranges)
    (hr' : r' ∈ chunk.map.ranges) (hc : r.caller = r'.caller) : r = r' := by
  by_contra hne
  have := h.before_or_after hr hr' hne
  omega

theorem caller_lt (h : chunk.OneOpenEach start count) (hr : r ∈ chunk.map.ranges)
    (hr' : r' ∈ chunk.map.ranges) (hs : r'.stop ≤ i) (ho : r.Owns i) : r'.caller < r.caller := by
  have hne : r' ≠ r := by
    rintro rfl
    have := ho.2
    omega
  rcases h.before_or_after hr' hr hne with hb | ha
  · exact hb.2
  · have := (chunk.map.bounded r' hr').2.1
    have := ho.2
    omega

/-- The OPEN of an item stands before its last operation, in the reply as well. -/
theorem stop_of_isOpen (h : chunk.OneOpenEach start count)
    (hsh : ReplyShape (sequence :: chunk.compound) res) (hr : r ∈ chunk.map.ranges)
    (howns : r.Owns i) (ho : res.isOpen i = true) : r.stop = i + 2 := by
  have hp := (chunk.map.bounded r hr).1
  obtain ⟨k, rfl⟩ : ∃ k, i = k + 1 := ⟨i - 1, by have := howns.1; omega⟩
  unfold CompoundRes.isOpen at ho
  cases hro : res.resarray[k + 1]? with
  | none =>
    rw [hro] at ho
    cases ho
  | some ro =>
    rw [hro] at ho
    have hre : ro.resop = .openFile := of_decide_eq_true ho
    have hlt : k + 1 < res.nops := (List.getElem?_eq_some_iff.mp hro).1
    have hl := hsh.nops_le
    rw [length_cons, compound, length_map] at hl
    obtain ⟨⟨item, op⟩, hop⟩ : ∃ entry, chunk.ops[k]? = some entry :=
      ⟨_, getElem?_eq_getElem (by omega)⟩
    have ha : (sequence :: chunk.compound)[k + 1]? = some op := by
      rw [getElem?_cons_succ, compound, getElem?_map, hop]
      rfl
    have hn := hsh.opNum_eq (k + 1) op ro ha hro
    exact h.opens r hr k item op howns hop (hn.symm.trans hre)

theorem openedAt_unique (h : chunk.OneOpenEach start count)
    (hsh : ReplyShape (sequence :: chunk.compound) res) {file file' : Nat × OpenedPath}
    (hf : file ∈ res.openedAt res.isOpen chunk.map.ranges)
    (hf' : file' ∈ res.openedAt res.isOpen chunk.map.ranges) (hi : file.1 = file'.1) :
    file = file' := by
  obtain ⟨r, hr, i, ho, hopen, rfl⟩ := mem_openedAt.mp hf
  obtain ⟨r', hr', i', ho', hopen', rfl⟩ := mem_openedAt.mp hf'
  obtain rfl := h.eq_of_caller hr hr' hi
  have hst := h.stop_of_isOpen hsh hr ho hopen
  have hst' := h.stop_of_isOpen hsh hr' ho' hopen'
  have hs : i = i' := by omega
  rw [hs]

end PathChunk.OneOpenEach

theorem CompoundRes.isOpen_of_confirms {i : Nat} (h : res.confirms i = true) :
    res.isOpen i = true := (of_decide_eq_true h).1

/-- A reply that failed at an item confirms only files of the items before it. -/
theorem confirmed_before_failure (h : chunk.OneOpenEach start count)
    (hsh : ReplyShape (sequence :: chunk.compound) res) {caller : Nat} {status : Status}
    (hfa : firstFailedRange res chunk.map = .ok (some (caller, status)))
    {file : Nat × OpenedPath} (hfi : file ∈ res.openedAt res.confirms chunk.map.ranges) :
    file ∈ res.openedAt res.isOpen (chunk.map.ranges.filter fun r => r.caller < caller) := by
  have hcn : chunk.map.next = (sequence :: chunk.compound).length := by
    rw [h.next_eq, length_cons, compound, length_map]
  obtain ⟨report, hru, hre⟩ := chunk.map.analyze_attributes hsh hcn
  have hfl : ∃ failure, report.failure = some failure ∧ failure.caller = caller := by
    unfold firstFailedRange at hfa
    rw [hru] at hfa
    dsimp only at hfa
    split at hfa
    · cases hfa
    · obtain ⟨failure, hs, heq⟩ := Option.map_eq_some_iff.mp (Except.ok.inj hfa)
      exact ⟨failure, hs, (Prod.mk.inj heq).1⟩
  obtain ⟨failure, hs, rfl⟩ := hfl
  obtain ⟨r, hr, hca, howns, hf, -⟩ := (hre.failure_iff failure).mp hs
  obtain ⟨r', hr', i, howns', hc, rfl⟩ := mem_openedAt.mp hfi
  have ho := isOpen_of_confirms hc
  obtain ⟨-, -, hn, hg⟩ := of_decide_eq_true hc
  have hst := h.stop_of_isOpen hsh hr' howns' ho
  -- The GETFH succeeded, so what failed comes behind the whole item.
  have hb : i + 2 ≤ failure.opIndex := by
    have hl := ((hsh.firstFailure_iff _).mp hf).1
    have hne : i + 1 ≠ failure.opIndex := by
      intro heq
      exact hf.2.1 (heq ▸ hg)
    omega
  have hlt := h.caller_lt hr hr' (hst ▸ hb) howns
  refine mem_openedAt.mpr ⟨r', mem_filter.mpr ⟨hr', ?_⟩, i, howns', ho, rfl⟩
  rw [hca]
  exact decide_eq_true hlt

theorem openedAt_of_rejected (h : resourceRejectedBeforeMutation res = true) :
    res.openedAt res.confirms chunk.map.ranges = [] := by
  have hn := nops_le_two_of_rejected h
  rw [eq_nil_iff_forall_not_mem]
  intro file hf
  obtain ⟨r, hr, i, ho, hc, -⟩ := mem_openedAt.mp hf
  have hlt := (of_decide_eq_true hc).2.2.1
  have hp := (chunk.map.bounded r hr).1
  have := ho.1
  omega

end Replies

section Rounds

variable {σ : Type} {wire : Wire σ} {calls : OpenvCalls σ} {maxArgBytes : Nat}
  {ops : List PathOpenOp} {st : OpenvState σ} {chunk : PathChunk} {sequence : ArgOp}
  {res : CompoundRes}

/-- What a round keeps: the loop goes on, or it is left with the slots in order,
unless an error is handed on. -/
def OpenvKeeps (ops : List PathOpenOp) : OpenvState σ ⊕ OpenvState σ × OpenvExit → Prop
  | .inl next => next.Running ops
  | .inr (last, .returned _) => last.Holds
  | .inr (last, .cleaned _) => last.Holds
  | .inr (_, .handedOn _) => True

/-- Recording the files of a reply, whatever ranges are left out that confirm none. -/
theorem OpenvState.Running.record (h : st.Running ops)
    (hch : chunk.OneOpenEach st.global ops.length)
    (hsh : ReplyShape (sequence :: chunk.compound) res) {done : List OpRange}
    (hd : ∀ r ∈ done, r ∈ chunk.map.ranges)
    (hn : ∀ file ∈ res.openedAt res.confirms chunk.map.ranges,
      file ∈ res.openedAt res.isOpen done) :
    ∀ file ∈ st.confirmed ++ res.openedAt res.confirms chunk.map.ranges,
      (recordOpens st.opened (res.openedAt res.isOpen done))[file.1]? = some (some file.2) := by
  have hs : ∀ file ∈ res.openedAt res.isOpen done,
      file ∈ res.openedAt res.isOpen chunk.map.ranges := by
    intro file hf
    obtain ⟨r, hr, hre⟩ := mem_openedAt.mp hf
    exact mem_openedAt.mpr ⟨r, hd r hr, hre⟩
  have hb : ∀ file ∈ res.openedAt res.isOpen chunk.map.ranges,
      st.global ≤ file.1 ∧ file.1 < ops.length := by
    intro file hf
    obtain ⟨r, hr, i, -, -, rfl⟩ := mem_openedAt.mp hf
    have hc := hch.between r hr
    exact ⟨hc.1, Nat.lt_of_lt_of_le hc.2 hch.global_le⟩
  intro file hf
  rcases mem_append.mp hf with hold | ha
  · apply recordOpens_getElem
    · intro other ho heq
      have := (hb other (hs other ho)).1
      have := h.behind file hold
      omega
    · exact (List.getElem?_eq_some_iff.mp (h.holds file hold)).1
    · exact .inl (h.holds file hold)
  have hin := hn file ha
  apply recordOpens_getElem
  · intro other ho heq
    rw [hch.openedAt_unique hsh (hs other ho) (hs file hin) heq]
  · rw [h.length_eq]
    exact (hb file (hs file hin)).2
  · exact .inr ⟨file, hin, rfl⟩

variable {remote : Remote σ}

theorem openvReply_keeps (h : st.Running ops) (hch : chunk.OneOpenEach st.global ops.length)
    (hsh : ReplyShape (sequence :: chunk.compound) res) (hs : chunk.map.ranges ≠ [])
    (budget : Nat) (hl : remote.client.maxOps < usizeMax) :
    OpenvKeeps ops (openvReply calls budget chunk res {st with
      remote := remote
      failed := chunk.failed
      maxItems := usizeMax
      confirmed := st.confirmed ++ res.openedAt res.confirms chunk.map.ranges}) := by
  unfold openvReply
  dsimp only
  split
  · rename_i hrt
    have hrej : resourceRejectedBeforeMutation res = true := ((Bool.and_eq_true ..).mp hrt).1
    rw [openedAt_of_rejected hrej, append_nil]
    exact ⟨h.length_eq, h.holds, h.behind, hl⟩
  split
  · trivial
  · rename_i caller status hfa
    have hre := h.record hch hsh (fun r hr => (mem_filter.mp hr).1)
      fun file hf => confirmed_before_failure hch hsh hfa hf
    split
    · exact hre
    · exact hre
  have hre := h.record hch hsh (fun r hr => hr) fun file hf => by
    obtain ⟨r, hr, i, ho, hco, rfl⟩ := mem_openedAt.mp hf
    exact mem_openedAt.mpr ⟨r, hr, i, ho, isOpen_of_confirms hco, rfl⟩
  split
  · exact hre
  rename_i remote' _ hc
  split
  · exact hre
  obtain ⟨r, hr⟩ := exists_mem_of_ne_nil _ hs
  have hfw := hch.between r hr
  refine ⟨(length_recordOpens ..).trans h.length_eq, hre, ?_, ?_⟩
  · intro file hf
    rcases mem_append.mp hf with hold | ha
    · have := h.behind file hold
      dsimp only
      omega
    · obtain ⟨r, hr, i, -, -, rfl⟩ := mem_openedAt.mp ha
      exact (hch.between r hr).2
  have hcl := calls.cleanup_maxOps remote
    (recordOpens st.opened (res.openedAt res.isOpen chunk.map.ranges))
    ((res.openedAt res.isOpen chunk.map.ranges).map Prod.fst)
  rw [hc] at hcl
  exact hcl ▸ hl

/-- A compound that was answered fits into a `usize`, and the answer was accepted. -/
theorem OpenvState.Running.call_shape (h : st.Running ops) {res : CompoundRes}
    (hca : st.remote.callMutation wire "openv1" (st.chunk maxArgBytes ops).compound =
      (remote, .ok res)) :
    (st.chunk maxArgBytes ops).ops.length < usizeMax ∧
      ∃ sequence, ReplyShape (sequence :: (st.chunk maxArgBytes ops).compound) res := by
  have hc := Remote.callMutation_ok wire hca
  obtain ⟨request, hp, -, -, hv⟩ := Remote.callCompound_ok wire hc
  have hs := Client.prepareCompound_ok hp
  constructor
  · have he := Client.prepareCompound_ensure hp
    have := h.limit
    unfold saturatingAdd compound at he
    rw [length_map] at he
    omega
  unfold Session.sequenced at hs
  split at hs
  · cases hs
  · obtain rfl := Except.ok.inj hs
    exact ⟨_, validateResponseOps_shape hv⟩

theorem openvStep_keeps (h : st.Running ops) :
    OpenvKeeps ops (openvStep wire calls maxArgBytes ops st) := by
  unfold openvStep
  dsimp only
  split
  · rename_i hg
    split
    · exact h.holds
    rename_i hs
    rw [List.isEmpty_iff] at hs
    split
    · trivial
    · exact ⟨h.length_eq, h.holds, h.behind, h.limit⟩
    split
    · trivial
    split
    · exact h.holds
    rename_i remote res hc
    obtain ⟨hf, sequence, hsh⟩ := h.call_shape hc
    have hch : (st.chunk maxArgBytes ops).OneOpenEach st.global ops.length := by
      refine openvPack_oneOpenEach (fun _ => ?_) (Nat.le_refl _) ?_ hf
      · exact ⟨rfl, .nil, by simp [ExecutionMap.new], Nat.le_of_lt hg, by simp [ExecutionMap.new]⟩
      · rw [length_drop]
        dsimp only
        omega
    have hl : remote.client.maxOps < usizeMax := by
      have hcl := (st.remote.callCompound_client wire "openv1"
        (st.chunk maxArgBytes ops).compound).1
      rw [Remote.callMutation_ok wire hc] at hcl
      exact hcl ▸ h.limit
    exact openvReply_keeps h hch hsh hs _ hl
  · exact h.holds

theorem OpenvReachable.running (hl : remote.client.maxOps < usizeMax)
    (h : OpenvReachable wire calls maxArgBytes ops remote st) : st.Running ops := by
  induction h with
  | refl =>
    exact ⟨length_replicate, by simp [OpenvState.Holds, openvStart], by simp [openvStart], hl⟩
  | @tail st next _ hs ih =>
    have hkp : OpenvKeeps ops (openvStep wire calls maxArgBytes ops st) := openvStep_keeps ih
    rw [hs] at hkp
    exact hkp

/-- The batch of CLOSEs of these slots fails when the server has acknowledged that of a file
it had confirmed: the file is closed and put off. -/
def ClosedTwice (calls : OpenvCalls σ) (remote : Remote σ) (opened : List (Option OpenedPath))
    (confirmed : List (Nat × OpenedPath)) : Prop :=
  ∃ acknowledged, calls.closeMany remote ((heldOpens opened).map Prod.snd) = .error acknowledged ∧
    ∃ file ∈ confirmed, file ∈ (heldOpens opened).take acknowledged

section Conditions

variable (wire calls maxArgBytes ops) (st : OpenvState σ)

namespace OpenvState

/-- There is a compound to send. -/
def Packs : Prop :=
  st.global < ops.length ∧ (st.chunk maxArgBytes ops).map.ranges ≠ []

/-- What `merged_paths_need_repack` says of the next compound, if it is asked. -/
def needsRepack : RpcResult Bool :=
  if (st.chunk maxArgBytes ops).failed.isNone then
    st.remote.client.mergedPathsNeedRepack "openv1" (1 + openvPerFile)
      (st.chunk maxArgBytes ops).compound (st.chunk maxArgBytes ops).map.ranges.length
  else .ok false

def ensures : RpcResult Unit :=
  CompoundBudget.ensure ⟨st.remote.client.maxOps⟩ (st.chunk maxArgBytes ops).compound

/-- The next compound is sent, with this answer. -/
def Sends (remote : Remote σ) (answer : RpcResult CompoundRes) : Prop :=
  st.Packs maxArgBytes ops ∧ st.needsRepack maxArgBytes ops = .ok false ∧
    st.ensures maxArgBytes ops = .ok () ∧
    st.remote.callMutation wire "openv1" (st.chunk maxArgBytes ops).compound = (remote, answer)

/-- The answer is final: no retry with a smaller compound. -/
def Replied (remote : Remote σ) (res : CompoundRes) : Prop :=
  st.Sends wire maxArgBytes ops remote (.ok res) ∧
    remote.client.canRetryMergedResource "openv1" res st.budget pathReserve openvPerFile = false

/-- The files the server has confirmed, with those of this reply. -/
def confirmedBy (res : CompoundRes) : List (Nat × OpenedPath) :=
  st.confirmed ++ res.openedAt res.confirms (st.chunk maxArgBytes ops).map.ranges

/-- Confirmed files are lost: the next compound is refused by `merged_paths_need_repack` or by
`CompoundBudget::ensure`, or `first_failed_range` finds the reply's failure outside every item. -/
def Drops : Prop :=
  (st.Packs maxArgBytes ops ∧ st.confirmed ≠ [] ∧
      ((∃ error, st.needsRepack maxArgBytes ops = .error error) ∨
        st.needsRepack maxArgBytes ops = .ok false ∧
          ∃ error, st.ensures maxArgBytes ops = .error error)) ∨
    ∃ remote res error, st.Replied wire maxArgBytes ops remote res ∧
      firstFailedRange res (st.chunk maxArgBytes ops).map = .error error ∧
      st.confirmedBy maxArgBytes ops res ≠ []

/-- The slots behind a reply, and the items whose exclusive opens are cleaned up. -/
def recorded (res : CompoundRes) (failed : Option (Nat × Status)) :
    List (Option OpenedPath) × List Nat :=
  let ranges := (st.chunk maxArgBytes ops).map.ranges
  match failed with
  | some (caller, _) =>
    let done := ranges.filter fun r => r.caller < caller
    (recordOpens st.opened (res.openedAt res.isOpen done), done.map OpRange.caller)
  | none =>
    let files := res.openedAt res.isOpen ranges
    (recordOpens st.opened files, files.map Prod.fst)

/-- The batch of CLOSEs fails half way: behind a compound without an answer, or behind a reply
whose exclusive opens could not be cleaned up. -/
def ClosesTwice : Prop :=
  (∃ remote error, st.Sends wire maxArgBytes ops remote (.error error) ∧
      ClosedTwice calls remote st.opened st.confirmed) ∨
    ∃ remote res failed after error, st.Replied wire maxArgBytes ops remote res ∧
      firstFailedRange res (st.chunk maxArgBytes ops).map = .ok failed ∧
      calls.cleanup remote (st.recorded maxArgBytes ops res failed).1
        (st.recorded maxArgBytes ops res failed).2 = (after, .error error) ∧
      ClosedTwice calls after (st.recorded maxArgBytes ops res failed).1
        (st.confirmedBy maxArgBytes ops res)

end OpenvState

end Conditions

/-- The way out of the last step, from what it was given. -/
inductive OpenvLeaves (wire : Wire σ) (calls : OpenvCalls σ) (maxArgBytes : Nat)
    (ops : List PathOpenOp) (st : OpenvState σ) : OpenvState σ → OpenvExit → Prop where
  | finished (last : OpenvState σ) (failed : Option (Nat × Status))
      (hends : ¬ st.Packs maxArgBytes ops) : OpenvLeaves wire calls maxArgBytes ops st last
        (.returned failed)
  | unpacked (error : RpcError) (hpacks : st.Packs maxArgBytes ops)
      (hrepack : st.needsRepack maxArgBytes ops = .error error) :
      OpenvLeaves wire calls maxArgBytes ops st st (.handedOn error)
  | overlong (error : RpcError) (hpacks : st.Packs maxArgBytes ops)
      (hrepack : st.needsRepack maxArgBytes ops = .ok false)
      (hensures : st.ensures maxArgBytes ops = .error error) :
      OpenvLeaves wire calls maxArgBytes ops st st (.handedOn error)
  | unanswered (remote : Remote σ) (error : RpcError)
      (hsends : st.Sends wire maxArgBytes ops remote (.error error)) :
      OpenvLeaves wire calls maxArgBytes ops st {st with remote := remote} (.cleaned error)
  | outside (last : OpenvState σ) (remote : Remote σ) (res : CompoundRes) (error : RpcError)
      (hreplied : st.Replied wire maxArgBytes ops remote res)
      (houtside : firstFailedRange res (st.chunk maxArgBytes ops).map = .error error)
      (hconfirmed : last.confirmed = st.confirmedBy maxArgBytes ops res) :
      OpenvLeaves wire calls maxArgBytes ops st last (.handedOn error)
  | uncleaned (last : OpenvState σ) (remote : Remote σ) (res : CompoundRes)
      (failed : Option (Nat × Status)) (error : RpcError)
      (hreplied : st.Replied wire maxArgBytes ops remote res)
      (hfailed : firstFailedRange res (st.chunk maxArgBytes ops).map = .ok failed)
      (hcleanup : calls.cleanup remote (st.recorded maxArgBytes ops res failed).1
        (st.recorded maxArgBytes ops res failed).2 = (last.remote, .error error))
      (hopened : last.opened = (st.recorded maxArgBytes ops res failed).1)
      (hconfirmed : last.confirmed = st.confirmedBy maxArgBytes ops res) :
      OpenvLeaves wire calls maxArgBytes ops st last (.cleaned error)
  | cleaned (last : OpenvState σ) (remote after : Remote σ) (res : CompoundRes)
      (failed failed' : Option (Nat × Status))
      (hreplied : st.Replied wire maxArgBytes ops remote res)
      (hfailed : firstFailedRange res (st.chunk maxArgBytes ops).map = .ok failed)
      (hcleanup : calls.cleanup remote (st.recorded maxArgBytes ops res failed).1
        (st.recorded maxArgBytes ops res failed).2 = (after, .ok ())) :
      OpenvLeaves wire calls maxArgBytes ops st last (.returned failed')

variable {last : OpenvState σ} {exit : OpenvExit}

theorem openvReply_leaves {res : CompoundRes}
    (hsends : st.Sends wire maxArgBytes ops remote (.ok res))
    (hexit : openvReply calls st.budget (st.chunk maxArgBytes ops) res {st with
      remote := remote
      failed := (st.chunk maxArgBytes ops).failed
      maxItems := usizeMax
      confirmed := st.confirmed ++ res.openedAt res.confirms (st.chunk maxArgBytes ops).map.ranges}
        = .inr (last, exit)) : OpenvLeaves wire calls maxArgBytes ops st last exit := by
  unfold openvReply at hexit
  dsimp only at hexit
  split at hexit
  · cases hexit
  rename_i hretry
  have hreplied : st.Replied wire maxArgBytes ops remote res :=
    ⟨hsends, Bool.eq_false_iff.mpr hretry⟩
  split at hexit
  · rename_i error houtside
    cases hexit
    exact .outside _ remote res error hreplied houtside rfl
  · rename_i caller status hfailed
    split at hexit
    · rename_i after error hcleanup
      cases hexit
      exact .uncleaned _ remote res _ error hreplied hfailed hcleanup rfl rfl
    · rename_i after _ hcleanup
      cases hexit
      exact .cleaned _ remote after res _ _ hreplied hfailed hcleanup
  · rename_i hnone
    split at hexit
    · rename_i after error hcleanup
      cases hexit
      exact .uncleaned _ remote res none error hreplied hnone hcleanup rfl rfl
    · rename_i after _ hcleanup
      split at hexit
      · cases hexit
        exact .cleaned _ remote after res none _ hreplied hnone hcleanup
      · cases hexit

theorem openvStep_leaves (hexit : openvStep wire calls maxArgBytes ops st = .inr (last, exit)) :
    OpenvLeaves wire calls maxArgBytes ops st last exit := by
  unfold openvStep at hexit
  dsimp only at hexit
  split at hexit
  · rename_i hmore
    split at hexit
    · rename_i hempty
      cases hexit
      exact .finished _ _ fun hpacks => hpacks.2 (List.isEmpty_iff.mp hempty)
    rename_i hranges
    have hpacks : st.Packs maxArgBytes ops := ⟨hmore, fun hnil => hranges (by rw [hnil]; rfl)⟩
    split at hexit
    · rename_i error hrepack
      cases hexit
      exact .unpacked error hpacks hrepack
    · cases hexit
    rename_i hrepack
    split at hexit
    · rename_i error hensures
      cases hexit
      exact .overlong error hpacks hrepack hensures
    rename_i hensures
    split at hexit
    · rename_i remote error hcall
      cases hexit
      exact .unanswered remote error ⟨hpacks, hrepack, hensures, hcall⟩
    · rename_i remote res hcall
      exact openvReply_leaves ⟨hpacks, hrepack, hensures, hcall⟩ hexit
  · rename_i hmore
    cases hexit
    exact .finished _ _ fun hpacks => hmore hpacks.1

/-- What the last step loses of the confirmed files. -/
def OpenvExit.Drops (last : OpenvState σ) : OpenvExit → Prop
  | .handedOn _ => last.confirmed ≠ []
  | _ => False

/-- What the last step has closed and put off as well. -/
def OpenvExit.ClosesTwice (calls : OpenvCalls σ) (last : OpenvState σ) : OpenvExit → Prop
  | .cleaned _ => ClosedTwice calls last.remote last.opened last.confirmed
  | _ => False

theorem OpenvState.Sends.unique {remote' : Remote σ} {answer answer' : RpcResult CompoundRes}
    (h : st.Sends wire maxArgBytes ops remote answer)
    (h' : st.Sends wire maxArgBytes ops remote' answer') : remote = remote' ∧ answer = answer' :=
  Prod.mk.inj (h.2.2.2.symm.trans h'.2.2.2)

/-- A compound that is sent was not refused before. -/
theorem OpenvState.Sends.not_refused {answer : RpcResult CompoundRes}
    (h : st.Sends wire maxArgBytes ops remote answer) :
    ¬ ((∃ error, st.needsRepack maxArgBytes ops = .error error) ∨
      st.needsRepack maxArgBytes ops = .ok false ∧
        ∃ error, st.ensures maxArgBytes ops = .error error) := by
  rintro (⟨error, hrepack⟩ | ⟨-, error, hensures⟩)
  · rw [h.2.1] at hrepack
    cases hrepack
  · rw [h.2.2.1] at hensures
    cases hensures

theorem OpenvState.Replied.unique {remote' : Remote σ} {res res' : CompoundRes}
    (h : st.Replied wire maxArgBytes ops remote res)
    (h' : st.Replied wire maxArgBytes ops remote' res') : remote = remote' ∧ res = res' := by
  obtain ⟨hremote, hanswer⟩ := h.1.unique h'.1
  exact ⟨hremote, Except.ok.inj hanswer⟩

theorem OpenvLeaves.drops_iff (h : OpenvLeaves wire calls maxArgBytes ops st last exit) :
    exit.Drops last ↔ st.Drops wire maxArgBytes ops := by
  cases h with
  | finished _ failed hends =>
    refine iff_of_false id ?_
    rintro (⟨hpacks, -⟩ | ⟨_, _, _, hreplied, -⟩)
    · exact hends hpacks
    · exact hends hreplied.1.1
  | unpacked error hpacks hrepack =>
    refine ⟨fun hlost => .inl ⟨hpacks, hlost, .inl ⟨error, hrepack⟩⟩, ?_⟩
    rintro (⟨-, hlost, -⟩ | ⟨_, _, _, hreplied, -⟩)
    · exact hlost
    · exact absurd (.inl ⟨error, hrepack⟩) hreplied.1.not_refused
  | overlong error hpacks hrepack hensures =>
    refine ⟨fun hlost => .inl ⟨hpacks, hlost, .inr ⟨hrepack, error, hensures⟩⟩, ?_⟩
    rintro (⟨-, hlost, -⟩ | ⟨_, _, _, hreplied, -⟩)
    · exact hlost
    · exact absurd (.inr ⟨hrepack, error, hensures⟩) hreplied.1.not_refused
  | unanswered remote error hsends =>
    refine iff_of_false id ?_
    rintro (⟨-, -, hrefused⟩ | ⟨_, _, _, hreplied, -⟩)
    · exact hsends.not_refused hrefused
    · cases (hsends.unique hreplied.1).2
  | outside _ remote res error hreplied houtside hconfirmed =>
    rw [OpenvExit.Drops, hconfirmed]
    refine ⟨fun hlost => .inr ⟨remote, res, error, hreplied, houtside, hlost⟩, ?_⟩
    rintro (⟨-, -, hrefused⟩ | ⟨_, _, _, hreplied', -, hlost⟩)
    · exact absurd hrefused hreplied.1.not_refused
    · rwa [(hreplied.unique hreplied').2]
  | uncleaned _ remote res failed error hreplied hfailed =>
    refine iff_of_false id ?_
    rintro (⟨-, -, hrefused⟩ | ⟨_, _, _, hreplied', houtside, -⟩)
    · exact hreplied.1.not_refused hrefused
    · rw [← (hreplied.unique hreplied').2, hfailed] at houtside
      cases houtside
  | cleaned _ remote after res failed _ hreplied hfailed =>
    refine iff_of_false id ?_
    rintro (⟨-, -, hrefused⟩ | ⟨_, _, _, hreplied', houtside, -⟩)
    · exact hreplied.1.not_refused hrefused
    · rw [← (hreplied.unique hreplied').2, hfailed] at houtside
      cases houtside

theorem OpenvLeaves.closesTwice_iff (h : OpenvLeaves wire calls maxArgBytes ops st last exit) :
    exit.ClosesTwice calls last ↔ st.ClosesTwice wire calls maxArgBytes ops := by
  cases h with
  | finished _ failed hends =>
    refine iff_of_false id ?_
    rintro (⟨_, _, hsends, -⟩ | ⟨_, _, _, _, _, hreplied, -⟩)
    · exact hends hsends.1
    · exact hends hreplied.1.1
  | unpacked error hpacks hrepack =>
    refine iff_of_false id ?_
    rintro (⟨_, _, hsends, -⟩ | ⟨_, _, _, _, _, hreplied, -⟩)
    · exact hsends.not_refused (.inl ⟨error, hrepack⟩)
    · exact hreplied.1.not_refused (.inl ⟨error, hrepack⟩)
  | overlong error hpacks hrepack hensures =>
    refine iff_of_false id ?_
    rintro (⟨_, _, hsends, -⟩ | ⟨_, _, _, _, _, hreplied, -⟩)
    · exact hsends.not_refused (.inr ⟨hrepack, error, hensures⟩)
    · exact hreplied.1.not_refused (.inr ⟨hrepack, error, hensures⟩)
  | unanswered remote error hsends =>
    refine ⟨fun htwice => .inl ⟨remote, error, hsends, htwice⟩, ?_⟩
    rintro (⟨_, _, hsends', htwice⟩ | ⟨_, _, _, _, _, hreplied, -⟩)
    · rwa [← (hsends.unique hsends').1] at htwice
    · cases (hsends.unique hreplied.1).2
  | outside _ remote res error hreplied houtside =>
    refine iff_of_false id ?_
    rintro (⟨_, _, hsends, -⟩ | ⟨_, _, _, _, _, hreplied', hfailed, -⟩)
    · cases (hsends.unique hreplied.1).2
    · rw [← (hreplied.unique hreplied').2, houtside] at hfailed
      cases hfailed
  | uncleaned _ remote res failed error hreplied hfailed hcleanup hopened hconfirmed =>
    rw [OpenvExit.ClosesTwice, hopened, hconfirmed]
    refine ⟨fun htwice => .inr
      ⟨remote, res, failed, last.remote, error, hreplied, hfailed, hcleanup, htwice⟩, ?_⟩
    rintro (⟨_, _, hsends, -⟩ | ⟨_, _, _, after, _, hreplied', hfailed', hcleanup', htwice⟩)
    · cases (hsends.unique hreplied.1).2
    · obtain ⟨rfl, rfl⟩ := hreplied.unique hreplied'
      obtain rfl := Except.ok.inj (hfailed.symm.trans hfailed')
      rwa [(Prod.mk.inj (hcleanup.symm.trans hcleanup')).1]
  | cleaned _ remote after res failed _ hreplied hfailed hcleanup =>
    refine iff_of_false id ?_
    rintro (⟨_, _, hsends, -⟩ | ⟨_, _, _, _, _, hreplied', hfailed', hcleanup', -⟩)
    · cases (hsends.unique hreplied.1).2
    · obtain ⟨rfl, rfl⟩ := hreplied.unique hreplied'
      obtain rfl := Except.ok.inj (hfailed.symm.trans hfailed')
      cases (Prod.mk.inj (hcleanup.symm.trans hcleanup')).2

/-- From wherever the loop is left, whatever the server answered: every state it
confirmed is in exactly one place unless an error is handed on while there are
any, or the batch of CLOSEs fails when some of them were acknowledged. Which of these
happens is read off the state before the last step and the replies to it. -/
theorem openvStep_kept_iff {remote : Remote σ} {last : OpenvState σ} {exit : OpenvExit}
    (hlimit : remote.client.maxOps < usizeMax)
    (hreach : OpenvReachable wire calls maxArgBytes ops remote st)
    (hexit : openvStep wire calls maxArgBytes ops st = .inr (last, exit)) :
    (last.leave calls exit).Kept ↔
      ¬ st.Drops wire maxArgBytes ops ∧ ¬ st.ClosesTwice wire calls maxArgBytes ops := by
  rw [← (openvStep_leaves hexit).drops_iff, ← (openvStep_leaves hexit).closesTwice_iff]
  have hkeeps : OpenvKeeps ops (openvStep wire calls maxArgBytes ops st) :=
    openvStep_keeps (hreach.running hlimit)
  rw [hexit] at hkeeps
  cases exit with
  | returned failed =>
    have hkept : (last.leave calls (.returned failed)).Kept := by
      intro file hfile
      exact .inl ⟨⟨_, rfl, hkeeps file hfile⟩, not_mem_nil, not_mem_nil⟩
    simp [hkept, OpenvExit.Drops, OpenvExit.ClosesTwice]
  | handedOn error =>
    simp only [OpenvExit.Drops, OpenvExit.ClosesTwice, not_not, not_false_eq_true, and_true]
    constructor
    · intro hkept
      refine eq_nil_iff_forall_not_mem.mpr fun file hfile => ?_
      rcases hkept file hfile with
        ⟨⟨outcome, hresult, -⟩, -⟩ | ⟨-, hclosed, -⟩ | ⟨-, -, hdeferred⟩
      · cases hresult
      · cases hclosed
      · cases hdeferred
    intro hempty file hfile
    change file ∈ last.confirmed at hfile
    rw [hempty] at hfile
    cases hfile
  | cleaned error =>
    have hheld : ∀ file ∈ last.confirmed, file ∈ heldOpens last.opened :=
      fun file hfile => mem_heldOpens.mpr (hkeeps file hfile)
    simp only [OpenvExit.Drops, OpenvExit.ClosesTwice, not_false_eq_true, true_and]
    unfold OpenvState.leave OpenvDone.Kept OpenvDone.Returned ClosedTwice
    dsimp only
    split
    · rename_i hempty
      have hnone : ∀ file, file ∉ last.confirmed := by
        intro file hfile
        have := hheld file hfile
        rw [List.isEmpty_iff.mp hempty] at this
        cases this
      simp [hnone]
    cases hclose : calls.closeMany last.remote ((heldOpens last.opened).map Prod.snd) with
    | ok _ =>
      refine iff_of_true (fun file hfile => ?_) (by simp)
      exact .inr (.inl ⟨by simp, hheld file hfile, not_mem_nil⟩)
    | error acknowledged =>
      constructor
      · rintro hkept ⟨_, hsame, file, hfile, htaken⟩
        obtain rfl := Except.error.inj hsame
        rcases hkept file hfile with ⟨⟨outcome, hresult, -⟩, -⟩ | ⟨-, -, hnot⟩ | ⟨-, hnot, -⟩
        · cases hresult
        · exact hnot (hheld file hfile)
        · exact hnot htaken
      · intro honce file hfile
        refine .inr (.inr ⟨by simp, fun htaken => ?_, hheld file hfile⟩)
        exact honce ⟨acknowledged, rfl, file, hfile, htaken⟩

end Rounds

/-- A server that answers some compounds and then refuses every SEQUENCE, with
`NFS4ERR_DELAY`. -/
def openingWire : Wire Nat := fun left request =>
  match left with
  | 0 => (0, .ok ⟨10008, [⟨.sequence, 10008, .none, false⟩], false⟩)
  | left + 1 => (left, .ok ⟨Status.ok, request.map fun arg => ⟨arg.opNum, Status.ok,
      match arg.opNum with
      | .openFile => .opened specialStateid
      | .getfh => .handle ⟨[7]⟩
      | _ => .none, false⟩, false⟩)

/-- Cleaning up and closing always succeed. -/
def smoothCalls : OpenvCalls Nat where
  cleanup remote _ _ := (remote, .ok ())
  cleanup_maxOps _ _ _ := rfl
  closeMany _ _ := .ok ()

/-- A new client that may send eight operations at once: one file. -/
def narrowRemote (answers : Nat) : Remote Nat :=
  ⟨⟨Session.fresh, 8, .new 8, fun _ => .ok true⟩, answers⟩

def OpenvExit.isHandedOn : OpenvExit → Bool
  | .handedOn _ => true
  | .returned _ | .cleaned _ => false

/-- What is returned, if the call returns. -/
def OpenvExit.outcome : OpenvExit → Option (Option (Nat × Status))
  | .returned failed => some failed
  | .handedOn _ | .cleaned _ => none

/-- A call that ends with its second step, found by evaluating both. -/
theorem openvStep_second {σ : Type} (wire : Wire σ) (calls : OpenvCalls σ) (maxArgBytes : Nat)
    (ops : List PathOpenOp) (remote : Remote σ) (ends : OpenvState σ × OpenvExit → Bool)
    (h : ((openvStep wire calls maxArgBytes ops (openvStart ops remote)).elim
      (fun st => (openvStep wire calls maxArgBytes ops st).elim (fun _ => false) ends)
      fun _ => false) = true) :
    ∃ st last exit, OpenvReachable wire calls maxArgBytes ops remote st ∧
      openvStep wire calls maxArgBytes ops st = .inr (last, exit) ∧ ends (last, exit) = true := by
  cases hfirst : openvStep wire calls maxArgBytes ops (openvStart ops remote) with
  | inr out =>
    rw [hfirst] at h
    cases h
  | inl st =>
    rw [hfirst, Sum.elim_inl] at h
    cases hsecond : openvStep wire calls maxArgBytes ops st with
    | inl st' =>
      rw [hsecond] at h
      cases h
    | inr out =>
      rw [hsecond, Sum.elim_inr] at h
      exact ⟨st, out.1, out.2, .single hfirst, hsecond, h⟩

/-- The file of the first compound is open when the SEQUENCE of the second one is
refused: the error is handed on, and the open file is nowhere. -/
theorem openvStep_drops_confirmed :
    let ops : List PathOpenOp := [⟨[97], 1, .noCreate, none, false, [1]⟩,
      ⟨[98], 1, .noCreate, none, false, [2]⟩]
    ∃ st last error, OpenvReachable openingWire smoothCalls 4096 ops (narrowRemote 1) st ∧
      openvStep openingWire smoothCalls 4096 ops st = .inr (last, .handedOn error) ∧
      ¬ (last.leave smoothCalls (.handedOn error)).Kept := by
  intro ops
  obtain ⟨st, last, exit, hreach, hstep, hends⟩ := openvStep_second openingWire smoothCalls 4096
    ops (narrowRemote 1) (fun out => out.2.isHandedOn &&
      decide (out.1.confirmed = [(0, ⟨[7]⟩, specialStateid)])) (by decide +kernel)
  rw [Bool.and_eq_true, decide_eq_true_eq] at hends
  cases exit with
  | returned failed => exact absurd hends.1 Bool.false_ne_true
  | cleaned error => exact absurd hends.1 Bool.false_ne_true
  | handedOn error =>
    refine ⟨st, last, error, hreach, hstep, fun hkept => ?_⟩
    have hfile : ((0, ⟨[7]⟩, specialStateid) : Nat × OpenedPath) ∈ last.confirmed := by
      rw [hends.2]
      exact mem_singleton.mpr rfl
    rcases hkept _ hfile with ⟨⟨outcome, hresult, -⟩, -⟩ | ⟨-, hclosed, -⟩ | ⟨-, -, hdeferred⟩
    · cases hresult
    · cases hclosed
    · cases hdeferred

/-- One file, opened and returned. -/
theorem openvStep_kept_returned :
    let ops : List PathOpenOp := [⟨[97], 1, .noCreate, none, false, [1]⟩]
    ∃ st last failed, OpenvReachable openingWire smoothCalls 4096 ops (narrowRemote 1) st ∧
      openvStep openingWire smoothCalls 4096 ops st = .inr (last, .returned failed) ∧
      last.confirmed ≠ [] ∧ (last.leave smoothCalls (.returned failed)).Kept := by
  intro ops
  obtain ⟨st, last, exit, hreach, hstep, hends⟩ := openvStep_second openingWire smoothCalls 4096
    ops (narrowRemote 1) (fun out => out.2.outcome.isSome &&
      decide (out.1.confirmed = [(0, ⟨[7]⟩, specialStateid)])) (by decide +kernel)
  rw [Bool.and_eq_true, decide_eq_true_eq] at hends
  cases exit with
  | handedOn error => exact absurd hends.1 Bool.false_ne_true
  | cleaned error => exact absurd hends.1 Bool.false_ne_true
  | returned failed =>
    have hlimit : (narrowRemote 1).client.maxOps < usizeMax := by decide
    refine ⟨st, last, failed, hreach, hstep, ?_, ?_⟩
    · rw [hends.2]
      exact cons_ne_nil _ _
    · apply (openvStep_kept_iff hlimit hreach hstep).mpr
      have hleaves := openvStep_leaves hstep
      exact ⟨hleaves.drops_iff.mpr, hleaves.closesTwice_iff.mpr⟩

end Vnfs
