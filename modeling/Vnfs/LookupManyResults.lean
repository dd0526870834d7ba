import Vnfs.LookupMany

/-!
What the LOOKUP loops return. Every place of the result is filled once, by the
compound in which the item's own operations ran to their end or in which one of
them failed for good; a failing item leaves those behind it to the next compound.
-/

namespace Vnfs

open List BatchShape BatchState

section Chunks

variable {T : Type} {shape : BatchShape T} {ops : List T} {sent : SentCompound}
  {start count : Nat} {res : CompoundRes} {report : ExecutionReport}

/-- What the report on a chunk says about its items: the first ones completed, the
next one may have failed. -/
structure ChunkReport (shape : BatchShape T) (start count : Nat) (res : CompoundRes)
    (report : ExecutionReport) : Prop where
  completed_le : report.completed.length ≤ count
  succeeded_iff : ∀ i < count,
    (i < report.completed.length ↔ res.Succeeded (shape.slots start i))
  failure : ∀ f, report.failure = some f → report.completed.length < count ∧
    f.caller = start + report.completed.length ∧
    (shape.slots start report.completed.length).Owns f.opIndex ∧
    res.FirstFailure f.opIndex ∧ f.status = res.opStatus f.opIndex
  failed : ∀ i < count, ∀ op, (shape.slots start i).Owns op → res.FirstFailure op →
    i = report.completed.length ∧ ∃ f, report.failure = some f ∧ f.status = res.opStatus op
  finished : report.failure = none → report.compoundFailure = none →
    report.completed.length = count
  compound : ∀ status, report.compoundFailure = some status →
    res.nops ≤ 1 ∧ status = res.status ∧ status ≠ Status.ok

theorem getElem?_slots {start count i : Nat} (hi : i < count) :
    ((List.range count).map (shape.slots start))[i]? = some (shape.slots start i) := by
  simp [hi]

variable (shape start) in
theorem chunkMap_report {request : List ArgOp} (hsh : ReplyShape request res)
    (hlen : request.length = shape.perOp * count + 1) (hsm : shape.perOp * count < usizeMax) :
    ∃ report, (chunkMap shape.perOp start count).analyze res = .ok report ∧
      ChunkReport shape start count res report := by
  obtain ⟨hrg, hnext⟩ := chunkMap_slots shape start count hsm
  obtain ⟨report, hreport, ha⟩ := (chunkMap shape.perOp start count).analyze_attributes
    hsh (hnext.trans hlen.symm)
  refine ⟨report, hreport, ?_⟩
  have hp := ha.partition
  rw [hrg, map_map] at hp
  have hca (i : Nat) (hi : i < count) :
      (report.completed ++ report.failure.toList.map ItemFailure.caller ++
        report.unexecuted)[i]? = some (start + i) := by
    rw [hp]
    simp [hi, slots]
  have hcn := congrArg List.length hp
  simp only [length_append, length_map, length_range] at hcn
  have hsu (i : Nat) (hi : i < count) :
      i < report.completed.length ↔ res.Succeeded (shape.slots start i) :=
    ha.completed_iff i _ (hrg ▸ getElem?_slots hi) (slots_nonempty shape start i)
  have hfl (f : ItemFailure) (hf : report.failure = some f) :
      report.completed.length < count ∧ f.caller = start + report.completed.length := by
    rw [hf, Option.toList_some, length_singleton] at hcn
    have hlt : report.completed.length < count := by omega
    have hc := hca _ hlt
    rw [hf, append_assoc, getElem?_append_right (Nat.le_refl _)] at hc
    exact ⟨hlt, by simpa using hc⟩
  have hown {r : OpRange} (hr : r ∈ (chunkMap shape.perOp start count).ranges) :
      ∃ i < count, r = shape.slots start i := by
    rw [hrg] at hr
    obtain ⟨i, hi, rfl⟩ := mem_map.mp hr
    exact ⟨i, mem_range.mp hi, rfl⟩
  have hsl {i : Nat} (hi : i < count) :
      shape.slots start i ∈ (chunkMap shape.perOp start count).ranges := by
    rw [hrg]
    exact mem_map_of_mem (mem_range.mpr hi)
  refine ⟨by omega, hsu, fun f hf => ?_, fun i hi op ho hfs => ?_,
    fun hn hco => ?_, fun status hs => ?_⟩
  · obtain ⟨hlt, hc⟩ := hfl f hf
    obtain ⟨r, hr, hna, ho, hfs, hs⟩ := (ha.failure_iff f).mp hf
    obtain ⟨i, -, rfl⟩ := hown hr
    obtain rfl : i = report.completed.length := by
      dsimp only [slots] at hna
      omega
    exact ⟨hlt, hc, ho, hfs, hs⟩
  · have hf := (ha.failure_iff ⟨start + i, op, res.opStatus op⟩).mpr ⟨_, hsl hi, rfl, ho, hfs, rfl⟩
    have hc := (hfl _ hf).2
    dsimp only at hc
    exact ⟨by omega, _, hf, rfl⟩
  · -- no operation failed, so all of them were returned
    have hg := mt ha.compoundFailure_iff.mpr (not_not.mpr hco)
    rw [not_or] at hg
    have hs : res.status = Status.ok := by
      by_contra hb
      have hfs : res.FirstFailure (res.nops - 1) := (hsh.firstFailure_iff _).mpr ⟨by omega, hb⟩
      refine hg.2 ⟨_, hfs, fun r hr ho => ?_⟩
      have hf := (ha.failure_iff ⟨r.caller, _, res.opStatus (res.nops - 1)⟩).mpr
        ⟨r, hr, rfl, ho, hfs, rfl⟩
      rw [hn] at hf
      cases hf
    have hno := hsh.nops_of_ok hs
    by_contra hne
    have hlt : report.completed.length < count := by omega
    refine Nat.lt_irrefl _ ((hsu _ hlt).mpr fun op ho => ?_)
    have hst := ho.2
    have hmu : shape.perOp * (report.completed.length + 1) ≤ shape.perOp * count :=
      Nat.mul_le_mul_left _ hlt
    dsimp only [slots] at hst
    have hop : op < res.nops := by omega
    refine ⟨hop, ?_⟩
    by_contra hb
    rcases Nat.lt_or_eq_of_le (Nat.succ_le_of_lt hop) with he | hl
    · exact hb (hsh.ok_before_last op he)
    · exact hb ((hsh.last_status op hl).trans hs)
  obtain ⟨hv, hb⟩ := ha.compoundFailure_status status hs
  refine ⟨?_, hv, hb⟩
  rcases ha.compoundFailure_iff.mp (by simp [hs]) with hz | ⟨op, hfs, hn⟩
  · omega
  -- every operation behind SEQUENCE belongs to an item
  have hen := ((hsh.firstFailure_iff op).mp hfs).1
  have hle := hsh.nops_le
  by_contra hm
  obtain ⟨hi, ho⟩ := owns_slot shape start count op (by omega) (by omega)
  exact hn _ (hsl hi) ho

end Chunks

section

variable {R : Type} (shape : LookupShape R) (ops : List (NfsFh × Bytes))

/-- What the reply slots of item `i` of a chunk of `len` items say. A refusal of
the compound's size is no outcome of the item unless it was alone. -/
def SlotOutcome (res : CompoundRes) (start len i : Nat) : Except Status R → Prop
  | .ok value => res.Succeeded (shape.slots start i) ∧
      value = shape.decode res (shape.slots start i).start
  | .error status => ¬ (sizeRejected status = true ∧ len > 1) ∧
      ∃ op, (shape.slots start i).Owns op ∧ res.FirstFailure op ∧ status = res.opStatus op

/-- The outcome of item `k` follows from its own slots in the reply to this
compound. -/
def LookupSettles (sent : SentCompound) (k : Nat) (outcome : Except Status R) : Prop :=
  ∃ start chunk res i, AnsweredChunk shape.toBatchShape ops sent start chunk res ∧
    i < chunk.length ∧ k = start + i ∧ SlotOutcome shape res start chunk.length i outcome

/-- No item has its outcome from two compounds. -/
def SettledOnce (log : List SentCompound) : Prop :=
  log.Pairwise fun earlier later => ∀ k outcome outcome',
    LookupSettles shape ops earlier k outcome → ¬ LookupSettles shape ops later k outcome'

/-- Every item in front of `start` has its outcome. -/
def SettledBefore (log : List SentCompound) (start : Nat) : Prop :=
  ∀ k < start, ∃ sent ∈ log, ∃ outcome, LookupSettles shape ops sent k outcome

/-- How the call as a whole can fail: the last compound failed before any item, and not
for its size if it carried several; the last exchange has no accepted reply; or the
next compound does not leave the client. That is one item that is too long, a chunk that
cannot be encoded, no room for an item, or a session poisoned before the call. -/
inductive LookupFailed (client : Client) (log : List SentCompound) (error : RpcError) : Prop where
  | compound (sent : SentCompound) (start : Nat) (chunk : List (NfsFh × Bytes))
      (res : CompoundRes) (hlast : log.getLast? = some sent)
      (hanswered : AnsweredChunk shape.toBatchShape ops sent start chunk res)
      (hnops : res.nops ≤ 1) (hfailed : res.status ≠ Status.ok)
      (hsize : ¬ (sizeRejected res.status = true ∧ chunk.length > 1))
      (herror : error = .op start res.status) (hbefore : SettledBefore shape ops log start)
  | unanswered (sent : SentCompound) (hlast : log.getLast? = some sent)
      (hcalled : sent.called = .error error)
  | tooManyOps (hroom : client.maxOps < 1 + shape.perOp) (hunsent : log = [])
      (herror : error = .op 0 Status.tooManyOps)
  | poisoned (hpoisoned : client.session.poisoned = true) (hunsent : log = [])
      (herror : error = .transport Session.poisonedMessage)
  | unencodable (start count : Nat) (hlt : start < ops.length) (hcount : 0 < count)
      (hbefore : SettledBefore shape ops log start)
      (hfits : client.requestFits ((shape.tagOps start
        ((ops.drop start).take count)).map Prod.snd) = .error error)
  | tooBig (k : Nat) (item : NfsFh × Bytes) (hitem : ops[k]? = some item)
      (hbefore : SettledBefore shape ops log k)
      (hfits : client.requestFits (shape.add item k) = .ok false)
      (herror : error = .op 0 Status.reqTooBig)

structure LookupResults (client : Client) (done : BatchDone (Except Status R)) : Prop where
  collected : ∀ out, done.result = .ok out → out.length = ops.length ∧
    (∀ k outcome, out[k]? = some outcome ↔
      ∃ sent ∈ done.log, LookupSettles shape ops sent k outcome) ∧
    SettledOnce shape ops done.log
  failed : ∀ error, done.result = .error error → LookupFailed shape ops client done.log error

/-- The invariant: the places in front of the cursor are filled, each by the one
compound that settled it, and no others. -/
structure LookupGathered (client : Client) (st : BatchState (Outcomes R)) : Prop where
  length_eq : st.out.length = ops.length
  global_le : st.global ≤ ops.length
  filled : ∀ k < st.global, ∃ outcome, st.out[k]? = some (some outcome)
  empty : ∀ k, st.global ≤ k → ∀ outcome, st.out[k]? ≠ some (some outcome)
  settled_iff : ∀ k outcome, st.out[k]? = some (some outcome) ↔
    ∃ sent ∈ st.log, LookupSettles shape ops sent k outcome
  once : SettledOnce shape ops st.log
  maxOps_eq : st.client.maxOps = client.maxOps
  fits_eq : st.client.requestFits = client.requestFits
  poisoned : st.client.session.poisoned = true →
    client.session.poisoned = true ∧ st.log = []
  room : st.log ≠ [] → 1 + shape.perOp ≤ client.maxOps

end

section

variable {R : Type} {shape : LookupShape R} {ops : List (NfsFh × Bytes)} {client : Client}
  {st st₁ : BatchState (Outcomes R)} {net : Network} {sent : SentCompound} {res : CompoundRes}

/-- What holds of a state behind one more compound, whose items from the cursor on
fill the places up to a new cursor. -/
theorem LookupGathered.extend (h : LookupGathered shape ops client st)
    {next : BatchState (Outcomes R)} (hl : next.log = st.log ++ [sent])
    (hma : next.client.maxOps = client.maxOps)
    (hf : next.client.requestFits = client.requestFits)
    (husable : next.client.session.poisoned = false)
    (hroom : 1 + shape.perOp ≤ client.maxOps) (hlen : next.out.length = ops.length)
    (hfw : st.global ≤ next.global) (hle : next.global ≤ ops.length)
    (hfi : ∀ k, st.global ≤ k → k < next.global → ∃ o, next.out[k]? = some (some o))
    (hot : ∀ k, k < st.global ∨ next.global ≤ k → next.out[k]? = st.out[k]?)
    (hse : ∀ k o, LookupSettles shape ops sent k o ↔
      st.global ≤ k ∧ k < next.global ∧ next.out[k]? = some (some o)) :
    LookupGathered shape ops client next := by
  have hear {k : Nat} {o : Except Status R} {earlier : SentCompound}
      (hm : earlier ∈ st.log) (hs : LookupSettles shape ops earlier k o) :
      k < st.global := by
    by_contra hge
    exact h.empty k (Nat.le_of_not_lt hge) o ((h.settled_iff k o).mpr ⟨earlier, hm, hs⟩)
  refine ⟨hlen, hle, fun k hk => ?_, fun k hk o => ?_, fun k o => ?_, ?_, hma, hf,
    fun hpoisoned => ?_, fun _ => hroom⟩
  · by_cases hold : k < st.global
    · rw [hot k (.inl hold)]
      exact h.filled k hold
    · exact hfi k (Nat.le_of_not_lt hold) hk
  · rw [hot k (.inr hk)]
    exact h.empty k (Nat.le_trans hfw hk) o
  · rw [hl]
    constructor
    · intro ho
      by_cases hn : st.global ≤ k ∧ k < next.global
      · exact ⟨sent, by simp, (hse k o).mpr ⟨hn.1, hn.2, ho⟩⟩
      · rw [hot k (by omega)] at ho
        obtain ⟨earlier, hm, hs⟩ := (h.settled_iff k o).mp ho
        exact ⟨earlier, mem_append_left _ hm, hs⟩
    rintro ⟨settler, hm, hs⟩
    rcases mem_append.mp hm with hold | hn
    · rw [hot k (.inl (hear hold hs))]
      exact (h.settled_iff k o).mpr ⟨settler, hold, hs⟩
    · obtain rfl := mem_singleton.mp hn
      exact ((hse k o).mp hs).2.2
  · rw [hl, SettledOnce, pairwise_append]
    refine ⟨h.once, pairwise_singleton .., ?_⟩
    intro earlier hold later hn k o o' hs ha
    obtain rfl := mem_singleton.mp hn
    have hlt := hear hold hs
    have hge := ((hse k o').mp ha).1
    omega
  · rw [husable] at hpoisoned
    cases hpoisoned

theorem LookupGathered.settledBefore (h : LookupGathered shape ops client st) :
    SettledBefore shape ops st.log st.global := by
  intro k hk
  obtain ⟨outcome, ho⟩ := h.filled k hk
  obtain ⟨sent, hsent, hsettles⟩ := (h.settled_iff k outcome).mp ho
  exact ⟨sent, hsent, outcome, hsettles⟩

theorem getElem?_foldl_set {α : Type} (f : Nat → α) (out : List α) (start d k : Nat) :
    ((List.range d).foldl (fun out i => out.set (start + i) (f i)) out)[k]? =
      if start ≤ k ∧ k < start + d ∧ k < out.length then some (f (k - start)) else out[k]? := by
  have hl (d : Nat) : ((List.range d).foldl
      (fun out i => out.set (start + i) (f i)) out).length = out.length := by
    induction d with
    | zero => rfl
    | succ d ih => simp [range_succ, ih]
  induction d with
  | zero =>
    rw [if_neg (by omega)]
    rfl
  | succ d ih =>
    rw [range_succ, foldl_append, foldl_cons, foldl_nil, getElem?_set, ih, hl]
    by_cases hk : start + d = k
    · subst hk
      simp only [if_true, Nat.add_sub_cancel_left]
      split
      · rw [if_pos (by omega)]
      · rw [if_neg (by omega), getElem?_eq_none (by omega)]
    rw [if_neg hk]
    by_cases hn : start ≤ k ∧ k < start + d ∧ k < out.length
    · rw [if_pos hn, if_pos (by omega)]
    · rw [if_neg hn, if_neg (by omega)]

theorem slotOutcome_iff {start count i : Nat} {report : ExecutionReport}
    (hreport : ChunkReport shape.toBatchShape start count res report) (hi : i < count)
    (o : Except Status R) :
    SlotOutcome shape res start count i o ↔
      i < report.completed.length ∧ o = .ok (shape.decode res (1 + shape.perOp * i)) ∨
      i = report.completed.length ∧ ∃ f, report.failure = some f ∧ o = .error f.status ∧
        ¬ (sizeRejected f.status = true ∧ count > 1) := by
  cases o with
  | ok value =>
    have hif := hreport.succeeded_iff i hi
    simp only [SlotOutcome, Except.ok.injEq, reduceCtorEq, false_and, and_false,
      exists_false, or_false]
    rw [hif]
    rfl
  | error status =>
    simp only [SlotOutcome, reduceCtorEq, and_false, false_or, Except.error.injEq]
    constructor
    · rintro ⟨hk, op, ho, hfs, rfl⟩
      obtain ⟨hl, f, hf, hs⟩ := hreport.failed i hi op ho hfs
      exact ⟨hl, f, hf, hs.symm, hs ▸ hk⟩
    · rintro ⟨rfl, f, hf, rfl, hk⟩
      obtain ⟨-, -, ho, hfs, hs⟩ := hreport.failure f hf
      exact ⟨hk, f.opIndex, ho, hfs, hs⟩

/-- The state in which the loop looks at the reply to a chunk. -/
private structure LookupReplied (shape : LookupShape R) (ops : List (NfsFh × Bytes))
    (client : Client) (st st₁ : BatchState (Outcomes R)) (chunk : List (NfsFh × Bytes))
    (res : CompoundRes) (sent : SentCompound) : Prop where
  gathered : LookupGathered shape ops client st
  out_eq : st₁.out = st.out
  global_eq : st₁.global = st.global
  log_eq : st₁.log = st.log ++ [sent]
  maxOps_eq : st₁.client.maxOps = client.maxOps
  fits_eq : st₁.client.requestFits = client.requestFits
  usable : st₁.client.session.poisoned = false
  room : 1 + shape.perOp ≤ client.maxOps
  answered : AnsweredChunk shape.toBatchShape ops sent st.global chunk res
  chunk_pos : 0 < chunk.length
  chunk_le : st.global + chunk.length ≤ ops.length

namespace LookupReplied

variable {chunk : List (NfsFh × Bytes)} {res : CompoundRes} {sent : SentCompound}
  {report : ExecutionReport} (h : LookupReplied shape ops client st st₁ chunk res sent)
  (hreport : ChunkReport shape.toBatchShape st.global chunk.length res report)
include h

theorem settles_iff (k : Nat) (o : Except Status R) :
    LookupSettles shape ops sent k o ↔ ∃ i < chunk.length, k = st.global + i ∧
      SlotOutcome shape res st.global chunk.length i o := by
  constructor
  · rintro ⟨start, chunk', res', i, ha, hi, rfl, ho⟩
    obtain ⟨rfl, hl, rfl⟩ := h.answered.unique ha h.chunk_pos
    rw [hl] at hi ho
    exact ⟨i, hi, rfl, ho⟩
  · rintro ⟨i, hi, rfl, ho⟩
    exact ⟨st.global, chunk, res, i, h.answered, hi, rfl, ho⟩

variable (report) in
theorem length_completed :
    (((chunkMap shape.perOp st₁.global chunk.length).completedRanges report).foldl
      (fun out r => out.set r.caller (some (.ok (shape.decode res r.start)))) st₁.out).length =
      ops.length := by
  have hl (ranges : List OpRange) (out : List (Outcomes R)) : (ranges.foldl
      (fun out r => out.set r.caller (some (.ok (shape.decode res r.start)))) out).length =
        out.length := by
    induction ranges generalizing out with
    | nil => rfl
    | cons r ranges ih => simp [ih]
  rw [hl, h.out_eq, h.gathered.length_eq]

theorem unsettled (hn : res.nops ≤ 1) : LookupGathered shape ops client st₁ := by
  have hg := h.global_eq
  refine h.gathered.extend h.log_eq h.maxOps_eq h.fits_eq h.usable h.room
    (by rw [h.out_eq]; exact h.gathered.length_eq) (Nat.le_of_eq hg.symm)
    (by rw [hg]; exact h.gathered.global_le) (fun k hge hlt => ?_)
    (fun k _ => by rw [h.out_eq]) (fun k o => ?_)
  · omega
  rw [h.settles_iff]
  constructor
  · rintro ⟨i, -, -, ho⟩
    cases o with
    | ok value =>
      have hf := (ho.1 (1 + shape.perOp * i)
        ⟨Nat.le_refl _, slots_nonempty shape.toBatchShape st.global i⟩).1
      omega
    | error status =>
      obtain ⟨-, op, howns, hf, -⟩ := ho
      have hst := howns.1
      have hlt := hf.1
      dsimp only [slots] at hst
      omega
  · rintro ⟨hge, hlt, -⟩
    omega

include hreport

/-- The places of the completed items, and no others, get their results. -/
theorem out_completed (hsm : shape.perOp * chunk.length < usizeMax) (k : Nat) :
    (((chunkMap shape.perOp st₁.global chunk.length).completedRanges report).foldl
      (fun out r => out.set r.caller (some (.ok (shape.decode res r.start)))) st₁.out)[k]? =
      if st.global ≤ k ∧ k < st.global + report.completed.length then
        some (some (.ok (shape.decode res (1 + shape.perOp * (k - st.global)))))
      else st.out[k]? := by
  have hd := hreport.completed_le
  have hle := h.chunk_le
  have hl := h.gathered.length_eq
  rw [h.out_eq, h.global_eq, ExecutionMap.completedRanges,
    (chunkMap_slots shape.toBatchShape st.global chunk.length hsm).1, ← map_take,
    take_range, Nat.min_eq_left hd, foldl_map]
  refine (getElem?_foldl_set (fun i => some (.ok (shape.decode res (1 + shape.perOp * i)))) st.out
    st.global report.completed.length k).trans ?_
  by_cases hk : st.global ≤ k ∧ k < st.global + report.completed.length
  · rw [if_pos hk, if_pos (by omega)]
  · rw [if_neg hk, if_neg (by omega)]

/-- The items that completed, and the one that failed for good, are settled. -/
theorem settles_report_iff (k : Nat) (o : Except Status R) : LookupSettles shape ops sent k o ↔
      (st.global ≤ k ∧ k < st.global + report.completed.length ∧
        o = .ok (shape.decode res (1 + shape.perOp * (k - st.global)))) ∨
      k = st.global + report.completed.length ∧ ∃ f, report.failure = some f ∧
        o = .error f.status ∧ ¬ (sizeRejected f.status = true ∧ chunk.length > 1) := by
  have hd := hreport.completed_le
  rw [h.settles_iff]
  constructor
  · rintro ⟨i, hi, rfl, ho⟩
    rcases (slotOutcome_iff hreport hi o).mp ho with ⟨hlt, rfl⟩ | ⟨rfl, hfa⟩
    · exact .inl ⟨by omega, by omega, by rw [Nat.add_sub_cancel_left]⟩
    · exact .inr ⟨rfl, hfa⟩
  rintro (⟨hge, hlt, rfl⟩ | ⟨rfl, f, hf, rfl, hk⟩)
  · refine ⟨k - st.global, by omega, by omega, (slotOutcome_iff hreport (by omega) _).mpr ?_⟩
    exact .inl ⟨by omega, rfl⟩
  · have hlt := (hreport.failure f hf).1
    exact ⟨_, hlt, rfl, (slotOutcome_iff hreport hlt _).mpr (.inr ⟨rfl, f, hf, rfl, hk⟩)⟩

/-- The items in front of the failing one are collected, if it is to be tried again. -/
theorem retry_or_end (hsm : shape.perOp * chunk.length < usizeMax)
    (hopen : ∀ f, report.failure = some f → sizeRejected f.status = true ∧ chunk.length > 1) :
    LookupGathered shape ops client {st₁ with
      out := ((chunkMap shape.perOp st₁.global chunk.length).completedRanges report).foldl
        (fun out r => out.set r.caller (some (.ok (shape.decode res r.start)))) st₁.out
      global := st.global + report.completed.length} := by
  have hd := hreport.completed_le
  have hle := h.chunk_le
  refine h.gathered.extend h.log_eq h.maxOps_eq h.fits_eq h.usable h.room
    (h.length_completed report) (Nat.le_add_right ..) (by dsimp only; omega)
    (fun k hge hlt => ?_) (fun k hk => ?_) (fun k o => ?_)
  · exact ⟨_, (h.out_completed hreport hsm k).trans (if_pos ⟨hge, hlt⟩)⟩
  · exact (h.out_completed hreport hsm k).trans (if_neg (by dsimp only at hk; omega))
  rw [h.settles_report_iff hreport]
  constructor
  · rintro (⟨hge, hlt, rfl⟩ | ⟨-, f, hf, -, hke⟩)
    · exact ⟨hge, hlt, (h.out_completed hreport hsm k).trans (if_pos ⟨hge, hlt⟩)⟩
    · exact absurd (hopen f hf) hke
  · rintro ⟨hge, hlt, ho⟩
    rw [h.out_completed hreport hsm k, if_pos ⟨hge, hlt⟩] at ho
    exact .inl ⟨hge, hlt, (Option.some.inj (Option.some.inj ho)).symm⟩

theorem failed (hsm : shape.perOp * chunk.length < usizeMax) {f : ItemFailure}
    (hf : report.failure = some f) (hke : ¬ (sizeRejected f.status = true ∧ chunk.length > 1)) :
    LookupGathered shape ops client {st₁ with
      out := (((chunkMap shape.perOp st₁.global chunk.length).completedRanges report).foldl
        (fun out r => out.set r.caller (some (.ok (shape.decode res r.start)))) st₁.out).set
          f.caller (some (.error f.status))
      global := f.caller + 1} := by
  obtain ⟨hlt, hc, -⟩ := hreport.failure f hf
  have hle := h.chunk_le
  have hlen := h.length_completed report
  have ho (k : Nat) : ((((chunkMap shape.perOp st₁.global chunk.length).completedRanges
      report).foldl (fun out r => out.set r.caller (some (.ok (shape.decode res r.start))))
        st₁.out).set f.caller (some (.error f.status)))[k]? =
      if k = f.caller then some (some (.error f.status))
      else if st.global ≤ k ∧ k < f.caller then
        some (some (.ok (shape.decode res (1 + shape.perOp * (k - st.global)))))
      else st.out[k]? := by
    rw [getElem?_set, h.out_completed hreport hsm k, hlen, hc]
    by_cases hk : st.global + report.completed.length = k
    · rw [if_pos hk, if_pos hk.symm, if_pos (by omega)]
    · rw [if_neg hk, if_neg (Ne.symm hk)]
  refine h.gathered.extend h.log_eq h.maxOps_eq h.fits_eq h.usable h.room
    (by dsimp only; rw [length_set]; exact hlen) (by dsimp only; omega)
    (by dsimp only; omega) (fun k hge hl => ?_) (fun k hk => ?_) (fun k o => ?_)
  · dsimp only at hl ⊢
    rw [ho]
    by_cases hk : k = f.caller
    · exact ⟨_, if_pos hk⟩
    · exact ⟨_, by rw [if_neg hk, if_pos ⟨hge, by omega⟩]⟩
  · dsimp only at hk ⊢
    rw [ho, if_neg (by omega), if_neg (by omega)]
  rw [h.settles_report_iff hreport]
  dsimp only
  rw [ho, ← hc]
  by_cases hk : k = f.caller
  · subst hk
    rw [if_pos rfl, hf]
    simp only [Option.some.injEq, Nat.lt_irrefl, false_and, and_false, false_or, true_and,
      exists_eq_left', Nat.lt_succ_self]
    constructor
    · rintro ⟨rfl, -⟩
      exact ⟨by omega, rfl⟩
    · rintro ⟨-, rfl⟩
      exact ⟨rfl, hke⟩
  rw [if_neg hk]
  constructor
  · rintro (⟨hge, hl, rfl⟩ | ⟨heq, -⟩)
    · exact ⟨hge, by omega, if_pos ⟨hge, hl⟩⟩
    · exact absurd heq hk
  · rintro ⟨hge, hl, hv⟩
    rw [if_pos ⟨hge, by omega⟩] at hv
    exact .inl ⟨hge, by omega, (Option.some.inj (Option.some.inj hv)).symm⟩

end LookupReplied

variable (shape ops client) in
def LookupGathers : BatchState (Outcomes R) ⊕ BatchDone (Outcomes R) → Prop
  | .inl st => LookupGathered shape ops client st
  | .inr done => match done.result with
    | .ok out => ∃ outcomes : List (Except Status R),
        out = outcomes.map some ∧ outcomes.length = ops.length ∧
        (∀ k outcome, outcomes[k]? = some outcome ↔
          ∃ sent ∈ done.log, LookupSettles shape ops sent k outcome) ∧
        SettledOnce shape ops done.log
    | .error error => LookupFailed shape ops client done.log error

theorem LookupReplied.lookupReply {chunk : List (NfsFh × Bytes)}
    (h : LookupReplied shape ops client st st₁ chunk res sent) {request : List ArgOp}
    (hsh : ReplyShape request res) (hl : request.length = shape.perOp * chunk.length + 1)
    (hsm : shape.perOp * chunk.length < usizeMax) :
    LookupGathers shape ops client (lookupReply shape st₁ chunk.length res) := by
  obtain ⟨report, ha, hreport⟩ := chunkMap_report shape.toBatchShape st.global hsh hl hsm
  rw [← h.global_eq] at ha
  unfold Vnfs.lookupReply
  dsimp only
  rw [ha]
  dsimp only
  cases hc : report.compoundFailure with
  | some status =>
    obtain ⟨hn, hs, hb⟩ := hreport.compound status hc
    dsimp only
    split
    · exact h.unsettled hn
    · rename_i hsize
      have hlast : st₁.log.getLast? = some sent := by rw [h.log_eq, getLast?_concat]
      have hbefore := (h.unsettled hn).settledBefore
      rw [h.global_eq] at hbefore ⊢
      subst hs
      exact .compound sent st.global chunk res hlast h.answered hn hb hsize rfl hbefore
  | none =>
    dsimp only
    cases hfl : report.failure with
    | some f =>
      dsimp only
      split
      · rename_i hr
        rw [(hreport.failure f hfl).2.1]
        refine h.retry_or_end hreport hsm fun f' hf' => ?_
        obtain rfl := Option.some.inj (hfl.symm.trans hf')
        exact hr
      · rename_i hk
        exact h.failed hreport hsm hfl hk
    | none =>
      dsimp only
      have hal := hreport.finished hfl hc
      have he := h.retry_or_end hreport hsm fun f hf => by
        rw [hfl] at hf
        cases hf
      rwa [hal, ← h.global_eq] at he

theorem LookupGathered.finished (h : LookupGathered shape ops client st)
    (hg : ops.length ≤ st.global) :
    LookupGathers shape ops client (.inr ⟨st.client, st.log, .ok st.out⟩) := by
  have hf (k : Nat) (hk : k < ops.length) : ∃ o, st.out[k]? = some (some o) :=
    h.filled k (Nat.lt_of_lt_of_le hk hg)
  obtain ⟨outcomes, hm⟩ : ∃ outcomes : List (Except Status R), st.out = outcomes.map some := by
    refine ⟨st.out.filterMap id, ?_⟩
    rw [map_filterMap_some_eq_filter_map_isSome, filter_eq_self.mpr]
    · simp
    intro place hp
    rw [map_id] at hp
    obtain ⟨k, hk, rfl⟩ := mem_iff_getElem.mp hp
    obtain ⟨o, ho⟩ := hf k (h.length_eq ▸ hk)
    rw [getElem?_eq_getElem hk, Option.some.injEq] at ho
    simp [ho]
  have hl := congrArg List.length hm
  rw [length_map, h.length_eq] at hl
  refine ⟨outcomes, hm, hl.symm, fun k o => ?_, h.once⟩
  rw [← h.settled_iff, hm, getElem?_map]
  cases outcomes[k]? with
  | none => simp
  | some o' => simp

variable (net) in
theorem LookupGathered.lookupStep (h : LookupGathered shape ops client st)
    (hli : client.maxOps < usizeMax) :
    LookupGathers shape ops client (lookupStep shape net ops st) := by
  unfold Vnfs.lookupStep
  split
  · rename_i hg
    split
    · rename_i error hc
      obtain ⟨rfl, hfu⟩ := capacity_error hc
      rw [h.maxOps_eq] at hfu
      have hunsent : st.log = [] := by
        by_contra hsent
        have hroom := h.room hsent
        omega
      exact .tooManyOps hfu hunsent rfl
    rename_i batchCapacity hc
    obtain ⟨hpo, hle, hcap⟩ := lookup_chunk_pos hg hc
    have hr := (capacity_ok hc).2
    rw [h.maxOps_eq] at hr
    have hmu : shape.perOp * (st.chunk ops batchCapacity).length ≤
        shape.perOp * batchCapacity := Nat.mul_le_mul_left _ hcap
    have hroom : 1 + shape.perOp ≤ client.maxOps := by
      have := Nat.le_mul_of_pos_right shape.perOp (capacity_ok hc).1
      omega
    dsimp only
    split
    · rename_i error hf
      rw [h.fits_eq] at hf
      have hpositive : 0 < min batchCapacity st.maxItems :=
        Nat.lt_min.mpr ⟨(capacity_ok hc).1, st.maxItems_pos⟩
      exact .unencodable st.global _ hg hpositive h.settledBefore hf
    rename_i fits hf
    split
    · exact ⟨h.length_eq, h.global_le, h.filled, h.empty, h.settled_iff, h.once, h.maxOps_eq,
        h.fits_eq, h.poisoned, h.room⟩
    rename_i hwhole
    split
    · rename_i st₁ error hca
      rcases call_error hca with ⟨rfl, hp⟩ | ⟨reached, hl⟩
      · rcases Client.prepareCompound_error hp with
          ⟨-, hma⟩ | he | ⟨rfl, hb⟩ | ⟨rfl, hpoisoned⟩
        · rw [length_map, shape.length_tagOps, h.maxOps_eq] at hma
          omega
        · rw [hf] at he
          cases he
        · have hsingle : (st.chunk ops batchCapacity).length = 1 := by
            rw [hf] at hb
            have hone : ¬ (st.chunk ops batchCapacity).length > 1 := fun hmany =>
              hwhole ⟨Except.ok.inj hb, hmany⟩
            omega
          obtain ⟨item, hitem, hadd⟩ := st.chunk_single shape.toBatchShape hsingle
          rw [hadd, h.fits_eq] at hb
          exact .tooBig st.global item hitem h.settledBefore hb rfl
        · obtain ⟨hinitial, hunsent⟩ := h.poisoned hpoisoned
          exact .poisoned hinitial hunsent rfl
      · exact .unanswered _ (by rw [hl, getLast?_concat]) rfl
    rename_i st₁ res hca
    obtain ⟨ho, hs, hm, hf', ⟨reached, hl⟩, request, hsh, hlen⟩ := call_ok hca
    have hre : LookupReplied shape ops client st st₁ (st.chunk ops batchCapacity) res
        ⟨_, reached, .ok res⟩ :=
      ⟨h, ho, hs, hl, hm.trans h.maxOps_eq, hf'.trans h.fits_eq, call_ok_usable hca, hroom,
        ⟨rfl, ⟨_, rfl⟩, rfl⟩, hpo, hle⟩
    exact hre.lookupReply hsh (by rw [hlen, shape.length_tagOps]) (by omega)
  · rename_i hg
    exact h.finished (Nat.le_of_not_lt hg)

theorem mapM_outcomes (tag : Tag) (outcomes : List (Except Status R)) (first : Nat) :
    ((outcomes.map some).zipIdx first).mapM (m := Except RpcError) (fun place => match place.1 with
      | some outcome => .ok outcome
      | none => .error (.transport (tag ++ " planner omitted caller item " ++
          toString place.2))) = .ok outcomes := by
  induction outcomes generalizing first with
  | nil => rfl
  | cons outcome rest ih =>
    rw [map_cons, zipIdx_cons, mapM_cons, ih]
    rfl

theorem collectOutcomes_map_some (tag : Tag) (outcomes : List (Except Status R)) :
    collectOutcomes tag (outcomes.map some) = .ok outcomes := mapM_outcomes tag outcomes 0

end

section

variable {R : Type} (shape : LookupShape R) (net : Network) (ops : List (NfsFh × Bytes))
  (client : Client)

/-- Over every sequence of accepted replies the call ends. If it returns outcomes
there is one for every item in request order, read from the item's own operations
in the only compound that settled it; a failing item keeps its status to itself.
It returns an error for a compound that failed as a whole. -/
theorem lookupRun_results (hli : client.maxOps < usizeMax) :
    LookupResults shape ops client (lookupRun shape net ops client) := by
  unfold lookupRun
  split
  · rename_i hem
    obtain rfl := List.isEmpty_iff.mp hem
    refine ⟨?_, fun error he => by cases he⟩
    rintro out ho
    obtain rfl := Except.ok.inj ho
    exact ⟨rfl, by simp, .nil⟩
  have hr : LookupGathers shape ops client (.inr (Loop.run (lookupBody shape net ops)
      ⟨client, replicate ops.length none, 0, usizeMax, [], usizeMax_pos⟩)) := by
    refine Loop.run_invariant _ (P := LookupGathered shape ops client)
      (Q := fun done => LookupGathers shape ops client (.inr done)) ?_ ?_ ?_
    · intro st st' hst hs
      have hn := hst.lookupStep net hli
      rwa [show lookupStep shape net ops st = .inl st' from hs] at hn
    · intro st done hst hs
      have hn := hst.lookupStep net hli
      rwa [show lookupStep shape net ops st = .inr done from hs] at hn
    refine ⟨length_replicate, Nat.zero_le _, fun k hk => absurd hk (Nat.not_lt_zero k),
      ?_, ?_, .nil, rfl, rfl, fun hpoisoned => ⟨hpoisoned, rfl⟩, fun hsent => absurd rfl hsent⟩
    · intro k _ o
      simp [getElem?_replicate]
    · intro k o
      simp [getElem?_replicate]
  dsimp only
  cases hre : (Loop.run (lookupBody shape net ops)
      ⟨client, replicate ops.length none, 0, usizeMax, [], usizeMax_pos⟩).result with
  | ok out =>
    simp only [LookupGathers, hre] at hr
    obtain ⟨outcomes, rfl, hl, hse, hon⟩ := hr
    refine ⟨?_, fun error he => ?_⟩
    · intro out ho
      simp only [Except.bind, collectOutcomes_map_some] at ho
      obtain rfl := Except.ok.inj ho
      exact ⟨hl, hse, hon⟩
    · simp only [Except.bind, collectOutcomes_map_some] at he
      cases he
  | error error =>
    simp only [LookupGathers, hre] at hr
    refine ⟨fun out ho => (by cases ho), fun error' he => ?_⟩
    obtain rfl := Except.error.inj he
    exact hr

/-- Both calls, whatever the attributes of the replies are. -/
theorem lookupMany_lookupGetattrMany_results (getattrBytes : CompoundRes → Nat → Bytes)
    (hlimit : client.maxOps < usizeMax) :
    LookupResults lookupMany ops client (lookupRun lookupMany net ops client) ∧
      LookupResults (lookupGetattrMany getattrBytes) ops client
        (lookupRun (lookupGetattrMany getattrBytes) net ops client) :=
  ⟨lookupRun_results lookupMany net ops client hlimit,
    lookupRun_results (lookupGetattrMany getattrBytes) net ops client hlimit⟩

end

/-- A server that lost the session. -/
def sessionlessNetwork : Network := fun _ _ =>
  ⟨.ok ⟨Status.badsession, [⟨.sequence, Status.badsession, .none, false⟩], false⟩, 1⟩

/-- A reply that passes the check ends the call without an outcome for any item:
the server refused SEQUENCE. -/
theorem lookupMany_sessionless :
    let client : Client := ⟨Session.fresh, 256, .new 256, fun _ => .ok true⟩
    let done := lookupRun lookupMany sessionlessNetwork [(⟨[1]⟩, [97])] client
    done.log.map SentCompound.called =
        [.ok ⟨Status.badsession, [⟨.sequence, Status.badsession, .none, false⟩], false⟩] ∧
      done.result = .error (.op 0 Status.badsession) := by
  intro client done
  have hlog : (Loop.run (lookupBody lookupMany sessionlessNetwork [(⟨[1]⟩, [97])])
      ⟨client, replicate 1 none, 0, usizeMax, [], usizeMax_pos⟩).log.map
        SentCompound.called =
          [.ok ⟨Status.badsession, [⟨.sequence, Status.badsession, .none, false⟩], false⟩] := by
    apply Loop.run_of_runFor _ 2 (fun done : BatchDone (Outcomes NfsFh) =>
      done.log.map SentCompound.called)
    decide
  have hresult : (Loop.run (lookupBody lookupMany sessionlessNetwork [(⟨[1]⟩, [97])])
      ⟨client, replicate 1 none, 0, usizeMax, [], usizeMax_pos⟩).result =
        .error (.op 0 Status.badsession) := by
    apply Loop.run_of_runFor _ 2
    decide
  unfold done lookupRun
  dsimp only [length_singleton]
  rw [hresult]
  exact ⟨hlog, rfl⟩

/-- One name of two does not exist: its LOOKUP fails, and the name behind it is
found by the next compound. -/
def oneMissingNetwork : Network := fun n _ =>
  match n with
  | 0 => ⟨.ok ⟨Status.noent, [⟨.sequence, Status.ok, .none, false⟩,
      ⟨.putfh, Status.ok, .none, false⟩, ⟨.lookup, Status.noent, .none, false⟩], false⟩, 3⟩
  | _ => ⟨.ok ⟨Status.ok, [⟨.sequence, Status.ok, .none, false⟩,
      ⟨.putfh, Status.ok, .none, false⟩, ⟨.lookup, Status.ok, .none, false⟩,
      ⟨.getfh, Status.ok, .handle ⟨[7]⟩, false⟩], false⟩, 4⟩

theorem lookupMany_lookupGetattrMany_results_oneMissing :
    let client : Client := ⟨Session.fresh, 256, .new 256, fun _ => .ok true⟩
    let ops : List (NfsFh × Bytes) := [(⟨[1]⟩, [97]), (⟨[1]⟩, [98])]
    let done := lookupRun lookupMany oneMissingNetwork ops client
    client.maxOps < usizeMax ∧ done.result = .ok [.error Status.noent, .ok ⟨[7]⟩] ∧
      SettledOnce lookupMany ops done.log := by
  intro client ops done
  have hlimit : client.maxOps < usizeMax := by decide
  have hresult : done.result = .ok [.error Status.noent, .ok ⟨[7]⟩] := by
    have hrun : (Loop.run (lookupBody lookupMany oneMissingNetwork ops)
        ⟨client, replicate 2 none, 0, usizeMax, [], usizeMax_pos⟩).result =
          .ok [some (.error Status.noent), some (.ok ⟨[7]⟩)] := by
      apply Loop.run_of_runFor _ 3
      decide
    unfold done lookupRun
    dsimp only [ops, length_cons, length_nil]
    rw [hrun]
    rfl
  have hresults := (lookupMany_lookupGetattrMany_results oneMissingNetwork ops client
    (fun _ _ => []) hlimit).1
  exact ⟨hlimit, hresult, (hresults.collected _ hresult).2.2⟩

end Vnfs
