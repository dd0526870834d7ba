import Vnfs.BatchResults
import Vnfs.Planner.AdaptiveLimits

/-!
`lookup_many` and `lookup_getattr_many`: LOOKUPs that tolerate failing items. A
failing LOOKUP ends the compound, so the loop notes its status and goes on behind
it. A compound the server refused for its size is repeated, and the learned limit
makes the next one smaller.

The two differ in their tag, the operations of an item and what is read from its
reply. The loop variables are those of the batch loop; here `out` has a place for
every item from the start.
-/

namespace Vnfs

open List ExecutionMap BatchState

structure LookupShape (R : Type) extends BatchShape (NfsFh × Bytes) where
  /-- What is read from the reply to an item whose operations start here. -/
  decode : CompoundRes → Nat → R

def CompoundRes.getfh (res : CompoundRes) (i : Nat) : NfsFh :=
  match res.data i with
  | .handle fh => fh
  | _ => ⟨[]⟩

def lookupMany : LookupShape NfsFh where
  tag := "lookupv"
  perOp := 3
  add op _ := [.putfh op.1, .lookup op.2, .getfh]
  perOp_pos := Nat.zero_lt_succ 2
  add_length _ _ := rfl
  decode res start := res.getfh (start + 2)

def fattr4Type : Nat := 1

/-- The first four bytes as a number, as far as there are four. -/
def decodeType (bytes : Bytes) : Nat :=
  if bytes.length ≥ 4 then (bytes.take 4).foldl (fun n byte => 256 * n + byte.toNat) 0 else 0

/-- `getattrBytes` is the attribute data of a GETATTR, which the replies here do
not carry. -/
def lookupGetattrMany (getattrBytes : CompoundRes → Nat → Bytes) : LookupShape (NfsFh × Nat) where
  tag := "lookup_typev"
  perOp := 4
  add op _ := [.putfh op.1, .lookup op.2, .getfh, .getattr [fattr4Type]]
  perOp_pos := Nat.zero_lt_succ 3
  add_length _ _ := rfl
  decode res start := (res.getfh (start + 2), decodeType (getattrBytes res (start + 3)))

/-- The execution map of a chunk of equally long items. -/
def chunkMap (perOp cursor count : Nat) : ExecutionMap :=
  .build ((List.range count).flatMap fun i =>
    [.begin (cursor + i), .noteOps perOp, .endItem])

/-- The status asks for a smaller compound. -/
def sizeRejected (status : Status) : Bool :=
  status == Status.tooManyOps || status == Status.resource

abbrev Outcomes (R : Type) := Option (Except Status R)

section

variable {R : Type} (shape : LookupShape R) (net : Network) (ops : List (NfsFh × Bytes))

def malformedLookup (tag : Tag) : RpcError :=
  .transportWithKind .invalidReply ("malformed " ++ tag ++ " COMPOUND reply")

def lookupReply (st : BatchState (Outcomes R)) (chunkLen : Nat) (res : CompoundRes) :
    BatchState (Outcomes R) ⊕ BatchDone (Outcomes R) :=
  let map := chunkMap shape.perOp st.global chunkLen
  match map.analyze res with
  | .error _ => .inr ⟨st.client, st.log, .error (malformedLookup shape.tag)⟩
  | .ok report =>
    match report.compoundFailure with
    | some status =>
      if sizeRejected status ∧ chunkLen > 1 then .inl st
      else .inr ⟨st.client, st.log, .error (.op st.global status)⟩
    | none =>
      let out := (map.completedRanges report).foldl
        (fun out r => out.set r.caller (some (.ok (shape.decode res r.start)))) st.out
      match report.failure with
      | some failure =>
        if sizeRejected failure.status ∧ chunkLen > 1 then
          .inl {st with out := out, global := failure.caller}
        else
          .inl {st with
            out := out.set failure.caller (some (.error failure.status))
            global := failure.caller + 1}
      | none => .inl {st with out := out, global := st.global + chunkLen}

def lookupStep (st : BatchState (Outcomes R)) :
    BatchState (Outcomes R) ⊕ BatchDone (Outcomes R) :=
  if st.global < ops.length then
    match st.capacity shape.toBatchShape with
    | .error e => .inr ⟨st.client, st.log, .error e⟩
    | .ok batchCapacity =>
      let chunk := st.chunk ops batchCapacity
      let tagged := shape.tagOps st.global chunk
      match st.client.requestFits (tagged.map Prod.snd) with
      | .error e => .inr ⟨st.client, st.log, .error e⟩
      | .ok fits =>
        if h : fits = false ∧ chunk.length > 1 then
          .inl {st with maxItems := chunk.length / 2, maxItems_pos := by omega}
        else
          let st := {st with maxItems := usizeMax, maxItems_pos := usizeMax_pos}
          match st.call shape.toBatchShape net tagged with
          | (st, .error e) => .inr ⟨st.client, st.log, .error e⟩
          | (st, .ok res) => lookupReply shape st chunk.length res
  else .inr ⟨st.client, st.log, .ok st.out⟩

end

section ChunkMap

variable (perOp cursor count : Nat)

theorem chunkMap_succ : chunkMap perOp cursor (count + 1) =
      (((chunkMap perOp cursor count).begin (cursor + count)).noteOps perOp).endItem := by
  simp [chunkMap, build, range_succ, flatMap_append, ExecutionMap.call]

theorem chunkMap_succ_ranges :
    (chunkMap perOp cursor (count + 1)).ranges = (chunkMap perOp cursor count).ranges ++
      [⟨cursor + count, (chunkMap perOp cursor count).next,
        saturatingAdd (chunkMap perOp cursor count).next perOp⟩] := by
  rw [chunkMap_succ]
  simp [endItem, noteOps, begin, modifyLast_concat]

theorem chunkMap_callers : (chunkMap perOp cursor count).ranges.map OpRange.caller =
      (List.range count).map (cursor + ·) := by
  induction count with
  | zero => rfl
  | succ count ih => simp [chunkMap_succ_ranges, ih, range_succ]

theorem chunkMap_slots {T : Type} (shape : BatchShape T) (cursor count : Nat)
    (hsm : shape.perOp * count < usizeMax) :
    (chunkMap shape.perOp cursor count).ranges = (List.range count).map (shape.slots cursor) ∧
      (chunkMap shape.perOp cursor count).next = shape.perOp * count + 1 := by
  induction count with
  | zero => exact ⟨rfl, by simp [chunkMap, build, new]⟩
  | succ count ih =>
    have hm : shape.perOp * (count + 1) = shape.perOp * count + shape.perOp := Nat.mul_succ ..
    obtain ⟨hr, hn⟩ := ih (by omega)
    have ha : saturatingAdd (shape.perOp * count + 1) shape.perOp =
        shape.perOp * (count + 1) + 1 := by
      unfold saturatingAdd
      omega
    constructor
    · rw [chunkMap_succ_ranges, hr, hn, ha, range_succ, map_append]
      simp [BatchShape.slots, Nat.add_comm]
    · rw [chunkMap_succ]
      change saturatingAdd (chunkMap shape.perOp cursor count).next shape.perOp = _
      rw [hn, ha]

end ChunkMap

section Analyze

variable {map : ExecutionMap} {res : CompoundRes} {report : ExecutionReport}

theorem analyzeRanges_failure {ranges : List OpRange} {completed : List Nat}
    {result : List Nat × Option ItemFailure × List Nat} {failure : ItemFailure}
    (h : analyzeRanges res ranges completed = .ok result) (hfl : result.2.1 = some failure) :
    failure.status = res.status ∧ failure.caller ∈ ranges.map OpRange.caller := by
  induction ranges generalizing completed with
  | nil =>
    cases h
    cases hfl
  | cons r ranges ih =>
    rw [analyzeRanges] at h
    split at h
    · cases h
      cases hfl
    split at h
    · rename_i itemFailure hf
      split at h
      · cases h
      split at h
      · cases h
      rename_i hs
      cases h
      obtain rfl := Option.some.inj hfl
      obtain ⟨op, -, hop⟩ := Option.map_eq_some_iff.mp hf
      refine ⟨(not_not.mp hs).symm, ?_⟩
      simp [← hop]
    split at h
    · cases h
    · obtain ⟨hs, hc⟩ := ih h
      exact ⟨hs, mem_cons_of_mem _ hc⟩

theorem analyze_failure {failure : ItemFailure} (h : map.analyze res = .ok report)
    (hf : report.failure = some failure) :
    failure.status = res.status ∧ failure.caller ∈ map.ranges.map OpRange.caller := by
  unfold analyze at h
  split at h
  · split at h
    · cases h
      cases hf
    · cases h
  split at h
  · cases h
    cases hf
  cases hr : analyzeRanges res map.ranges [] with
  | error e =>
    rw [hr] at h
    cases h
  | ok result =>
    rw [hr] at h
    simp only [bind, Except.bind] at h
    split at h
    · split at h
      · cases h
      · cases h
        exact analyzeRanges_failure hr hf
    · cases h
      exact analyzeRanges_failure hr hf

theorem analyze_compoundFailure {request : List ArgOp} (hsh : ReplyShape request res)
    {status : Status} (h : map.analyze res = .ok report)
    (hf : report.compoundFailure = some status) : status = res.status := by
  unfold analyze at h
  simp only [replyView_nops, replyView_opStatus, replyView_status] at h
  split at h
  · split at h
    · cases h
      exact (Option.some.inj hf).symm
    · cases h
  split at h
  · rename_i hs
    cases h
    obtain rfl := Option.some.inj hf
    apply hsh.last_status 0
    by_contra hne
    exact hs (hsh.ok_before_last 0 (by omega))
  cases hr : analyzeRanges res map.ranges [] with
  | error e =>
    rw [hr] at h
    cases h
  | ok result =>
    rw [hr] at h
    simp only [bind, Except.bind] at h
    split at h
    · split at h
      · cases h
      · cases h
        exact (Option.some.inj hf).symm
    · cases h
      cases hf

end Analyze

section Termination

/-- A compound refused for its size leaves a limit of at most half of it. -/
theorem AdaptiveCompoundLimits.observe_limit_le (limits : AdaptiveCompoundLimits) (tag : Tag)
    {sentOps : Nat} (hm : 1 < sentOps) {status : Status} (hs : sizeRejected status = true) :
    (limits.observe tag sentOps status).limit tag ≤ sentOps / 2 := by
  have hcu : (record (limits.known tag) sentOps status).current ≤ sentOps / 2 := by
    have hc : status = Status.tooManyOps ∨ status = Status.resource := by
      simpa [sizeRejected] using hs
    rcases hc with rfl | rfl
    · have hr : record (limits.known tag) sentOps .tooManyOps =
          (limits.known tag).opLimitRejected sentOps := rfl
      rw [hr, AdaptiveBatchSizer.opLimitRejected, if_pos hm]
      dsimp only
      omega
    have hr : record (limits.known tag) sentOps .resource =
        (limits.known tag).resourceRejected sentOps := rfl
    rw [hr, AdaptiveBatchSizer.resourceRejected]
    dsimp only
    omega
  have hl : (limits.observe tag sentOps status).limit tag =
      (record (limits.known tag) sentOps status).next usizeMax 0 := by
    simp [limit, observe, known]
  rw [hl]
  exact (Nat.min_le_right _ _).trans hcu

variable {T R : Type} {shape : BatchShape T} {net : Network} {st st₁ : BatchState R}
  {tagged : List (Nat × ArgOp)}

theorem BatchState.call_ok_limits {res : CompoundRes}
    (h : st.call shape net tagged = (st₁, .ok res)) :
    st₁.client.compoundLimits = st.client.compoundLimits.observe shape.tag
      (saturatingAdd tagged.length 1) res.status := by
  unfold call at h
  dsimp only at h
  split at h
  · cases h
  rename_i request hp
  have hc : callResult request (net st.log.length request).received = .ok res := by
    simpa using congrArg Prod.snd h
  obtain rfl := congrArg Prod.fst h
  rw [hc]
  unfold Client.completeCompound
  cases hf : st.client.session.complete (.ok res) with
  | mk session replied =>
    have hr := st.client.session.complete_snd (.ok res)
    rw [hf] at hr
    cases hr
    simp

theorem BatchState.capacity_lt_of_rejected {res : CompoundRes}
    (hca : st.call shape net tagged = (st₁, .ok res)) (hsi : sizeRejected res.status = true)
    {chunkLen smaller : Nat} (hle : tagged.length = shape.perOp * chunkLen) (hlo : 1 < chunkLen)
    (hc : st₁.capacity shape = .ok smaller) : smaller < chunkLen := by
  have hp := shape.perOp_pos
  have hm : shape.perOp * 2 ≤ shape.perOp * chunkLen := Nat.mul_le_mul_left _ hlo
  have hs : 1 < saturatingAdd tagged.length 1 ∧
      saturatingAdd tagged.length 1 ≤ shape.perOp * chunkLen + 1 := by
    unfold saturatingAdd usizeMax
    omega
  have hl := st.client.compoundLimits.observe_limit_le shape.tag hs.1 hsi
  rw [← call_ok_limits hca] at hl
  unfold capacity CompoundBudget.batchCapacity at hc
  dsimp only at hc
  split at hc
  · cases hc
  cases hc
  refine Nat.div_lt_of_lt_mul ?_
  unfold Client.opBudgetFor
  dsimp only
  omega

end Termination

section

variable {R : Type} {shape : LookupShape R} {net : Network} {ops : List (NfsFh × Bytes)}
  {st st₁ st' : BatchState (Outcomes R)} {chunkLen : Nat} {res : CompoundRes}

theorem lookupReply_inl {request : List ArgOp} (hsh : ReplyShape request res)
    (h : lookupReply shape st chunkLen res = .inl st') :
    st'.client = st.client ∧ st'.maxItems = st.maxItems ∧ (st'.global = st.global ∧
        sizeRejected res.status = true ∧ 1 < chunkLen ∨
      st.global < st'.global ∨ st'.global = st.global + chunkLen) := by
  unfold lookupReply at h
  dsimp only at h
  split at h
  · cases h
  rename_i report hre
  split at h
  · rename_i status hco
    split at h
    · rename_i hr
      cases h
      have hs := analyze_compoundFailure hsh hre hco
      exact ⟨rfl, rfl, .inl ⟨rfl, hs ▸ hr.1, hr.2⟩⟩
    · cases h
  split at h
  · rename_i failure hf
    obtain ⟨hs, hc⟩ := analyze_failure hre hf
    rw [chunkMap_callers] at hc
    obtain ⟨i, -, hi⟩ := mem_map.mp hc
    split at h
    · rename_i hr
      cases h
      refine ⟨rfl, rfl, ?_⟩
      dsimp only
      rcases Nat.eq_zero_or_pos i with hz | hp
      · exact .inl ⟨by omega, hs ▸ hr.1, hr.2⟩
      · exact .inr (.inl (by omega))
    · cases h
      exact ⟨rfl, rfl, .inr (.inl (by dsimp only; omega))⟩
  · cases h
    exact ⟨rfl, rfl, .inr (.inr rfl)⟩

theorem lookup_chunk_pos {batchCapacity : Nat} (hg : st.global < ops.length)
    (hc : st.capacity shape.toBatchShape = .ok batchCapacity) :
    0 < (st.chunk ops batchCapacity).length ∧
      st.global + (st.chunk ops batchCapacity).length ≤ ops.length ∧
      (st.chunk ops batchCapacity).length ≤ batchCapacity := by
  have hs := (capacity_ok hc).1
  have hi := st.maxItems_pos
  simp only [chunk, length_take, length_drop]
  omega

theorem lookup_window_lt {bound : Nat}
    (hb : ∀ capacity, st.capacity shape.toBatchShape = .ok capacity → capacity < bound)
    (hp : 0 < bound) : st.window shape.toBatchShape ops < bound := by
  unfold window
  cases hc : st.capacity shape.toBatchShape with
  | error e => exact hp
  | ok capacity =>
    have := hb capacity hc
    simp only [chunk, length_take]
    omega

theorem lookupStep_decreases (h : lookupStep shape net ops st = .inl st') :
    ops.length - st'.global < ops.length - st.global ∨ st'.global = st.global ∧
        st'.window shape.toBatchShape ops < st.window shape.toBatchShape ops := by
  unfold lookupStep at h
  split at h
  · rename_i hg
    split at h
    · cases h
    rename_i batchCapacity hc
    obtain ⟨hp, -, -⟩ := lookup_chunk_pos hg hc
    have hw : st.window shape.toBatchShape ops = (st.chunk ops batchCapacity).length := by
      simp [window, hc]
    dsimp only at h
    split at h
    · cases h
    split at h
    · rename_i hcu
      cases h
      right
      refine ⟨rfl, ?_⟩
      rw [hw]
      change (match st.capacity shape.toBatchShape with
        | .error _ => 0
        | .ok capacity => (chunk ops {st with
            maxItems := (st.chunk ops batchCapacity).length / 2
            maxItems_pos := _} capacity).length) < _
      rw [hc]
      have hle : (chunk ops {st with
          maxItems := (st.chunk ops batchCapacity).length / 2
          maxItems_pos := Nat.div_pos hcu.2 Nat.zero_lt_two} batchCapacity).length ≤
            (st.chunk ops batchCapacity).length / 2 := by
        rw [chunk, length_take]
        exact (Nat.min_le_left _ _).trans (Nat.min_le_right _ _)
      exact Nat.lt_of_le_of_lt hle (by omega)
    split at h
    · cases h
    rename_i st₁ res hca
    obtain ⟨-, hs, -, -, -, request, hsh, -⟩ := call_ok hca
    obtain ⟨hcl, -, ⟨hst, hsi, hl⟩ | hf | hf⟩ := lookupReply_inl hsh h
    · right
      refine ⟨hst.trans hs, ?_⟩
      rw [hw]
      refine lookup_window_lt (fun smaller hsm => ?_) hp
      have hc₁ : st₁.capacity shape.toBatchShape = .ok smaller := by
        simpa [capacity, hcl] using hsm
      exact capacity_lt_of_rejected hca hsi (shape.length_tagOps _ _) hl hc₁
    · left
      dsimp only at hs
      omega
    · left
      dsimp only at hs
      omega
  · cases h

variable (shape net ops) in
/-- The loop ends: it moves forward or its window narrows. -/
def lookupBody :
    Loop.Body (BatchState (Outcomes R)) (BatchDone (Outcomes R)) (Nat × Nat) where
  step := lookupStep shape net ops
  variant st := (ops.length - st.global, st.window shape.toBatchShape ops)
  decreases := by
    intro st st' h
    rcases lookupStep_decreases h with hforward | ⟨hsame, hwindow⟩
    · exact Prod.Lex.left _ _ hforward
    · rw [hsame]
      exact Prod.Lex.right _ hwindow

/-- The outcomes, if no place was left empty. -/
def collectOutcomes (tag : Tag) (out : List (Outcomes R)) : RpcResult (List (Except Status R)) :=
  out.zipIdx.mapM fun place =>
    match place.1 with
    | some outcome => .ok outcome
    | none => .error (.transport (tag ++ " planner omitted caller item " ++ toString place.2))

variable (shape net ops) in
def lookupRun (client : Client) : BatchDone (Except Status R) :=
  if ops.isEmpty then ⟨client, [], .ok []⟩
  else
    let done := Loop.run (lookupBody shape net ops)
      ⟨client, replicate ops.length none, 0, usizeMax, [], usizeMax_pos⟩
    ⟨done.client, done.log, done.result.bind (collectOutcomes shape.tag)⟩

end

end Vnfs
