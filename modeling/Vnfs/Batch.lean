import Vnfs.Client
import Vnfs.Lib.Loop

/-!
`batch_ops_fallible_with_failure`: a vector of equally shaped items run through
as few compounds as the budget allows. The loop shrinks a chunk that is too
large to send, resends one the server rejected before any mutation, and gives up
on everything else it cannot prove harmless.

The network answers the n-th compound of a run as it likes. Next to the reply it
says how many operations the server began, which the client cannot see; only an
accepted reply has to tell the truth about it. The log is what the server saw.
-/

namespace Vnfs

/-- What became of one compound on the wire. -/
structure Delivery where
  received : RpcResult CompoundRes
  /-- Operations of the request the server began, SEQUENCE included. -/
  reached : Nat

abbrev Network := Nat → List ArgOp → Delivery

/-- The server runs a compound in order up to its first failing operation and
returns a result for every operation it began. -/
def Network.Honest (net : Network) : Prop :=
  ∀ n request res, (net n request).received = .ok res →
    validateResponseOps request res = .ok () → (net n request).reached = res.nops

structure BatchShape (T : Type) where
  tag : Tag
  perOp : Nat
  add : T → Nat → List ArgOp
  perOp_pos : 0 < perOp
  add_length : ∀ op index, (add op index).length = perOp

def batchIsReadOnly (tag : Tag) : Bool :=
  match tag with
  | "getattrv" | "vstatfs_impl" | "readlinkv" | "readv" => true
  | _ => false

def batchResourceProgress (tag : Tag) (perOp : Nat) (status : Status) (failedOp : Option Nat) :
    Option Nat :=
  if batchIsReadOnly tag ∧ (status = Status.resource ∨ status = Status.tooManyOps) then
    some ((failedOp.getD 0 - 1) / perOp)
  else none

/-- The caller's index of compound position `opIndex`. -/
def callerIndex (opIndex perOp chunkStart chunkLen : Nat) : Nat :=
  chunkStart + min ((opIndex - 1) / perOp) (chunkLen - 1)

/-- Every operation of a chunk with the item it belongs to. -/
def BatchShape.tagOps {T : Type} (shape : BatchShape T) : Nat → List T → List (Nat × ArgOp)
  | _, [] => []
  | index, op :: rest =>
    (shape.add op index).map (Prod.mk index) ++ shape.tagOps (index + 1) rest

structure SentCompound where
  ops : List (Nat × ArgOp)
  reached : Nat
  called : RpcResult CompoundRes

/-- The loop variables. A window of no items would never make progress. -/
structure BatchState (R : Type) where
  client : Client
  out : List R
  global : Nat
  maxItems : Nat
  log : List SentCompound
  maxItems_pos : 0 < maxItems

structure BatchDone (R : Type) where
  client : Client
  log : List SentCompound
  result : RpcResult (List R)

theorem usizeMax_pos : 0 < usizeMax := by decide

section

variable {T R : Type} (shape : BatchShape T) (extract : CompoundRes → Nat → RpcResult R)
  (onFailure : Client → List R → Client) (net : Network) (ops : List T)

namespace BatchState

def capacity (st : BatchState R) : RpcResult Nat :=
  (st.client.opBudgetFor shape.tag (1 + shape.perOp)).batchCapacity shape.perOp

def chunk (st : BatchState R) (chunkSize : Nat) : List T :=
  (ops.drop st.global).take (min chunkSize st.maxItems)

/-- Leave the loop with an error after the caller's cleanup. -/
def fail (st : BatchState R) (error : RpcError) : BatchDone R :=
  ⟨onFailure st.client st.out, st.log, .error error⟩

/-- `call_compound` over the network, with the log of what was sent. -/
def call (st : BatchState R) (tagged : List (Nat × ArgOp)) :
    BatchState R × RpcResult CompoundRes :=
  let compound := tagged.map Prod.snd
  match st.client.prepareCompound compound with
  | .error e => (st, .error e)
  | .ok request =>
    let delivery := net st.log.length request
    let called := callResult request delivery.received
    let (client, replied) := st.client.completeCompound shape.tag compound called
    ({st with client := client, log := st.log ++ [⟨tagged, delivery.reached, called⟩]}, replied)

/-- `call` is `call_compound` with the network's answer as the RPC layer. -/
theorem call_eq_callCompound (st : BatchState R) (tagged : List (Nat × ArgOp)) :
    ((st.call shape net tagged).1.client, (st.call shape net tagged).2) =
      st.client.callCompound shape.tag (tagged.map Prod.snd)
        fun request => (net st.log.length request).received := by
  cases hp : st.client.prepareCompound (tagged.map Prod.snd) with
  | error e => simp only [call, Client.callCompound, hp]
  | ok request => simp only [call, Client.callCompound, hp]

end BatchState

def extractAll (res : CompoundRes) (count : Nat) : RpcResult (List R) :=
  (List.range count).mapM (extract res)

/-- The first returned operation that failed, as the loop looks for it. -/
def badOp (res : CompoundRes) : Option Nat :=
  (List.range res.nops).find? fun i => res.opStatus i ≠ Status.ok

/-- A mutating chunk the server rejected before its first PUTFH completed is sent
again if the budget learned from the rejection makes it smaller. -/
def mutationRetry (st : BatchState R) (chunkLen : Nat) (res : CompoundRes) :
    Option (BatchState R ⊕ BatchDone R) :=
  if !batchIsReadOnly shape.tag ∧ chunkLen > 1 ∧ resourceRejectedBeforeMutation res then
    match st.capacity shape with
    | .error e => some (.inr ⟨st.client, st.log, .error e⟩)
    | .ok smaller => if smaller < chunkLen then some (.inl st) else none
  else none

/-- A read-only chunk keeps the items that completed before a resource error. -/
def resourceRetry (st : BatchState R) (chunkLen : Nat) (res : CompoundRes) :
    Option (BatchState R ⊕ BatchDone R) :=
  let bad := badOp res
  let status := bad.elim res.status res.opStatus
  match batchResourceProgress shape.tag shape.perOp status bad with
  | none => none
  | some completed =>
    if chunkLen > 1 then
      match st.capacity shape with
      | .error e => some (.inr ⟨st.client, st.log, .error e⟩)
      | .ok nextCapacity =>
        if completed > 0 ∨ nextCapacity < chunkLen then
          match extractAll extract res completed with
          | .error e => some (.inr ⟨st.client, st.log, .error e⟩)
          | .ok items =>
            some (.inl {st with out := st.out ++ items, global := st.global + completed})
        else none
    else none

/-- Attribute a failure to an item, or collect the results of the whole chunk. -/
def finishChunk (st : BatchState R) (chunkLen : Nat) (res : CompoundRes) :
    BatchState R ⊕ BatchDone R :=
  let stop (completed : Nat) (error : RpcError) : BatchState R ⊕ BatchDone R :=
    match extractAll extract res completed with
    | .error e => .inr ⟨st.client, st.log, .error e⟩
    | .ok items => .inr ({st with out := st.out ++ items}.fail onFailure error)
  match badOp res with
  | some i =>
    stop (min ((i - 1) / shape.perOp) chunkLen)
      (.op (callerIndex i shape.perOp st.global chunkLen) (res.opStatus i))
  | none =>
    if res.status ≠ Status.ok then
      let present := res.nops - 1
      stop (min (present / shape.perOp) chunkLen)
        (.op (st.global + min (present / shape.perOp) (chunkLen - 1)) res.status)
    else
      match extractAll extract res chunkLen with
      | .error e => .inr ⟨st.client, st.log, .error e⟩
      | .ok items => .inl {st with out := st.out ++ items, global := st.global + chunkLen}

def batchReply (st : BatchState R) (chunkLen : Nat) (res : CompoundRes) :
    BatchState R ⊕ BatchDone R :=
  match mutationRetry shape st chunkLen res with
  | some next => next
  | none =>
    match resourceRetry shape extract st chunkLen res with
    | some next => next
    | none => finishChunk shape extract onFailure st chunkLen res

def batchStep (st : BatchState R) : BatchState R ⊕ BatchDone R :=
  if st.global < ops.length then
    match st.capacity shape with
    | .error e => .inr (st.fail onFailure e)
    | .ok chunkSize =>
      let chunk := st.chunk ops chunkSize
      let tagged := shape.tagOps st.global chunk
      match st.client.requestFits (tagged.map Prod.snd) with
      | .error e => .inr (st.fail onFailure e)
      | .ok fits =>
        if h : fits = false ∧ chunk.length > 1 then
          .inl {st with maxItems := chunk.length / 2, maxItems_pos := by omega}
        else
          let st := {st with maxItems := usizeMax, maxItems_pos := usizeMax_pos}
          match st.call shape net tagged with
          | (st, .error e) =>
            if e.isTransport then .inr (st.fail onFailure e)
            else .inr (st.fail onFailure (e.withOpIndex
              (callerIndex e.opIndex shape.perOp st.global chunk.length)))
          | (st, .ok res) => batchReply shape extract onFailure st chunk.length res
  else .inr ⟨st.client, st.log, .ok st.out⟩

/-- The length of the next chunk, zero where the budget leaves no room. -/
def BatchState.window (st : BatchState R) : Nat :=
  match st.capacity shape with
  | .error _ => 0
  | .ok chunkSize => (st.chunk ops chunkSize).length

/-- The call keeps the loop variables and appends at most one compound. -/
theorem BatchState.call_frame (st : BatchState R) (tagged : List (Nat × ArgOp)) :
    (st.call shape net tagged).1.out = st.out ∧ (st.call shape net tagged).1.global = st.global ∧
      (st.call shape net tagged).1.maxItems = st.maxItems := by
  cases hp : st.client.prepareCompound (tagged.map Prod.snd) <;> simp [call, hp]

variable {shape extract onFailure net ops}
  {st st' : BatchState R} {chunkLen : Nat} {res : CompoundRes} {done : BatchDone R}

theorem mutationRetry_inl (h : mutationRetry shape st chunkLen res = some (.inl st')) :
    batchIsReadOnly shape.tag = false ∧ resourceRejectedBeforeMutation res = true ∧
      st' = st ∧ ∃ smaller, st.capacity shape = .ok smaller ∧ smaller < chunkLen := by
  unfold mutationRetry at h
  split at h
  · rename_i hco
    split at h
    · simp at h
    rename_i smaller hc
    split at h
    · rename_i hs
      simp only [Option.some.injEq, Sum.inl.injEq] at h
      exact ⟨by simpa using hco.1, hco.2.2, h.symm, smaller, hc, hs⟩
    · cases h
  · cases h

theorem resourceRetry_inl (h : resourceRetry shape extract st chunkLen res = some (.inl st')) :
    batchIsReadOnly shape.tag = true ∧ st'.client = st.client ∧ st'.maxItems = st.maxItems ∧
      (st.global < st'.global ∨ st'.global = st.global ∧
        ∃ capacity, st.capacity shape = .ok capacity ∧ capacity < chunkLen) := by
  unfold resourceRetry at h
  dsimp only at h
  split at h
  · cases h
  rename_i completed hp
  have hr : batchIsReadOnly shape.tag = true := by
    unfold batchResourceProgress at hp
    split at hp
    · rename_i hco
      exact hco.1
    · cases hp
  split at h
  · split at h
    · simp at h
    rename_i nextCapacity hc
    split at h
    · rename_i hm
      split at h
      · simp at h
      simp only [Option.some.injEq, Sum.inl.injEq] at h
      subst h
      refine ⟨hr, rfl, rfl, ?_⟩
      rcases Nat.eq_zero_or_pos completed with hz | hpo
      · right
        exact ⟨by simp [hz], nextCapacity, hc, by omega⟩
      · left
        simpa using hpo
    · cases h
  · cases h

theorem finishChunk_inl (h : finishChunk shape extract onFailure st chunkLen res = .inl st') :
    badOp res = none ∧ res.status = Status.ok ∧ st'.log = st.log ∧
      st'.global = st.global + chunkLen := by
  unfold finishChunk at h
  split at h
  · simp only at h
    split at h <;> cases h
  split at h
  · simp only at h
    split at h <;> cases h
  rename_i hb hs
  split at h
  · cases h
  · cases h
    exact ⟨hb, by simpa using hs, rfl, rfl⟩

theorem mutationRetry_inr (h : mutationRetry shape st chunkLen res = some (.inr done)) :
    done.log = st.log ∧ ∃ e, done.result = .error e := by
  unfold mutationRetry at h
  split at h
  · split at h
    · rename_i e _
      cases h
      exact ⟨rfl, e, rfl⟩
    · split at h <;> cases h
  · cases h

theorem resourceRetry_inr (h : resourceRetry shape extract st chunkLen res = some (.inr done)) :
    done.log = st.log ∧ ∃ e, done.result = .error e := by
  unfold resourceRetry at h
  dsimp only at h
  split at h
  · cases h
  split at h
  · split at h
    · rename_i e _
      cases h
      exact ⟨rfl, e, rfl⟩
    split at h
    · split at h
      · rename_i e _
        cases h
        exact ⟨rfl, e, rfl⟩
      · cases h
    · cases h
  · cases h

theorem finishChunk_inr (h : finishChunk shape extract onFailure st chunkLen res = .inr done) :
    done.log = st.log ∧ ∃ e, done.result = .error e := by
  unfold finishChunk at h
  dsimp only at h
  repeat' split at h
  all_goals cases h
  all_goals exact ⟨rfl, _, rfl⟩

theorem batchReply_inr (h : batchReply shape extract onFailure st chunkLen res = .inr done) :
    done.log = st.log ∧ ∃ e, done.result = .error e := by
  unfold batchReply at h
  split at h
  · rename_i next hn
    subst h
    exact mutationRetry_inr hn
  split at h
  · rename_i next hn
    subst h
    exact resourceRetry_inr hn
  · exact finishChunk_inr h

open BatchState

theorem window_le_capacity {capacity : Nat} (h : st.capacity shape = .ok capacity) :
    st.window shape ops ≤ capacity := by
  simp only [window, h, BatchState.chunk, List.length_take]
  omega

theorem batchReply_decreases (hch : 0 < chunkLen) (hg : st.global < ops.length)
    (h : batchReply shape extract onFailure st chunkLen res = .inl st') :
    ops.length - st'.global < ops.length - st.global ∨
      st'.global = st.global ∧ st'.window shape ops < chunkLen := by
  unfold batchReply at h
  split at h
  · rename_i next hn
    subst h
    obtain ⟨-, -, rfl, smaller, hc, hs⟩ := mutationRetry_inl hn
    right
    exact ⟨rfl, Nat.lt_of_le_of_lt (window_le_capacity hc) hs⟩
  split at h
  · rename_i next hn
    subst h
    obtain ⟨-, hcl, -, hf | ⟨hsa, capacity, hc, hs⟩⟩ := resourceRetry_inl hn
    · left
      omega
    right
    have hc' : st'.capacity shape = .ok capacity := by
      simpa [BatchState.capacity, hcl] using hc
    exact ⟨hsa, Nat.lt_of_le_of_lt (window_le_capacity hc') hs⟩
  · obtain ⟨-, -, -, hf⟩ := finishChunk_inl h
    left
    omega

inductive BatchRound (shape : BatchShape T) (extract : CompoundRes → Nat → RpcResult R)
    (onFailure : Client → List R → Client) (net : Network) (ops : List T) (st : BatchState R) :
    BatchState R ⊕ BatchDone R → Prop where
  | finished (hglobal : ops.length ≤ st.global) :
      BatchRound shape extract onFailure net ops st (.inr ⟨st.client, st.log, .ok st.out⟩)
  | unsent (client : Client) (error : RpcError) :
      BatchRound shape extract onFailure net ops st (.inr ⟨client, st.log, .error error⟩)
  | cut (chunkSize : Nat) (hcapacity : st.capacity shape = .ok chunkSize)
      (hlong : 1 < (st.chunk ops chunkSize).length)
      (hpos : 0 < (st.chunk ops chunkSize).length / 2) :
      BatchRound shape extract onFailure net ops st (.inl {st with
        maxItems := (st.chunk ops chunkSize).length / 2, maxItems_pos := hpos})
  | failed (chunkSize : Nat) (st₁ : BatchState R) (client : Client) (error error' : RpcError)
      (hcapacity : st.capacity shape = .ok chunkSize) (hglobal : st.global < ops.length)
      (hcall : BatchState.call shape net
        {st with maxItems := usizeMax, maxItems_pos := usizeMax_pos}
        (shape.tagOps st.global (st.chunk ops chunkSize)) = (st₁, .error error)) :
      BatchRound shape extract onFailure net ops st (.inr ⟨client, st₁.log, .error error'⟩)
  | replied (chunkSize : Nat) (st₁ : BatchState R) (res : CompoundRes)
      (hcapacity : st.capacity shape = .ok chunkSize) (hglobal : st.global < ops.length)
      (hcall : BatchState.call shape net
        {st with maxItems := usizeMax, maxItems_pos := usizeMax_pos}
        (shape.tagOps st.global (st.chunk ops chunkSize)) = (st₁, .ok res)) :
      BatchRound shape extract onFailure net ops st
        (batchReply shape extract onFailure st₁ (st.chunk ops chunkSize).length res)

variable (shape extract onFailure net ops) in
theorem batchStep_round (st : BatchState R) : BatchRound shape extract onFailure net ops st
      (batchStep shape extract onFailure net ops st) := by
  unfold batchStep
  split
  · rename_i hg
    split
    · exact .unsent _ _
    rename_i chunkSize hc
    dsimp only
    split
    · exact .unsent _ _
    split
    · rename_i hcu
      exact .cut chunkSize hc hcu.2 _
    split
    · rename_i st₁ e hca
      split
      · exact .failed chunkSize st₁ _ e _ hc hg hca
      · exact .failed chunkSize st₁ _ e _ hc hg hca
    · rename_i st₁ res hca
      exact .replied chunkSize st₁ res hc hg hca
  · rename_i hg
    exact .finished (Nat.le_of_not_lt hg)

theorem chunk_length_pos (ops : List T) {chunkSize : Nat} (hc : st.capacity shape = .ok chunkSize)
    (hg : st.global < ops.length) : 0 < (st.chunk ops chunkSize).length := by
  have hs : 0 < chunkSize := by
    unfold BatchState.capacity CompoundBudget.batchCapacity at hc
    dsimp only at hc
    split at hc
    · cases hc
    · rename_i hne
      cases hc
      exact Nat.pos_of_ne_zero hne
  have := st.maxItems_pos
  simp only [BatchState.chunk, List.length_take, List.length_drop]
  omega

theorem batchStep_decreases (h : batchStep shape extract onFailure net ops st = .inl st') :
    ops.length - st'.global < ops.length - st.global ∨
      st'.global = st.global ∧ st'.window shape ops < st.window shape ops := by
  have hr := batchStep_round shape extract onFailure net ops st
  rw [h] at hr
  generalize hn : Sum.inl st' = next at hr
  cases hr with
  | finished hg => cases hn
  | unsent client error => cases hn
  | failed chunkSize st₁ client error error' hc hg hca => cases hn
  | cut chunkSize hc hl hp =>
    cases hn
    right
    refine ⟨rfl, ?_⟩
    have hc' : BatchState.capacity shape {st with
        maxItems := (st.chunk ops chunkSize).length / 2, maxItems_pos := hp} = .ok chunkSize := hc
    simp only [window, hc, hc']
    have hle : (BatchState.chunk ops {st with
        maxItems := (st.chunk ops chunkSize).length / 2, maxItems_pos := hp}
        chunkSize).length ≤ (st.chunk ops chunkSize).length / 2 := by
      rw [BatchState.chunk, List.length_take]
      exact (Nat.min_le_left _ _).trans (Nat.min_le_right _ _)
    omega
  | replied chunkSize st₁ res hc hg hca =>
    have hp := chunk_length_pos ops hc hg
    obtain ⟨-, hs, -⟩ := call_frame shape net
      {st with maxItems := usizeMax, maxItems_pos := usizeMax_pos}
      (shape.tagOps st.global (st.chunk ops chunkSize))
    rw [hca] at hs
    have hw : st.window shape ops = (st.chunk ops chunkSize).length := by
      simp [window, hc]
    rw [hw, ← hs]
    exact batchReply_decreases hp (hs ▸ hg) hn.symm

variable (shape extract onFailure net ops) in
/-- The loop terminates: a round moves forward or narrows the window. -/
def batchBody : Loop.Body (BatchState R) (BatchDone R) (Nat × Nat) where
  step := batchStep shape extract onFailure net ops
  variant st := (ops.length - st.global, st.window shape ops)
  decreases := by
    intro st st' h
    rcases batchStep_decreases h with hforward | ⟨hsame, hwindow⟩
    · exact Prod.Lex.left _ _ hforward
    · rw [hsame]
      exact Prod.Lex.right _ hwindow

variable (shape extract onFailure net ops) in
def batchOpsFallibleWithFailure (client : Client) : BatchDone R :=
  if ops.isEmpty then ⟨client, [], .ok []⟩
  else Loop.run (batchBody shape extract onFailure net ops)
    ⟨client, [], 0, usizeMax, [], usizeMax_pos⟩

end

end Vnfs
