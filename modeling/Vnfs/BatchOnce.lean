import Vnfs.Batch

/-!
A batch of mutations reaches the server at most once per item. The server's
view of a run is the list of mutating operations it began, each with its item.
That list is always an initial segment of the batch in input order, and all of
it when the batch succeeds: no resent chunk repeats an operation, because only a
chunk of which nothing but the leading PUTFH began is ever resent.
-/

namespace Vnfs

open BatchShape SentCompound BatchState

open List hiding min

/-- Operations that change the server's files or its open state. -/
def ArgOp.mutates : ArgOp → Bool
  | .setattr .. | .openFile .. | .close .. | .write .. | .copy .. | .create .. | .link ..
  | .remove .. | .rename .. => true
  | _ => false

@[simp] theorem ArgOp.mutates_putfh (fh : NfsFh) : (ArgOp.putfh fh).mutates = false := rfl

@[simp] theorem ArgOp.mutates_savefh : ArgOp.savefh.mutates = false := rfl

/-- A batch that is not read-only. Each item begins with PUTFH and holds one
mutating operation. -/
structure MutationShape (T : Type) extends BatchShape T where
  not_readOnly : batchIsReadOnly tag = false
  head_putfh : ∀ op index, ∃ fh rest, add op index = .putfh fh :: rest
  one_mutation : ∀ op index, ∃ mutation, (add op index).filter ArgOp.mutates = [mutation]

/-- The two-operation items: PUTFH and the operation itself. -/
def MutationShape.onHandle {T : Type} (tag : Tag) (fh : T → NfsFh) (op : T → Nat → ArgOp)
    (htag : batchIsReadOnly tag = false) (hop : ∀ item index, (op item index).mutates = true) :
    MutationShape T where
  tag := tag
  perOp := 2
  add item index := [.putfh (fh item), op item index]
  perOp_pos := Nat.zero_lt_two
  add_length _ _ := rfl
  not_readOnly := htag
  head_putfh _ _ := ⟨_, _, rfl⟩
  one_mutation item index := ⟨op item index, by simp [hop]⟩

/-- The four-operation items: a saved source handle, a current destination
handle, and the operation between them. -/
def MutationShape.betweenHandles {T : Type} (tag : Tag) (src dst : T → NfsFh) (op : T → ArgOp)
    (htag : batchIsReadOnly tag = false) (hop : ∀ item, (op item).mutates = true) :
    MutationShape T where
  tag := tag
  perOp := 4
  add item _ := [.putfh (src item), .savefh, .putfh (dst item), op item]
  perOp_pos := by decide
  add_length _ _ := rfl
  not_readOnly := htag
  head_putfh _ _ := ⟨_, _, rfl⟩
  one_mutation item _ := ⟨op item, by simp [hop]⟩

structure SetattrOp where
  fh : NfsFh
  attrs : SetAttrs

def setattrMany : MutationShape SetattrOp :=
  .onHandle "setattrv" SetattrOp.fh (fun op _ => .setattr op.attrs anonymousStateid) rfl
    fun _ _ => rfl

structure CreateOp where
  dir : NfsFh
  name : Bytes
  ftype : Nat
  linkdata : Option Bytes

def createMany : MutationShape CreateOp :=
  .onHandle "createv" CreateOp.dir (fun op _ => .create op.name op.ftype op.linkdata) rfl
    fun _ _ => rfl

structure RenameOp where
  srcdir : NfsFh
  oldname : Bytes
  dstdir : NfsFh
  newname : Bytes

def renameMany : MutationShape RenameOp :=
  .betweenHandles "renamev" RenameOp.srcdir RenameOp.dstdir
    (fun op => .rename op.oldname op.newname) rfl fun _ => rfl

structure LinkOp where
  dstdir : NfsFh
  src : NfsFh
  newname : Bytes

def linkMany : MutationShape LinkOp :=
  .betweenHandles "linkv" LinkOp.src LinkOp.dstdir (fun op => .link op.newname) rfl fun _ => rfl

structure CopyOp where
  srcFh : NfsFh
  srcStateid : Stateid
  dstFh : NfsFh
  dstStateid : Stateid
  srcOffset : Nat
  dstOffset : Nat
  count : Nat

def copyMany : MutationShape CopyOp :=
  .betweenHandles "copyv" CopyOp.srcFh CopyOp.dstFh
    (fun op => .copy op.srcStateid op.dstStateid op.srcOffset op.dstOffset op.count) rfl
    fun _ => rfl

structure WriteOp where
  fh : NfsFh
  stateid : Stateid
  offset : Nat
  data : Bytes

/-- `FILE_SYNC4`. -/
def fileSync : UInt32 := 2

def writev : MutationShape WriteOp :=
  .onHandle "writev" WriteOp.fh (fun op _ => .write op.stateid op.offset fileSync op.data) rfl
    fun _ _ => rfl

inductive OwnerSlot where
  | user
  | path
  deriving DecidableEq, Repr

structure CloseOp where
  fh : NfsFh
  stateid : Stateid

variable (slot : OwnerSlot) (base : UInt32)

/-- `close_many_slot`: user opens close with sequence one, path opens count on
from the path owner's `base`. -/
def closeManySlot : MutationShape CloseOp :=
  .onHandle "closev" CloseOp.fh
    (fun op index => .close (match slot with
      | .user => 1
      | .path => base + index.toUInt32) op.stateid) rfl fun _ _ => rfl

structure OpenOp where
  dir : NfsFh
  name : Bytes
  access : UInt32
  create : OpenCreate

/-- `open_many_slot`: user opens have an owner each, path opens share one owner
and count its sequence on. -/
def openManySlot (ownerName : Bytes) (publicOwnerName : Nat → Bytes) : MutationShape OpenOp where
  tag := "openv"
  perOp := 3
  add op index := [.putfh op.dir, .openFile {
    seqid := match slot with
      | .user => 0
      | .path => base + index.toUInt32
    access := op.access
    owner := match slot with
      | .user => publicOwnerName index
      | .path => ownerName
    how := makeOpenHow op.create
    file := some op.name}, .getfh]
  perOp_pos := by decide
  add_length _ _ := rfl
  not_readOnly := rfl
  head_putfh _ _ := ⟨_, _, rfl⟩
  one_mutation _ _ := ⟨_, rfl⟩

/-- The mutating operations of a sent compound that the server began. -/
def SentCompound.executed (sent : SentCompound) : List (Nat × ArgOp) :=
  (sent.ops.take (sent.reached - 1)).filter fun tagged => tagged.2.mutates

def executedOps (log : List SentCompound) : List (Nat × ArgOp) :=
  log.flatMap SentCompound.executed

/-- All mutating operations of the items, in input order. -/
def BatchShape.mutations {T : Type} (shape : BatchShape T) (first : Nat) (ops : List T) :
    List (Nat × ArgOp) :=
  (shape.tagOps first ops).filter fun tagged => tagged.2.mutates

section Tags

variable {T : Type} (shape : BatchShape T)

theorem tagOps_append (first : Nat) (xs ys : List T) :
    shape.tagOps first (xs ++ ys) =
      shape.tagOps first xs ++ shape.tagOps (first + xs.length) ys := by
  induction xs generalizing first with
  | nil => rfl
  | cons x xs ih =>
    simp only [cons_append, tagOps, ih, append_assoc, length_cons]
    rw [show first + 1 + xs.length = first + (xs.length + 1) by omega]

theorem mem_tagOps_bounds {first : Nat} {ops : List T} {tagged : Nat × ArgOp}
    (h : tagged ∈ shape.tagOps first ops) : first ≤ tagged.1 ∧ tagged.1 < first + ops.length := by
  induction ops generalizing first with
  | nil => cases h
  | cons op ops ih =>
    rcases mem_append.mp h with hh | ht
    · obtain ⟨arg, -, rfl⟩ := mem_map.mp hh
      simp only [length_cons]
      omega
    · have := ih ht
      simp only [length_cons]
      omega

theorem mutations_append (first : Nat) (xs ys : List T) : shape.mutations first (xs ++ ys) =
      shape.mutations first xs ++ shape.mutations (first + xs.length) ys := by
  simp [mutations, tagOps_append]

end Tags

/-- One mutating operation per item: the items of a batch's mutations count up. -/
theorem MutationShape.mutations_items {T : Type} (shape : MutationShape T) (first : Nat)
    (ops : List T) : (shape.mutations first ops).map Prod.fst = range' first ops.length := by
  induction ops generalizing first with
  | nil => rfl
  | cons op ops ih =>
    obtain ⟨mutation, hm⟩ := shape.one_mutation op first
    have hh : ((shape.add op first).map (Prod.mk first)).filter
        (fun tagged => tagged.2.mutates) = [(first, mutation)] := by
      rw [filter_map, show (fun tagged : Nat × ArgOp => tagged.2.mutates) ∘ Prod.mk first =
        ArgOp.mutates from rfl, hm]
      rfl
    have ht := ih (first + 1)
    unfold mutations at ht ⊢
    rw [tagOps, filter_append, map_append, ht, hh]
    rfl

/-- The first operation of a chunk is a PUTFH, so a chunk that got no further
executed nothing. -/
theorem MutationShape.executed_nil {T : Type} (shape : MutationShape T) (first : Nat)
    (ops : List T) (called : RpcResult CompoundRes) {reached : Nat} (hr : reached ≤ 2) :
    executed ⟨shape.tagOps first ops, reached, called⟩ = [] := by
  unfold executed
  cases ops with
  | nil => simp [tagOps]
  | cons op ops =>
    obtain ⟨fh, rest, ha⟩ := shape.head_putfh op first
    have hle : reached - 1 = 0 ∨ reached - 1 = 1 := by omega
    rcases hle with hz | ho
    · simp [hz]
    · simp [ho, tagOps, ha]

/-- An earlier compound began no operation of an item a later one carries. -/
def NoResend (earlier later : SentCompound) : Prop :=
  ∀ began ∈ earlier.executed, ∀ carried ∈ later.ops, began.1 ≠ carried.1

section Run

variable {T R : Type} {shape : MutationShape T} {extract : CompoundRes → Nat → RpcResult R}
  {onFailure : Client → List R → Client} {net : Network} {ops : List T} {st₁ st : BatchState R}

/-- A call either sends nothing or logs one compound with the outcome it returns. -/
theorem call_cases (st : BatchState R) (tagged : List (Nat × ArgOp))
    {replied : RpcResult CompoundRes} (h : st.call shape.toBatchShape net tagged = (st₁, replied)) :
    (st₁ = st ∧ ∃ e, replied = .error e) ∨
      ∃ request, request.length = tagged.length + 1 ∧ st₁.log = st.log ++
        [⟨tagged, (net st.log.length request).reached, replied⟩] ∧
        replied = callResult request (net st.log.length request).received := by
  unfold call at h
  dsimp only at h
  split at h
  · rename_i e _
    cases h
    exact .inl ⟨rfl, e, rfl⟩
  rename_i request hp
  right
  have hr := Client.prepareCompound_ok hp
  cases h
  refine ⟨request, ?_, by simp, by simp⟩
  unfold Session.sequenced at hr
  split at hr
  · cases hr
  · cases hr
    simp

structure BatchProgress (shape : MutationShape T) (ops : List T) (st : BatchState R) : Prop where
  executed_eq : executedOps st.log = shape.mutations 0 (ops.take st.global)
  known : ∀ sent ∈ st.log, ∃ res, sent.called = .ok res
  executed_lt : ∀ sent ∈ st.log, ∀ began ∈ sent.executed, began.1 < st.global
  no_resend : st.log.Pairwise NoResend

/-- What holds of the log whichever way the loop is left. -/
structure BatchOutcome (shape : MutationShape T) (ops : List T) (done : BatchDone R) : Prop where
  initial : executedOps done.log <+: shape.mutations 0 ops
  no_resend : done.log.Pairwise NoResend
  unknown_last : done.log.Pairwise fun earlier _ => ∃ res, earlier.called = .ok res
  complete : ∀ out, done.result = .ok out → executedOps done.log = shape.mutations 0 ops

theorem mutations_take_isInitial (shape : BatchShape T) (ops : List T) (count : Nat) :
    shape.mutations 0 (ops.take count) <+: shape.mutations 0 ops := by
  have hs := mutations_append shape 0 (ops.take count) (ops.drop count)
  rw [take_append_drop] at hs
  exact ⟨_, hs.symm⟩

/-- Leaving the loop without a further compound keeps every guarantee. -/
theorem BatchProgress.leave (h : BatchProgress shape ops st) (client : Client) (error : RpcError) :
    BatchOutcome shape ops ⟨client, st.log, (.error error : RpcResult (List R))⟩ := by
  refine ⟨?_, h.no_resend, ?_, fun out hok => by cases hok⟩
  · rw [h.executed_eq]
    exact mutations_take_isInitial shape.toBatchShape ops st.global
  · exact h.no_resend.imp_of_mem fun hm _ _ => h.known _ hm

theorem executed_isInitial (shape : BatchShape T) (first reached : Nat) (chunk : List T)
    (called : RpcResult CompoundRes) :
    executed ⟨shape.tagOps first chunk, reached, called⟩ <+: shape.mutations first chunk := by
  have ht : (shape.tagOps first chunk).take (reached - 1) <+: shape.tagOps first chunk :=
    ⟨_, take_append_drop ..⟩
  exact ht.filter _

theorem mutations_chunk (shape : BatchShape T) (chunkSize : Nat) (hg : st.global < ops.length) :
    shape.mutations 0 (ops.take (st.global + (st.chunk ops chunkSize).length)) =
      shape.mutations 0 (ops.take st.global) ++
        shape.mutations st.global (st.chunk ops chunkSize) := by
  have ht : ops.take (st.global + (st.chunk ops chunkSize).length) =
      ops.take st.global ++ st.chunk ops chunkSize := by
    rw [take_add, BatchState.chunk, length_take]
    congr 1
    exact (take_eq_take_min ..).symm
  have hl : (ops.take st.global).length = st.global := by
    rw [length_take]
    omega
  rw [ht, mutations_append, hl, Nat.zero_add]

theorem BatchProgress.no_resend_snoc (h : BatchProgress shape ops st) (chunk : List T)
    (reached : Nat) (called : RpcResult CompoundRes) :
    (st.log ++ [(⟨shape.tagOps st.global chunk, reached, called⟩ : SentCompound)]).Pairwise
      NoResend := by
  apply pairwise_append.mpr
  refine ⟨h.no_resend, pairwise_singleton .., ?_⟩
  intro earlier hear later hl began hb carried hc
  rw [mem_singleton.mp hl] at hc
  have hlo := h.executed_lt earlier hear began hb
  have hh := (mem_tagOps_bounds shape.toBatchShape hc).1
  omega

/-- Whatever part of a chunk the server began, the run may stop there. -/
theorem BatchProgress.stop (h : BatchProgress shape ops st) (hg : st.global < ops.length)
    (chunkSize reached : Nat) (called : RpcResult CompoundRes) {done : BatchDone R}
    (hl : done.log = st.log ++ [⟨shape.tagOps st.global (st.chunk ops chunkSize), reached, called⟩])
    (hr : ∃ e, done.result = .error e) : BatchOutcome shape ops done := by
  obtain ⟨e, hr⟩ := hr
  refine ⟨?_, ?_, ?_, fun out hok => by simp [hr] at hok⟩
  · have ha := mutations_take_isInitial shape.toBatchShape ops
      (st.global + (st.chunk ops chunkSize).length)
    rw [mutations_chunk shape.toBatchShape chunkSize hg] at ha
    have hb := executed_isInitial shape.toBatchShape st.global reached
      (st.chunk ops chunkSize) called
    have he : executedOps done.log = shape.mutations 0 (ops.take st.global) ++
        executed ⟨shape.tagOps st.global (st.chunk ops chunkSize), reached, called⟩ := by
      rw [hl, executedOps, flatMap_append, ← executedOps, h.executed_eq]
      simp
    rw [he]
    exact ((prefix_append_right_inj _).mpr hb).trans ha
  · rw [hl]
    exact h.no_resend_snoc _ _ _
  rw [hl]
  apply pairwise_append.mpr
  refine ⟨h.no_resend.imp_of_mem fun hm _ _ => h.known _ hm, pairwise_singleton .., ?_⟩
  intro earlier hear _ _
  exact h.known earlier hear

/-- A round that goes on keeps the invariant. The chunk of a resent compound was
rejected within its first PUTFH; the chunk of a finished one ran completely. -/
theorem BatchProgress.replied {st' : BatchState R} (hnet : net.Honest)
    (h : BatchProgress shape ops st) {chunkSize : Nat} {res : CompoundRes}
    (hg : st.global < ops.length) (hc : call shape.toBatchShape net
      {st with maxItems := usizeMax, maxItems_pos := usizeMax_pos}
      (shape.tagOps st.global (st.chunk ops chunkSize)) = (st₁, .ok res))
    (hne : batchReply shape.toBatchShape extract onFailure st₁
      (st.chunk ops chunkSize).length res = .inl st') : BatchProgress shape ops st' := by
  have hf := (call_frame shape.toBatchShape net
    {st with maxItems := usizeMax, maxItems_pos := usizeMax_pos}
    (shape.tagOps st.global (st.chunk ops chunkSize))).2.1
  rw [hc] at hf
  dsimp only at hf
  rcases call_cases _ _ hc with ⟨-, e, he⟩ | ⟨request, hle, hl, hres⟩
  · cases he
  obtain ⟨hrecv, hv⟩ := callResult_ok hres.symm
  have hrc := hnet _ _ _ hrecv hv
  rw [hrc] at hl
  have hkn : ∀ sent ∈ st₁.log, ∃ reply, sent.called = .ok reply := by
    intro sent hs
    rw [hl] at hs
    rcases mem_append.mp hs with hold | hn
    · exact h.known sent hold
    · rw [mem_singleton.mp hn]
      exact ⟨res, rfl⟩
  have hex : executedOps st₁.log = shape.mutations 0 (ops.take st.global) ++
      executed ⟨shape.tagOps st.global (st.chunk ops chunkSize), res.nops, .ok res⟩ := by
    rw [hl, executedOps, flatMap_append, ← executedOps, h.executed_eq]
    simp
  have hre : st₁.log.Pairwise NoResend := by
    rw [hl]
    exact h.no_resend_snoc _ _ _
  unfold batchReply at hne
  split at hne
  · rename_i next hrt
    subst hne
    obtain ⟨-, hrej, rfl, -⟩ := mutationRetry_inl hrt
    have hno := shape.executed_nil st.global (st.chunk ops chunkSize) (.ok res)
      (nops_le_two_of_rejected hrej)
    refine ⟨?_, hkn, ?_, hre⟩
    · rw [hex, hno, append_nil, hf]
    intro sent hs began hb
    rw [hf]
    rw [hl] at hs
    rcases mem_append.mp hs with hold | hn
    · exact h.executed_lt sent hold began hb
    · rw [mem_singleton.mp hn, hno] at hb
      cases hb
  split at hne
  · rename_i next hrt
    subst hne
    have hr := (resourceRetry_inl hrt).1
    simp [shape.not_readOnly] at hr
  obtain ⟨-, hst, hl', hg'⟩ := finishChunk_inl hne
  have ha : res.nops = (shape.tagOps st.global (st.chunk ops chunkSize)).length + 1 := by
    rw [(validateResponseOps_shape hv).nops_of_ok hst, hle]
  have hra : executed ⟨shape.tagOps st.global (st.chunk ops chunkSize), res.nops, .ok res⟩ =
        shape.mutations st.global (st.chunk ops chunkSize) := by
    simp [executed, mutations, ha]
  rw [hra] at hex
  constructor
  · rw [hl', hg', hf, hex, mutations_chunk shape.toBatchShape chunkSize hg]
  · rwa [hl']
  · intro sent hs began hb
    rw [hg', hf]
    rw [hl', hl] at hs
    rcases mem_append.mp hs with hold | hn
    · have := h.executed_lt sent hold began hb
      omega
    · rw [mem_singleton.mp hn, hra] at hb
      exact (mem_tagOps_bounds shape.toBatchShape (mem_of_mem_filter hb)).2
  · rwa [hl']

variable (extract onFailure) in
theorem batchStep_once (hne : net.Honest) (h : BatchProgress shape ops st) :
    match batchStep shape.toBatchShape extract onFailure net ops st with
    | .inl st' => BatchProgress shape ops st'
    | .inr done => BatchOutcome shape ops done := by
  have hr := batchStep_round shape.toBatchShape extract onFailure net ops st
  generalize batchStep shape.toBatchShape extract onFailure net ops st = next at hr
  cases hr with
  | finished hg =>
    have ha : executedOps st.log = shape.mutations 0 ops := by
      rw [h.executed_eq, take_of_length_le hg]
    refine ⟨?_, h.no_resend, ?_, fun _ _ => ha⟩
    · exact ⟨[], by rw [ha, append_nil]⟩
    · exact h.no_resend.imp_of_mem fun hm _ _ => h.known _ hm
  | unsent client error => exact h.leave client error
  | cut chunkSize hca hlo hp =>
    exact ⟨h.executed_eq, h.known, h.executed_lt, h.no_resend⟩
  | failed chunkSize st₁ client error error' hca hg hc =>
    rcases call_cases _ _ hc with ⟨rfl, -⟩ | ⟨request, -, hl, -⟩
    · exact h.leave client error'
    · exact h.stop hg chunkSize _ _ hl ⟨error', rfl⟩
  | replied chunkSize st₁ res hca hg hc =>
    cases hn : batchReply shape.toBatchShape extract onFailure st₁
        (st.chunk ops chunkSize).length res with
    | inl st' => exact h.replied hne hg hc hn
    | inr done =>
      obtain ⟨hl', hre⟩ := batchReply_inr hn
      rcases call_cases _ _ hc with ⟨-, e, he⟩ | ⟨request, -, hl, -⟩
      · cases he
      · exact h.stop hg chunkSize _ _ (hl'.trans hl) hre

theorem batchOps_outcome (client : Client) (hn : net.Honest) : BatchOutcome shape ops
      (batchOpsFallibleWithFailure shape.toBatchShape extract onFailure net ops client) := by
  unfold batchOpsFallibleWithFailure
  split
  · rename_i he
    obtain rfl := List.isEmpty_iff.mp he
    exact ⟨⟨[], rfl⟩, .nil, .nil, fun _ _ => rfl⟩
  apply Loop.run_invariant (batchBody shape.toBatchShape extract onFailure net ops)
    (P := BatchProgress shape ops) (Q := BatchOutcome shape ops)
  · intro st st' hst hs
    have hr := batchStep_once extract onFailure hn hst
    change batchStep shape.toBatchShape extract onFailure net ops st = _ at hs
    rw [hs] at hr
    exact hr
  · intro st done hst hs
    have hr := batchStep_once extract onFailure hn hst
    change batchStep shape.toBatchShape extract onFailure net ops st = _ at hs
    rw [hs] at hr
    exact hr
  · exact ⟨rfl, by simp, by simp, .nil⟩

variable (shape extract onFailure net ops) in
/-- In every run of a batch of mutations: what the server began is an initial
segment of the batch, so no item's operation is executed twice or out of order;
a later compound carries no item of which an earlier one began a mutation; only
the last compound may be left with an unknown outcome; and on success everything
was executed, in input order. -/
theorem batchOps_executes_once (client : Client) (hnet : net.Honest) :
    let done := batchOpsFallibleWithFailure shape.toBatchShape extract onFailure net ops client
    executedOps done.log <+: shape.mutations 0 ops ∧
      (∃ count ≤ ops.length, (executedOps done.log).map Prod.fst = List.range count) ∧
      done.log.Pairwise NoResend ∧
      done.log.Pairwise (fun earlier _ => ∃ res, earlier.called = .ok res) ∧
      (∀ out, done.result = .ok out →
        executedOps done.log = shape.mutations 0 ops ∧
        (executedOps done.log).map Prod.fst = List.range ops.length) := by
  intro done
  have h : BatchOutcome shape ops done := batchOps_outcome client hnet
  have hitems : (shape.mutations 0 ops).map Prod.fst = List.range ops.length := by
    rw [shape.mutations_items, range_eq_range']
  refine ⟨h.initial, ?_, h.no_resend, h.unknown_last, fun out hok => ?_⟩
  · have hbegan := h.initial.map Prod.fst
    rw [hitems] at hbegan
    refine ⟨min ((executedOps done.log).map Prod.fst).length ops.length, by omega, ?_⟩
    rw [← take_range]
    exact prefix_iff_eq_take.mp hbegan
  · rw [h.complete out hok]
    exact ⟨rfl, hitems⟩

end Run

/-- A server on which every operation succeeds. -/
def acceptingNetwork : Network := fun _ request =>
  ⟨.ok ⟨Status.ok, request.map fun arg => ⟨arg.opNum, Status.ok, .none, false⟩, false⟩,
    request.length⟩

/-- Two directories are created, in order and once each. -/
theorem batchOps_executes_once_accepted :
    let client : Client := ⟨Session.fresh, 256, .new 256, fun _ => .ok true⟩
    let items : List CreateOp := [⟨⟨[1]⟩, [97], 2, none⟩, ⟨⟨[1]⟩, [98], 2, none⟩]
    let done := batchOpsFallibleWithFailure createMany.toBatchShape (fun _ _ => .ok ())
      (fun client _ => client) acceptingNetwork items client
    acceptingNetwork.Honest ∧ done.result = .ok [(), ()] ∧
      (executedOps done.log).map Prod.fst = [0, 1] := by
  intro client items done
  have hhonest : acceptingNetwork.Honest := by
    intro n request res hres _
    cases hres
    simp [acceptingNetwork, CompoundRes.nops]
  have hresult : done.result = .ok [(), ()] := by
    unfold done batchOpsFallibleWithFailure
    apply Loop.run_of_runFor _ 2
    decide
  exact ⟨hhonest, hresult, ((batchOps_executes_once createMany (fun _ _ => .ok ())
    (fun client _ => client) acceptingNetwork items client hhonest).2.2.2.2 _ hresult).2⟩

end Vnfs
