import Vnfs.BatchOnce
import Vnfs.BatchResults

/-!
The two queues of deferred CLOSEs. `drain_deferred_path_closes` closes its entries
one by one and drops those whose state the server no longer knows.
`drain_deferred_descriptor_closes` sends its queue as one batch and keeps all
from the entry at which the batch failed, or all of it when an exchange was lost.

Of an open state the drains use the handle and the stateid. The error of a drain
is the one of its calls; its conversion is left out.
-/

namespace Vnfs

open BatchState BatchShape Status BatchGathered Client

open List hiding min

def Status.oldStateid : Status := 10024
def Status.badStateid : Status := 10025

namespace Nfs

/-- The status says that the state no longer exists. -/
def stateLost (status : Status) : Bool :=
  status == Status.badStateid || status == Status.oldStateid

def closeMany : MutationShape CloseOp := closeManySlot .user 1

def closeManyRun (net : Network) (client : Client) (ops : List CloseOp) : BatchDone Unit :=
  batchOpsFallibleWithFailure closeMany.toBatchShape (fun _ _ => .ok ()) (fun client _ => client)
    net ops client

structure DrainDone where
  client : Client
  queue : List CloseOp
  log : List SentCompound
  result : RpcResult Unit

def drainDeferredDescriptorCloses (net : Network) (client : Client) (pending : List CloseOp) :
    DrainDone :=
  if pending.isEmpty then ⟨client, [], [], .ok ()⟩
  else
    let done := closeManyRun net client pending
    match done.result with
    | .ok _ => ⟨done.client, [], done.log, .ok ()⟩
    | .error error =>
      let firstUnconfirmed := if error.isTransport then 0 else min error.opIndex pending.length
      ⟨done.client, pending.drop firstUnconfirmed, done.log, .error error⟩

def closeOne : BatchShape CloseOp := {closeMany.toBatchShape with tag := "close"}

def expectAllOk (res : CompoundRes) : RpcResult Unit :=
  match badOp res with
  | some i => .error (.op i (res.opStatus i))
  | none => if res.status ≠ Status.ok then .error (.op 0 res.status) else .ok ()

/-- `close_unregistered`. The state is that of a batch: its position is the place of
the entry in the queue. -/
def closeUnregistered (net : Network) (st : BatchState Unit) (close : CloseOp) :
    BatchState Unit × RpcResult Unit :=
  match st.call closeOne net (closeOne.tagOps st.global [close]) with
  | (st, .error e) => (st, .error e)
  | (st, .ok res) => (st, expectAllOk res)

def BatchState.advanced (st : BatchState Unit) : BatchState Unit :=
  {st with global := st.global + 1}

def drainPathFrom (net : Network) : BatchState Unit → List CloseOp → DrainDone
  | st, [] => ⟨st.client, [], st.log, .ok ()⟩
  | st, close :: remaining =>
    match closeUnregistered net st close with
    | (st, .ok ()) => drainPathFrom net (BatchState.advanced st) remaining
    | (st, .error e) =>
      if stateLost e.status then drainPathFrom net (BatchState.advanced st) remaining
      else ⟨st.client, close :: remaining, st.log, .error e⟩

def drainDeferredPathCloses (net : Network) (client : Client) (pending : List CloseOp) :
    DrainDone :=
  drainPathFrom net ⟨client, [], 0, usizeMax, [], usizeMax_pos⟩ pending

/-- What both drains may rely on: the size check of a CLOSE does not fail, an
exchange is lost in transport only, and no reply has the status that stands for
that. A stateid is judged behind SEQUENCE, which has none. -/
structure PlainServer (net : Network) (client : Client) : Prop where
  encodes : ∀ compound, ∃ fits, client.requestFits compound = .ok fits
  lost : ∀ n request e, (net n request).received = .error e → e.isTransport = true
  replies : ∀ n request res, (net n request).received = .ok res →
    validateResponseOps request res = .ok () →
      res.status ≠ Status.transport ∧ (stateLost res.status = true → 2 ≤ res.nops)

section Answers

variable {T : Type} (shape : BatchShape T) (ops : List T)

/-- The answer entry `k` got in this compound: the status of its operation that
failed, or OK when all of them succeeded. -/
def EntryAnswered (sent : SentCompound) (k : Nat) (status : Status) : Prop :=
  ∃ start chunk res i, AnsweredChunk shape ops sent start chunk res ∧ i < chunk.length ∧
    k = start + i ∧ (res.Succeeded (shape.slots start i) ∧ status = Status.ok ∨
      ∃ op, (shape.slots start i).Owns op ∧ res.FirstFailure op ∧ status = res.opStatus op)

def Acknowledged (log : List SentCompound) (k : Nat) : Prop :=
  ∃ sent ∈ log, EntryAnswered shape ops sent k Status.ok

/-- The server answered that the entry's state no longer exists. -/
def Gone (log : List SentCompound) (k : Nat) : Prop :=
  ∃ sent ∈ log, ∃ status, stateLost status = true ∧ EntryAnswered shape ops sent k status

/-- An exchange ended without an accepted reply. -/
def LostExchange (log : List SentCompound) : Prop :=
  ∃ sent ∈ log, ∃ e, sent.called = .error e

open Classical in
/-- The entries that are neither acknowledged nor gone, in order. The first one has
the place `k`. -/
noncomputable def unsettled (log : List SentCompound) : Nat → List T → List T
  | _, [] => []
  | k, entry :: rest =>
    if Acknowledged shape ops log k ∨ Gone shape ops log k then unsettled log (k + 1) rest
    else entry :: unsettled log (k + 1) rest

variable {shape ops} {log : List SentCompound} {k : Nat} {sent : SentCompound}

theorem unsettled_eq_drop {entries : List T} {m : Nat} (hk : k ≤ m)
    (hs : ∀ j, k ≤ j → j < k + entries.length →
      (Acknowledged shape ops log j ∨ Gone shape ops log j ↔ j < m)) :
    unsettled shape ops log k entries = entries.drop (m - k) := by
  induction entries generalizing k m with
  | nil => simp [unsettled]
  | cons entry rest ih =>
    have hf := hs k (Nat.le_refl _) (by simp)
    rw [unsettled]
    by_cases hlt : k < m
    · rw [if_pos (hf.mpr hlt), ih hlt (fun j hj hj' => hs j (by omega)
        (by rw [length_cons]; omega))]
      rw [show m - k = m - (k + 1) + 1 by omega, drop_succ_cons]
    rw [if_neg (mt hf.mp hlt), show m - k = 0 by omega, drop_zero]
    have hn (j : Nat) (hj : k + 1 ≤ j) (hj' : j < k + 1 + rest.length) :
        Acknowledged shape ops log j ∨ Gone shape ops log j ↔ j < k + 1 := by
      have := hs j (by omega) (by rw [length_cons]; omega)
      rw [this]
      omega
    rw [ih (Nat.le_refl _) hn, Nat.sub_self, drop_zero]

theorem acknowledged_concat : Acknowledged shape ops (log ++ [sent]) k ↔
      Acknowledged shape ops log k ∨ EntryAnswered shape ops sent k ok := by
  simp [Acknowledged, or_and_right, exists_or]

theorem gone_concat : Gone shape ops (log ++ [sent]) k ↔ Gone shape ops log k ∨
      ∃ status, stateLost status = true ∧ EntryAnswered shape ops sent k status := by
  simp [Gone, or_and_right, exists_or]

theorem lostExchange_concat :
    LostExchange (log ++ [sent]) ↔ LostExchange log ∨ ∃ e, sent.called = .error e := by
  simp [LostExchange, or_and_right, exists_or]

end Answers

section Trail

variable {net : Network} {client : Client} {ops : List CloseOp} {st st₁ st' : BatchState Unit}
  {shape : BatchShape CloseOp} {sent : SentCompound} {start : Nat} {chunk : List CloseOp}
  {res : CompoundRes} {e : RpcError} {request : List ArgOp} {T R : Type}
  {tagged : List (Nat × ArgOp)} {done : BatchDone Unit}

theorem answered_sent (h : AnsweredChunk shape ops sent start chunk res)
    (hc : 0 < chunk.length) (k : Nat) (status : Status) :
    EntryAnswered shape ops sent k status ↔ ∃ i < chunk.length, k = start + i ∧
      (res.Succeeded (shape.slots start i) ∧ status = ok ∨
        ∃ op, (shape.slots start i).Owns op ∧ res.FirstFailure op ∧ status = res.opStatus op) := by
  constructor
  · rintro ⟨start', chunk', res', i, ha, hi, rfl, hs⟩
    obtain ⟨rfl, hl, rfl⟩ := h.unique ha hc
    exact ⟨i, hl ▸ hi, rfl, hs⟩
  · rintro ⟨i, hi, rfl, hs⟩
    exact ⟨start, chunk, res, i, h, hi, rfl, hs⟩

theorem not_answered_of_error (hc : sent.called = .error e) (k : Nat) (status : Status) :
    ¬ EntryAnswered shape ops sent k status := by
  rintro ⟨start, chunk, res, i, ha, -⟩
  rw [ha.answered] at hc
  cases hc

theorem status_of_firstFailure (hsh : ReplyShape request res) {op : Nat}
    (hf : res.FirstFailure op) :
    res.opStatus op = res.status :=
  hsh.last_status op ((hsh.firstFailure_iff op).mp hf).1

/-- In a reply that failed, the entries in front of the failing operation are the
acknowledged ones, and the entry that holds it is the only one that can be gone. -/
theorem answered_failed (h : AnsweredChunk shape ops sent start chunk res) (hc : 0 < chunk.length)
    (hsh : ReplyShape request res) (hlen : request.length = shape.perOp * chunk.length + 1)
    (hfa : res.status ≠ ok) (hb : stateLost res.status = true → 2 ≤ res.nops) :
    (res.nops - 2) / shape.perOp < chunk.length ∧ (∀ k, EntryAnswered shape ops sent k ok ↔
        start ≤ k ∧ k < start + (res.nops - 2) / shape.perOp) ∧
      ∀ k, (∃ status, stateLost status = true ∧ EntryAnswered shape ops sent k status) ↔
        k = start + (res.nops - 2) / shape.perOp ∧ stateLost res.status = true := by
  have hp := shape.perOp_pos
  have hn := hsh.nops_le
  have hlt : (res.nops - 2) / shape.perOp < chunk.length := by
    have := Nat.mul_pos hp hc
    exact Nat.div_lt_of_lt_mul (by omega)
  have hs (i : Nat) : res.Succeeded (shape.slots start i) ↔ i < (res.nops - 2) / shape.perOp := by
    rw [Nat.lt_iff_add_one_le, Nat.le_div_iff_mul_le hp, Nat.mul_comm]
    constructor
    · intro ha
      have he : (shape.slots start i).Owns (shape.perOp * (i + 1)) := by
        dsimp only [slots, OpRange.Owns]
        rw [Nat.mul_add]
        omega
      obtain ⟨hr, hok⟩ := ha _ he
      have hinner : shape.perOp * (i + 1) + 1 ≠ res.nops := fun hla =>
        hfa ((hsh.last_status _ hla).symm.trans hok)
      omega
    rintro he op ⟨-, hst⟩
    dsimp only [slots] at hst
    have hpo : 0 < shape.perOp * (i + 1) := Nat.mul_pos hp (Nat.succ_pos i)
    exact ⟨by omega, hsh.ok_before_last op (by omega)⟩
  refine ⟨hlt, fun k => ?_, fun k => ?_⟩
  · rw [answered_sent h hc]
    constructor
    · rintro ⟨i, hi, rfl, ⟨ha, -⟩ | ⟨op, -, hf, hok⟩⟩
      · have := (hs i).mp ha
        omega
      · exact absurd hok.symm hf.2.1
    · rintro ⟨hle, hk⟩
      exact ⟨k - start, by omega, by omega, .inl ⟨(hs _).mpr (by omega), rfl⟩⟩
  constructor
  · rintro ⟨status, hl, han⟩
    obtain ⟨i, hi, rfl, ⟨-, rfl⟩ | ⟨op, ho, hf, rfl⟩⟩ := (answered_sent h hc k status).mp han
    · cases hl
    rw [status_of_firstFailure hsh hf] at hl
    have hla := ((hsh.firstFailure_iff op).mp hf).1
    have hin := owns_slot shape start chunk.length op (by have := hb hl; omega) (by omega)
    rw [owns_unique ho hin.2, show res.nops - 2 = op - 1 by omega]
    exact ⟨rfl, hl⟩
  rintro ⟨rfl, hl⟩
  have ht := hb hl
  have hin := owns_slot shape start chunk.length (res.nops - 1) (by omega) (by omega)
  have hf := (hsh.firstFailure_iff (res.nops - 1)).mpr ⟨by omega, hfa⟩
  refine ⟨res.status, hl, (answered_sent h hc _ _).mpr ⟨_, hlt, rfl, .inr ⟨_, hin.2, hf, ?_⟩⟩⟩
  rw [status_of_firstFailure hsh hf]

theorem badOp_failed (hsh : ReplyShape request res) :
    (∀ op, badOp res = some op → op = res.nops - 1 ∧ res.status ≠ ok ∧
      res.opStatus op = res.status) ∧
      (badOp res = none → res.status ≠ ok → res.nops = 0) := by
  constructor
  · intro op hb
    have hfs := badOp_some hb
    obtain ⟨hl, hf⟩ := (hsh.firstFailure_iff op).mp hfs
    exact ⟨by omega, hf, status_of_firstFailure hsh hfs⟩
  intro hb hf
  by_contra hne
  have hl := hsh.last_status (res.nops - 1) (by omega)
  exact hf (hl ▸ badOp_none hb (by omega))

/-- What the batch of CLOSEs has behind it: chunks that succeeded as a whole, and
chunks that were refused for their size before any CLOSE. -/
structure CloseTrail (ops : List CloseOp) (st : BatchState Unit) : Prop where
  replied : ∀ sent ∈ st.log, ∃ start chunk res,
    AnsweredChunk closeMany.toBatchShape ops sent start chunk res ∧ 0 < chunk.length ∧
      (∃ request, ReplyShape request res) ∧
      (res.status = Status.ok ∧ start + chunk.length ≤ st.global ∨
        res.nops ≤ 2 ∧ stateLost res.status = false)
  fresh : st.client.session.poisoned = true → st.log = []

theorem slot_close (start i : Nat) : (closeMany.toBatchShape.slots start i).Owns (2 + 2 * i) := by
  have hp : closeMany.perOp = 2 := rfl
  constructor
  · dsimp only [slots]
    rw [hp]
    omega
  · dsimp only [slots]
    rw [hp]
    omega

namespace CloseTrail

variable (h : CloseTrail ops st)
include h

theorem answered {sent : SentCompound} (hse : sent ∈ st.log) {k : Nat} {status : Status}
    (ha : EntryAnswered closeMany.toBatchShape ops sent k status) :
    (status = ok → k < st.global) ∧ stateLost status = false := by
  obtain ⟨start, chunk, res, hc, hp, ⟨request, hsh⟩, hk⟩ := h.replied sent hse
  obtain ⟨i, hi, rfl, ⟨hsu, rfl⟩ | ⟨op, -, hf, rfl⟩⟩ := (answered_sent hc hp k status).mp ha
  · rcases hk with ⟨-, hle⟩ | ⟨hn, -⟩
    · exact ⟨fun _ => by omega, rfl⟩
    · have hlt := (hsu _ (slot_close start i)).1
      omega
  have hs := status_of_firstFailure hsh hf
  refine ⟨fun hok => absurd hok hf.2.1, ?_⟩
  rcases hk with ⟨hok, -⟩ | ⟨-, hl⟩
  · exact absurd (hs.trans hok) hf.2.1
  · rw [hs]
    exact hl

theorem not_lost : ¬ LostExchange st.log := by
  rintro ⟨sent, hs, e, he⟩
  obtain ⟨start, chunk, res, hc, -⟩ := h.replied sent hs
  rw [hc.answered] at he
  cases he

end CloseTrail

theorem acknowledged_of_completed {log : List SentCompound} {k : Nat}
    (h : ∃ sent ∈ log, ∃ r, CompletedIn closeMany.toBatchShape
      (fun _ _ => (.ok () : RpcResult Unit)) ops sent k r) :
    Acknowledged closeMany.toBatchShape ops log k := by
  obtain ⟨sent, hs, -, start, chunk, res, i, hc, hi, hk, hsu, -⟩ := h
  exact ⟨sent, hs, start, chunk, res, i, hc, hi, hk, .inl ⟨hsu, rfl⟩⟩

/-- Where the loop stands, the acknowledged entries are those in front of it, and
none is gone. -/
theorem CloseTrail.settled (h : CloseTrail ops st)
    (hgathered : BatchGathered closeMany.toBatchShape (fun _ _ => .ok ()) ops client st) :
    (∀ k, Acknowledged closeMany.toBatchShape ops st.log k ↔ k < st.global) ∧
      ∀ k, ¬ Gone closeMany.toBatchShape ops st.log k := by
  refine ⟨fun k => ⟨?_, fun hk => ?_⟩, ?_⟩
  · rintro ⟨sent, hs, ha⟩
    exact (h.answered hs ha).1 rfl
  · obtain ⟨sent, hs, r, hf⟩ := hgathered.exists_completed k hk
    exact acknowledged_of_completed ⟨sent, hs, _, hf⟩
  · rintro k ⟨sent, hs, status, hl, ha⟩
    rw [(h.answered hs ha).2] at hl
    cases hl

theorem call_ok_not_poisoned {shape : BatchShape T} {st st₁ : BatchState R}
    (h : st.call shape net tagged = (st₁, .ok res)) : st₁.client.session.poisoned = false := by
  unfold call at h
  dsimp only at h
  split at h
  · cases h
  rename_i request hp
  have hr : st.client.session.poisoned = false := by
    have hs := prepareCompound_ok hp
    unfold Session.sequenced at hs
    split at hs
    · cases hs
    · rename_i hpo
      simpa using hpo
  have hc : callResult request (net st.log.length request).received = .ok res := by
    simpa using congrArg Prod.snd h
  obtain rfl := congrArg Prod.fst h
  rw [hc]
  unfold completeCompound Session.complete
  dsimp only
  split
  · rename_i heq
    split at heq <;> cases heq
  · split <;> exact hr

theorem finishChunk_inl_client {shape : BatchShape T} {extract : CompoundRes → Nat → RpcResult R}
    {onFailure : Client → List R → Client} {st st' : BatchState R} {chunkLen : Nat}
    (h : finishChunk shape extract onFailure st chunkLen res = .inl st') :
    st'.client = st.client := by
  unfold finishChunk at h
  dsimp only at h
  repeat' split at h
  all_goals cases h
  all_goals rfl

/-- Only a chunk that succeeded, or that was refused for its size, lets the batch
go on. -/
theorem CloseTrail.step (h : CloseTrail ops st)
    (hstep : batchStep closeMany.toBatchShape (fun _ _ => .ok ()) (fun client _ => client) net ops
      st = .inl st') : CloseTrail ops st' := by
  have hrn := batchStep_round closeMany.toBatchShape (fun _ _ => (.ok () : RpcResult Unit))
    (fun client _ => client) net ops st
  rw [hstep] at hrn
  generalize hn : Sum.inl st' = next at hrn
  cases hrn with
  | finished hg => cases hn
  | unsent client error => cases hn
  | failed chunkSize st₁ client error error' hca hg hc => cases hn
  | cut chunkSize hca hlo hpo =>
    cases hn
    exact ⟨h.replied, h.fresh⟩
  | replied chunkSize st₁ res hca hg hc =>
    obtain ⟨-, hsa, -, -, ⟨reached, hl⟩, request, hsh, -⟩ := BatchState.call_ok hc
    have hrd := call_ok_not_poisoned hc
    obtain ⟨hpo, hle, -⟩ := gathered_chunk_pos hg hca
    have hold {global : Nat} (hf : st.global ≤ global) (sent : SentCompound)
        (hs : sent ∈ st.log) : ∃ start chunk res,
          AnsweredChunk closeMany.toBatchShape ops sent start chunk res ∧ 0 < chunk.length ∧
          (∃ request, ReplyShape request res) ∧
          (res.status = ok ∧ start + chunk.length ≤ global ∨
            res.nops ≤ 2 ∧ stateLost res.status = false) := by
      obtain ⟨start, chunk, res, hch, hpo, hr, hk⟩ := h.replied sent hs
      exact ⟨start, chunk, res, hch, hpo, hr, hk.imp (fun hd => ⟨hd.1, Nat.le_trans hd.2 hf⟩) id⟩
    have hne : AnsweredChunk closeMany.toBatchShape ops
        ⟨closeMany.tagOps st.global (st.chunk ops chunkSize), reached, .ok res⟩ st.global
        (st.chunk ops chunkSize) res := ⟨rfl, ⟨_, rfl⟩, rfl⟩
    dsimp only at hsa hl
    have hr := hn.symm
    unfold batchReply at hr
    split at hr
    · rename_i next hrt
      subst hr
      obtain ⟨-, hre, rfl, -⟩ := mutationRetry_inl hrt
      refine ⟨fun sent hs => ?_, fun hp => by simp [hrd] at hp⟩
      rw [hl] at hs
      rcases mem_append.mp hs with hm | hm
      · exact hold (Nat.le_of_eq hsa.symm) sent hm
      rw [mem_singleton.mp hm]
      refine ⟨_, _, _, hne, hpo, ⟨request, hsh⟩, .inr ⟨nops_le_two_of_rejected hre, ?_⟩⟩
      unfold resourceRejectedBeforeMutation at hre
      split at hre
      · cases hre
      · rename_i hst
        simp only [replyView_status, not_and_or, not_not] at hst
        rcases hst with hst | hst <;> rw [hst] <;> rfl
    split at hr
    · rename_i next hrt
      subst hr
      have hreadOnly := (resourceRetry_inl hrt).1
      cases hreadOnly
    obtain ⟨-, hst, hl', hg'⟩ := finishChunk_inl hr
    refine ⟨fun sent hs => ?_, fun hp => ?_⟩
    · rw [hl', hl] at hs
      rcases mem_append.mp hs with hm | hm
      · exact hold (by omega) sent hm
      · rw [mem_singleton.mp hm]
        exact ⟨_, _, _, hne, hpo, ⟨request, hsh⟩, .inl ⟨hst, by omega⟩⟩
    · rw [finishChunk_inl_client hr, hrd] at hp
      cases hp

theorem BatchState.call_requestFits {shape : BatchShape T} {st st₁ : Vnfs.BatchState R}
    {result : RpcResult CompoundRes} (h : st.call shape net tagged = (st₁, result)) :
    st₁.client.requestFits = st.client.requestFits := by
  obtain rfl := congrArg Prod.fst h
  unfold Vnfs.BatchState.call
  dsimp only
  split
  · rfl
  · exact (st.client.completeCompound_frame _ _ _).2

/-- A reply the check refuses counts as lost in transport. -/
theorem validateResponseOps_error (h : validateResponseOps request res = .error e) :
    e.isTransport = true := by
  have hf (status : Status) (count index : Nat) (args : List ArgOp) (results : List ResOp)
      (h : validateResponseOpsFrom status count index args results = .error e) :
      e.isTransport = true := by
    induction args generalizing index results with
    | nil => cases h
    | cons arg args ih =>
      cases results with
      | nil => cases h
      | cons actual results =>
        simp only [validateResponseOpsFrom, bind, Except.bind] at h
        split at h
        · rename_i e' ho
          cases h
          unfold validateResponseOp at ho
          dsimp only at ho
          repeat' split at ho
          all_goals cases ho
          all_goals rfl
        · exact ih _ _ h
  unfold validateResponseOps at h
  dsimp only at h
  split at h
  · cases h
    rfl
  split at h
  · cases h
    rfl
  split at h
  · cases h
    rfl
  · exact hf _ _ _ _ _ h

namespace PlainServer

variable {T R : Type} {shape : BatchShape T} {batch batch₁ : BatchState R}
  {tagged : List (Nat × ArgOp)} (hserver : PlainServer net client)
include hserver

theorem call_error {e : RpcError} (h : batch.call shape net tagged = (batch₁, .error e)) :
    batch₁ = batch ∧ batch.client.prepareCompound (tagged.map Prod.snd) = .error e ∨
      e.isTransport = true ∧ batch₁.global = batch.global ∧
        ∃ reached, batch₁.log = batch.log ++ [⟨tagged, reached, .error e⟩] := by
  unfold call at h
  dsimp only at h
  split at h
  · rename_i hp
    cases h
    exact .inl ⟨rfl, hp⟩
  rename_i request hp
  have hc : callResult request (net batch.log.length request).received = .error e := by
    simpa using congrArg Prod.snd h
  obtain rfl := congrArg Prod.fst h
  refine .inr ⟨?_, rfl, (net batch.log.length request).reached, by rw [← hc]⟩
  cases hr : (net batch.log.length request).received with
  | error e' =>
    rw [hr] at hc
    cases hc
    exact hserver.lost _ _ _ hr
  | ok res =>
    rw [hr] at hc
    cases hv : validateResponseOps request res with
    | error e' =>
      simp only [callResult, hv, bind, Except.bind, Except.error.injEq] at hc
      exact hc ▸ validateResponseOps_error hv
    | ok _ => simp [callResult, hv, bind, Except.bind, pure, Except.pure] at hc

theorem call_ok {res : CompoundRes} (h : batch.call shape net tagged = (batch₁, .ok res)) :
    res.status ≠ transport ∧ (stateLost res.status = true → 2 ≤ res.nops) := by
  unfold call at h
  dsimp only at h
  split at h
  · cases h
  rename_i request hp
  have hc : callResult request (net batch.log.length request).received = .ok res := by
    simpa using congrArg Prod.snd h
  obtain ⟨hr, hv⟩ := callResult_ok hc
  exact hserver.replies _ _ _ hr hv

end PlainServer

/-- How the batch of CLOSEs ends: `m` entries are acknowledged, the ones in front.
An error outside transport carries that position, and says whether the entry there
is gone. -/
def CloseExit (ops : List CloseOp) (log : List SentCompound) : RpcResult (List Unit) → Prop
  | .ok _ => (∀ k, Acknowledged closeMany.toBatchShape ops log k ↔ k < ops.length) ∧
      (∀ k, ¬ Gone closeMany.toBatchShape ops log k) ∧ ¬ LostExchange log
  | .error e => ∃ m, (∀ k, Acknowledged closeMany.toBatchShape ops log k ↔ k < m) ∧
      (e.isTransport = true ∧ m ≤ ops.length ∧
          (∀ k, ¬ Gone closeMany.toBatchShape ops log k) ∧ (LostExchange log ∨ m = 0) ∨
        e.isTransport = false ∧ m < ops.length ∧ e.opIndex = m ∧ ¬ LostExchange log ∧
          ∀ k, Gone closeMany.toBatchShape ops log k ↔ k = m ∧ stateLost e.status = true)

namespace CloseTrail

variable (h : CloseTrail ops st)
  (hgathered : BatchGathered closeMany.toBatchShape (fun _ _ => .ok ()) ops client st)
include h hgathered

variable {e : RpcError} {sent : SentCompound}

theorem exit_unsent (ht : e.isTransport = false) (hlt : st.global < ops.length)
    (hi : e.opIndex = st.global) (hs : stateLost e.status = false) :
    CloseExit ops st.log (.error e) := by
  obtain ⟨ha, hg⟩ := h.settled hgathered
  refine ⟨st.global, ha, .inr ⟨ht, hlt, hi, h.not_lost, fun k => ?_⟩⟩
  exact ⟨fun hk => absurd hk (hg k), fun hk => by rw [hs] at hk; cases hk.2⟩

theorem exit_poisoned (ht : e.isTransport = true) (hp : st.client.session.poisoned = true) :
    CloseExit ops st.log (.error e) := by
  obtain ⟨ha, hg⟩ := h.settled hgathered
  have hz : st.global = 0 := by
    by_contra hne
    obtain ⟨sent, hs, -⟩ := (ha 0).mpr (Nat.pos_of_ne_zero hne)
    rw [h.fresh hp] at hs
    cases hs
  exact ⟨st.global, ha, .inl ⟨ht, hgathered.global_le, hg, .inr hz⟩⟩

theorem exit_unanswered (hc : sent.called = .error e) (ht : e.isTransport = true) :
    CloseExit ops (st.log ++ [sent]) (.error e) := by
  obtain ⟨ha, hg⟩ := h.settled hgathered
  refine ⟨st.global, fun k => ?_, .inl ⟨ht, hgathered.global_le, fun k => ?_, .inl ?_⟩⟩
  · rw [acknowledged_concat, ha]
    exact or_iff_left (not_answered_of_error hc k _)
  · rw [gone_concat]
    rintro (hk | ⟨status, -, han⟩)
    · exact hg k hk
    · exact not_answered_of_error hc k status han
  · exact lostExchange_concat.mpr (.inr ⟨e, hc⟩)

theorem exit_failed {chunk : List CloseOp} {res : CompoundRes} {request : List ArgOp}
    (han : AnsweredChunk closeMany.toBatchShape ops sent st.global chunk res)
    (hp : 0 < chunk.length) (hle : st.global + chunk.length ≤ ops.length)
    (hsh : ReplyShape request res) (hlen : request.length = closeMany.perOp * chunk.length + 1)
    (hf : res.status ≠ ok) (hb : stateLost res.status = true → 2 ≤ res.nops)
    (hs : e.status = res.status) (ht : e.isTransport = false)
    (hi : e.opIndex = st.global + (res.nops - 2) / closeMany.perOp) :
    CloseExit ops (st.log ++ [sent]) (.error e) := by
  obtain ⟨ha, hg⟩ := h.settled hgathered
  obtain ⟨hlt, hn, hl⟩ := answered_failed han hp hsh hlen hf hb
  refine ⟨st.global + (res.nops - 2) / closeMany.perOp, fun k => ?_,
    .inr ⟨ht, by omega, hi, ?_, fun k => ?_⟩⟩
  · rw [acknowledged_concat, ha, hn]
    generalize (res.nops - 2) / closeMany.perOp = m
    omega
  · rw [lostExchange_concat, han.answered]
    rintro (hold | ⟨e', he'⟩)
    · exact h.not_lost hold
    · cases he'
  · rw [gone_concat, hl, hs]
    exact or_iff_right (hg k)

end CloseTrail

theorem not_transport (hs : e.status = res.status) (hpl : res.status ≠ transport) :
    e.isTransport = false := by
  rw [RpcError.isTransport, hs]
  exact beq_false_of_ne hpl

theorem CloseTrail.exit_reply (hserver : PlainServer net client) (h : CloseTrail ops st)
    (hgathered : BatchGathered closeMany.toBatchShape (fun _ _ => .ok ()) ops client st)
    (hg : st.global < ops.length) {chunkSize : Nat}
    (hca : st.capacity closeMany.toBatchShape = .ok chunkSize) (hc : call closeMany.toBatchShape net
      {st with maxItems := usizeMax, maxItems_pos := usizeMax_pos}
      (closeMany.tagOps st.global (st.chunk ops chunkSize)) = (st₁, .ok res))
    (hrp : batchReply closeMany.toBatchShape (fun _ _ => .ok ()) (fun client _ => client) st₁
      (st.chunk ops chunkSize).length res = .inr done) : CloseExit ops done.log done.result := by
  have hre := hgathered.call_replied hg hca hc
  obtain ⟨-, hsa, -, -, ⟨reached, hlo⟩, request, hsh, hl⟩ := BatchState.call_ok hc
  obtain ⟨hpl, hb⟩ := hserver.call_ok hc
  rw [length_tagOps] at hl
  obtain ⟨hba, hno⟩ := badOp_failed hsh
  obtain ⟨hp, hle, -⟩ := gathered_chunk_pos hg hca
  have hf {e : RpcError} (hne : res.status ≠ ok) (hs : e.status = res.status)
      (hid : e.opIndex = st.global + (res.nops - 2) / closeMany.perOp) :
      CloseExit ops st₁.log (.error e) := by
    rw [hlo]
    exact h.exit_failed hgathered ⟨rfl, ⟨_, rfl⟩, rfl⟩ hp hle hsh hl hne hb hs
      (not_transport hs hpl) hid
  have he (count : Nat) (e : RpcError) :
      extractAll (fun _ _ => (.ok () : RpcResult Unit)) res count ≠ .error e := by
    intro her
    obtain ⟨i, -, hi⟩ := extractAll_error her
    cases hi
  unfold batchReply at hrp
  split at hrp
  · -- one entry fits the session, so the retry has a capacity
    rename_i next hr
    subst hrp
    unfold mutationRetry at hr
    split at hr
    · split at hr
      · rename_i e hn
        exact absurd hn (hre.capacity_ne_error e)
      · split at hr <;> cases hr
    · cases hr
  split at hrp
  · rename_i next hr
    unfold resourceRetry batchResourceProgress at hr
    simp [closeMany.not_readOnly] at hr
  unfold finishChunk at hrp
  dsimp only at hrp
  split at hrp
  · rename_i op hop
    obtain ⟨hla, hne, hs⟩ := hba op hop
    split at hrp
    · rename_i e her
      exact absurd her (he _ e)
    cases hrp
    refine hf hne hs ?_
    have hlt := hre.before_failure.1
    rw [hop, Option.getD_some] at hlt
    simp only [RpcError.op, callerIndex, hsa]
    rw [show res.nops - 2 = op - 1 by omega]
    omega
  rename_i hop
  split at hrp
  · rename_i hne
    have hz := hno hop hne
    split at hrp
    · rename_i e her
      exact absurd her (he _ e)
    · cases hrp
      refine hf hne rfl ?_
      simp [RpcError.op, hsa, hz]
  split at hrp
  · rename_i e her
    exact absurd her (he _ e)
  · cases hrp

theorem CloseTrail.exit (hserver : PlainServer net client) (h : CloseTrail ops st)
    (hgathered : BatchGathered closeMany.toBatchShape (fun _ _ => .ok ()) ops client st)
    (hs : batchStep closeMany.toBatchShape (fun _ _ => .ok ()) (fun client _ => client) net ops
      st = .inr done) : CloseExit ops done.log done.result := by
  unfold batchStep at hs
  split at hs
  · rename_i hg
    split at hs
    · rename_i e hc
      cases hs
      obtain ⟨rfl, hfu⟩ := capacity_error hc
      have hz : st.global = 0 := by
        by_contra hne
        have := hgathered.room (Nat.pos_of_ne_zero hne)
        rw [hgathered.maxOps_eq] at hfu
        omega
      exact h.exit_unsent hgathered rfl hg hz.symm rfl
    rename_i chunkSize hc
    dsimp only at hs
    split at hs
    · rename_i e hf
      obtain ⟨fits, he⟩ := hserver.encodes
        ((closeMany.tagOps st.global (st.chunk ops chunkSize)).map Prod.snd)
      rw [hgathered.fits_eq, he] at hf
      cases hf
    rename_i fits hf
    split at hs
    · cases hs
    split at hs
    · rename_i st₁ e hca
      rcases hserver.call_error hca with ⟨rfl, hp⟩ | ⟨ht, -, reached, hl⟩
      · obtain ⟨hpos, -, hle⟩ := gathered_chunk_pos hg hc
        rcases prepareCompound_error hp with
          ⟨-, hm⟩ | her | ⟨rfl, -⟩ | ⟨rfl, hpo⟩
        · -- the chunk was cut to the session's limit
          have hr := (capacity_ok hc).2
          have hmu := Nat.mul_le_mul_left closeMany.perOp hle
          rw [length_map, length_tagOps] at hm
          dsimp only at hm
          omega
        · dsimp only at her
          rw [hf] at her
          cases her
        · rw [if_neg (by decide)] at hs
          cases hs
          refine h.exit_unsent hgathered rfl hg ?_ rfl
          simp [RpcError.withOpIndex, callerIndex, RpcError.op]
        · rw [if_pos (by rfl)] at hs
          cases hs
          exact h.exit_poisoned hgathered rfl hpo
      rw [if_pos ht] at hs
      cases hs
      dsimp only [fail]
      rw [hl]
      exact h.exit_unanswered hgathered rfl ht
    · rename_i st₁ res hca
      exact h.exit_reply hserver hgathered hg hc hca hs
  rename_i hg
  cases hs
  obtain ⟨ha, hgo⟩ := h.settled hgathered
  have hal := Nat.le_antisymm hgathered.global_le (Nat.le_of_not_lt hg)
  exact ⟨hal ▸ ha, hgo, h.not_lost⟩

theorem closeManyRun_exit (hserver : PlainServer net client) :
    CloseExit ops (closeManyRun net client ops).log (closeManyRun net client ops).result := by
  unfold closeManyRun batchOpsFallibleWithFailure
  split
  · rename_i he
    obtain rfl := List.isEmpty_iff.mp he
    refine ⟨fun k => ⟨?_, fun hk => by cases hk⟩, ?_, ?_⟩
    · rintro ⟨sent, hs, -⟩
      cases hs
    · rintro k ⟨sent, hs, -⟩
      cases hs
    · rintro ⟨sent, hs, -⟩
      cases hs
  refine Loop.run_invariant _
    (P := fun st => BatchGathered closeMany.toBatchShape (fun _ _ => .ok ()) ops client st ∧
      CloseTrail ops st)
    (Q := fun done : BatchDone Unit => CloseExit ops done.log done.result) ?_ ?_
    ⟨⟨rfl, Nat.zero_le _, fun k r hr => (by cases hr), rfl, rfl, fun hpoisoned => ⟨hpoisoned, rfl⟩,
        fun hp => (by cases hp)⟩,
      fun sent hs => (by cases hs), fun _ => rfl⟩
  · rintro st st' ⟨hgathered, ht⟩ hst
    have hn := hgathered.batchStep (fun client _ => client) net
    rw [show Vnfs.batchStep _ _ _ net ops st = .inl st' from hst] at hn
    exact ⟨hn, ht.step hst⟩
  · rintro st done ⟨hgathered, ht⟩ hst
    exact ht.exit hserver hgathered hst

end Trail

/-- The queue behind a drain is what is still unsettled, and a drain whose entries
are all settled succeeds. -/
def DrainSettles (shape : BatchShape CloseOp) (pending : List CloseOp) (done : DrainDone) : Prop :=
  done.queue = unsettled shape pending done.log 0 pending ∧
    ((∀ k < pending.length, Acknowledged shape pending done.log k ∨
      Gone shape pending done.log k) → done.queue = [] ∧ done.result = .ok ())

section Drains

variable {net : Network} {client : Client} {pending : List CloseOp}

/-- No entry was gone, and no exchange was lost behind an acknowledged entry. -/
def DescriptorClosesPlain (pending : List CloseOp) (log : List SentCompound) : Prop :=
  (∀ k, ¬ Gone closeMany.toBatchShape pending log k) ∧
    (LostExchange log → ∀ k, ¬ Acknowledged closeMany.toBatchShape pending log k)

variable {log : List SentCompound} {m : Nat} {request : List ArgOp} {res : CompoundRes}
  {st : BatchState Unit} {rest : List CloseOp}

theorem unsettled_of_acknowledged
    (ha : ∀ k, Acknowledged closeMany.toBatchShape pending log k ↔ k < m)
    (hg : ∀ k, ¬ Gone closeMany.toBatchShape pending log k) :
    unsettled closeMany.toBatchShape pending log 0 pending = pending.drop m := by
  refine unsettled_eq_drop (Nat.zero_le m) fun j _ _ => ?_
  rw [or_iff_left (hg j), ha]

theorem drop_eq_drop {n : Nat} (hm : m ≤ pending.length) (hn : n ≤ pending.length)
    (h : pending.drop m = pending.drop n) : m = n := by
  have := congrArg List.length h
  rw [length_drop, length_drop] at this
  omega

theorem drainDeferredDescriptorCloses_settles (hserver : PlainServer net client) :
    DrainSettles closeMany.toBatchShape pending (drainDeferredDescriptorCloses net client pending) ↔
      DescriptorClosesPlain pending (drainDeferredDescriptorCloses net client pending).log := by
  unfold drainDeferredDescriptorCloses
  split
  · rename_i hem
    obtain rfl := List.isEmpty_iff.mp hem
    refine iff_of_true ⟨rfl, fun _ => ⟨rfl, rfl⟩⟩ ⟨?_, ?_⟩
    · rintro k ⟨sent, hs, -⟩
      cases hs
    · rintro ⟨sent, hs, -⟩
      cases hs
  rename_i hso
  have hp : 0 < pending.length := by
    cases pending with
    | nil => exact absurd rfl hso
    | cons close rest => exact Nat.succ_pos _
  have he : CloseExit pending (closeManyRun net client pending).log
      (closeManyRun net client pending).result := closeManyRun_exit hserver
  dsimp only
  split
  · rename_i out hr
    rw [hr] at he
    obtain ⟨ha, hg, hl⟩ := he
    refine iff_of_true ⟨?_, fun _ => ⟨rfl, rfl⟩⟩ ⟨hg, fun hl' => absurd hl' hl⟩
    rw [unsettled_of_acknowledged ha hg, drop_length]
  rename_i e hr
  rw [hr] at he
  obtain ⟨m, ha, ⟨ht, hle, hg, hl⟩ | ⟨ht, hlt, hi, hl, hg⟩⟩ := he
  · -- all entries stay, so it is right only if none was acknowledged
    rw [if_pos ht, drop_zero]
    constructor
    · rintro ⟨hq, -⟩
      refine ⟨hg, fun _ k hk => ?_⟩
      rw [unsettled_of_acknowledged ha hg] at hq
      have := drop_eq_drop (m := 0) (Nat.zero_le _) hle hq
      rw [ha] at hk
      omega
    rintro ⟨-, hn⟩
    have hz : m = 0 := by
      rcases hl with hl | hz
      · by_contra hne
        exact hn hl 0 ((ha 0).mpr (Nat.pos_of_ne_zero hne))
      · exact hz
    refine ⟨?_, fun hal => ?_⟩
    · dsimp only
      rw [unsettled_of_acknowledged ha hg, hz, drop_zero]
    rcases hal 0 hp with hf | hf
    · have := (ha 0).mp hf
      omega
    · exact absurd hf (hg 0)
  -- the entry at which the batch stopped stays, gone or not
  rw [if_neg (by simp [ht]), hi, Nat.min_eq_left (Nat.le_of_lt hlt)]
  constructor
  · rintro ⟨hq, -⟩
    refine ⟨fun k hk => ?_, fun hl' => absurd hl' hl⟩
    have hst := ((hg k).mp hk).2
    have hse (j : Nat) (_ : 0 ≤ j) (_ : j < 0 + pending.length) :
        Acknowledged closeMany.toBatchShape pending (closeManyRun net client pending).log j ∨
          Gone closeMany.toBatchShape pending (closeManyRun net client pending).log j ↔
            j < m + 1 := by
      rw [ha, hg, and_iff_left hst]
      omega
    rw [unsettled_eq_drop (Nat.zero_le _) hse] at hq
    have := drop_eq_drop (Nat.le_of_lt hlt) hlt hq
    omega
  rintro ⟨hn, -⟩
  refine ⟨unsettled_of_acknowledged ha hn |>.symm, fun hal => ?_⟩
  rcases hal m hlt with hf | hf
  · exact absurd ((ha m).mp hf) (Nat.lt_irrefl m)
  · exact absurd hf (hn m)

/-- This compound acknowledged entry `k` or answered that its state is gone. -/
private def SettledIn (pending : List CloseOp) (sent : SentCompound) (k : Nat) : Prop :=
  EntryAnswered closeOne pending sent k Status.ok ∨
    ∃ status, stateLost status = true ∧ EntryAnswered closeOne pending sent k status

private def Settled (pending : List CloseOp) (log : List SentCompound) (k : Nat) : Prop :=
  Acknowledged closeOne pending log k ∨ Gone closeOne pending log k

theorem settled_concat {sent : SentCompound} {k : Nat} :
    Settled pending (log ++ [sent]) k ↔ Settled pending log k ∨ SettledIn pending sent k := by
  unfold Settled SettledIn
  rw [acknowledged_concat, gone_concat]
  tauto

theorem expectAllOk_ok (hsh : ReplyShape request res) (hok : res.status = ok) :
    expectAllOk res = .ok () := by
  unfold expectAllOk
  split
  · rename_i op hb
    exact absurd hok ((badOp_failed hsh).1 op hb).2.1
  · rw [if_neg (by simp [hok])]

theorem expectAllOk_failed (hsh : ReplyShape request res) (hf : res.status ≠ ok) :
    ∃ e, expectAllOk res = .error e ∧ e.status = res.status := by
  unfold expectAllOk
  split
  · rename_i op hb
    exact ⟨_, rfl, ((badOp_failed hsh).1 op hb).2.2⟩
  · rw [if_pos hf]
    exact ⟨_, rfl, rfl⟩

open BatchState

/-- The entry at the position of the state is the one whose answer a CLOSE reads. -/
theorem closeUnregistered_cases (hserver : PlainServer net client) {st₁ : BatchState Unit}
    {close : CloseOp} {result : RpcResult Unit} (hrest : pending.drop st.global = close :: rest)
    (hf : st.client.requestFits = client.requestFits)
    (h : closeUnregistered net st close = (st₁, result)) :
    st₁.global = st.global ∧ st₁.client.requestFits = client.requestFits ∧
      ((result = .ok () ∨ ∃ e, result = .error e ∧ stateLost e.status = true) ∧
          (∃ sent, st₁.log = st.log ++ [sent] ∧ ∀ k, SettledIn pending sent k ↔ k = st.global) ∨
        (∃ e, result = .error e ∧ stateLost e.status = false) ∧
          (st₁.log = st.log ∨ ∃ sent, st₁.log = st.log ++ [sent] ∧
            ∀ k, ¬ SettledIn pending sent k)) := by
  have hit : [close] = (pending.drop st.global).take 1 := by rw [hrest]; rfl
  have hp : closeOne.perOp = 2 := rfl
  unfold closeUnregistered at h
  split at h
  · rename_i st₂ e hc
    cases h
    rcases hserver.call_error hc with ⟨rfl, hpr⟩ | ⟨ht, hg, reached, hlo⟩
    · refine ⟨rfl, hf, .inr ⟨⟨e, rfl, ?_⟩, .inl rfl⟩⟩
      rcases prepareCompound_error hpr with
        ⟨rfl, -⟩ | her | ⟨rfl, -⟩ | ⟨rfl, -⟩
      · rfl
      · obtain ⟨fits, he⟩ := hserver.encodes ((closeOne.tagOps st₁.global [close]).map Prod.snd)
        rw [hf, he] at her
        cases her
      · rfl
      · rfl
    have hke : st₁.client.requestFits = client.requestFits := (call_requestFits hc).trans hf
    refine ⟨hg, hke, .inr ⟨⟨e, rfl, ?_⟩, .inr ⟨_, hlo, fun k => ?_⟩⟩⟩
    · have hs : e.status = transport := by simpa [RpcError.isTransport] using ht
      rw [hs]
      rfl
    · rintro (ha | ⟨status, -, ha⟩)
      · exact not_answered_of_error rfl k _ ha
      · exact not_answered_of_error rfl k _ ha
  rename_i st₂ res hc
  cases h
  obtain ⟨-, hg, -, hsa, ⟨reached, hlo⟩, request, hsh, hle⟩ := BatchState.call_ok hc
  obtain ⟨-, hb⟩ := hserver.call_ok hc
  rw [length_tagOps] at hle
  have ha : AnsweredChunk closeOne pending
      ⟨closeOne.tagOps st.global [close], reached, .ok res⟩ st.global [close] res :=
    ⟨rfl, ⟨1, hit⟩, rfl⟩
  refine ⟨hg, hsa.trans hf, ?_⟩
  by_cases hok : res.status = ok
  · have hre := hsh.nops_of_ok hok
    refine .inl ⟨.inl (expectAllOk_ok hsh hok), _, hlo, fun k => ⟨?_, ?_⟩⟩
    · rintro (hk | ⟨status, -, hk⟩)
      · obtain ⟨i, hi, rfl, -⟩ := (answered_sent ha Nat.one_pos k _).mp hk
        rw [Nat.lt_one_iff.mp hi, Nat.add_zero]
      · obtain ⟨i, hi, rfl, -⟩ := (answered_sent ha Nat.one_pos k _).mp hk
        rw [Nat.lt_one_iff.mp hi, Nat.add_zero]
    rintro rfl
    refine .inl ((answered_sent ha Nat.one_pos _ _).mpr
      ⟨0, Nat.one_pos, rfl, .inl ⟨fun op ho => ?_, rfl⟩⟩)
    have hlt : op < res.nops := by
      have hst := ho.2
      dsimp only [slots] at hst
      rw [hre, hle, hp]
      rw [hp] at hst
      simpa using hst
    refine ⟨hlt, ?_⟩
    by_cases hla : op + 1 = res.nops
    · rw [hsh.last_status op hla, hok]
    · exact hsh.ok_before_last op (by omega)
  obtain ⟨hlt, hac, hgo⟩ := answered_failed ha Nat.one_pos hsh hle hok hb
  rw [Nat.lt_one_iff.mp hlt, Nat.add_zero] at hac hgo
  obtain ⟨e, hr, hs⟩ := expectAllOk_failed hsh hok
  have hse (k : Nat) : SettledIn pending ⟨closeOne.tagOps st.global [close], reached, .ok res⟩ k ↔
        k = st.global ∧ stateLost res.status = true := by
    unfold SettledIn
    rw [hac, hgo, or_iff_right (by omega)]
  cases hl : stateLost res.status with
  | true =>
    refine .inl ⟨.inr ⟨e, hr, hs ▸ hl⟩, _, hlo, fun k => ?_⟩
    rw [hse, and_iff_left hl]
  | false =>
    refine .inr ⟨⟨e, hr, hs ▸ hl⟩, .inr ⟨_, hlo, fun k hk => ?_⟩⟩
    rw [hse, hl] at hk
    cases hk.2

/-- The walk over the queue stops at the first entry that is not settled. -/
theorem drainPathFrom_settles (hserver : PlainServer net client)
    (hre : pending.drop st.global = rest) (hle : st.global ≤ pending.length)
    (hfi : st.client.requestFits = client.requestFits)
    (hse : ∀ k, Settled pending st.log k ↔ k < st.global) :
    ∃ m ≤ pending.length, (drainPathFrom net st rest).queue = pending.drop m ∧
      (∀ k, Settled pending (drainPathFrom net st rest).log k ↔ k < m) ∧
      (m = pending.length → (drainPathFrom net st rest).result = .ok ()) := by
  induction rest generalizing st with
  | nil =>
    exact ⟨st.global, hle, by rw [hre]; rfl, hse, fun _ => rfl⟩
  | cons close rest ih =>
    have hlt : st.global < pending.length := by
      have := congrArg List.length hre
      rw [length_drop, length_cons] at this
      omega
    have hn : pending.drop (st.global + 1) = rest := by
      rw [← drop_drop, hre, drop_one, tail_cons]
    -- behind a settled entry the walk goes on with the rest
    have hf {st₁ : BatchState Unit} (hg : st₁.global = st.global)
        (hk : st₁.client.requestFits = client.requestFits)
        (hs : ∃ sent, st₁.log = st.log ++ [sent] ∧ ∀ k, SettledIn pending sent k ↔ k = st.global) :
        ∃ m ≤ pending.length, (drainPathFrom net (advanced st₁) rest).queue = pending.drop m ∧
          (∀ k, Settled pending (drainPathFrom net (advanced st₁) rest).log k ↔ k < m) ∧
          (m = pending.length → (drainPathFrom net (advanced st₁) rest).result = .ok ()) := by
      have ha : (advanced st₁).global = st.global + 1 := by
        rw [advanced, hg]
      obtain ⟨sent, hl, hne⟩ := hs
      refine ih (ha ▸ hn) (ha ▸ hlt) hk fun k => ?_
      change Settled pending st₁.log k ↔ _
      rw [ha, hl, settled_concat, hse, hne]
      omega
    cases hcl : closeUnregistered net st close with
    | mk st₁ result =>
      obtain ⟨hg, hk, ⟨hr, hs⟩ | ⟨⟨e, rfl, hlo⟩, hl⟩⟩ := closeUnregistered_cases hserver hre hfi hcl
      · rcases hr with rfl | ⟨e, rfl, hlo⟩
        · simp only [drainPathFrom, hcl]
          exact hf hg hk hs
        · simp only [drainPathFrom, hcl, hlo, if_true]
          exact hf hg hk hs
      simp only [drainPathFrom, hcl, hlo, Bool.false_eq_true, if_false]
      refine ⟨st.global, hle, hre.symm, fun k => ?_, fun he => absurd he (by omega)⟩
      rcases hl with hl | ⟨sent, hl, hno⟩
      · rw [hl, hse]
      · rw [hl, settled_concat, hse, or_iff_left (hno k)]

theorem drainDeferredPathCloses_settles (hserver : PlainServer net client) :
    DrainSettles closeOne pending (drainDeferredPathCloses net client pending) := by
  have hf (k : Nat) : Settled pending [] k ↔ k < 0 := by
    refine ⟨?_, fun hk => by cases hk⟩
    rintro (⟨sent, hs, -⟩ | ⟨sent, hs, -⟩) <;> cases hs
  obtain ⟨m, hle, hq, hse, hr⟩ : ∃ m ≤ pending.length,
      (drainDeferredPathCloses net client pending).queue = pending.drop m ∧
      (∀ k, Settled pending (drainDeferredPathCloses net client pending).log k ↔ k < m) ∧
      (m = pending.length → (drainDeferredPathCloses net client pending).result = .ok ()) :=
    drainPathFrom_settles hserver (drop_zero (l := pending)) (Nat.zero_le _) rfl hf
  refine ⟨?_, fun ha => ?_⟩
  · rw [unsettled_eq_drop (Nat.zero_le m) fun j _ _ => hse j]
    exact hq
  have he : m = pending.length := by
    by_contra hne
    exact Nat.lt_irrefl m ((hse m).mp (ha m (by omega)))
  refine ⟨?_, hr he⟩
  rw [he, drop_length] at hq
  exact hq

end Drains

/-- The drain of the path queue keeps exactly the unsettled entries. The drain of
the descriptor queue does so if and only if the server finds the state of every
entry it is asked about, and loses no exchange behind an acknowledged entry. -/
theorem drainDeferredCloses_settle (net : Network) (client : Client) (pending : List CloseOp)
    (hserver : PlainServer net client) :
    (DrainSettles closeMany.toBatchShape pending
        (drainDeferredDescriptorCloses net client pending) ↔
      DescriptorClosesPlain pending (drainDeferredDescriptorCloses net client pending).log) ∧
    DrainSettles closeOne pending (drainDeferredPathCloses net client pending) :=
  ⟨drainDeferredDescriptorCloses_settles hserver, drainDeferredPathCloses_settles hserver⟩

/-- Two CLOSEs that are acknowledged leave neither queue an entry. -/
theorem drainDeferredCloses_settle_accepted :
    let client : Client := ⟨Session.fresh, 256, .new 256, fun _ => .ok true⟩
    let pending : List CloseOp := [⟨⟨[1]⟩, ⟨1, [5]⟩⟩, ⟨⟨[2]⟩, ⟨1, [6]⟩⟩]
    PlainServer acceptingNetwork client ∧
      DrainSettles closeMany.toBatchShape pending
        (drainDeferredDescriptorCloses acceptingNetwork client pending) ∧
      DrainSettles closeOne pending (drainDeferredPathCloses acceptingNetwork client pending) := by
  intro client pending
  have hserver : PlainServer acceptingNetwork client := by
    refine ⟨fun _ => ⟨true, rfl⟩, fun n request e he => (by cases he),
      fun n request res hres _ => ?_⟩
    cases hres
    exact ⟨show Status.ok ≠ Status.transport by decide, fun hlost => (by cases hlost)⟩
  have hresult : (closeManyRun acceptingNetwork client pending).result = .ok [(), ()] := by
    unfold closeManyRun batchOpsFallibleWithFailure
    apply Loop.run_of_runFor _ 2
    decide
  have hexit : CloseExit pending (closeManyRun acceptingNetwork client pending).log
      (closeManyRun acceptingNetwork client pending).result := closeManyRun_exit hserver
  have hlog : (drainDeferredDescriptorCloses acceptingNetwork client pending).log =
      (closeManyRun acceptingNetwork client pending).log := by
    unfold drainDeferredDescriptorCloses
    rw [if_neg (by simp [pending])]
    simp only [hresult]
  rw [hresult] at hexit
  obtain ⟨-, hgone, hlost⟩ := hexit
  obtain ⟨hdescriptors, hpaths⟩ :=
    drainDeferredCloses_settle acceptingNetwork client pending hserver
  refine ⟨hserver, hdescriptors.mpr ?_, hpaths⟩
  rw [hlog]
  exact ⟨hgone, fun hlost' => absurd hlost' hlost⟩

/-- A server that has lost the state of every CLOSE. -/
def lostStateNetwork : Network := fun _ _ =>
  ⟨.ok ⟨Status.badStateid, [⟨.sequence, Status.ok, .none, false⟩,
    ⟨.putfh, Status.ok, .none, false⟩, ⟨.close, Status.badStateid, .none, false⟩], false⟩, 3⟩

/-- The server answered BAD_STATEID to the only entry. The descriptor queue keeps the
entry and its drain fails; the path queue drops it. -/
theorem drainDeferredDescriptorCloses_keeps_gone :
    let client : Client := ⟨Session.fresh, 256, .new 256, fun _ => .ok true⟩
    let pending : List CloseOp := [⟨⟨[1]⟩, ⟨1, [5]⟩⟩]
    let descriptors := drainDeferredDescriptorCloses lostStateNetwork client pending
    let paths := drainDeferredPathCloses lostStateNetwork client pending
    Gone closeMany.toBatchShape pending descriptors.log 0 ∧ descriptors.queue = pending ∧
      descriptors.result = .error (.op 0 Status.badStateid) ∧
      paths.queue = [] ∧ paths.result = .ok () := by
  intro client pending descriptors paths
  have hresult : (closeManyRun lostStateNetwork client pending).result =
      .error (.op 0 Status.badStateid) := by
    unfold closeManyRun batchOpsFallibleWithFailure
    apply Loop.run_of_runFor _ 1
    decide
  have hserver : PlainServer lostStateNetwork client := by
    refine ⟨fun _ => ⟨true, rfl⟩, fun n request e he => (by cases he),
      fun n request res hres _ => ?_⟩
    cases hres
    exact ⟨by decide, fun _ => by decide⟩
  have hexit : CloseExit pending (closeManyRun lostStateNetwork client pending).log
      (closeManyRun lostStateNetwork client pending).result := closeManyRun_exit hserver
  rw [hresult] at hexit
  have hgone : Gone closeMany.toBatchShape pending
      (closeManyRun lostStateNetwork client pending).log 0 := by
    obtain ⟨m, -, ⟨htransport, -⟩ | ⟨-, -, hindex, -, hgone⟩⟩ := hexit
    · cases htransport
    · exact (hgone 0).mpr ⟨hindex, rfl⟩
  have hdone : descriptors = ⟨(closeManyRun lostStateNetwork client pending).client, pending,
      (closeManyRun lostStateNetwork client pending).log,
      .error (.op 0 Status.badStateid)⟩ := by
    unfold descriptors drainDeferredDescriptorCloses
    simp only [hresult]
    rfl
  rw [hdone]
  exact ⟨hgone, rfl, rfl, rfl, rfl⟩

end Nfs

end Vnfs
