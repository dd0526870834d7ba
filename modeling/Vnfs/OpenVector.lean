import Vnfs.CfhCursorWalk
import Vnfs.PathVector

/-!
`openv_path_compound`: OPENs of a vector of paths, as many to a compound as fit,
each followed by GETFH. What the server confirmed is kept in `opened`, and the
caller gets it with the outcome. On the way out with an error the states are
closed in one batch, and put off if that fails; but not on every way out: three
calls hand their error on directly.

The function begins by closing what an earlier call has put off, and sends
nothing else if that fails; so the states put off here are those of this call.
-/

namespace Vnfs

/-- The filehandle and the stateid of an open file. -/
abbrev OpenedPath := NfsFh × Stateid

namespace CompoundRes

variable (res : CompoundRes)

def isOpen (i : Nat) : Bool :=
  (res.resarray[i]?).elim false fun ro => ro.resop = .openFile

/-- The stateid of the OPEN at `i` and the filehandle of the GETFH behind it. The
data of a result is that of its operation. -/
def openedPath (i : Nat) : OpenedPath :=
  (match res.data (i + 1) with
    | .handle fh => fh
    | _ => ⟨[]⟩,
  match res.data i with
    | .opened stateid => stateid
    | _ => specialStateid)

/-- Both the OPEN at `i` and the GETFH behind it were answered with success. -/
def confirms (i : Nat) : Bool :=
  res.isOpen i ∧ res.opStatus i = Status.ok ∧ i + 1 < res.nops ∧
    res.opStatus (i + 1) = Status.ok

/-- The files of some positions, with the items they are for. -/
def openedAt (picks : Nat → Bool) (ranges : List OpRange) : List (Nat × OpenedPath) :=
  ranges.flatMap fun r =>
    ((List.range' r.start (r.stop - r.start)).filter picks).map fun i =>
      (r.caller, res.openedPath i)

end CompoundRes

variable (opened : List (Option OpenedPath))

/-- `opened[caller] = Some(..)` for each of them. -/
def recordOpens (files : List (Nat × OpenedPath)) :
    List (Option OpenedPath) :=
  files.foldl (fun opened file => opened.set file.1 (some file.2)) opened

/-- The batched calls the loop makes besides its own compounds. -/
structure OpenvCalls (σ : Type) where
  /-- `cleanup_exclusive_path_opens` for some items. -/
  cleanup : Remote σ → List (Option OpenedPath) → List Nat → Remote σ × RpcResult Unit
  cleanup_maxOps : ∀ remote opened items,
    (cleanup remote opened items).1.client.maxOps = remote.client.maxOps
  /-- `close_unregistered_many`; an error comes with the number of CLOSEs the server
  acknowledged before it. -/
  closeMany : Remote σ → List OpenedPath → Except Nat Unit

def openvPerFile : Nat := 6

def openvEst : Nat := 256

structure OpenvState (σ : Type) where
  remote : Remote σ
  opened : List (Option OpenedPath)
  failed : Option (Nat × Status)
  global : Nat
  maxItems : Nat
  /-- What the server has confirmed so far, by item. -/
  confirmed : List (Nat × OpenedPath)

/-- The ways out: with an outcome, with an error that is handed on directly, and
with an error behind `close_path_or_defer`. -/
inductive OpenvExit where
  | returned (failed : Option (Nat × Status))
  | handedOn (error : RpcError)
  | cleaned (error : RpcError)

def openvAdd (count : Nat) (chunk : PathChunk) (op : PathOpenOp) : PathChunk × Bool :=
  let caller := chunk.global
  match chunk.cursor.call (.setParent op.path) with
  | none =>
    ({chunk with
      map := chunk.map.begin caller
      failed := some (caller, .inval)
      global := count}, false)
  | some step =>
    let args : OpenArgs := ⟨0, op.access, op.owner, op.how, some (leafOf op.path)⟩
    ({chunk with
      ops := chunk.ops ++ (step.ops ++ [ArgOp.openFile args, .getfh]).map (Prod.mk caller)
      cursor := step.cursor.descend.cursor
      map := ((((chunk.map.begin caller).noteOps step.count).noteOps 1).noteOps 1).endItem
      payload := chunk.payload + openvEst
      global := caller + 1}, true)

def openvPack (count maxArgBytes budget maxItems : Nat) : List PathOpenOp → PathChunk → PathChunk
  | [], chunk => chunk
  | op :: rest, chunk =>
    if chunk.map.ranges.length < maxItems ∧ chunk.map.next + openvPerFile ≤ budget then
      if chunk.payload > 0 ∧ maxArgBytes > 0 ∧ chunk.payload + openvEst > maxArgBytes then chunk
      else
        match openvAdd count chunk op with
        | (chunk, false) => chunk
        | (chunk, true) =>
          if chunk.map.next + openvPerFile > budget ∧ chunk.global < count then chunk
          else openvPack count maxArgBytes budget maxItems rest chunk
    else chunk

section Loop

variable {σ : Type} (wire : Wire σ) (calls : OpenvCalls σ) (maxArgBytes : Nat)
  (ops : List PathOpenOp) (st : OpenvState σ) (remote : Remote σ)

def OpenvState.budget : Nat :=
  (st.remote.client.opBudgetFor "openv1" (1 + openvPerFile)).mergedLimit pathReserve openvPerFile

def OpenvState.chunk : PathChunk :=
  openvPack ops.length maxArgBytes st.budget st.maxItems (ops.drop st.global)
    {global := st.global, failed := st.failed}

def openvReply (budget : Nat) (chunk : PathChunk) (res : CompoundRes) (st : OpenvState σ) :
    OpenvState σ ⊕ OpenvState σ × OpenvExit :=
  if st.remote.client.canRetryMergedResource "openv1" res budget pathReserve openvPerFile then
    .inl st
  else
    match firstFailedRange res chunk.map with
    | .error error => .inr (st, .handedOn error)
    | .ok (some (caller, status)) =>
      -- The opens before the failure are kept: the caller resumes from there.
      let done := chunk.map.ranges.filter fun r => r.caller < caller
      let opened := recordOpens st.opened (res.openedAt res.isOpen done)
      match calls.cleanup st.remote opened (done.map OpRange.caller) with
      | (remote, .error error) =>
        .inr ({st with remote := remote, opened := opened}, .cleaned error)
      | (remote, .ok _) =>
        .inr ({st with remote := remote, opened := opened}, .returned (some (caller, status)))
    | .ok none =>
      let files := res.openedAt res.isOpen chunk.map.ranges
      let opened := recordOpens st.opened files
      match calls.cleanup st.remote opened (files.map Prod.fst) with
      | (remote, .error error) =>
        .inr ({st with remote := remote, opened := opened}, .cleaned error)
      | (remote, .ok _) =>
        let st := {st with remote := remote, opened := opened}
        if st.global = chunk.global then
          .inr (st, .returned (st.failed.or (some (st.global, .tooManyOps))))
        else .inl {st with global := chunk.global}

def openvStep : OpenvState σ ⊕ OpenvState σ × OpenvExit :=
  if st.global < ops.length then
    let chunk := st.chunk maxArgBytes ops
    if chunk.map.ranges.isEmpty then
      .inr (st, .returned (st.failed.or (some (st.global, .tooManyOps))))
    else
      let needed :=
        if chunk.failed.isNone then
          st.remote.client.mergedPathsNeedRepack "openv1" (1 + openvPerFile) chunk.compound
            chunk.map.ranges.length
        else .ok false
      match needed with
      | .error error => .inr (st, .handedOn error)
      | .ok true => .inl {st with maxItems := chunk.map.ranges.length - 1}
      | .ok false =>
        match CompoundBudget.ensure ⟨st.remote.client.maxOps⟩ chunk.compound with
        | .error error => .inr (st, .handedOn error)
        | .ok _ =>
          match st.remote.callMutation wire "openv1" chunk.compound with
          | (remote, .error error) => .inr ({st with remote := remote}, .cleaned error)
          | (remote, .ok res) =>
            openvReply calls st.budget chunk res {st with
              remote := remote
              failed := chunk.failed
              maxItems := usizeMax
              confirmed := st.confirmed ++ res.openedAt res.confirms chunk.map.ranges}
  else .inr (st, .returned st.failed)

def openvStart : OpenvState σ where
  remote := remote
  opened := List.replicate ops.length none
  failed := none
  global := 0
  maxItems := usizeMax
  confirmed := []

def OpenvReachable (st : OpenvState σ) : Prop :=
  Relation.ReflTransGen
    (fun st next => openvStep wire calls maxArgBytes ops st = .inl next)
    (openvStart ops remote) st

end Loop

def heldOpens : List (Nat × OpenedPath) :=
  opened.zipIdx.filterMap fun slot => slot.1.map (Prod.mk slot.2)

/-- A call that is over: its result, the states whose CLOSE was acknowledged, those
in `deferred_path_closes`, and those the server had confirmed. -/
structure OpenvDone where
  result : RpcResult (List (Option OpenedPath) × Option (Nat × Status))
  closed : List (Nat × OpenedPath)
  deferred : List (Nat × OpenedPath)
  confirmed : List (Nat × OpenedPath)

/-- A way out from the last state of the loop, with `close_path_or_defer` where the
source calls it. -/
def OpenvState.leave {σ : Type} (calls : OpenvCalls σ) (st : OpenvState σ) :
    OpenvExit → OpenvDone
  | .returned failed => ⟨.ok (st.opened, failed), [], [], st.confirmed⟩
  | .handedOn error => ⟨.error error, [], [], st.confirmed⟩
  | .cleaned error =>
    let held := heldOpens st.opened
    if held.isEmpty then ⟨.error error, [], [], st.confirmed⟩
    else
      match calls.closeMany st.remote (held.map Prod.snd) with
      | .ok _ => ⟨.error error, held, [], st.confirmed⟩
      | .error acknowledged => ⟨.error error, held.take acknowledged, held, st.confirmed⟩

end Vnfs
