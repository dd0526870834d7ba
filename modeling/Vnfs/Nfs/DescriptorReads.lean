import Vnfs.Lib.ByteFile
import Vnfs.Nfs.WriteWave

/-!
Vectors of reads through open descriptors. `vread_batch_nfs` returns owned data,
`vread_batch_into_nfs` fills the buffers of the caller. Both resolve all offsets
first, cut every request into READs of at most `read_per_op_bytes`, send these in
compounds, complete short READs one by one, and move the cursors at the end.

The callers pass descriptors only, so a request has its descriptor for the file.
`batch_ops_fallible` of the session is a parameter. What the buffers hold behind an
error is left out.
-/

namespace Vnfs

def Status.repTooBig : Status := 10066

namespace Nfs.DescriptorReads

/-- `client::ReadOp`. -/
structure WireRead where
  fh : NfsFh
  stateid : Stateid
  offset : Nat
  count : Nat
  deriving DecidableEq, Repr

structure ReadOp where
  fd : Int
  offset : VfOffset
  length : Nat
  deriving DecidableEq, Repr

structure ReadResult where
  fd : Int
  offset : Nat
  data : Bytes
  eof : Bool
  deriving DecidableEq, Repr

structure ReadIntoResult where
  fd : Int
  offset : Nat
  bytesRead : Nat
  eof : Bool
  deriving DecidableEq, Repr

/-- What a vector of reads asks of the session in the state `σ`. -/
structure ReadSession (σ : Type) extends WriteSession σ where
  maxResponseBytes : Nat
  /-- `batch_ops_fallible` of `[PUTFH, READ]` pairs: data and end flag of the items in
  the order in which they are decoded, and the error behind them. -/
  readBatch : σ → List WireRead → (List (Bytes × Bool) × Option RpcError) × σ

/-- Greedy packing of compounds: an operation that does not fit opens the next one. -/
def packFrom (limit : Nat) (cost : WireRead → Nat) :
    List WireRead → Nat → List WireRead → List (List WireRead)
  | current, _, [] => [current]
  | current, bytes, op :: rest =>
    if saturatingAdd bytes (cost op) > limit then
      current :: packFrom limit cost [op] (cost op) rest
    else packFrom limit cost (current ++ [op]) (saturatingAdd bytes (cost op)) rest

/-- The first operation of a compound is taken whatever its size. -/
def packReads (limit : Nat) (cost : WireRead → Nat) : List WireRead → List (List WireRead)
  | [] => []
  | op :: rest => packFrom limit cost [op] (cost op) rest

section Decode

variable {β R : Type} (decode : β → Nat → Bytes → Bool → RpcResult (R × β))

/-- The decoder of a batch, with `validate_read_length` in front of the destination. The
first item has the index `wire`. -/
def decodeItems : β → Nat → List WireRead → List (Bytes × Bool) → RpcResult (List R × β)
  | b, wire, op :: ops, (data, eof) :: items =>
    if data.length > op.count then
      .error ((RpcError.transportWithKind .invalidReply
        "NFS READ reply exceeded requested count").withOpIndex wire)
    else
      match decode b wire data eof with
      | .error e => .error (e.withOpIndex wire)
      | .ok (r, b) =>
        match decodeItems b (wire + 1) ops items with
        | .error e => .error e
        | .ok (rs, b) => .ok (r :: rs, b)
  | b, _, _, _ => .ok ([], b)

end Decode

namespace ReadSession

variable {σ : Type} (session : ReadSession σ)

def readCompoundBytes : Nat := max (min (session.maxResponseBytes * 3) usizeMax / 4) 1

def readPerOpBytes : Nat := min session.perOpBytes (max (session.readCompoundBytes - 256) 1)

/-- What a READ is charged by the packing of `readv_decode`. -/
def charge (op : WireRead) : Nat := saturatingAdd op.count 128

def byteBudget : Nat := session.readCompoundBytes - 128

section

variable {β R : Type} (decode : β → Nat → Bytes → Bool → RpcResult (R × β))

/-- The loop of `readv_decode`. An operation that fits no compound ends it. -/
def readvGroups : σ → β → Nat → List (List WireRead) → RpcResult (List R × β) × σ
  | s, b, _, [] => (.ok ([], b), s)
  | s, b, start, group :: groups =>
    if group.head?.any (charge · > session.byteBudget) then
      (.error (.op start Status.repTooBig), s)
    else
      let ((items, failure), s) := session.readBatch s group
      match decodeItems decode b start group items with
      | .error e => (.error e, s)
      | .ok (rs, b) =>
        match failure with
        | some e => (.error (e.withOpIndex (start + e.opIndex)), s)
        | none =>
          match readvGroups s b (start + group.length) groups with
          | (.error e, s) => (.error e, s)
          | (.ok (rs', b), s) => (.ok (rs ++ rs', b), s)

def readvDecode (s : σ) (b : β) (ops : List WireRead) : RpcResult (List R × β) × σ :=
  session.readvGroups decode s b 0 (packReads session.byteBudget charge ops)

end

def owned (_ : Unit) (_ : Nat) (data : Bytes) (eof : Bool) : RpcResult ((Bytes × Bool) × Unit) :=
  .ok ((data, eof), ())

def readv (s : σ) (ops : List WireRead) : RpcResult (List (Bytes × Bool) × Unit) × σ :=
  session.readvDecode owned s () ops

end ReadSession

/-- The loop variables of `complete_read_chunk`; `acc` is what `on_data` changes. -/
structure Repair (σ α : Type) where
  session : σ
  acc : α
  received : Nat
  eof : Bool

section Repair

variable {σ α : Type} (session : ReadSession σ) (op : WireRead) (index : Nat)
  (onData : α → Bytes → α)

def repairStep (st : Repair σ α) : Repair σ α ⊕ (VfResult (α × Nat × Bool) × σ) :=
  if st.received < op.count ∧ st.eof = false then
    let remaining := op.count - st.received
    match checkedAdd op.offset st.received with
    | none => .inr (.error (.errno (some index) VfError.eoverflow), st.session)
    | some offset =>
      match session.readv st.session [{op with offset := offset, count := remaining}] with
      | (.error e, s) => .inr (.error ((errorFromRpcIndexed e).withIndex index), s)
      | (.ok ([(data, fin)], _), s) =>
        if data.length > remaining ∨ data.isEmpty ∧ fin = false then
          .inr (.error (.errno (some index) VfError.errIo), s)
        else .inl ⟨s, onData st.acc data, st.received + data.length, fin⟩
      | (.ok _, s) =>
        .inr (.error (.transportWithKind (some index) .other "malformed short READ reply"), s)
  else .inr (.ok (st.acc, st.received, st.eof), st.session)

/-- A READ that repairs brings a byte or the end of the file. -/
def repairVariant (st : Repair σ α) : Nat := op.count - st.received + if st.eof then 0 else 1

theorem repairStep_decreases {st st' : Repair σ α}
    (h : repairStep session op index onData st = .inl st') :
    repairVariant op st' < repairVariant op st := by
  unfold repairStep at h
  split at h
  · rename_i ho
    dsimp only at h
    split at h
    · cases h
    split at h
    · cases h
    · split at h
      · cases h
      rename_i data fin _ _ _ hg
      cases h
      push Not at hg
      unfold repairVariant
      rw [ho.2]
      cases hf : fin with
      | true => simp; omega
      | false =>
        have hp : 0 < data.length := by
          refine List.length_pos_iff.mpr fun hn => hg.2 (by simp [hn]) hf
        simp
        omega
    · cases h
  · cases h

def repairBody : Loop.Body (Repair σ α) (VfResult (α × Nat × Bool) × σ) Nat where
  step := repairStep session op index onData
  variant := repairVariant op
  decreases _ _ h := repairStep_decreases session op index onData h

def completeReadChunk (s : σ) (received : Nat) (eof : Bool) (acc : α) :
    VfResult (α × Nat × Bool) × σ :=
  if received > op.count ∨ op.count ≠ 0 ∧ received = 0 ∧ eof = false then
    (.error (.errno (some index) VfError.errIo), s)
  else Loop.run (repairBody session op index onData) ⟨s, acc, received, eof⟩

end Repair

/-- The READs of one request from `chunkOff` on. There is one for an empty request
too. The sums cannot overflow behind the check of the whole range. -/
def chunkReads (opened : NfsOpenState) (off per : Nat) : Nat → Nat → Nat → List WireRead
  | fuel, remaining, chunkOff =>
    let n := min remaining per
    ⟨opened.fh, opened.stateid, off + chunkOff, n⟩ ::
      match fuel with
      | 0 => []
      | fuel + 1 =>
        if remaining - n = 0 then [] else chunkReads opened off per fuel (remaining - n)
          (chunkOff + n)

structure DescriptorReadPlan where
  ops : List WireRead
  owners : List Nat
  offsets : List Nat

def DescriptorReadPlan.wires (plan : DescriptorReadPlan) : List (Nat × WireRead) :=
  plan.owners.zip plan.ops

def remapDescriptorChunkError (error : VfError) (start : Nat) (owners : List Nat) : VfError :=
  error.mapIndex fun localIndex =>
    let chunkIndex := saturatingAdd start localIndex
    (owners[chunkIndex]?).getD chunkIndex

section Engines

variable {σ : Type} (session : ReadSession σ)

/-- The loop of `descriptor_read_plan`. Each READ takes at least a byte, so the length
is fuel enough. -/
def descriptorReadPlan (buffers : Option (List Bytes)) :
    Nat → NfsFs σ → List ReadOp → VfResult DescriptorReadPlan × NfsFs σ
  | _, fs, [] => (.ok ⟨[], [], []⟩, fs)
  | i, fs, op :: reads =>
    if buffers.any fun buffers => (buffers[i]?).all (·.length != op.length) then
      (.error (.fromKind (some i) .invalidInput), fs)
    else
      match session.resolveOffset fs op.fd op.offset with
      | (.error e, fs) => (.error (e.withIndex i), fs)
      | (.ok off, fs) =>
        match checkedAdd off op.length with
        | none => (.error (.errno (some i) VfError.eoverflow), fs)
        | some _ =>
          match fs.openFiles op.fd with
          | none => (.error (.errno (some i) VfError.errEbadf), fs)
          | some opened =>
            let chunks := chunkReads opened off session.readPerOpBytes op.length op.length 0
            match descriptorReadPlan buffers (i + 1) fs reads with
            | (.error e, fs) => (.error e, fs)
            | (.ok plan, fs) =>
              (.ok ⟨chunks ++ plan.ops, List.replicate chunks.length i ++ plan.owners,
                off :: plan.offsets⟩, fs)

def byteLimit : Nat :=
  if session.maxResponseBytes > 0 then session.readCompoundBytes - 128 else usizeMax

/-- The loop over compounds both engines have. `call` gets the number of the first READ
of the compound. -/
def readCompounds {β R : Type} (call : σ → β → Nat → List WireRead → RpcResult (List R × β) × σ)
    (owners : List Nat) : σ → β → Nat → List (List WireRead) → VfResult (List R × β) × σ
  | s, b, _, [] => (.ok ([], b), s)
  | s, b, start, group :: groups =>
    match call s b start group with
    | (.error e, s) =>
      (.error (remapDescriptorChunkError (errorFromRpcIndexed e) start owners), s)
    | (.ok (rs, b), s) =>
      match readCompounds call owners s b (start + group.length) groups with
      | (.error e, s) => (.error e, s)
      | (.ok (rs', b), s) => (.ok (rs ++ rs', b), s)

/-- The chunks of one request put together; those behind the end of the file are
skipped. -/
def collectOwned (index : Nat) : σ → Bytes → Bool → List ((Nat × WireRead) × Bytes × Bool) →
    VfResult (Bytes × Bool) × σ
  | s, data, eof, [] => (.ok (data, eof), s)
  | s, data, eof, ((_, op), chunk, fin) :: rest =>
    if eof then collectOwned index s data eof rest
    else
      match completeReadChunk session op index (· ++ ·) s chunk.length fin (data ++ chunk) with
      | (.error e, s) => (.error e, s)
      | (.ok (data, _, fin), s) => collectOwned index s data fin rest

def gatherOwned : σ → Nat → List (ReadOp × Nat) → List ((Nat × WireRead) × Bytes × Bool) →
    VfResult (List ReadResult) × σ
  | s, _, [], _ => (.ok [], s)
  | s, i, (op, off) :: reads, wires =>
    match collectOwned session i s [] false (wires.takeWhile (·.1.1 == i)) with
    | (.error e, s) => (.error e, s)
    | (.ok (data, eof), s) =>
      match checkedAdd off data.length with
      | none => (.error (.errno (some i) VfError.eoverflow), s)
      | some _ =>
        match gatherOwned s (i + 1) reads (wires.dropWhile (·.1.1 == i)) with
        | (.error e, s) => (.error e, s)
        | (.ok out, s) => (.ok (⟨op.fd, off, data, eof⟩ :: out), s)

/-- The cursors after the vector: each `Cur` read moves its descriptor to the end of
what it read. -/
def advanceCursors (openFiles : Int → Option NfsOpenState) :
    List ReadOp → List (Nat × Nat) → Int → Option NfsOpenState
  | op :: reads, (offset, length) :: results =>
    advanceCursors
      (if op.offset = .cur then advanceOffset openFiles op.fd (offset + length) else openFiles)
      reads results
  | _, _ => openFiles

variable (fs : NfsFs σ) (reads : List ReadOp)

def vreadBatchNfs : VfResult (List ReadResult) × NfsFs σ :=
  match descriptorReadPlan session none 0 fs reads with
  | (.error e, fs) => (.error e, fs)
  | (.ok plan, fs) =>
    match readCompounds (fun s b _ ops => session.readvDecode ReadSession.owned s b ops)
      plan.owners fs.nfs () 0 (packReads (byteLimit session) WireRead.count plan.ops) with
    | (.error e, s) => (.error e, {fs with nfs := s})
    | (.ok (results, _), s) =>
      match gatherOwned session s 0 (reads.zip plan.offsets) (plan.wires.zip results) with
      | (.error e, s) => (.error e, {fs with nfs := s})
      | (.ok out, s) =>
        (.ok out, ⟨advanceCursors fs.openFiles reads
          (out.map fun result => (result.offset, result.data.length)), s⟩)

/-- The destination of a READ in the caller's buffers. `cursor` is the number of the
compound's first READ. -/
def intoBuffer (plan : DescriptorReadPlan) (cursor : Nat) (buffers : List Bytes) (localIndex : Nat)
    (data : Bytes) (eof : Bool) : RpcResult ((Nat × Bool) × List Bytes) :=
  let wireIndex := cursor + localIndex
  let owner := (plan.owners[wireIndex]?).getD 0
  let start := (plan.ops[wireIndex]?).elim 0 WireRead.offset - (plan.offsets[owner]?).getD 0
  if (buffers[owner]?).any (start + data.length ≤ ·.length) then
    .ok ((data.length, eof), buffers.modify owner (ByteFile.pwrite · start data))
  else
    .error ((RpcError.transport "NFS READ reply exceeds caller buffer").withOpIndex localIndex)

/-- `on_data` of the repairs: the slice behind what was received. -/
def fillBuffer (index : Nat) (filled : List Bytes × Nat) (data : Bytes) : List Bytes × Nat :=
  (filled.1.modify index (ByteFile.pwrite · filled.2 data), filled.2 + data.length)

def collectInto (index offset : Nat) : σ → List Bytes → Nat → Bool →
    List ((Nat × WireRead) × Nat × Bool) → VfResult (List Bytes × Nat × Bool) × σ
  | s, buffers, length, eof, [] => (.ok (buffers, length, eof), s)
  | s, buffers, length, eof, ((_, op), received, fin) :: rest =>
    if eof then collectInto index offset s buffers length eof rest
    else
      match completeReadChunk session op index (fillBuffer index) s received fin
        (buffers, op.offset - offset + received) with
      | (.error e, s) => (.error e, s)
      | (.ok ((buffers, _), count, fin), s) =>
        collectInto index offset s buffers (length + count) fin rest

def gatherInto : σ → Nat → List Bytes → List (ReadOp × Nat) →
    List ((Nat × WireRead) × Nat × Bool) → VfResult (List ReadIntoResult × List Bytes) × σ
  | s, _, buffers, [], _ => (.ok ([], buffers), s)
  | s, i, buffers, (op, off) :: reads, wires =>
    match collectInto session i off s buffers 0 false (wires.takeWhile (·.1.1 == i)) with
    | (.error e, s) => (.error e, s)
    | (.ok (buffers, length, eof), s) =>
      match checkedAdd off length with
      | none => (.error (.errno (some i) VfError.eoverflow), s)
      | some _ =>
        match gatherInto s (i + 1) buffers reads (wires.dropWhile (·.1.1 == i)) with
        | (.error e, s) => (.error e, s)
        | (.ok (out, buffers), s) => (.ok (⟨op.fd, off, length, eof⟩ :: out, buffers), s)

def vreadBatchIntoNfs (buffers : List Bytes) :
    VfResult (List ReadIntoResult × List Bytes) × NfsFs σ :=
  match descriptorReadPlan session (some buffers) 0 fs reads with
  | (.error e, fs) => (.error e, fs)
  | (.ok plan, fs) =>
    match readCompounds
      (fun s b cursor ops => session.readvDecode (intoBuffer plan cursor) s b ops)
      plan.owners fs.nfs buffers 0 (packReads (byteLimit session) WireRead.count plan.ops) with
    | (.error e, s) => (.error e, {fs with nfs := s})
    | (.ok (results, buffers), s) =>
      match gatherInto session s 0 buffers (reads.zip plan.offsets) (plan.wires.zip results) with
      | (.error e, s) => (.error e, {fs with nfs := s})
      | (.ok (out, buffers), s) =>
        (.ok (out, buffers), ⟨advanceCursors fs.openFiles reads
          (out.map fun result => (result.offset, result.bytesRead)), s⟩)

end Engines

end Nfs.DescriptorReads

end Vnfs
