import Vnfs.BatchOnce
import Vnfs.Core
import Vnfs.Nfs.WriteAccess

/-!
`vwrite_batch_nfs`: a vector of writes through open descriptors. Every operand is
checked first. Then waves of WRITE operations are sent, each wave in input order
up to the first request that depends on one before it, and only what the server
did not take is sent again.

The source keeps the wire operations of all requests in one array with a range
per request; here a wire operation is named by its request and its number in it.
The vectors indexed by requests are functions on `Fin`.
-/

namespace Vnfs

open Function

namespace Nfs

/-- `NfsOpenState` without its reopen recipe. -/
structure NfsOpenState where
  fh : NfsFh
  stateid : Stateid
  curOffset : Nat
  append : Bool
  deriving DecidableEq, Repr

/-- What a vector of writes asks of the session in the state `σ`. -/
structure WriteSession (σ : Type) where
  maxRequestArgBytes : Nat
  fileSize : σ → NfsFh → VfResult Nat × σ
  /-- One `(count, committed)` for each operation. -/
  writev : σ → List WriteOp → RpcResult (List (Nat × UInt32)) × σ

structure NfsFs (σ : Type) where
  openFiles : Int → Option NfsOpenState
  nfs : σ

/-- `FileOperand::fd`. -/
def fdOf : FileOperand → Option Int
  | .fd fd => some fd
  | _ => none

def maxOpBytes : Nat := 64 * 2 ^ 20

namespace WriteSession

variable {σ : Type} (session : WriteSession σ)

def perOpBytes : Nat := min (max (session.maxRequestArgBytes - 1024) 1) maxOpBytes

theorem perOpBytes_pos : 0 < session.perOpBytes := by
  unfold perOpBytes maxOpBytes
  omega

variable (fs : NfsFs σ) (fd : Int) (offset : VfOffset)

/-- `resolve_offset` of a descriptor. -/
def resolveOffset : VfOffset → VfResult Nat × NfsFs σ
  | .pos offset => (.ok offset, fs)
  | .cur => (.ok (((fs.openFiles fd).map NfsOpenState.curOffset).getD 0), fs)
  | .eof =>
    match fs.openFiles fd with
    | none => (.error (.errno (some 0) VfError.errEbadf), fs)
    | some state =>
      let (size, nfs) := session.fileSize fs.nfs state.fh
      (size, {fs with nfs})

/-- `write_offset`: a descriptor opened for appending writes at the end. -/
def writeOffset : VfResult Nat × NfsFs σ :=
  match session.resolveOffset fs fd offset with
  | (.error error, fs) => (.error error, fs)
  | (.ok offset, fs) =>
    match (fs.openFiles fd).filter NfsOpenState.append with
    | some state =>
      let (size, nfs) := session.fileSize fs.nfs state.fh
      (size, {fs with nfs})
    | none => (.ok offset, fs)

theorem resolveOffset_openFiles :
    (session.resolveOffset fs fd offset).2.openFiles = fs.openFiles := by
  unfold resolveOffset
  cases offset with
  | pos o => rfl
  | cur => rfl
  | eof =>
    dsimp only
    split <;> rfl

theorem writeOffset_openFiles : (session.writeOffset fs fd offset).2.openFiles = fs.openFiles := by
  have hr := session.resolveOffset_openFiles fs fd offset
  unfold writeOffset
  split
  · rename_i error fs' heq
    rw [heq] at hr
    exact hr
  · rename_i resolved fs' heq
    rw [heq] at hr
    split <;> exact hr

end WriteSession

def advanceOffset (openFiles : Int → Option NfsOpenState) (fd : Int) (offset : Nat) :
    Int → Option NfsOpenState :=
  update openFiles fd
    ((openFiles fd).map fun state => {state with curOffset := offset})

/-- What the checks before any I/O record of a request. -/
structure BatchItem where
  file : FileOperand
  fd : Int
  offset : VfOffset
  data : Bytes
  fh : NfsFh
  stateid : Stateid
  /-- An earlier request writes to the same file. -/
  predecessor : Bool
  positional : Bool
  /-- The offset resolved before any I/O. -/
  initial : Nat
  deriving DecidableEq, Repr

namespace WriteSession

variable {σ : Type} (session : WriteSession σ)

/-- The check of one request. The callers pass descriptors only. -/
def validateWrite (fs : NfsFs σ) (seenHandles : List NfsFh) (index : Nat)
    (request : WriteRequest) : VfResult BatchItem × NfsFs σ :=
  match fdOf request.file with
  | none => (.error (.errno (some index) VfError.errEbadf), fs)
  | some fd =>
    match session.writeOffset fs fd request.offset with
    | (.error error, fs) => (.error (error.withIndex index), fs)
    | (.ok offset, fs) =>
      match checkedAdd offset request.data.length, fs.openFiles fd with
      | none, _ => (.error (.errno (some index) VfError.eoverflow), fs)
      | some _, none => (.error (.errno (some index) VfError.errEbadf), fs)
      | some _, some state =>
        let positional := match request.offset with
          | .pos _ => !state.append
          | _ => false
        (.ok ⟨request.file, fd, request.offset, request.data, state.fh, state.stateid,
          seenHandles.contains state.fh, positional, offset⟩, fs)

def validateWrites (fs : NfsFs σ) (seenHandles : List NfsFh) :
    Nat → List WriteRequest → VfResult (List BatchItem) × NfsFs σ
  | _, [] => (.ok [], fs)
  | index, request :: rest =>
    match session.validateWrite fs seenHandles index request with
    | (.error error, fs) => (.error error, fs)
    | (.ok item, fs) =>
      let (items, fs) := validateWrites fs (item.fh :: seenHandles) (index + 1) rest
      (items.map fun items => item :: items, fs)

end WriteSession

/-- The wire operations of a request: at least one, of `per` bytes each. -/
def chunkCount (per : Nat) (item : BatchItem) : Nat := (max item.data.length 1 + per - 1) / per

def chunkData (per : Nat) (item : BatchItem) (chunk : Nat) : Bytes :=
  (item.data.drop (chunk * per)).take per

/-- One acknowledged WRITE: the bytes of the request it began at and held, and
how many of them the server took. -/
structure SentWrite (n : Nat) where
  index : Fin n
  first : Nat
  length : Nat
  count : Nat
  deriving DecidableEq, Repr

structure BatchWaves (σ : Type) (n : Nat) where
  fs : NfsFs σ
  offsets : Fin n → Nat
  progress : Fin n × Nat → Nat
  complete : Fin n × Nat → Bool
  nextChunks : Fin n → Nat
  completePrefix : Fin n → Nat
  done : Fin n → Bool
  activated : Fin n → Bool
  stable : Fin n → Bool
  /-- Every WRITE sent, in order; the code does not read it. -/
  history : List (SentWrite n)

namespace WriteSession

variable {σ : Type} (session : WriteSession σ) (items : List BatchItem)
  (st : BatchWaves σ items.length) (wire : Fin items.length × Nat)
  (index : Fin items.length)

def chunkLength : Nat :=
  (chunkData session.perOpBytes (items.get wire.1) wire.2).length

def byteLimit : Nat := session.maxRequestArgBytes - 1024

/-- The bytes a request is going to write, as the access index sees them. -/
def rangeOf : Nat × Nat :=
  (st.offsets index, st.offsets index + (items.get index).data.length)

/-- Fix the offset of a request when its turn comes. A request whose position
depends on an earlier one asks for it again. -/
def activate :
    VfResult Unit × BatchWaves σ items.length :=
  if st.activated index then (.ok (), st)
  else
    let item := items.get index
    let (resolved, fs) :=
      if item.predecessor && !item.positional then session.writeOffset st.fs item.fd item.offset
      else (.ok (st.offsets index), st.fs)
    let st := {st with fs}
    match resolved with
    | .error error => (.error (error.withIndex index), st)
    | .ok offset =>
      match checkedAdd offset item.data.length with
      | none => (.error (.errno (some index) VfError.eoverflow), st)
      | some _ =>
        (.ok (), {st with
          offsets := update st.offsets index offset
          activated := update st.activated index true})

/-- The wire operations picked for a wave, and their size. -/
structure Selection (n : Nat) where
  selected : List (Fin n × Nat)
  bytes : Nat

/-- Pick the incomplete wire operations of a request; true if one did not fit. -/
def selectChunks (st : BatchWaves σ items.length) (index : Fin items.length) :
    List Nat → Selection items.length → Selection items.length × Bool
  | [], selection => (selection, false)
  | chunk :: rest, selection =>
    if st.complete (index, chunk) then selectChunks st index rest selection
    else
      let next := saturatingAdd
        (session.chunkLength items (index, chunk) - st.progress (index, chunk)) 256
      if ¬ selection.selected.isEmpty ∧
          saturatingAdd selection.bytes next > session.byteLimit then (selection, true)
      else
        selectChunks st index rest
          ⟨selection.selected ++ [(index, chunk)], saturatingAdd selection.bytes next⟩

/-- The file's access with this request, if the request may join the wave. -/
def joinWave (activeFiles : NfsFh → Option WriteWaveAccess) (fh : NfsFh) (range : Nat × Nat)
    (positional : Bool) : Option WriteWaveAccess :=
  match activeFiles fh with
  | none => some (.new range positional)
  | some access => access.admits range positional

/-- The pass over the requests that picks a wave. -/
def selectWave : List (Fin items.length) → (NfsFh → Option WriteWaveAccess) →
    Selection items.length → BatchWaves σ items.length →
      VfResult (Selection items.length) × BatchWaves σ items.length
  | [], _, selection, st => (.ok selection, st)
  | index :: rest, activeFiles, selection, st =>
    if st.done index then selectWave rest activeFiles selection st
    else
      let item := items.get index
      match joinWave activeFiles item.fh (rangeOf items st index) item.positional with
      | none => (.ok selection, st)
      | some access =>
        match session.activate items st index with
        | (.error error, st) => (.error error, st)
        | (.ok (), st) =>
          let chunks := List.range' (st.nextChunks index)
            (chunkCount session.perOpBytes item - st.nextChunks index)
          match session.selectChunks items st index chunks selection with
          | (selection, true) => (.ok selection, st)
          | (selection, false) =>
            selectWave rest (update activeFiles item.fh (some access))
              selection st

def wireOp : WriteOp :=
  let item := items.get wire.1
  ⟨item.fh, item.stateid,
    st.offsets wire.1 + wire.2 * session.perOpBytes + st.progress wire,
    (chunkData session.perOpBytes item wire.2).drop (st.progress wire)⟩

/-- The results of a wave, one wire operation after another. -/
def acknowledge : List ((Fin items.length × Nat) × (Nat × UInt32)) →
    BatchWaves σ items.length → VfResult (BatchWaves σ items.length)
  | [], st => .ok st
  | (wire, count, committed) :: rest, st =>
    let remaining := session.chunkLength items wire - st.progress wire
    if count > remaining ∨ (count = 0 ∧ remaining ≠ 0) then
      .error (.errno (some wire.1) VfError.errIo)
    else
      let progress := st.progress wire + count
      acknowledge rest {st with
        progress := update st.progress wire progress
        complete := update st.complete wire
          (progress = session.chunkLength items wire)
        stable := update st.stable wire.1 (st.stable wire.1 && committed = fileSync)}

/-- The `while` loop over complete wire operations; `fuel` of them are left. -/
def advanceChunks (st : BatchWaves σ items.length) (index : Fin items.length) :
    Nat → Nat × Nat → Nat × Nat
  | 0, pos => pos
  | fuel + 1, (next, done) =>
    if st.complete (index, next) then
      advanceChunks st index fuel (next + 1, done + session.chunkLength items (index, next))
    else (next, done)

def advanced : Nat × Nat :=
  session.advanceChunks items st index
    (chunkCount session.perOpBytes (items.get index) - st.nextChunks index)
    (st.nextChunks index, st.completePrefix index)

/-- The pass over the requests after a wave: step over complete wire operations
and move the cursors of `Cur` writes. -/
def finishWave : BatchWaves σ items.length :=
  let live := fun index => st.activated index && !st.done index
  let nextChunks := fun index =>
    if live index then (session.advanced items st index).1 else st.nextChunks index
  let completePrefix := fun index =>
    if live index then (session.advanced items st index).2 else st.completePrefix index
  let done := fun index =>
    if live index then decide (nextChunks index = chunkCount session.perOpBytes (items.get index))
    else st.done index
  let contiguous := fun index =>
    completePrefix index + if done index then 0 else st.progress (index, nextChunks index)
  let openFiles := (List.finRange items.length).foldl (fun openFiles index =>
    if live index ∧ (items.get index).offset = .cur then
      advanceOffset openFiles (items.get index).fd (st.offsets index + contiguous index)
    else openFiles) st.fs.openFiles
  {st with fs := {st.fs with openFiles}, nextChunks, completePrefix, done}

def sentWrite (count : Nat) :
    SentWrite items.length :=
  let length := session.chunkLength items wire - st.progress wire
  ⟨wire.1, wire.2 * session.perOpBytes + st.progress wire, length, min count length⟩

/-- The record of a wave. What has no result counts as not taken. -/
def sentWrites (selected : List (Fin items.length × Nat)) (counts : List Nat) :
    List (SentWrite items.length) :=
  (selected.zip (counts ++ List.replicate selected.length 0)).map fun pair =>
    session.sentWrite items st pair.1 pair.2

def waveStep :
    BatchWaves σ items.length ⊕ (VfResult Unit × BatchWaves σ items.length) :=
  if ∀ index, st.done index then .inr (.ok (), st)
  else
    match session.selectWave items (List.finRange items.length) (fun _ => none) ⟨[], 0⟩ st with
    | (.error error, st) => .inr (.error error, st)
    | (.ok selection, st) =>
      let selected := selection.selected
      match session.writev st.fs.nfs (selected.map (session.wireOp items st)) with
      | (.error error, nfs) =>
        let sent := session.sentWrites items st selected []
        let attributed := (errorFromRpcIndexed error).mapIndex fun index =>
          (selected[index]?.map fun wire => wire.1.val).getD index
        .inr (.error attributed,
          {st with fs := {st.fs with nfs}, history := st.history ++ sent})
      | (.ok results, nfs) =>
        let sent := session.sentWrites items st selected (results.map Prod.fst)
        let st := {st with fs := {st.fs with nfs}, history := st.history ++ sent}
        if results.length ≠ selected.length then
          .inr (.error (.transportWithKind none .other "malformed descriptor WRITE reply"), st)
        else
          match session.acknowledge items (selected.zip results) st with
          | .error error => .inr (.error error, st)
          | .ok st => .inl (session.finishWave items st)

end WriteSession

end Nfs

end Vnfs
