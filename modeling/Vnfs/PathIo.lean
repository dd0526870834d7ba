import Vnfs.BatchOnce
import Vnfs.CfhCursor
import Vnfs.Core
import Vnfs.Nfs.WriteAccess

/-!
The compounds of `writev_path_compound` and `readv_path_compound`. An item is a
file, by path or by handle, and a span of its bytes; several items share a
compound, consecutive items on one path share an OPEN, and a long item may be
cut, also across compounds. The two builders differ in what they ask of an item
before it joins, in the OPEN, and in the transfers themselves; `PathIo` is what
they have in common, with those parts as fields.

The operations carry the item they are for. A CLOSE is for the item before the
one whose preparation appends it: items of a compound are consecutive, and the
file that is still open is that of the last of them.
-/

namespace Vnfs

def maxCompoundOps : Nat := 256

/-- `OPEN4_SHARE_ACCESS_READ`. -/
def shareAccessRead : UInt32 := 1

/-- `OPEN4_SHARE_ACCESS_WRITE`. -/
def shareAccessWrite : UInt32 := 2

/-- `OPEN4_SHARE_ACCESS_BOTH`. -/
def shareAccessBoth : UInt32 := 3

def u32Max : Nat := 2 ^ 32 - 1

def checkedOffset (base delta opIndex : Nat) : RpcResult Nat :=
  match checkedAdd base delta with
  | some offset => .ok offset
  | none => .error (.op opIndex .inval)

/-- The lengths of the operations that cover `start` to `stop`. -/
def chunkLens (start stop per : Nat) : List Nat :=
  (List.range ((stop - start + per - 1) / per)).map fun i => min (stop - (start + i * per)) per

def pathIoChunkEnd (start total perOp room availableOps : Nat) (allowFirst : Bool) : Option Nat :=
  let remaining := total - start
  let chunksTotal := max ((remaining + perOp - 1) / perOp) 1
  let perChunk := max (min perOp remaining) 1
  let byBytes := if room ≥ perChunk then max (room / perChunk) 1 else 0
  let take := min (min chunksTotal availableOps) byBytes
  if take = 0 ∧ !allowFirst then none
  else
    let stop := min (start + max take 1 * perOp) total
    if stop = start ∧ remaining > 0 then none else some stop

structure PathIoOpen where
  access : UInt32
  create : OpenCreate
  truncateCreate : Bool
  truncateExisting : Bool
  deriving DecidableEq, Repr

def PathIoOpen.how (opening : PathIoOpen) : OpenHow :=
  if opening.truncateCreate then .unchecked none true else makeOpenHow opening.create

structure PathIoTarget where
  ops : List (Nat × ArgOp) := []
  cursor : CfhCursor := {}
  map : ExecutionMap := .new
  /-- The path whose file is open. -/
  openedPath : Option Bytes := none
  fhAtOpened : Bool := false
  opensInChunk : Nat := 0

structure PathIoOwner where
  name : Bytes
  baseSeq : UInt32
  deriving DecidableEq, Repr

namespace PathIoTarget

variable (close : Bool) (target : PathIoTarget) (owner : PathIoOwner) (caller : Nat)

def compound : List ArgOp := target.ops.map Prod.snd

def push (ops : List ArgOp) (count : Nat) : PathIoTarget :=
  {target with
    ops := target.ops ++ ops.map (Prod.mk caller)
    map := target.map.noteOps count}

def closeOp : ArgOp := .close specialStateid.seqid specialStateid

/-- Close the file of the item before `caller`. -/
def closeOpened (target : PathIoTarget) : PathIoTarget :=
  if close ∧ target.openedPath.isSome ∧ target.fhAtOpened then
    {target.push (caller - 1) [closeOp] 1 with openedPath := none}
  else target

/-- OPEN at the parent directory of a path, and what follows it. -/
def openAt (path : Bytes) (opening : PathIoOpen) (target : PathIoTarget) : PathIoTarget :=
  let args : OpenArgs := ⟨owner.baseSeq + target.opensInChunk.toUInt32, opening.access, owner.name,
    opening.how, some (leafOf path)⟩
  let target := {target.push caller [.openFile args] 1 with
    opensInChunk := target.opensInChunk + 1}
  let target := if close then target else target.push caller [.getfh] 1
  let target := {target with openedPath := some path, fhAtOpened := true}
  if opening.truncateExisting then
    target.push caller [.setattr {size := some 0} specialStateid] 1
  else target

/-- `prepare_path_io_target`: whether a file was opened; `none` if its path was
rejected. -/
def prepare (file : FileRef) (opening : PathIoOpen) (target : PathIoTarget) :
    PathIoTarget × Option Bool :=
  match file with
  | .path path =>
    if target.openedPath = some path ∧ target.fhAtOpened then (target, some false)
    else
      let target := target.closeOpened close caller
      match target.cursor.setParent path with
      | none => (target, none)
      | some step =>
        let target := {target.push caller step.ops step.count with cursor := step.cursor}
        (target.openAt close owner caller path opening, some true)
  | .handle fh =>
    let target := target.closeOpened close caller
    let step := target.cursor.setHandle fh
    ({target.push caller step.ops step.count with cursor := step.cursor, fhAtOpened := false},
      some false)

end PathIoTarget

def ArgOp.isTransfer : ArgOp → Bool
  | .read .. | .write .. => true
  | _ => false

/-- What the builders of READs and WRITEs differ in. -/
structure PathIo (T : Type) where
  tag : Bool → Tag
  file : T → FileRef
  stateid : T → Option Stateid
  offset : T → Nat
  length : T → Nat
  opening : T → Nat → PathIoOpen
  /-- The operation for some bytes of an item. -/
  transfer : T → Stateid → (offset part count : Nat) → ArgOp
  transfer_isTransfer : ∀ item stateid offset part count,
    (transfer item stateid offset part count).isTransfer = true
  /-- What is asked of an item before it joins. -/
  precheck : T → Nat → RpcResult Unit
  /-- The accesses of the items of a compound. -/
  Access : Type
  noAccess : Access
  admits : Access → T → Option Access
  /-- How many bytes may follow a payload. -/
  room : Nat → Nat
  perOp : Nat
  perOp_pos : 0 < perOp
  /-- Whether there is room to note one more transfer. -/
  record : (noted count : Nat) → RpcResult Unit

/-- `per_file`. -/
def pathIoPerFile : Nat := 4

structure PathIoChunk {T : Type} (io : PathIo T) extends PathIoTarget where
  payload : Nat := 0
  /-- The offsets and lengths of the transfers. -/
  expected : List (Nat × Nat) := []
  access : io.Access := io.noAccess
  global : Nat
  partOff : Nat
  failed : Option (Nat × Status)

section Build

variable {T : Type} (io : PathIo T)

def PathIo.stateidOf (item : T) : Stateid :=
  match io.file item with
  | .path _ => specialStateid
  | .handle _ => (io.stateid item).getD specialStateid

def PathIo.addTransfers (item : T) (caller : Nat) :
    Nat → List Nat → PathIoChunk io → RpcResult (PathIoChunk io)
  | _, [], chunk => .ok chunk
  | part, count :: rest, chunk => do
      io.record chunk.expected.length count
      let offset ← checkedOffset (io.offset item) part caller
      let op := io.transfer item (io.stateidOf item) offset part count
      PathIo.addTransfers item caller (part + count) rest {chunk with
        toPathIoTarget := chunk.push caller [op] 1
        expected := chunk.expected ++ [(part, count)]}

/-- The lengths of the transfers; an empty item has one of no bytes. -/
def PathIo.lens (start stop : Nat) : List Nat :=
  if stop > start then chunkLens start stop io.perOp else [0]

/-- One item up to `stop`, and whether the next one may follow. -/
def PathIo.add (close : Bool) (owner : PathIoOwner) (count : Nat) (item : T) (stop : Nat)
    (chunk : PathIoChunk io) : RpcResult (PathIoChunk io × Bool) :=
  let caller := chunk.global
  let start := chunk.partOff
  let target := {chunk.toPathIoTarget with map := chunk.map.begin caller}
  match target.prepare close owner caller (io.file item) (io.opening item start) with
  | (target, none) =>
    .ok ({chunk with
      toPathIoTarget := target
      failed := some (caller, .inval)
      global := count}, false)
  | (target, some newlyOpened) => do
      let chunk ← io.addTransfers item caller start (io.lens start stop)
        {chunk with toPathIoTarget := target}
      let chunk := {chunk with
        cursor := if newlyOpened then chunk.cursor.descend.cursor else chunk.cursor
        map := chunk.map.endItem
        payload := chunk.payload + (128 + (stop - start))}
      if stop = io.length item then .ok ({chunk with global := caller + 1, partOff := 0}, true)
      else .ok ({chunk with partOff := stop}, false)

def PathIo.pack (close : Bool) (owner : PathIoOwner) (count budget maxItems : Nat) :
    List T → PathIoChunk io → RpcResult (PathIoChunk io)
  | [], chunk => .ok chunk
  | item :: rest, chunk =>
    if chunk.map.ranges.length < maxItems ∧ chunk.map.next + pathIoPerFile ≤ budget then do
      io.precheck item chunk.global
      match io.admits chunk.access item with
      | none => .ok chunk
      | some access =>
        match pathIoChunkEnd chunk.partOff (io.length item) io.perOp (io.room chunk.payload)
            (budget - (chunk.map.next + 3)) (chunk.map.next = 0 ∧ chunk.payload = 0) with
        | none => .ok chunk
        | some stop => do
            let (chunk, more) ← io.add close owner count item stop {chunk with access := access}
            if !more then .ok chunk
            else if chunk.map.next + pathIoPerFile > budget ∧ chunk.global < count then
              .ok chunk
            else PathIo.pack close owner count budget maxItems rest chunk
    else .ok chunk

def PathIoTarget.closeLast (close : Bool) (last : Nat) (target : PathIoTarget) : PathIoTarget :=
  if close ∧ target.openedPath.isSome then target.push last [closeOp] 1 else target

end Build

structure PathWriteOp where
  file : FileRef
  offset : Nat
  data : Bytes
  create : Bool
  truncate : Bool
  stateid : Option Stateid
  deriving DecidableEq, Repr

structure PathReadOp where
  file : FileRef
  offset : Nat
  count : Nat
  stateid : Option Stateid
  deriving DecidableEq, Repr

structure PathIoLimits where
  maxRequestArgBytes : Nat
  maxResponseBytes : Nat
  deriving DecidableEq, Repr

namespace PathIoLimits

variable (limits : PathIoLimits)

def maxOpBytes : Nat := 64 * 2 ^ 20

def perOpBytes : Nat := max 1 (min (limits.maxRequestArgBytes - 1024) maxOpBytes)

def readCompoundBytes : Nat := max (min (limits.maxResponseBytes * 3) usizeMax / 4) 1

def readPerOpBytes : Nat := min limits.perOpBytes (max (limits.readCompoundBytes - 256) 1)

theorem perOpBytes_pos : 0 < limits.perOpBytes := by
  unfold perOpBytes
  omega

theorem readPerOpBytes_pos : 0 < limits.readPerOpBytes := by
  have := limits.perOpBytes_pos
  unfold readPerOpBytes
  omega

/-- The rest of a byte budget behind a payload. -/
def roomOf (budget payload : Nat) : Nat := if payload > 0 then budget - (payload + 128) else budget

end PathIoLimits

def writevPath (limits : PathIoLimits) : PathIo PathWriteOp where
  tag close := if close then "writev1" else "writev2"
  file := PathWriteOp.file
  stateid := PathWriteOp.stateid
  offset := PathWriteOp.offset
  length op := op.data.length
  opening op start := {
    access := shareAccessBoth
    create := if op.create then .unchecked else .noCreate
    truncateCreate := op.create ∧ op.truncate ∧ start = 0
    truncateExisting := op.truncate ∧ !op.create ∧ start = 0}
  transfer op stateid offset part count :=
    .write stateid offset fileSync ((op.data.drop part).take count)
  transfer_isTransfer _ _ _ _ _ := rfl
  precheck op caller := (checkedOffset op.offset op.data.length caller).map fun _ => ()
  Access := List (FileRef × Nfs.WriteWaveAccess)
  noAccess := []
  admits access op :=
    let range := (op.offset, op.offset + op.data.length)
    match access.lookup op.file with
    | none => some ((op.file, .new range (!op.truncate)) :: access)
    | some known => (known.admits range (!op.truncate)).map fun known =>
      (op.file, known) :: access.filter fun entry => entry.1 ≠ op.file
  room payload :=
    if limits.maxRequestArgBytes > 0 then PathIoLimits.roomOf limits.maxRequestArgBytes payload
    else usizeMax
  perOp := limits.perOpBytes
  perOp_pos := limits.perOpBytes_pos
  record noted _ :=
    if noted < maxCompoundOps then .ok () else .error (.transport "too many merged WRITEs")

def readvPath (limits : PathIoLimits) : PathIo PathReadOp where
  tag close := if close then "readv1" else "readv2"
  file := PathReadOp.file
  stateid := PathReadOp.stateid
  offset := PathReadOp.offset
  length := PathReadOp.count
  opening _ _ := ⟨shareAccessRead, .noCreate, false, false⟩
  transfer _ stateid offset _ count := .read stateid offset count
  transfer_isTransfer _ _ _ _ _ := rfl
  precheck _ _ := .ok ()
  Access := Unit
  noAccess := ()
  admits _ _ := some ()
  room payload :=
    if limits.maxResponseBytes > 0 then PathIoLimits.roomOf limits.readCompoundBytes payload
    else usizeMax
  perOp := limits.readPerOpBytes
  perOp_pos := limits.readPerOpBytes_pos
  record noted count :=
    if noted < maxCompoundOps then
      if count ≤ u32Max then .ok ()
      else .error (.transport "READ count exceeds protocol limit")
    else .error (.transport "too many READ operations in compound")

end Vnfs
