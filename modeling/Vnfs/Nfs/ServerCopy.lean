import Vnfs.Core
import Vnfs.Lib.ByteFile
import Vnfs.Nfs.Namespace

/-!
Copying extents of files. Pairs are copied in batches by server-side COPY, which may
answer with fewer bytes than were asked for; a batch in which two pairs share an
object is copied pair by pair. Where the server refuses COPY before it has copied
anything of a batch, the client reads and writes the extents itself from there on.

Descriptors and stateids are left out. A path names an object, or will name it once
it is created; a missing object has no contents. What the server is free to choose is
an oracle over the number of requests it has seen.
-/

namespace Vnfs.Nfs.Copy

open ByteFile

structure ExtentPair (P : Type) where
  srcPath : P
  dstPath : P
  srcOffset : Nat
  dstOffset : Nat
  length : Option Nat
  deriving DecidableEq, Repr

structure CopyServer where
  /-- How many bytes a COPY copies, where as many may be copied. -/
  grant : Nat → Nat
  /-- The status with which a COPY is refused. -/
  refusal : Nat → Option Nat
  /-- The error of a call other than COPY. -/
  fault : Nat → Option VfError
  /-- How many bytes a READ brings or a WRITE takes. -/
  served : Nat → Nat
  /-- Whether the READ that brings the last bytes reports the end. -/
  eager : Nat → Bool

/-- A COPY request and the count it was answered with. -/
structure CopyRequest where
  /-- The number of the pair in the caller's list. -/
  number : Nat
  /-- Whether the pair has an explicit length. -/
  explicit : Bool
  count : Nat
  acked : Option Nat
  deriving DecidableEq, Repr

structure CopyWorld (F : Type) where
  store : F → Bytes
  present : F → Bool
  /-- The COPY requests so far. -/
  copies : List CopyRequest
  /-- The number of other calls. -/
  calls : Nat

structure CopyBatchFailure where
  error : VfError
  fallbackSafe : Bool

/-- `is_server_copy_fallback_status`: NOTSUPP, OP_ILLEGAL, OFFLOAD_DENIED,
OFFLOAD_NO_REQS, STALE_STATEID, OLD_STATEID, BAD_STATEID. -/
def isServerCopyFallbackStatus (status : Nat) : Bool :=
  [10004, 10044, 10091, 10094, 10023, 10024, 10025].contains status

variable (error : VfError)

/-- `raw_code`: the number of a status, zero for other errors. -/
def rawCode : Nat :=
  match error.detail with
  | .status (.errno code) | .status (.nfs code) | .status (.smb code) => code
  | _ => 0

/-- The conversion of an error that `?` makes. -/
def CopyBatchFailure.ofError : CopyBatchFailure :=
  ⟨error, isServerCopyFallbackStatus (rawCode error)⟩

def CopyBatchFailure.withoutFallback : CopyBatchFailure := ⟨error, false⟩

/-- One pair of a batch, with its part of the vectors `copies`, `effective_lengths`,
`totals` and `pending`. -/
structure CopyItem (P F : Type) where
  /-- The number of the pair in the caller's list, for the record of requests. -/
  number : Nat
  /-- Its index in the batch. -/
  slot : Nat
  pair : ExtentPair P
  source : F
  destination : F
  srcOffset : Nat
  dstOffset : Nat
  length : Option Nat
  total : Nat
  pending : Bool

section

variable {P F : Type} [DecidableEq F] (server : CopyServer) (identity : P → F)
  (pairs : List (Nat × ExtentPair P)) (w : CopyWorld F) (item : CopyItem P F)
  (pair : ExtentPair P) (store : F → Bytes) (fuel : Nat)

/-- The count of the next COPY; zero stands for the rest of the file. -/
def CopyItem.count : Nat :=
  match item.length with
  | some length => length - item.total
  | none => 0

def CopyWorld.copy : CopyWorld F × Except Nat Nat :=
  let request (acked : Option Nat) : CopyRequest :=
    ⟨item.number, item.length.isSome, item.count, acked⟩
  match server.refusal w.copies.length with
  | some status => ({w with copies := w.copies ++ [request none]}, .error status)
  | none =>
    let available := (w.store item.source).length - item.srcOffset
    let limit := if item.count = 0 then available else min item.count available
    let n := min limit (max 1 (server.grant w.copies.length))
    ({w with store := writeTo w.store item.destination item.dstOffset
               (((w.store item.source).drop item.srcOffset).take n),
             copies := w.copies ++ [request (some n)]}, .ok n)

/-- `copy_many` for the pending pairs, up to the first that is refused; that one is
given by its position among them. -/
def copyMany : Nat → List (CopyItem P F) → CopyWorld F →
    CopyWorld F × Except (Nat × Nat) (List Nat)
  | _, [], w => (w, .ok [])
  | position, item :: rest, w =>
    if item.pending then
      match w.copy server item with
      | (w, .error status) => (w, .error (position, status))
      | (w, .ok n) =>
        match copyMany (position + 1) rest w with
        | (w, .ok counts) => (w, .ok (n :: counts))
        | (w, .error failure) => (w, .error failure)
    else copyMany position rest w

def overflow (slot : Nat) : VfError := .errno (some slot) VfError.eoverflow

def CopyItem.advance (n : Nat) : VfResult (CopyItem P F) :=
  match checkedAdd item.total n, checkedAdd item.srcOffset n, checkedAdd item.dstOffset n with
  | some total, some srcOffset, some dstOffset =>
    .ok {item with
      total := total, srcOffset := srcOffset, dstOffset := dstOffset,
      pending := n ≠ 0 ∧ item.length.all (total < ·)}
  | _, _, _ => .error (overflow item.slot)

def advanceAll : List (CopyItem P F) → List Nat → VfResult (List (CopyItem P F))
  | [], _ => .ok []
  | item :: rest, counts =>
    if item.pending then
      match counts with
      | [] => .ok (item :: rest)
      | n :: counts => do
          let item ← item.advance n
          let rest ← advanceAll rest counts
          .ok (item :: rest)
    else do
      let rest ← advanceAll rest counts
      .ok (item :: rest)

def serverCopyFailureAllowsFallback (status active : Nat) (items : List (CopyItem P F)) : Bool :=
  isServerCopyFallbackStatus status && active == 0 && items.all fun item => item.total == 0

/-- The error of a refused COPY, for the pair at a position among the pending ones. -/
def copyFailure (items : List (CopyItem P F)) (position status : Nat) : CopyBatchFailure :=
  let slots := (items.filter fun item => item.pending).map fun item => item.slot
  let slot := slots[position]?.getD 0
  ⟨.nfs (some slot) status, serverCopyFailureAllowsFallback status position items⟩

/-- The loop of COPY rounds. Nothing if the fuel does not suffice. -/
def copyRounds : Nat → List (CopyItem P F) → CopyWorld F →
    CopyWorld F × Option (Except CopyBatchFailure (List (CopyItem P F)))
  | 0, _, w => (w, none)
  | fuel + 1, items, w =>
    if items.all fun item => !item.pending then (w, some (.ok items))
    else
      match copyMany server 0 items w with
      | (w, .error (position, status)) =>
        (w, some (.error (copyFailure items position status)))
      | (w, .ok counts) =>
        match advanceAll items counts with
        | .error error => (w, some (.error (.ofError error)))
        | .ok items => copyRounds fuel items w

def CopyWorld.call : CopyWorld F × VfResult Unit :=
  ({w with calls := w.calls + 1},
    match server.fault w.calls with
    | some error => .error error
    | none => .ok ())

def CopyWorld.setSize (file : F) (size : Nat) : CopyWorld F :=
  {w with store := Function.update w.store file (truncate (w.store file) size)}

/-- The SETATTR phase: cut each destination behind what was copied. -/
def setattrMany : List (CopyItem P F) → CopyWorld F → CopyWorld F
  | [], w => w
  | item :: rest, w =>
    setattrMany rest (w.setSize item.destination (item.pair.dstOffset + item.total))

def checkSizes : List (CopyItem P F) → VfResult Unit
  | [] => .ok ()
  | item :: rest =>
    match checkedAdd item.pair.dstOffset item.total with
    | none => .error (overflow item.slot)
    | some _ => checkSizes rest

/-- The effective length of an explicit one is limited by the size of the source. -/
def effectiveLength : Option Nat :=
  pair.length.map fun length =>
    if length = 0 then 0
    else min length ((w.store (identity pair.srcPath)).length - pair.srcOffset)

def copyItems (w : CopyWorld F) : Nat → List (Nat × ExtentPair P) → List (CopyItem P F)
  | _, [] => []
  | slot, (number, pair) :: rest =>
    { number := number, slot := slot, pair := pair,
      source := identity pair.srcPath, destination := identity pair.dstPath,
      srcOffset := pair.srcOffset, dstOffset := pair.dstOffset,
      length := effectiveLength identity w pair, total := 0,
      pending := effectiveLength identity w pair ≠ some 0 } :: copyItems w (slot + 1) rest

/-- The attributes of the sources are asked for if a pair has an explicit length. -/
def sourceSizes :
    CopyWorld F × VfResult Unit :=
  if pairs.any fun pair => pair.2.length.any (0 < ·) then w.call server else (w, .ok ())

def copyOpened (pairs : List (Nat × ExtentPair P)) (w : CopyWorld F) :
    CopyWorld F × Option (Except CopyBatchFailure Unit) :=
  match sourceSizes server pairs w with
  | (w, .error error) => (w, some (.error (.ofError error)))
  | (w, .ok ()) =>
    match copyRounds server fuel (copyItems identity w 0 pairs) w with
    | (w, none) => (w, none)
    | (w, some (.error failure)) => (w, some (.error failure))
    | (w, some (.ok items)) =>
      match checkSizes items with
      | .error error => (w, some (.error (.ofError error)))
      | .ok () =>
        match w.call server with
        | (w, .error error) => (w, some (.error (.withoutFallback error)))
        | (w, .ok ()) => (setattrMany items w, some (.ok ()))

def missingSource (w : CopyWorld F) : Nat → List (Nat × ExtentPair P) → Option Nat
  | _, [] => none
  | slot, pair :: rest =>
    if w.present (identity pair.2.srcPath) then missingSource w (slot + 1) rest else some slot

def CopyWorld.create (file : F) : CopyWorld F :=
  {w with present := Function.update w.present file true}

def openBatch :
    CopyWorld F × VfResult Unit :=
  match w.call server with
  | (w, .error error) => (w, .error error)
  | (w, .ok ()) =>
    match missingSource identity w 0 pairs with
    | some slot => (w, .error (.errno (some slot) errNoent))
    | none =>
      match w.call server with
      | (w, .error error) => (w, .error error)
      | (w, .ok ()) =>
        (pairs.foldl (fun w pair => w.create (identity pair.2.dstPath)) w, .ok ())

/-- The loop of `copy_pairs_alias` over the objects seen so far. -/
def aliasFrom : List F → List (F × F) → Bool
  | _, [] => false
  | seen, (source, destination) :: rest =>
    if source ∈ seen then true
    else if source ≠ destination ∧ destination ∈ source :: seen then true
    else aliasFrom (if source ≠ destination then destination :: source :: seen
      else source :: seen) rest

def copyPairsAlias (pairs : List (F × F)) : Bool :=
  if pairs.length < 2 then false else aliasFrom [] pairs

def objects : List (F × F) :=
  pairs.map fun pair => (identity pair.2.srcPath, identity pair.2.dstPath)

/-- Opens and copies; for a single pair this is all of `copy_extents_server_side`,
since a single pair is no alias. -/
def copySingle (pair : Nat × ExtentPair P) (w : CopyWorld F) :
    CopyWorld F × Option (Except CopyBatchFailure Unit) :=
  match openBatch server identity [pair] w with
  | (w, .error error) => (w, some (.error (.ofError error)))
  | (w, .ok ()) => copyOpened server identity fuel [pair] w

/-- The pairs of a batch with aliases, one after another. -/
def copyEach (fuel : Nat) : Nat → List (Nat × ExtentPair P) → CopyWorld F →
    CopyWorld F × Option (Except CopyBatchFailure Unit)
  | _, [], w => (w, some (.ok ()))
  | index, pair :: rest, w =>
    match copySingle server identity fuel pair w with
    | (w, none) => (w, none)
    | (w, some (.error failure)) =>
      (w, some (.error ⟨failure.error.mapIndex fun _ => index,
        failure.fallbackSafe && index == 0⟩))
    | (w, some (.ok ())) => copyEach fuel (index + 1) rest w

def copyExtentsServerSide (pairs : List (Nat × ExtentPair P)) (w : CopyWorld F) :
    CopyWorld F × Option (Except CopyBatchFailure Unit) :=
  match openBatch server identity pairs w with
  | (w, .error error) => (w, some (.error (.ofError error)))
  | (w, .ok ()) =>
    if copyPairsAlias (objects identity pairs) then copyEach server identity fuel 0 pairs w
    else copyOpened server identity fuel pairs w

/-- `write_all_at`, behind its check of the offsets. -/
def writeAllAt (file : F) (offset : Nat) (data : Bytes) (w : CopyWorld F) :
    CopyWorld F × VfResult Unit :=
  if data.isEmpty then (w, .ok ())
  else
    let written := server.served w.calls
    match w.call server with
    | (w, .error error) => (w, .error error)
    | (w, .ok ()) =>
      let w := {w with store := writeTo w.store file offset (data.take written)}
      if _h : written = 0 ∨ data.length < written then (w, .error (.errno (some 0) VfError.errIo))
      else writeAllAt file (offset + written) (data.drop written) w
termination_by data.length
decreasing_by simp only [List.length_drop]; omega

/-- The loop of `copy_extent_data`: where it reads, where it writes, and how much it has
copied. Gives the end of the copied data. Nothing if the fuel does not suffice. -/
def copyExtentData (source destination : F) (length : Option Nat) :
    Nat → Nat → Nat → Nat → CopyWorld F → CopyWorld F × Option (VfResult Nat)
  | 0, _, _, _, w => (w, none)
  | fuel + 1, so, doff, copied, w =>
    if length.any (· ≤ copied) then (w, some (.ok doff))
    else
      let remaining := (length.map (· - copied)).getD u64Max
      let chunkLen := min remaining (2 ^ 20)
      let chunk := ((w.store source).drop so).take (server.served w.calls)
      let eof := decide ((w.store source).length ≤ so + chunk.length) &&
        (chunk.isEmpty || server.eager w.calls)
      match w.call server with
      | (w, .error error) => (w, some (.error error))
      | (w, .ok ()) =>
        if chunkLen < chunk.length then (w, some (.error (.errno (some 0) VfError.errIo)))
        else if chunk.isEmpty then
          (w, some (if eof then .ok doff else .error (.errno (some 0) VfError.errIo)))
        else
          match checkedAdd doff chunk.length with
          | none => (w, some (.error (overflow 0)))
          | some doff' =>
            match writeAllAt server destination doff chunk w with
            | (w, .error error) => (w, some (.error error))
            | (w, .ok ()) =>
              match checkedAdd so chunk.length, checkedAdd copied chunk.length with
              | some so', some copied' =>
                if eof then (w, some (.ok doff'))
                else copyExtentData source destination length fuel so' doff' copied' w
              | _, _ => (w, some (.error (overflow 0)))

/-- The length that `copy_extent` copies: forward copies inside one file are limited
to what was there, and must not overlap. -/
def copyLength (w : CopyWorld F) : VfResult (Option Nat) :=
  if identity pair.srcPath = identity pair.dstPath ∧ pair.srcOffset < pair.dstOffset then
    match pair.length with
    | none => .error (.fromKind (some 0) .invalidInput)
    | some length =>
      let length := if length = 0 then 0
        else min length ((w.store (identity pair.srcPath)).length - pair.srcOffset)
      if pair.dstOffset - pair.srcOffset < length then
        .error (.fromKind (some 0) .invalidInput)
      else .ok (some length)
  else .ok pair.length

/-- The last calls of `copy_extent`: SETATTR of the size, and the closes. -/
def finishExtent (destination : F) (size : Nat) (w : CopyWorld F) :
    CopyWorld F × VfResult Unit :=
  match w.call server with
  | (w, .error error) => (w, .error error)
  | (w, .ok ()) => (w.setSize destination size).call server

def copyExtent (pair : ExtentPair P) (w : CopyWorld F) :
    CopyWorld F × Option (VfResult Unit) :=
  match openBatch server identity [(0, pair)] w with
  | (w, .error error) => (w, some (.error error))
  | (w, .ok ()) =>
    match copyLength identity pair w with
    | .error error => (w, some (.error error))
    | .ok length =>
      match copyExtentData server (identity pair.srcPath) (identity pair.dstPath) length fuel
          pair.srcOffset pair.dstOffset 0 w with
      | (w, none) => (w, none)
      | (w, some (.error error)) => (w, some (.error error))
      | (w, some (.ok size)) =>
        let (w, result) := finishExtent server (identity pair.dstPath) size w
        (w, some result)

def vcopyDataImpl (fuel : Nat) : Nat → List (ExtentPair P) → CopyWorld F →
    CopyWorld F × Option (VfResult Unit)
  | _, [], w => (w, some (.ok ()))
  | index, pair :: rest, w =>
    match copyExtent server identity fuel pair w with
    | (w, none) => (w, none)
    | (w, some (.error error)) => (w, some (.error (error.withIndex index)))
    | (w, some (.ok ())) => vcopyDataImpl fuel (index + 1) rest w

/-- How a call ends: its result, and where it went over to copying on the client. -/
structure CopyRun (F : Type) where
  world : CopyWorld F
  result : Option (VfResult Unit)
  fallback : Option Nat

def numbered : Nat → List (ExtentPair P) → List (Nat × ExtentPair P)
  | _, [] => []
  | number, pair :: rest => (number, pair) :: numbered (number + 1) rest

/-- The loop over batches of eight pairs, from pair number `start` on. -/
def copyBatches (fuel start : Nat) (pairs : List (ExtentPair P)) (w : CopyWorld F) : CopyRun F :=
  match pairs with
  | [] => ⟨w, some (.ok ()), none⟩
  | pair :: rest =>
    match copyExtentsServerSide server identity fuel (numbered start (pair :: rest.take 7)) w with
    | (w, none) => ⟨w, none, none⟩
    | (w, some (.error failure)) =>
      if failure.fallbackSafe then
        let (w, result) := vcopyDataImpl server identity fuel 0 (pair :: rest) w
        ⟨w, result.map fun result => result.mapError (·.mapIndex (start + ·)), some start⟩
      else ⟨w, some (.error (failure.error.mapIndex (start + ·))), none⟩
    | (w, some (.ok ())) => copyBatches fuel (start + 8) (rest.drop 7) w
termination_by pairs.length
decreasing_by simp only [List.length_drop, List.length_cons]; omega

def vcopyDataNfs (serverCopyEnabled : Bool) (fuel : Nat) (pairs : List (ExtentPair P))
    (w : CopyWorld F) : CopyRun F :=
  if serverCopyEnabled then copyBatches server identity fuel 0 pairs w
  else
    let (w, result) := vcopyDataImpl server identity fuel 0 pairs w
    ⟨w, result, none⟩

/-! ### Copying one pair after another -/

def ExtentPair.extent : Bytes :=
  match pair.length with
  | some length => ((store (identity pair.srcPath)).drop pair.srcOffset).take length
  | none => (store (identity pair.srcPath)).drop pair.srcOffset

/-- The destination keeps its front, receives the extent and ends behind it. -/
def ExtentPair.copied (pair : ExtentPair P) : F → Bytes :=
  Function.update store (identity pair.dstPath)
    (truncate (pwrite (store (identity pair.dstPath)) pair.dstOffset (pair.extent identity store))
      (pair.dstOffset + (pair.extent identity store).length))

def copiedInTurn (pairs : List (ExtentPair P)) : F → Bytes :=
  pairs.foldl (ExtentPair.copied identity) store

end

end Vnfs.Nfs.Copy
