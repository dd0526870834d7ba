import Mathlib

/-!
COMPOUND requests and replies as the typed client sees them: the operations of
`compound.rs`, the status of a returned operation, and the check every decoded
reply passes before an accessor may read it. A status is the `u32` of the wire.
Pointers are not modelled; a reply operation only records whether its success
payload announced bytes behind a null pointer, which is all the check asks.
-/

namespace Vnfs

abbrev Bytes := List UInt8

structure NfsFh where
  data : Bytes
  deriving DecidableEq, Repr

abbrev Status := UInt32

namespace Status

def ok : Status := 0
def noent : Status := 2
def io : Status := 5
def exist : Status := 17
def notdir : Status := 20
def isdir : Status := 21
def inval : Status := 22
def nospc : Status := 28
def notempty : Status := 66
def stale : Status := 70
def same : Status := 10009
def resource : Status := 10018
def nofilehandle : Status := 10020
def symlink : Status := 10029
def restorefh : Status := 10030
def badsession : Status := 10052
def completeAlready : Status := 10054
def reqTooBig : Status := 10065
def tooManyOps : Status := 10070
def deadsession : Status := 10078

/-- `u32::MAX`: no NFS status, only a transport failure. -/
def transport : Status := 4294967295

end Status

/-- The opcodes `response_op_status` can read; `other` is every opcode it
cannot. -/
inductive OpNum where
  | close | create | getattr | getfh | link | lookup | lookupp | nverify
  | openFile | putfh | putrootfh | read | readdir | readlink | remove
  | rename | restorefh | savefh | setattr | write | bindConnToSession
  | exchangeId | createSession | destroySession | sequence
  | destroyClientid | reclaimComplete | copy
  | other (code : Nat)
  deriving DecidableEq, Repr

def OpNum.code : OpNum → Nat
  | .close => 4
  | .create => 6
  | .getattr => 9
  | .getfh => 10
  | .link => 11
  | .lookup => 15
  | .lookupp => 16
  | .nverify => 17
  | .openFile => 18
  | .putfh => 22
  | .putrootfh => 24
  | .read => 25
  | .readdir => 26
  | .readlink => 27
  | .remove => 28
  | .rename => 29
  | .restorefh => 31
  | .savefh => 32
  | .setattr => 34
  | .write => 38
  | .bindConnToSession => 41
  | .exchangeId => 42
  | .createSession => 43
  | .destroySession => 44
  | .sequence => 53
  | .destroyClientid => 57
  | .reclaimComplete => 58
  | .copy => 60
  | .other code => code

structure Stateid where
  seqid : UInt32
  other : Bytes
  deriving DecidableEq, Repr

/-- The special stateid a compound uses for the file it has just opened. -/
def specialStateid : Stateid := ⟨1, List.replicate 12 0⟩

/-- The all-zero stateid. -/
def anonymousStateid : Stateid := ⟨0, List.replicate 12 0⟩

/-- `openflag4`: whether an OPEN may create, and with which attributes. -/
inductive OpenHow where
  | noCreate
  | exclusive
  | guarded
  | unchecked (mode : Option UInt32) (truncate : Bool)
  deriving DecidableEq, Repr

/-- The attributes a SETATTR changes. -/
structure SetAttrs where
  mode : Option UInt32 := none
  size : Option Nat := none
  uid : Option UInt32 := none
  gid : Option UInt32 := none
  atime : Option (Int × UInt32) := none
  mtime : Option (Int × UInt32) := none
  deriving DecidableEq, Repr

structure OpenArgs where
  seqid : UInt32
  access : UInt32
  owner : Bytes
  how : OpenHow
  /-- The file of a `CLAIM_NULL` open; `none` is `CLAIM_FH`. -/
  file : Option Bytes
  deriving DecidableEq, Repr

/-- One request operation. Arguments no modelled function reads (client
identities, channel attributes, create verifiers, directory limits) are left
out. -/
inductive ArgOp where
  | sequence (sessionid : Bytes) (seqid slotid : UInt32)
  | putfh (fh : NfsFh)
  | putrootfh
  | getfh
  | lookup (name : Bytes)
  | lookupp
  | savefh
  | restorefh
  | nverifyType (ftype : Nat)
  | getattr (attrs : List Nat)
  | setattr (attrs : SetAttrs) (stateid : Stateid)
  | openFile (args : OpenArgs)
  | close (seqid : UInt32) (stateid : Stateid)
  | read (stateid : Stateid) (offset count : Nat)
  | write (stateid : Stateid) (offset : Nat) (stable : UInt32) (data : Bytes)
  | copy (src dst : Stateid) (srcOffset dstOffset count : Nat)
  | create (name : Bytes) (ftype : Nat) (linkdata : Option Bytes)
  | link (name : Bytes)
  | remove (name : Bytes)
  | rename (oldname newname : Bytes)
  | readlink
  | readdir (cookie : Nat)
  | exchangeId
  | createSession (clientid : UInt64) (seqid : UInt32)
  | bindConnToSession (sessionid : Bytes)
  | reclaimComplete
  | destroySession (sessionid : Bytes)
  | destroyClientid (clientid : UInt64)
  deriving DecidableEq, Repr

def ArgOp.opNum : ArgOp → OpNum
  | .sequence .. => .sequence
  | .putfh .. => .putfh
  | .putrootfh => .putrootfh
  | .getfh => .getfh
  | .lookup .. => .lookup
  | .lookupp => .lookupp
  | .savefh => .savefh
  | .restorefh => .restorefh
  | .nverifyType .. => .nverify
  | .getattr .. => .getattr
  | .setattr .. => .setattr
  | .openFile .. => .openFile
  | .close .. => .close
  | .read .. => .read
  | .write .. => .write
  | .copy .. => .copy
  | .create .. => .create
  | .link .. => .link
  | .remove .. => .remove
  | .rename .. => .rename
  | .readlink => .readlink
  | .readdir .. => .readdir
  | .exchangeId => .exchangeId
  | .createSession .. => .createSession
  | .bindConnToSession .. => .bindConnToSession
  | .reclaimComplete => .reclaimComplete
  | .destroySession .. => .destroySession
  | .destroyClientid .. => .destroyClientid

inductive ResData where
  | none
  | handle (fh : NfsFh)
  | read (data : Bytes) (eof : Bool)
  | write (count : Nat) (committed : UInt32)
  | opened (stateid : Stateid)
  | exchanged (clientid : UInt64) (sequenceid : UInt32) (confirmed : Bool)
  | session (sessionid : Bytes) (maxRequestSize maxResponseSize maxOperations : Nat)
  deriving DecidableEq, Repr

structure ResOp where
  resop : OpNum
  /-- The status member of the result union `resop` selects. -/
  status : Status
  data : ResData := .none
  /-- The success payload has a nonzero length and a null pointer. -/
  nullData : Bool := false
  deriving DecidableEq, Repr

structure CompoundRes where
  status : Status
  resarray : List ResOp
  /-- The operation array itself is a null pointer. -/
  nullArray : Bool := false
  deriving DecidableEq, Repr

inductive TransportKind where
  | timeout | connection | invalidReply | auth | other
  deriving DecidableEq, Repr

structure RpcError where
  opIndex : Nat
  status : Status
  message : String
  transportKind : Option TransportKind
  deriving DecidableEq, Repr

namespace RpcError

def op (opIndex : Nat) (status : Status) : RpcError :=
  ⟨opIndex, status, "", none⟩

def transportWithKind (kind : TransportKind) (message : String) : RpcError :=
  ⟨0, Status.transport, message, some kind⟩

def transport (message : String) : RpcError :=
  transportWithKind .other message

def isTransport (error : RpcError) : Bool :=
  error.status == Status.transport

def withOpIndex (error : RpcError) (index : Nat) : RpcError :=
  {error with opIndex := index}

end RpcError

abbrev RpcResult (α : Type) := Except RpcError α

def responseOpStatus (ro : ResOp) : Status :=
  match ro.resop with
  | .other _ => Status.transport
  | _ => ro.status

namespace CompoundRes

def nops (res : CompoundRes) : Nat := res.resarray.length

/-- The status of operation `i`. The source asserts `i < nops`; past the end
the model answers with the status no operation of a valid reply carries. -/
def opStatus (res : CompoundRes) (i : Nat) : Status :=
  (res.resarray[i]?).elim Status.transport responseOpStatus

/-- `op_status` for an index a rejected compound may not have reached. -/
def tryOpStatus (res : CompoundRes) (i : Nat) : RpcResult Status :=
  if i < res.nops then .ok (res.opStatus i)
  else .error (.op (res.nops - 1) res.status)

/-- The success data of operation `i`. -/
def data (res : CompoundRes) (i : Nat) : ResData :=
  (res.resarray[i]?).elim .none ResOp.data

end CompoundRes

def invalidReply (detail : String) : RpcError :=
  .transportWithKind .invalidReply s!"malformed NFS COMPOUND reply: {detail}"

/-- The payload test of the four operations whose success data is read through
a pointer. -/
def nullPayload (actual : ResOp) : Bool :=
  match actual.resop with
  | .getfh | .read | .readlink | .getattr =>
    actual.status == Status.ok && actual.nullData
  | _ => false

/-- The body of the loop over returned operations. `count` is the length of the
reply and `status` its compound status. -/
def validateResponseOp (status : Status) (count index : Nat) (expected : ArgOp)
    (actual : ResOp) : RpcResult Unit :=
  let resop := actual.resop.code
  let argop := expected.opNum.code
  let opStatus := responseOpStatus actual
  if actual.resop ≠ expected.opNum then
    .error (invalidReply s!"operation {index} is {resop}, expected {argop}")
  else if opStatus = Status.transport then
    .error (invalidReply s!"operation {index} has unsupported opcode {resop}")
  else if opStatus ≠ (if index + 1 = count then status else Status.ok) then
    .error (invalidReply
      s!"operation {index} status {opStatus} does not match compound status {status}")
  else if nullPayload actual then
    .error (invalidReply s!"operation {index} has a null payload pointer")
  else .ok ()

def validateResponseOpsFrom (status : Status) (count : Nat) :
    Nat → List ArgOp → List ResOp → RpcResult Unit
  | index, expected :: request, actual :: ops => do
      validateResponseOp status count index expected actual
      validateResponseOpsFrom status count (index + 1) request ops
  | _, _, _ => .ok ()

def validateResponseOps (request : List ArgOp) (res : CompoundRes) : RpcResult Unit :=
  let count := res.nops
  let requests := request.length
  if count > requests then
    .error (invalidReply s!"returned {count} operations for {requests} requests")
  else if count ≠ 0 ∧ res.nullArray then
    .error (invalidReply "non-empty operation array has a null pointer")
  else if res.status = Status.ok ∧ count ≠ requests then
    .error (invalidReply
      s!"successful reply returned {count} operations for {requests} requests")
  else validateResponseOpsFrom res.status count 0 request res.resarray

/-- `Compound::call` after the exchange: a reply becomes observable only once it
passed the check. `received` is what the RPC layer returned. -/
def callResult (request : List ArgOp) (received : RpcResult CompoundRes) :
    RpcResult CompoundRes := do
  let res ← received
  validateResponseOps request res
  return res

variable {request : List ArgOp} {res : CompoundRes} {status : Status} {count index : Nat}

theorem callResult_ok {received : RpcResult CompoundRes}
    (h : callResult request received = .ok res) :
    received = .ok res ∧ validateResponseOps request res = .ok () := by
  cases received with
  | error e => cases h
  | ok reply =>
    cases hv : validateResponseOps request reply with
    | error e => simp [callResult, hv, bind, Except.bind] at h
    | ok _ =>
      have heq : reply = res := by
        simpa [callResult, hv, bind, Except.bind, pure, Except.pure] using h
      exact ⟨by rw [heq], by rw [← heq, hv]⟩

/-- What an accepted reply looks like: it answers a prefix of the request with
matching opcodes, every operation but the last succeeded, and the last one
carries the compound status. -/
structure ReplyShape (request : List ArgOp) (res : CompoundRes) : Prop where
  nops_le : res.nops ≤ request.length
  nops_of_ok : res.status = Status.ok → res.nops = request.length
  opNum_eq : ∀ (i : Nat) (arg : ArgOp) (ro : ResOp), request[i]? = some arg →
    res.resarray[i]? = some ro → ro.resop = arg.opNum
  ok_before_last : ∀ i, i + 1 < res.nops → res.opStatus i = Status.ok
  last_status : ∀ i, i + 1 = res.nops → res.opStatus i = res.status
  status_ne_transport : 0 < res.nops → res.status ≠ Status.transport

theorem validateResponseOp_ok {expected : ArgOp} {actual : ResOp}
    (h : validateResponseOp status count index expected actual = .ok ()) :
    actual.resop = expected.opNum ∧ responseOpStatus actual ≠ Status.transport ∧
      responseOpStatus actual = (if index + 1 = count then status else Status.ok) := by
  simp only [validateResponseOp] at h
  repeat' split at h
  all_goals simp_all

/-- The loop accepts a result list only if every operation it visits passes the
test at its own index. -/
theorem validateResponseOpsFrom_ok {ops : List ResOp}
    (h : validateResponseOpsFrom status count index request ops = .ok ()) {i : Nat} {arg : ArgOp}
    {ro : ResOp} (ha : request[i]? = some arg) (hro : ops[i]? = some ro) :
    validateResponseOp status count (index + i) arg ro = .ok () := by
  induction request generalizing ops index i with
  | nil => simp at ha
  | cons expected request ih =>
    cases ops with
    | nil => simp at hro
    | cons actual ops =>
      cases hop : validateResponseOp status count index expected actual with
      | error e => simp [validateResponseOpsFrom, hop, bind, Except.bind] at h
      | ok _ =>
        simp only [validateResponseOpsFrom, hop, bind, Except.bind] at h
        cases i with
        | zero => simp_all
        | succ i =>
          have hn := ih h (i := i) (by simpa using ha) (by simpa using hro)
          rwa [Nat.add_right_comm, Nat.add_assoc] at hn

theorem validateResponseOps_shape (h : validateResponseOps request res = .ok ()) :
    ReplyShape request res := by
  simp only [validateResponseOps] at h
  split at h
  · cases h
  split at h
  · cases h
  split at h
  · cases h
  rename_i hf
  have hop (i : Nat) (hi : i < res.nops) : ∃ arg ro, request[i]? = some arg ∧
      res.resarray[i]? = some ro ∧ ro.resop = arg.opNum ∧
      responseOpStatus ro ≠ Status.transport ∧
      responseOpStatus ro = (if i + 1 = res.nops then res.status else Status.ok) := by
    have hr : i < res.resarray.length := hi
    have ha : i < request.length := by omega
    refine ⟨request[i], res.resarray[i], by simp, by simp, ?_⟩
    have hv := validateResponseOpsFrom_ok h (i := i)
      (List.getElem?_eq_getElem ha) (List.getElem?_eq_getElem hr)
    rw [Nat.zero_add] at hv
    exact validateResponseOp_ok hv
  have hl (i : Nat) (hi : i + 1 = res.nops) : res.opStatus i = res.status ∧
      res.status ≠ Status.transport := by
    obtain ⟨arg, ro, -, hro, -, hne, hs⟩ := hop i (by omega)
    simp only [hi, if_true] at hs
    exact ⟨by simp [CompoundRes.opStatus, hro, hs], hs ▸ hne⟩
  refine ⟨by omega, fun hok => by simpa [hok] using hf, ?_, ?_, fun i hi => (hl i hi).1, ?_⟩
  · intro i arg ro ha hro
    obtain ⟨arg', ro', ha', hro', heq, -⟩ :=
      hop i (by simpa [CompoundRes.nops] using (List.getElem?_eq_some_iff.mp hro).1)
    simp_all
  · intro i hi
    obtain ⟨arg, ro, -, hro, -, -, hs⟩ := hop i (by omega)
    simpa [CompoundRes.opStatus, hro, Nat.ne_of_lt hi] using hs
  · intro hp
    exact (hl (res.nops - 1) (by omega)).2

end Vnfs
