import Vnfs.Wire

/-!
The vocabulary of `vfsi-core` that the backends and the sync client share:
operands, offsets, write requests and results, and the portable error. The data
source of an error is left out: nothing modelled reads it.
-/

namespace Vnfs

def u64Max : Nat := 2 ^ 64 - 1

def checkedAdd (a b : Nat) : Option Nat := if a + b ≤ u64Max then some (a + b) else none

theorem checkedAdd_eq_some {a b c : Nat} (h : checkedAdd a b = some c) : c = a + b := by
  unfold checkedAdd at h
  split at h
  · exact (Option.some.inj h).symm
  · cases h

inductive VfPathBase where
  | cwd
  | abs
  deriving DecidableEq, Repr

inductive FileOperand where
  | cwd
  | fd (fd : Int)
  | path (base : VfPathBase) (path : Bytes)
  | cwdPath (path : Bytes)
  | saved
  deriving DecidableEq, Repr

inductive VfOffset where
  /-- `At`: an absolute offset. -/
  | pos (offset : Nat)
  /-- `Cur`: the position of the open descriptor. -/
  | cur
  /-- `End`: the end of the file. -/
  | eof
  deriving DecidableEq, Repr

inductive StatusCode where
  | errno (code : Nat)
  | nfs (code : Nat)
  | smb (code : Nat)
  deriving DecidableEq, Repr

/-- `std::io::ErrorKind`, as far as the client raises it itself. -/
inductive IoErrorKind where
  | invalidInput
  | unsupported
  | other (name : String)
  deriving DecidableEq, Repr

inductive ErrorDetail where
  | status (code : StatusCode)
  | client (kind : IoErrorKind)
  | transport (kind : TransportKind)
  deriving DecidableEq, Repr

structure ErrorContext where
  operation : Option String
  path : Option Bytes
  message : Option String
  deriving DecidableEq, Repr

structure VfError where
  index : Option Nat
  detail : ErrorDetail
  context : Option ErrorContext
  deriving DecidableEq, Repr

abbrev VfResult (α : Type) := Except VfError α

namespace VfError

def errIo : Nat := 5

def errEbadf : Nat := 9

def eoverflow : Nat := 75

def errno (index : Option Nat) (code : Nat) : VfError := ⟨index, .status (.errno code), none⟩

def nfs (index : Option Nat) (status : Nat) : VfError := ⟨index, .status (.nfs status), none⟩

variable (error : VfError) (index : Option Nat)

def fromKind (kind : IoErrorKind) : VfError := ⟨index, .client kind, none⟩

def contextMut : ErrorContext := error.context.getD ⟨none, none, none⟩

def withMessage (message : String) : VfError :=
  let context := {error.contextMut with message := some message}
  {error with context := some context}

def withContext (operation : String) (path : Bytes) : VfError :=
  let context := {error.contextMut with operation := some operation, path := some path}
  {error with context := some context}

def withIndex (index : Nat) : VfError := {error with index := some index}

def mapIndex (map : Nat → Nat) : VfError :=
  {error with index := error.index.map map}

def transportWithKind (kind : TransportKind) (message : String) : VfError :=
  withMessage ⟨index, .transport kind, none⟩ message

def invalidReply (index : Option Nat) (message : String) : VfError :=
  transportWithKind index .invalidReply message

end VfError

def errorFromRpc (error : RpcError) (index : Option Nat) : VfError :=
  if error.isTransport then
    .transportWithKind index (error.transportKind.getD .other) error.message
  else if error.message.isEmpty then .nfs index error.status.toNat
  else (VfError.nfs index error.status.toNat).withMessage error.message

def errorFromRpcIndexed (error : RpcError) : VfError :=
  if error.isTransport then errorFromRpc error none else errorFromRpc error (some error.opIndex)

/-- A write request of the vector interface, with its native path flags. -/
structure WriteRequest where
  file : FileOperand
  offset : VfOffset
  data : Bytes
  creates : Bool := false
  truncates : Bool := false
  deriving DecidableEq, Repr

structure WriteResult where
  file : FileOperand
  offset : Nat
  bytesWritten : Nat
  stable : Bool
  deriving DecidableEq, Repr

end Vnfs
