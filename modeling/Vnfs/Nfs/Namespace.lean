import Vnfs.CfhCursor
import Vnfs.Core

/-!
Paths of the NFS backend: how an operand becomes a path below the export root, and
how a path is resolved with its symbolic links followed.

The server is a state and the answer of every operation on it. The client calls
used here are what their compounds do to a server that answers: how they are cut
into compounds is the matter of other modules, and no exchange is lost.
-/

namespace Vnfs

namespace Nfs

/-- `Path::join`. -/
def joinPath (base path : Bytes) : Bytes :=
  if path.head? = some slash then path
  else if base.isEmpty || base.getLast? = some slash then base ++ path
  else base ++ slash :: path

def joinPathBytes (dir name : Bytes) : Bytes :=
  if dir.isEmpty then name
  else if dir.getLast? = some slash then dir ++ name
  else dir ++ slash :: name

/-- One component in the lexical normalization. -/
def normalizeStep (parts : List Bytes) (component : Bytes) : List Bytes :=
  if component = [] ∨ component = [46] then parts
  else if component = [46, 46] then parts.dropLast
  else parts ++ [component]

def joinComponents (parts : List Bytes) : Bytes := List.intercalate [slash] parts

def normalizeBytes (path : Bytes) : Bytes :=
  joinComponents (((trimSlashes path).splitOn slash).foldl normalizeStep [])

structure Mount where
  /-- The export prefix. -/
  root : Bytes
  cwd : Bytes
  readOnly : Bool
  deriving DecidableEq, Repr

def errNoent : Nat := 2

namespace Mount

variable (mount : Mount)

def namespacePath (path : Bytes) : Bytes :=
  normalizeBytes (if path.head? = some slash then path.dropWhile (· = slash)
    else joinPath mount.cwd path)

def serverPath (path : Bytes) : Bytes := joinPath mount.root (mount.namespacePath path)

/-- `slice::strip_prefix`. -/
def stripFront (front path : Bytes) : Option Bytes :=
  if front.isPrefixOf path then some (path.drop front.length) else none

/-- The target of a link, seen from the directory of the link; an absolute one is
taken from the export root. -/
def resolveTarget (linkPath target : Bytes) : Bytes :=
  let linkRelative := match stripFront mount.root linkPath with
    | some path => (stripFront [slash] path).getD path
    | none => linkPath
  let relative :=
    if target.head? = some slash then normalizeBytes (target.drop 1)
    else
      let dir := match linkRelative.reverse.findIdx? (· = slash) with
        | some behind => linkRelative.take (linkRelative.length - behind)
        | none => []
      normalizeBytes (dir ++ target)
  joinPath mount.root relative

end Mount

/-- A server in a state `σ`, operation by operation. -/
structure NameServer (σ : Type) where
  root : NfsFh
  lookup : σ → NfsFh → Bytes → Except Status NfsFh
  /-- FATTR4_TYPE. -/
  kind : σ → NfsFh → Except Status Nat
  readlink : σ → NfsFh → Except Status Bytes

namespace NameServer

variable {σ : Type} (server : NameServer σ)

def walk (s : σ) : NfsFh → List Bytes → Except Status NfsFh
  | d, [] => .ok d
  | d, name :: rest => do
      let c ← server.lookup s d name
      walk s c rest

def resolve (s : σ) (path : Bytes) : RpcResult NfsFh :=
  (server.walk s server.root (pathComponents path)).mapError (.op 0)

def getattrType (s : σ) (fh : NfsFh) : RpcResult Nat := (server.kind s fh).mapError (.op 0)

def readlinkOf (s : σ) (fh : NfsFh) : RpcResult Bytes := (server.readlink s fh).mapError (.op 0)

def lookupGetattr (s : σ) (dir : NfsFh) (name : Bytes) : RpcResult (NfsFh × Nat) := do
  let child ← (server.lookup s dir name).mapError (.op 0)
  let ftype ← server.getattrType s child
  .ok (child, ftype)

end NameServer

inductive Walked where
  | arrived (fh : NfsFh) (ftype : Nat)
  /-- A link was met; this is the path to go on with. -/
  | followed (path : Bytes)
  /-- No link was met. -/
  | stuck
  deriving DecidableEq, Repr

section Resolve

variable {σ : Type} (server : NameServer σ) (mount : Mount)

/-- Component by component, up to the first link. -/
def walkComponents (s : σ) (followFinal : Bool) :
    NfsFh → Bytes → List Bytes → VfResult Walked
  | _, _, [] => .ok .stuck
  | dir, consumed, component :: rest =>
    match server.lookupGetattr s dir component with
    | .error error => .error (errorFromRpc error (some 0))
    | .ok (child, ftype) =>
      let full := joinPathBytes consumed component
      if ftype = symlinkType ∧ (followFinal ∨ rest ≠ []) then
        match server.readlinkOf s child with
        | .error error => .error (errorFromRpc error (some 0))
        | .ok target =>
          let base := mount.resolveTarget full target
          .ok (.followed (if rest.isEmpty then base
            else joinPathBytes base (joinComponents rest)))
      else if rest.isEmpty then .ok (.arrived child ftype)
      else walkComponents s followFinal child full rest

/-- The loop of `resolve_path_and_type`, with the number of links that may still
be followed. -/
def resolveHops (s : σ) (followFinal : Bool) : Nat → Bytes → VfResult (NfsFh × Nat)
  | 0, _ => .error (.errno (some 0) VfError.errIo)
  | hops + 1, path =>
    match server.resolve s path with
    | .ok fh =>
      if !followFinal then .ok (fh, 0)
      else match server.getattrType s fh with
        | .error error => .error (errorFromRpc error (some 0))
        | .ok ftype =>
          if ftype ≠ symlinkType then .ok (fh, ftype)
          else match server.readlinkOf s fh with
            | .error error => .error (errorFromRpc error (some 0))
            | .ok target => resolveHops s followFinal hops (mount.resolveTarget path target)
    | .error error =>
      if error.status = .symlink then
        match walkComponents server mount s followFinal server.root [] (pathComponents path) with
        | .error error => .error error
        | .ok (.arrived fh ftype) => .ok (fh, ftype)
        | .ok (.followed path) => resolveHops s followFinal hops path
        | .ok .stuck => .error (errorFromRpc error (some 0))
      else .error (errorFromRpc error (some 0))

def resolvePathAndType (s : σ) (path : Bytes) (followFinal : Bool) : VfResult (NfsFh × Nat) :=
  resolveHops server mount s followFinal 41 (normalizeBytes path)

def resolvePath (s : σ) (path : Bytes) (followFinal : Bool) : VfResult NfsFh :=
  (resolvePathAndType server mount s path followFinal).map Prod.fst

end Resolve

end Nfs

end Vnfs
