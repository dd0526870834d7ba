import Vnfs.CfhCursor
import Vnfs.Lib.NameTree

/-!
A server that executes COMPOUND operations on a tree of files. It stands for
whatever is behind the client: attributes are of any type and change as
`perform` says, and an operation that is not navigation may be refused for any
reason of the server's own. Navigation itself fails only where the tree gives no
answer; there are no symbolic links and no access control in the walk.
-/

namespace Vnfs

structure World (α : Type) where
  tree : NameTree NfsFh Bytes
  /-- `none` for a handle the server does not know. -/
  attrs : NfsFh → Option α
  /-- What was done to which objects; the server does not read it. -/
  trace : List (ArgOp × List NfsFh)

structure Conn (α : Type) where
  world : World α
  current : Option NfsFh
  saved : Option NfsFh

structure FileServer (α : Type) where
  /-- The effect of an operation on the attributes of its object. -/
  perform : ArgOp → α → Except Status α
  /-- The attributes of a file an OPEN creates. -/
  created : ArgOp → α
  /-- The handle of a new file, while there is room for one. -/
  allocate : World α → Option NfsFh
  allocate_file : ∀ (w : World α) (c : NfsFh), allocate w = some c → w.tree.isDir c = false
  refuses : World α → ArgOp → List NfsFh → Option Status

namespace FileServer

variable {α : Type} (server : FileServer α) (w : World α)

/-- REMOVE of a name in `d`. Only an empty directory can be removed. -/
def removeIn (d : NfsFh) (name : Bytes) : Except Status (NameTree NfsFh Bytes) :=
  if !w.tree.isDir d then .error .notdir
  else match w.tree.child d name with
    | none => .error .noent
    | some c => if w.tree.isBare c then .ok (w.tree.unlink d name) else .error .notempty

/-- RENAME from `s` to `d`. What is replaced must be of the same kind and hold
nothing; two names of one object stay as they are. -/
def renameIn (s : NfsFh) (oldname : Bytes) (d : NfsFh) (newname : Bytes) :
    Except Status (NameTree NfsFh Bytes) :=
  if !w.tree.isDir s || !w.tree.isDir d then .error .notdir
  else match w.tree.child s oldname with
    | none => .error .noent
    | some c =>
      match w.tree.child d newname with
      | none => .ok (w.tree.move s oldname d newname c)
      | some replaced =>
        if replaced = c then .ok w.tree
        else if w.tree.isDir replaced ≠ w.tree.isDir c then .error .exist
        else if w.tree.isBare replaced then .ok (w.tree.move s oldname d newname c)
        else .error .notempty

def performOn (op : ArgOp) (c : NfsFh) : Except Status (World α) :=
  match w.attrs c with
  | none => .error .stale
  | some attrs =>
    (server.perform op attrs).map fun attrs =>
      ⟨w.tree, Function.update w.attrs c (some attrs), w.trace ++ [(op, [c])]⟩

def openIn (args : OpenArgs) (d : NfsFh) (name : Bytes) :
    Except Status (World α × NfsFh) :=
  if !w.tree.isDir d then .error .notdir
  else match w.tree.child d name with
    | some c =>
      if w.tree.isDir c then .error .isdir
      else if args.how = .guarded ∨ args.how = .exclusive then .error .exist
      else (server.performOn w (.openFile args) c).map fun w => (w, c)
    | none =>
      if args.how = .noCreate then .error .noent
      else match server.allocate w with
        | none => .error .nospc
        | some c =>
          .ok (⟨w.tree.link d name c, Function.update w.attrs c (some (server.created
            (.openFile args))), w.trace ++ [(.openFile args, [d])]⟩, c)

/-- The server's own reasons against an operation. -/
def permits (op : ArgOp) (objects : List NfsFh) : Except Status Unit :=
  match server.refuses w op objects with
  | some status => .error status
  | none => .ok ()

end FileServer

namespace Conn

variable {α : Type} (conn : Conn α)

def cfh : Except Status NfsFh :=
  match conn.current with
  | none => .error .nofilehandle
  | some fh => .ok fh

def sfh : Except Status NfsFh :=
  match conn.saved with
  | none => .error .restorefh
  | some fh => .ok fh

def goto (fh : NfsFh) : Conn α := {conn with current := some fh}

def lookup (d : NfsFh) (name : Bytes) : Except Status NfsFh :=
  if !conn.world.tree.isDir d then .error .notdir
  else match conn.world.tree.child d name with
    | none => .error .noent
    | some c => .ok c

def lookupp (d : NfsFh) : Except Status NfsFh :=
  if !conn.world.tree.isDir d then .error .notdir
  else match conn.world.tree.parent d with
    | none => .error .noent
    | some p => .ok p

end Conn

namespace FileServer

variable {α : Type} (server : FileServer α) (conn : Conn α)

def step : ArgOp → Except Status (Conn α)
  | .putrootfh => .ok (conn.goto conn.world.tree.root)
  | .putfh fh => if (conn.world.attrs fh).isSome then .ok (conn.goto fh) else .error .stale
  | .lookup name => do
      let d ← conn.cfh
      let c ← conn.lookup d name
      .ok (conn.goto c)
  | .lookupp => do
      let d ← conn.cfh
      let p ← conn.lookupp d
      .ok (conn.goto p)
  | .savefh => do
      let d ← conn.cfh
      .ok {conn with saved := some d}
  | .restorefh => do
      let d ← conn.sfh
      .ok (conn.goto d)
  | .remove name => do
      let d ← conn.cfh
      server.permits conn.world (.remove name) [d]
      let tree ← removeIn conn.world d name
      .ok ⟨⟨tree, conn.world.attrs, conn.world.trace ++ [(.remove name, [d])]⟩, conn.current,
        conn.saved⟩
  | .rename oldname newname => do
      let d ← conn.cfh
      let s ← conn.sfh
      server.permits conn.world (.rename oldname newname) [s, d]
      let tree ← renameIn conn.world s oldname d newname
      .ok ⟨⟨tree, conn.world.attrs, conn.world.trace ++ [(.rename oldname newname, [s, d])]⟩,
        conn.current, conn.saved⟩
  | .openFile args => do
      let d ← conn.cfh
      server.permits conn.world (.openFile args) [d]
      match args.file with
      | none =>
        let w ← server.performOn conn.world (.openFile args) d
        .ok {conn with world := w}
      | some name =>
        let (w, c) ← server.openIn conn.world args d name
        .ok ⟨w, some c, conn.saved⟩
  | op => do
      let c ← conn.cfh
      server.permits conn.world op [c]
      let w ← server.performOn conn.world op c
      .ok {conn with world := w}

/-- A compound up to its first failing operation, which leaves no effect. -/
def execute (conn : Conn α) : List ArgOp → Except (World α × Status) (Conn α)
  | [] => .ok conn
  | op :: rest =>
    match server.step conn op with
    | .error status => .error (conn.world, status)
    | .ok conn => execute conn rest

@[simp] theorem execute_nil : server.execute conn [] = .ok conn := rfl

theorem execute_cons (op : ArgOp) (rest : List ArgOp) :
    server.execute conn (op :: rest) = match server.step conn op with
      | .error status => .error (conn.world, status)
      | .ok conn => server.execute conn rest := rfl

variable {server conn} in
/-- The first of operations that all succeed, and the others behind it. -/
theorem execute_cons_ok {op : ArgOp} {ops : List ArgOp} {conn' : Conn α}
    (h : server.execute conn (op :: ops) = .ok conn') :
    ∃ middle, server.step conn op = .ok middle ∧ server.execute middle ops = .ok conn' := by
  rw [execute_cons] at h
  split at h
  · cases h
  · exact ⟨_, ‹_›, h⟩

theorem execute_append (ops rest : List ArgOp) : server.execute conn (ops ++ rest) =
      (server.execute conn ops).bind fun conn => server.execute conn rest := by
  induction ops generalizing conn with
  | nil => rfl
  | cons op ops ih =>
    rw [List.cons_append, execute_cons, execute_cons]
    cases server.step conn op with
    | error status => rfl
    | ok conn' => exact ih conn'

end FileServer

end Vnfs
