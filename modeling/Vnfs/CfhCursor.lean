import Vnfs.Client

/-!
`CfhCursor` keeps track of the current and the saved filehandle while a merged
compound is built, so that an item's parent directory is reached from the one
before it where that takes fewer operations than from the root. The builders of
GETATTR, SETATTR, OPEN, REMOVE and RENAME vectors call it between the operations
they append themselves; here an item is the list of those calls and operations.

The `Compound` a call appends to is not threaded through: a call returns what it
appends, with the count and the cursor it leaves.
-/

namespace Vnfs

def slash : UInt8 := 47

variable (path : Bytes)

def trimSlashes : Bytes :=
  ((path.dropWhile (· = slash)).reverse.dropWhile (· = slash)).reverse

/-- `split_path_bytes`: the parent and the final component, `none` for a path
without components. -/
def splitPathBytes : Option (Bytes × Bytes) :=
  let trimmed := trimSlashes path
  if trimmed.isEmpty then none
  else
    let (dir, name) := match trimmed.reverse.findIdx? (· = slash) with
      | some behind =>
        (trimmed.take (trimmed.length - behind - 1), trimmed.drop (trimmed.length - behind))
      | none => ([], trimmed)
    some (trimSlashes dir, name)

def pathComponents : List Bytes :=
  (path.splitOn slash).filter fun component => !component.isEmpty

/-- How many leading components two paths share. -/
def commonCount (saved target : List Bytes) : Nat :=
  ((saved.zip target).takeWhile fun pair => pair.1 = pair.2).length

structure CfhCursor where
  /-- The directory in the saved-filehandle slot. -/
  savedDir : Option Bytes := none
  /-- The current filehandle is the saved one. -/
  atSaved : Bool := false
  deriving DecidableEq, Repr

/-- What a call of the cursor appends, the count it returns, and the cursor. -/
structure CursorStep where
  ops : List ArgOp
  count : Nat
  cursor : CfhCursor
  deriving DecidableEq, Repr

namespace CfhCursor

variable (cursor : CfhCursor)

/-- The walk relative to the saved directory, where it is the cheaper one. -/
def walkRelative (dir : Bytes) : Option CursorStep :=
  match cursor.savedDir with
  | none => none
  | some saved =>
    let savedComps := pathComponents saved
    let targetComps := pathComponents dir
    let common := commonCount savedComps targetComps
    let ups := savedComps.length - common
    let downs := targetComps.length - common
    if ups + downs < 1 + targetComps.length then
      let rest := targetComps.drop common
      some ⟨(if cursor.atSaved then [] else [.restorefh]) ++ List.replicate ups .lookupp ++
          rest.map .lookup,
        (if cursor.atSaved then 0 else 1) + ups + rest.length,
        {cursor with atSaved := false}⟩
    else none

def walkParent (dir : Bytes) : CursorStep :=
  if cursor.savedDir = some dir then
    if cursor.atSaved then ⟨[], 0, cursor⟩
    else ⟨[.restorefh], 1, {cursor with atSaved := true}⟩
  else match cursor.walkRelative dir with
    | some step => step
    | none =>
      ⟨.putrootfh :: (pathComponents dir).map .lookup, 1 + (pathComponents dir).length,
        {cursor with atSaved := false}⟩

/-- `set_parent`, without the final component it returns as well. -/
def setParent (path : Bytes) : Option CursorStep :=
  (splitPathBytes path).map fun (dir, _) =>
    let step := cursor.walkParent dir
    if cursor.savedDir = some dir then step
    else ⟨step.ops ++ [.savefh], step.count + 1, ⟨some dir, true⟩⟩

def setCurrentParent (path : Bytes) : Option CursorStep :=
  (splitPathBytes path).map fun (dir, _) => cursor.walkParent dir

/-- The count is the one the builders note for it. -/
def setHandle (fh : NfsFh) : CursorStep :=
  ⟨[.putfh fh], 1, {cursor with atSaved := false}⟩

def descend : CursorStep := ⟨[], 0, {cursor with atSaved := false}⟩

end CfhCursor

inductive CursorCall where
  | setParent (path : Bytes)
  | setCurrentParent (path : Bytes)
  | setHandle (fh : NfsFh)
  | descend
  deriving DecidableEq, Repr

/-- `none` where the call rejects its path. -/
def CfhCursor.call (cursor : CfhCursor) : CursorCall → Option CursorStep
  | .setParent path => cursor.setParent path
  | .setCurrentParent path => cursor.setCurrentParent path
  | .setHandle fh => some (cursor.setHandle fh)
  | .descend => some cursor.descend

/-- What a builder does: a call of the cursor, or an operation of its own. -/
inductive BuildStep where
  | call (call : CursorCall)
  | op (op : ArgOp)
  deriving DecidableEq, Repr

inductive FileRef where
  | path (path : Bytes)
  | handle (fh : NfsFh)
  deriving DecidableEq, Repr

/-- What a SETATTR item asks about the type of its object first. -/
inductive TypeCheck where
  | none
  /-- An NVERIFY against symbolic links. -/
  | symlinkGuard
  /-- A GETATTR of the type. -/
  | fetch
  deriving DecidableEq, Repr

structure PathOpenOp where
  path : Bytes
  access : UInt32
  create : OpenCreate
  mode : Option UInt32
  truncate : Bool
  owner : Bytes
  deriving DecidableEq, Repr

/-- `0o644`. -/
def defaultMode : UInt32 := 420

def PathOpenOp.how (op : PathOpenOp) : OpenHow :=
  match op.create with
  | .unchecked => .unchecked (some (op.mode.getD defaultMode)) op.truncate
  | create => makeOpenHow create

/-- `nfs_ftype4_NF4LNK`. -/
def symlinkType : Nat := 5

/-- `FATTR4_TYPE`. -/
def typeAttribute : Nat := 1

inductive PathItem where
  | getattr (file : FileRef) (attrs : List Nat)
  | setattr (file : FileRef) (check : TypeCheck) (attrs : SetAttrs)
  | openFile (op : PathOpenOp)
  | remove (path : Bytes)
  | rename (src dst : Bytes)
  deriving DecidableEq, Repr

/-- The final component. A builder does not get here without one. -/
def leafOf : Bytes := ((splitPathBytes path).map Prod.snd).getD []

def FileRef.steps : FileRef → List BuildStep
  | .path target => [.call (.setParent target), .op (.lookup (leafOf target))]
  | .handle fh => [.call (.setHandle fh)]

def TypeCheck.steps : TypeCheck → List BuildStep
  | .none => []
  | .symlinkGuard => [.op (.nverifyType symlinkType)]
  | .fetch => [.op (.getattr [typeAttribute])]

def PathItem.steps : PathItem → List BuildStep
  | .getattr file attrs => file.steps ++ [.op (.getattr attrs), .call .descend]
  | .setattr file check attrs =>
    file.steps ++ check.steps ++ [.op (.setattr attrs anonymousStateid), .call .descend]
  | .openFile op =>
    [.call (.setParent op.path),
      .op (.openFile ⟨0, op.access, op.owner, op.how, some (leafOf op.path)⟩), .op .getfh,
      .call .descend]
  -- REMOVE leaves the current filehandle where it is.
  | .remove path => [.call (.setParent path), .op (.remove (leafOf path))]
  | .rename src dst =>
    [.call (.setParent src), .call (.setCurrentParent dst),
      .op (.rename (leafOf src) (leafOf dst)), .call .descend]

namespace CfhCursor

/-- The operations of a list of steps and the cursor behind them; `none` if a
path was rejected, where the builder stops. -/
def emit (cursor : CfhCursor) : List BuildStep → List ArgOp × Option CfhCursor
  | [] => ([], some cursor)
  | .call call :: rest =>
    match cursor.call call with
    | none => ([], none)
    | some step =>
      let (ops, last) := emit step.cursor rest
      (step.ops ++ ops, last)
  | .op op :: rest =>
    let (ops, last) := emit cursor rest
    (op :: ops, last)

theorem emit_append (cursor : CfhCursor) (steps rest : List BuildStep) :
    cursor.emit (steps ++ rest) = match cursor.emit steps with
      | (ops, none) => (ops, none)
      | (ops, some last) => (ops ++ (last.emit rest).1, (last.emit rest).2) := by
  induction steps generalizing cursor with
  | nil => rfl
  | cons first steps ih =>
    cases first with
    | call call =>
      simp only [List.cons_append, emit]
      cases hc : cursor.call call with
      | none => rfl
      | some step =>
        dsimp only
        rw [ih]
        rcases step.cursor.emit steps with ⟨ops, _ | last⟩
        · rfl
        · simp [List.append_assoc]
    | op op =>
      simp only [List.cons_append, emit]
      rw [ih]
      rcases cursor.emit steps with ⟨ops, _ | last⟩ <;> rfl

theorem call_count {cursor : CfhCursor} {call : CursorCall} {step : CursorStep}
    (h : cursor.call call = some step) : step.count = step.ops.length := by
  have hr : ∀ dir step, cursor.walkRelative dir = some step → step.count = step.ops.length := by
    intro dir step hw
    unfold walkRelative at hw
    split at hw
    · cases hw
    dsimp only at hw
    split at hw
    · obtain rfl := Option.some.inj hw
      simp only [List.length_append, List.length_replicate, List.length_map]
      split <;> rfl
    · cases hw
  have hw : ∀ dir, (cursor.walkParent dir).count = (cursor.walkParent dir).ops.length := by
    intro dir
    unfold walkParent
    split
    · split <;> rfl
    split
    · rename_i step hs
      exact hr dir step hs
    · simp [Nat.add_comm]
  cases call with
  | setParent path =>
    obtain ⟨⟨dir, leaf⟩, -, rfl⟩ := Option.map_eq_some_iff.mp h
    dsimp only
    split
    · exact hw dir
    · simp [hw dir]
  | setCurrentParent path =>
    obtain ⟨⟨dir, leaf⟩, -, rfl⟩ := Option.map_eq_some_iff.mp h
    exact hw dir
  | setHandle fh =>
    obtain rfl := Option.some.inj h
    rfl
  | descend =>
    obtain rfl := Option.some.inj h
    rfl

end CfhCursor

end Vnfs
