import Vnfs.OpenVectorKept
import Vnfs.Nfs.WriteWave

/-!
`vopen_outcomes_impl`: a vector of opens with an outcome for each file that was
tried. The merged engine opens a run of files and registers a descriptor for each;
where it stops at a symlink, the scalar path opens that one file and the merged
engine goes on behind it. If the engine fails as a whole in a later round, the
descriptors of the rounds before are closed again.

Next to the descriptor table a call keeps a log of what happened on the server: the
runs of `openv_path_compound`, the files the scalar path opened, the CLOSEs that
were acknowledged and the files closed because they got no descriptor. The code
has no such log; it is what the statements are about. Fault injection is left out.
-/

namespace Vnfs.Nfs.OpenOutcomes

/-! ## Flags -/

def oAccmode : UInt32 := 3
def oRdonly : UInt32 := 0
def oWronly : UInt32 := 1
def oRdwr : UInt32 := 2
def oCreat : UInt32 := 64
def oExcl : UInt32 := 128
def oTrunc : UInt32 := 512
def oAppend : UInt32 := 1024

def openFlagsMutate (flags : UInt32) : Bool :=
  flags &&& oAccmode != oRdonly || flags &&& (oCreat ||| oTrunc ||| oAppend) != 0

/-- The share access: `BOTH`, `WRITE` or `READ`. -/
def flagsToAccess (flags : UInt32) : UInt32 :=
  if flags &&& oRdwr != 0 then 3 else if flags &&& oWronly != 0 then 2 else 1

def createOf (flags : UInt32) : OpenCreate :=
  if flags &&& oCreat != 0 then
    if flags &&& oExcl != 0 then .exclusive else .unchecked
  else .noCreate

/-! ## The session -/

structure OpenItem where
  path : Bytes
  flags : UInt32
  mode : UInt32
  deriving DecidableEq, Repr

/-- A call of `openv_path_compound`, from its first round to the one that leaves the
loop. -/
structure OpenvRun (τ : Type) (ops : List PathOpenOp) where
  wire : Wire τ
  calls : OpenvCalls τ
  maxArgBytes : Nat
  remote : Remote τ
  st : OpenvState τ
  last : OpenvState τ
  exit : OpenvExit
  limit : remote.client.maxOps < usizeMax
  reach : OpenvReachable wire calls maxArgBytes ops remote st
  leaves : openvStep wire calls maxArgBytes ops st = .inr (last, exit)

def OpenvRun.done {τ : Type} {ops : List PathOpenOp} (run : OpenvRun τ ops) : OpenvDone :=
  run.last.leave run.calls run.exit

structure OpenCalls (σ τ : Type) where
  serverPath : Bytes → Bytes
  /-- `next_public_open_owner_name`, for the items of one call. -/
  ownerName : σ → Nat → Bytes
  /-- `drain_deferred_descriptor_closes`, with the closes that are still put off. -/
  drain : σ → List NfsOpenState → σ × List NfsOpenState × VfResult Unit
  /-- `openv_path_compound`: an error of `drain_deferred_path_closes`, or a run of the
  loop. -/
  openv : σ → (ops : List PathOpenOp) → σ × RpcResult (OpenvRun τ ops)
  /-- `open_path_impl` up to the registration, for flags that do not mutate. -/
  openPath : σ → OpenItem → σ × VfResult OpenedPath
  close : σ → OpenedPath → σ × RpcResult Unit
  /-- `close_unregistered_many`, or `close_unregistered` for one file; the answer is not
  looked at. -/
  closeUnregisteredMany : σ → List OpenedPath → σ

/-- `NfsVecFs`, as far as opening and closing read it. -/
structure OpenFs (σ : Type) where
  nfs : σ
  openFiles : Int → Option NfsOpenState
  nextFd : Int
  deferredDescriptorCloses : List NfsOpenState
  readOnly : Bool

/-- The session during a call, with the log of the call. Items are numbered as in the
caller's vector. -/
structure OpenCall (σ τ : Type) extends OpenFs σ where
  /-- The runs of the merged engine, with their first item. -/
  runs : List (Nat × (ops : List PathOpenOp) × OpenvRun τ ops) := []
  scalar : List (Nat × OpenedPath) := []
  closed : List (Nat × OpenedPath) := []
  /-- The files that `close_impl` put off. -/
  deferred : List (Nat × OpenedPath) := []
  /-- The files handed to `close_unregistered_many`. -/
  unregistered : List (Nat × OpenedPath) := []

/-! ## Descriptors -/

def i32Max : Int := 2147483647

def emfile : Nat := 24

def erofs : Nat := 30

/-- The search of `insert_fd`: the next number that is not taken, and `next_fd`
behind it. -/
def vacantFd (openFiles : Int → Option NfsOpenState) : Nat → Int → Option Int × Int
  | 0, next => (none, next)
  | tries + 1, next =>
    let candidate := if next + 1 ≤ i32Max then next + 1 else 1
    if (openFiles candidate).isNone then (some candidate, candidate)
    else vacantFd openFiles tries candidate

section Session

variable {σ τ : Type} (calls : OpenCalls σ τ)

def insertOpenFile (call : OpenCall σ τ) (opened : NfsOpenState) :
    OpenCall σ τ × VfResult Int :=
  match vacantFd call.openFiles i32Max.toNat call.nextFd with
  | (some fd, next) =>
    ({call with
      nextFd := next
      openFiles := Function.update call.openFiles fd (some opened)}, .ok fd)
  | (none, next) => ({call with nextFd := next}, .error (.errno (some 0) emfile))

def openedState (file : OpenedPath) (flags : UInt32) : NfsOpenState :=
  ⟨file.1, file.2, 0, flags &&& oAppend != 0⟩

def closeImpl (call : OpenCall σ τ) (item : Nat) (fd : Int) : OpenCall σ τ × VfResult Unit :=
  match call.openFiles fd with
  | none => (call, .error (.errno (some 0) VfError.errEbadf))
  | some opened =>
    let call := {call with openFiles := Function.update call.openFiles fd none}
    match calls.close call.nfs (opened.fh, opened.stateid) with
    | (nfs, .ok _) =>
      ({call with
        nfs := nfs
        closed := call.closed ++ [(item, opened.fh, opened.stateid)]}, .ok ())
    | (nfs, .error error) =>
      ({call with
        nfs := nfs
        deferredDescriptorCloses := call.deferredDescriptorCloses ++ [opened]
        deferred := call.deferred ++ [(item, opened.fh, opened.stateid)]},
        .error (errorFromRpc error (some 0)))

/-! ## The merged engine -/

def pathOpenOp (call : OpenCall σ τ) (index : Nat) (item : OpenItem) : PathOpenOp where
  path := calls.serverPath item.path
  access := flagsToAccess item.flags
  create := createOf item.flags
  mode := some (item.mode &&& 4095)
  truncate := item.flags &&& oTrunc != 0
  owner := calls.ownerName call.nfs index

/-- The items behind an item that got no descriptor, and the item itself. -/
def heldSlots (item : Nat) (slots : List (Option OpenedPath × UInt32)) :
    List (Nat × OpenedPath) :=
  (slots.zipIdx item).filterMap fun slot => slot.1.1.map (Prod.mk slot.2)

/-- The loop over the outcome of `openv_path_compound`. `start` is the item of the
caller's vector at which the request begins. -/
def registerOpens (start : Nat) (failed : Option (Nat × Status)) :
    Nat → List (Option OpenedPath × UInt32) → OpenCall σ τ →
    OpenCall σ τ × List (VfResult Int)
  | _, [], call => (call, [])
  | index, (none, _) :: _, call =>
    (call, match failed with
      | some (_, status) =>
        [.error (errorFromRpc (.op index status) (some index))]
      | none => [])
  | index, (some file, flags) :: rest, call =>
    match insertOpenFile call (openedState file flags) with
    | (call, .ok fd) =>
      let (call, results) := registerOpens start failed (index + 1) rest call
      (call, .ok fd :: results)
    | (call, .error error) =>
      let held := heldSlots (start + index) ((some file, flags) :: rest)
      ({call with
        nfs := calls.closeUnregisteredMany call.nfs (held.map Prod.snd)
        unregistered := call.unregistered ++ held}, [.error error])

def openvMerged (call : OpenCall σ τ) (start : Nat) (items : List OpenItem) :
    OpenCall σ τ × VfResult (List (VfResult Int)) :=
  match calls.openv call.nfs (items.mapIdx (pathOpenOp calls call)) with
  | (nfs, .error error) => ({call with nfs := nfs}, .error (errorFromRpc error none))
  | (nfs, .ok run) =>
    let call := {call with nfs := nfs, runs := call.runs ++ [(start, ⟨_, run⟩)]}
    match run.done.result with
    | .error error => (call, .error (errorFromRpc error none))
    | .ok (opened, failed) =>
      let (call, results) :=
        registerOpens calls start failed 0 (opened.zip (items.map OpenItem.flags)) call
      (call, .ok results)

/-! ## The vector -/

def openRawImpl (call : OpenCall σ τ) (index : Nat) (item : OpenItem) :
    OpenCall σ τ × VfResult Int :=
  match calls.openPath call.nfs item with
  | (nfs, .error error) => ({call with nfs := nfs}, .error error)
  | (nfs, .ok file) =>
    let call := {call with nfs := nfs, scalar := call.scalar ++ [(index, file)]}
    match insertOpenFile call (openedState file item.flags) with
    | (call, .ok fd) => (call, .ok fd)
    | (call, .error error) =>
      ({call with
        nfs := calls.closeUnregisteredMany call.nfs [file]
        unregistered := call.unregistered ++ [(index, file)]}, .error error)

/-- The descriptors of the outcomes are closed, whatever each CLOSE says. -/
def closeResults : Nat → List (VfResult Int) → OpenCall σ τ → OpenCall σ τ
  | _, [], call => call
  | item, .ok fd :: rest, call => closeResults (item + 1) rest (closeImpl calls call item fd).1
  | item, .error _ :: rest, call => closeResults (item + 1) rest call

/-- `error.status() == Some(StatusCode::Nfs(NFS4ERR_SYMLINK))`. -/
def isSymlink (error : VfError) : Bool :=
  error.detail = .status (.nfs Status.symlink.toNat)

abbrev Outcomes (σ τ : Type) := OpenCall σ τ × List (VfResult Int)

def symlinkStep (items : List OpenItem) (st : Outcomes σ τ) :
    Outcomes σ τ ⊕ OpenCall σ τ × VfResult (List (VfResult Int)) :=
  match st.2.getLast? with
  | some (.error error) =>
    let index := st.2.length - 1
    match items[index]? with
    | none => .inr (st.1, .ok st.2)
    | some item =>
      if !isSymlink error || openFlagsMutate item.flags then .inr (st.1, .ok st.2)
      else
        match openRawImpl calls st.1 index item with
        | (call, .error error) =>
          .inr (call, .ok (st.2.dropLast ++ [.error (error.mapIndex fun _ => index)]))
        | (call, .ok fd) =>
          let results := st.2.dropLast ++ [.ok fd]
          let start := results.length
          if items.length ≤ start then .inr (call, .ok results)
          else
            match openvMerged calls call start (items.drop start) with
            | (call, .ok suffix) =>
              .inl (call, results ++ suffix.map (Except.mapError (VfError.mapIndex ·
                (start + ·))))
            | (call, .error error) =>
              .inr (closeResults calls 0 results call, .error (error.mapIndex (start + ·)))
  | _ => .inr (st.1, .ok st.2)

/-- What is left to do: a round moves the first failure on, or removes it. -/
def symlinkVariant (items : List OpenItem) (st : Outcomes σ τ) : Nat :=
  2 * (items.length - st.2.length) +
    match st.2.getLast? with
    | some (.error _) => 1
    | _ => 0

theorem symlinkStep_inl {items : List OpenItem} {st next : Outcomes σ τ}
    (h : symlinkStep calls items st = .inl next) :
    ∃ error item call fd call' suffix, st.2.getLast? = some (.error error) ∧
      items[st.2.length - 1]? = some item ∧
      openRawImpl calls st.1 (st.2.length - 1) item = (call, .ok fd) ∧
      st.2.length < items.length ∧ isSymlink error = true ∧
      openvMerged calls call st.2.length (items.drop st.2.length) = (call', .ok suffix) ∧
      next = (call', st.2.dropLast ++ [.ok fd] ++
        suffix.map (Except.mapError (VfError.mapIndex · (st.2.length + ·)))) := by
  unfold symlinkStep at h
  split at h
  · rename_i error hl
    have hle : (st.2.dropLast ++ [(.ok 0 : VfResult Int)]).length = st.2.length := by
      have : st.2 ≠ [] := by
        rintro hn
        rw [hn] at hl
        cases hl
      have := List.length_pos_iff.mpr this
      simp
      omega
    dsimp only at h
    split at h
    · cases h
    rename_i item hi
    split at h
    · cases h
    rename_i hs
    split at h
    · cases h
    rename_i call fd hr
    have hst : (st.2.dropLast ++ [(.ok fd : VfResult Int)]).length = st.2.length := by
      simpa using hle
    rw [hst] at h
    split at h
    · cases h
    split at h
    · rename_i call' suffix hm
      refine ⟨error, item, call, fd, call', suffix, hl, hi, hr, by omega, ?_,
        hm, (Sum.inl.inj h).symm⟩
      simp only [Bool.or_eq_true, Bool.not_eq_true', not_or, Bool.not_eq_false] at hs
      exact hs.1
    · cases h
  · cases h

def symlinkLoop (items : List OpenItem) :
    Loop.Body (Outcomes σ τ) (OpenCall σ τ × VfResult (List (VfResult Int))) Nat where
  step := symlinkStep calls items
  variant := symlinkVariant items
  decreases := by
    intro st next hstep
    obtain ⟨error, item, call, fd, call', suffix, hlast, -, -, hlt, -, -, rfl⟩ :=
      symlinkStep_inl calls hstep
    have hpos : 0 < st.2.length := by
      apply List.length_pos_iff.mpr
      rintro hnil
      rw [hnil] at hlast
      cases hlast
    change symlinkVariant items _ < symlinkVariant items st
    unfold symlinkVariant
    rw [hlast]
    cases suffix with
    | nil =>
      simp
      omega
    | cons first rest =>
      dsimp only
      simp only [List.length_append, List.length_dropLast, List.length_map, List.length_cons]
      split <;> omega

def openItems (paths : List Bytes) (flags modes : List UInt32) : List OpenItem :=
  (paths.zip (flags.zip modes)).map fun item => ⟨item.1, item.2.1, item.2.2⟩

def vopenOutcomesImpl (fs : OpenFs σ) (paths : List Bytes) (flags modes : List UInt32) :
    OpenCall σ τ × VfResult (List (VfResult Int)) :=
  let call : OpenCall σ τ := {toOpenFs := fs}
  if paths.length ≠ flags.length ∨ paths.length ≠ modes.length then
    (call, .error (.errno (some 0) Status.inval.toNat))
  else
    match if fs.readOnly then flags.findIdx? openFlagsMutate else none with
    | some index => (call, .error (.errno (some index) erofs))
    | none =>
      match calls.drain fs.nfs fs.deferredDescriptorCloses with
      | (nfs, deferred, .error error) =>
        ({call with nfs := nfs, deferredDescriptorCloses := deferred}, .error error)
      | (nfs, deferred, .ok _) =>
        let call := {call with nfs := nfs, deferredDescriptorCloses := deferred}
        let items := openItems paths flags modes
        if items.isEmpty then (call, .ok [])
        else
          match openvMerged calls call 0 items with
          | (call, .error error) => (call, .error error)
          | (call, .ok results) => Loop.run (symlinkLoop calls items) (call, results)

end Session

end Vnfs.Nfs.OpenOutcomes
