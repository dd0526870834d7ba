import Vnfs.Sync.WriteAll

/-!
Closing an `OpenFile`. The handle asks the backend to close its descriptor; the
NFS and the SMB backend take the descriptor out of their table first and move the
state to a queue of deferred closes where the CLOSE fails. The handle keeps its
descriptor then, for another attempt.

The server is what it answers to the CLOSE requests for each state. The mutexes
are left out: no other thread takes part, and none panicked.
-/

namespace Vnfs.Sync

open Function List

/-- A server that holds open states. -/
structure CloseServer (S : Type) where
  /-- The errors with which the next CLOSE requests for a state are answered; all
  others are accepted. -/
  refusals : S → List VfError
  held : S → Bool

section Backend

variable {S : Type} [DecidableEq S]

def CloseServer.close (server : CloseServer S) (s : S) : CloseServer S × VfResult Unit :=
  match server.refusals s with
  | error :: rest =>
    ({server with refusals := update server.refusals s rest}, .error error)
  | [] => ({server with held := update server.held s false}, .ok ())

/-- One after another, up to the first that fails. -/
def CloseServer.closeMany (server : CloseServer S) :
    Nat → List S → CloseServer S × Option (Nat × VfError)
  | _, [] => (server, none)
  | index, s :: rest =>
    match server.close s with
    | (server, .ok ()) => closeMany server (index + 1) rest
    | (server, .error error) => (server, some (index, error))

structure CloseRules where
  /-- The error for an operand that is no descriptor. -/
  invalidOperand : VfError
  /-- From where on deferred closes are kept when one fails. -/
  firstUnconfirmed : VfError → Nat → Nat

def nfsCloseRules : CloseRules where
  invalidOperand := .errno (some 0) Status.inval.toNat
  firstUnconfirmed error index := match error.detail with
    | .transport _ => 0
    | _ => index

def smbCloseRules : CloseRules where
  invalidOperand := .fromKind (some 0) .invalidInput
  firstUnconfirmed _ index := index

structure DescriptorTable (S : Type) where
  openFiles : Int → Option S
  /-- `deferred_descriptor_closes` and `deferred_closes`. -/
  deferred : List S
  server : CloseServer S

variable (rules : CloseRules)

namespace DescriptorTable

variable (table : DescriptorTable S)

def closeImpl : FileOperand → DescriptorTable S × VfResult Unit
  | .fd fd =>
    match table.openFiles fd with
    | none => (table, .error (.errno (some 0) VfError.errEbadf))
    | some s =>
      let table := {table with openFiles := update table.openFiles fd none}
      match table.server.close s with
      | (server, .ok ()) => ({table with server := server}, .ok ())
      | (server, .error error) =>
        ({table with server := server, deferred := table.deferred ++ [s]}, .error error)
  | _ => (table, .error rules.invalidOperand)

/-- `drain_deferred_descriptor_closes` and `drain_deferred_closes`. -/
def drainDeferred : DescriptorTable S × VfResult Unit :=
  match table.server.closeMany 0 table.deferred with
  | (server, none) => ({table with server := server, deferred := []}, .ok ())
  | (server, some (index, error)) =>
    ({table with
      server := server
      deferred := table.deferred.drop (rules.firstUnconfirmed error index)}, .error error)

def closeDeferred (file : FileOperand) :
    DescriptorTable S × VfResult Unit :=
  match file with
  | .fd fd =>
    if (table.openFiles fd).isSome then table.closeImpl rules file
    else table.drainDeferred rules
  | _ => (table, .error (.fromKind (some 0) .invalidInput))

end DescriptorTable

/-- The backend with the files that were dropped unclosed. -/
structure SharedBackend (S : Type) where
  backend : DescriptorTable S
  pending : List FileOperand
  hasPending : Bool

/-- The closes that are still pending behind an attempt at each. -/
def drainPending : DescriptorTable S → List FileOperand → DescriptorTable S × List FileOperand
  | table, [] => (table, [])
  | table, file :: rest =>
    match table.closeDeferred rules file with
    | (table, .ok ()) => drainPending table rest
    | (table, .error _) =>
      let (table, failed) := drainPending table rest
      (table, file :: failed)

variable (handle : OpenFile) (shared : SharedBackend S)

/-- `lock`: its errors stay with the pending closes. -/
def SharedBackend.lock : SharedBackend S :=
  if !shared.hasPending then shared
  else
    let (table, failed) := drainPending rules shared.backend shared.pending
    ⟨table, failed, !failed.isEmpty⟩

def OpenFile.isClosed : Bool := handle.file.isNone

def OpenFile.tryClose :
    VfResult Unit × OpenFile × SharedBackend S :=
  match handle.file with
  | none => (.ok (), handle, shared)
  | some file =>
    let shared := shared.lock rules
    match shared.backend.closeImpl rules file with
    | (table, .error error) =>
      (.error (error.withContext "close" handle.path), handle, {shared with backend := table})
    | (table, .ok ()) => (.ok (), {handle with file := none}, {shared with backend := table})

/-- A number of attempts, with the result of each. -/
def OpenFile.tryCloses : Nat → OpenFile → SharedBackend S →
    List (VfResult Unit) × OpenFile × SharedBackend S
  | 0, handle, shared => ([], handle, shared)
  | attempts + 1, handle, shared =>
    let (result, handle, shared) := handle.tryClose rules shared
    let (results, last) := tryCloses attempts handle shared
    (result :: results, last)

end Backend

section Retry

variable {S : Type} [DecidableEq S] {rules : CloseRules} {table : DescriptorTable S}
  {shared : SharedBackend S} {handle : OpenFile} {fd : Int} {s : S} {errors : List VfError}

/-- The descriptor is the only owner of its state. -/
structure DescriptorTable.Owns (table : DescriptorTable S) (fd : Int) (s : S)
    (errors : List VfError) : Prop where
  openFile : table.openFiles fd = some s
  only : ∀ fd', table.openFiles fd' = some s → fd' = fd
  notDeferred : s ∉ table.deferred
  refusals : table.server.refusals s = errors

/-- A live handle: nothing else will close its descriptor. -/
structure OpenFile.Live (handle : OpenFile) (shared : SharedBackend S) (fd : Int) (s : S)
    (errors : List VfError) : Prop where
  file : handle.file = some (.fd fd)
  owns : shared.backend.Owns fd s errors
  notPending : .fd fd ∉ shared.pending

theorem CloseServer.close_refusals (server : CloseServer S) {other : S} (h : s ≠ other) :
    (server.close other).1.refusals s = server.refusals s := by
  unfold close
  split
  · exact update_of_ne h ..
  · rfl

theorem CloseServer.closeMany_refusals (server : CloseServer S) {index : Nat} {states : List S}
    (h : s ∉ states) : (server.closeMany index states).1.refusals s = server.refusals s := by
  induction states generalizing server index with
  | nil => rfl
  | cons other rest ih =>
    obtain ⟨hne, hr⟩ := not_or.mp (mt mem_cons.mpr h)
    have ho := server.close_refusals hne
    rw [closeMany]
    split
    · rename_i server' hcl
      rw [hcl] at ho
      rw [ih server' hr, ho]
    · rename_i server' error hcl
      rw [hcl] at ho
      exact ho

namespace DescriptorTable

theorem Owns.closeImpl (h : table.Owns fd s errors) {file : FileOperand} (hf : file ≠ .fd fd) :
    (table.closeImpl rules file).1.Owns fd s errors := by
  unfold DescriptorTable.closeImpl
  split
  · rename_i other
    have hot : fd ≠ other := fun heq => hf (by rw [heq])
    split
    · exact h
    rename_i t ht
    have hs : s ≠ t := by
      rintro rfl
      exact hot (h.only other ht).symm
    have ho : update table.openFiles other none fd = some s := by
      rw [update_of_ne hot, h.openFile]
    have hon : ∀ fd', update table.openFiles other none fd' = some s → fd' = fd := by
      intro fd' hfd'
      by_cases heq : fd' = other
      · subst heq
        rw [update_self] at hfd'
        cases hfd'
      · rw [update_of_ne heq] at hfd'
        exact h.only fd' hfd'
    have hr := (table.server.close_refusals hs).trans h.refusals
    dsimp only
    split
    · rename_i server hcl
      rw [hcl] at hr
      exact ⟨ho, hon, h.notDeferred, hr⟩
    rename_i server error hcl
    rw [hcl] at hr
    refine ⟨ho, hon, ?_, hr⟩
    simp [h.notDeferred, hs]
  · exact h

theorem Owns.drainDeferred (h : table.Owns fd s errors) :
    (table.drainDeferred rules).1.Owns fd s errors := by
  have hr : (table.server.closeMany 0 table.deferred).1.refusals s = errors := by
    rw [CloseServer.closeMany_refusals _ h.notDeferred, h.refusals]
  unfold DescriptorTable.drainDeferred
  split
  · rename_i server hcl
    rw [hcl] at hr
    exact ⟨h.openFile, h.only, not_mem_nil, hr⟩
  · rename_i server index error hcl
    rw [hcl] at hr
    exact ⟨h.openFile, h.only, fun hm => h.notDeferred (mem_of_mem_drop hm), hr⟩

theorem Owns.closeDeferred (h : table.Owns fd s errors) {file : FileOperand}
    (hf : file ≠ .fd fd) : (table.closeDeferred rules file).1.Owns fd s errors := by
  unfold DescriptorTable.closeDeferred
  split
  · split
    · exact h.closeImpl hf
    · exact h.drainDeferred
  · exact h

theorem Owns.drainPending (h : table.Owns fd s errors) {pending : List FileOperand}
    (hp : .fd fd ∉ pending) : (drainPending rules table pending).1.Owns fd s errors := by
  induction pending generalizing table with
  | nil => exact h
  | cons file rest ih =>
    obtain ⟨hf, hr⟩ := not_or.mp (mt mem_cons.mpr hp)
    have hn : (table.closeDeferred rules file).1.Owns fd s errors := h.closeDeferred (Ne.symm hf)
    rw [Sync.drainPending]
    split
    · rename_i table' hcl
      rw [hcl] at hn
      exact ih hn hr
    · rename_i table' error hcl
      rw [hcl] at hn
      exact ih hn hr

end DescriptorTable

theorem OpenFile.Live.lock (h : handle.Live shared fd s errors) :
    (shared.lock rules).backend.Owns fd s errors := by
  unfold SharedBackend.lock
  split
  · exact h.owns
  · exact h.owns.drainPending h.notPending

/-- A table that has lost a descriptor does not get it back. -/
theorem DescriptorTable.closeImpl_none (h : table.openFiles fd = none) (file : FileOperand) :
    (table.closeImpl rules file).1.openFiles fd = none := by
  unfold closeImpl
  split
  · rename_i other
    split
    · exact h
    have hn : update table.openFiles other none fd = none := by
      by_cases heq : fd = other
      · rw [heq, update_self]
      · rw [update_of_ne heq, h]
    dsimp only
    split <;> exact hn
  · exact h

theorem drainPending_none (h : table.openFiles fd = none) (pending : List FileOperand) :
    (drainPending rules table pending).1.openFiles fd = none := by
  induction pending generalizing table with
  | nil => exact h
  | cons file rest ih =>
    have hn : (table.closeDeferred rules file).1.openFiles fd = none := by
      unfold DescriptorTable.closeDeferred
      split
      · split
        · exact DescriptorTable.closeImpl_none h _
        · unfold DescriptorTable.drainDeferred
          split <;> exact h
      · exact h
    rw [drainPending]
    split
    · rename_i table' hcl
      rw [hcl] at hn
      exact ih hn
    · rename_i table' error hcl
      rw [hcl] at hn
      exact ih hn

theorem SharedBackend.lock_none (h : shared.backend.openFiles fd = none) :
    (shared.lock rules).backend.openFiles fd = none := by
  unfold lock
  split
  · exact h
  · exact drainPending_none h shared.pending

/-- A handle without its descriptor cannot be closed, however often it is tried. -/
theorem OpenFile.tryCloses_lost (hf : handle.file = some (.fd fd))
    (h : shared.backend.openFiles fd = none) (attempts : Nat) :
    ∀ result ∈ (handle.tryCloses rules attempts shared).1, result.isOk = false := by
  induction attempts generalizing shared with
  | zero => simp [tryCloses]
  | succ attempts ih =>
    have hl : (shared.lock rules).backend.openFiles fd = none := SharedBackend.lock_none h
    have hcl : handle.tryClose rules shared = (.error ((VfError.errno (some 0)
        VfError.errEbadf).withContext "close" handle.path), handle, shared.lock rules) := by
      rw [tryClose, hf]
      simp only [DescriptorTable.closeImpl, hl]
    intro result hr
    rw [tryCloses, hcl] at hr
    rcases mem_cons.mp hr with rfl | hla
    · rfl
    · exact ih hl result hla

theorem OpenFile.tryCloses_succ (attempts : Nat) (handle : OpenFile) (shared : SharedBackend S) :
    handle.tryCloses rules (attempts + 1) shared =
      let first := handle.tryClose rules shared
      let later := first.2.1.tryCloses rules attempts first.2.2
      (first.1 :: later.1, later.2) := rfl

/-- As documented: a failure for every refused CLOSE, then the handle is closed and
the server holds nothing for it. -/
def OpenFile.Retried (rules : CloseRules) (handle : OpenFile) (shared : SharedBackend S) (s : S)
    (refused : Nat) : Prop :=
  let run := handle.tryCloses rules (refused + 1) shared
  run.1.map Except.isOk = replicate refused false ++ [true] ∧ run.2.1.isClosed = true ∧
    run.2.2.backend.server.held s = false

variable (rules) in
theorem OpenFile.Live.tryClose (h : handle.Live shared fd s errors) :
    match errors with
    | [] => (handle.tryClose rules shared).1.isOk = true ∧
        (handle.tryClose rules shared).2.1.isClosed = true ∧
        (handle.tryClose rules shared).2.2.backend.server.held s = false
    | _ :: _ => (handle.tryClose rules shared).1.isOk = false ∧
        (handle.tryClose rules shared).2.1 = handle ∧
        (handle.tryClose rules shared).2.2.backend.openFiles fd = none := by
  have ho : (shared.lock rules).backend.Owns fd s errors := h.lock
  unfold OpenFile.tryClose
  rw [h.file]
  dsimp only [DescriptorTable.closeImpl]
  rw [ho.openFile]
  dsimp only [CloseServer.close]
  rw [ho.refusals]
  cases errors with
  | nil => exact ⟨rfl, rfl, update_self ..⟩
  | cons error rest => exact ⟨rfl, rfl, update_self ..⟩

/-- Retrying a failed close works if and only if there is nothing to retry: the
backend has forgotten the descriptor, and every further attempt is a bad
descriptor. -/
theorem OpenFile.tryCloses_retried_iff (h : handle.Live shared fd s errors) :
    handle.Retried rules shared s errors.length ↔ errors = [] := by
  unfold Retried
  rw [tryCloses_succ]
  cases errors with
  | nil =>
    obtain ⟨hok, hclosed, hheld⟩ := h.tryClose rules
    refine iff_of_true ⟨?_, hclosed, hheld⟩ rfl
    change [(handle.tryClose rules shared).1.isOk] = [true]
    rw [hok]
  | cons error rest =>
    obtain ⟨-, hhandle, hnone⟩ := h.tryClose rules
    simp only [reduceCtorEq, iff_false]
    rintro ⟨hresults, -, -⟩
    rw [hhandle, map_cons, length_cons, replicate_succ, cons_append] at hresults
    have hlast : true ∈ List.map Except.isOk (handle.tryCloses rules (rest.length + 1)
        (handle.tryClose rules shared).2.2).1 := by
      rw [(List.cons.inj hresults).2]
      simp
    obtain ⟨result, hmem, hok⟩ := mem_map.mp hlast
    rw [tryCloses_lost h.file hnone _ result hmem] at hok
    cases hok

def nfsErrDelay : Nat := 10008

/-- One open file, and a server that refuses the first CLOSE of its state. -/
def oneRefusal : SharedBackend Nat where
  backend := ⟨fun fd => if fd = 3 then some 7 else none, [],
    ⟨fun s => if s = 7 then [.nfs (some 0) nfsErrDelay] else [], fun s => s = 7⟩⟩
  pending := []
  hasPending := false

/-- The second attempt fails although the server would accept the CLOSE. -/
theorem OpenFile.tryCloses_refused_once :
    ¬ (OpenFile.mk 0 (some (.fd 3)) false [97]).Retried nfsCloseRules oneRefusal 7 1 ∧
      ¬ (OpenFile.mk 0 (some (.fd 3)) false [97]).Retried smbCloseRules oneRefusal 7 1 := by
  have hnfs : ((OpenFile.mk 0 (some (.fd 3)) false [97]).tryCloses nfsCloseRules 2 oneRefusal).1.map
      Except.isOk = [false, false] := rfl
  have hsmb : ((OpenFile.mk 0 (some (.fd 3)) false [97]).tryCloses smbCloseRules 2 oneRefusal).1.map
      Except.isOk = [false, false] := rfl
  constructor
  · rintro ⟨hresults, -, -⟩
    cases hresults
  · rintro ⟨hresults, -, -⟩
    cases hresults

/-- A server that accepts the first CLOSE. -/
theorem OpenFile.tryCloses_accepted_at_once :
    (OpenFile.mk 0 (some (.fd 3)) false [97]).Retried nfsCloseRules
      ⟨⟨fun fd => if fd = 3 then some 7 else none, [], ⟨fun _ => [], fun s => s = 7⟩⟩, [], false⟩
      7 0 := by
  have honly : ∀ fd : Int, (if fd = 3 then some 7 else none) = some 7 → fd = 3 := by
    intro fd hfd
    by_contra hne
    rw [if_neg hne] at hfd
    cases hfd
  exact (OpenFile.tryCloses_retried_iff ⟨rfl, ⟨rfl, honly, not_mem_nil, rfl⟩,
    not_mem_nil⟩).mpr rfl

end Retry

end Vnfs.Sync
