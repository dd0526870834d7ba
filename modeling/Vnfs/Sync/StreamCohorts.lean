import Vnfs.Core
import Vnfs.Lib.Loop

/-!
Streaming a list of files to a callback. The client opens a cohort of files with
one vector OPEN, reads the first chunk of each with one vector READ, and delivers
file after file. A failure that the speculation hits beyond the first file of the
cohort is deferred: only the files before it are opened or read again.

The backend is a parameter. The callback sees everything it was given before, so
it is a function of the chunks delivered so far and of the next one.
-/

namespace Vnfs

open List hiding max min

def VfError.isTransport (error : VfError) : Bool :=
  match error.detail with
  | .transport _ => true
  | _ => false

namespace Sync

structure StreamRead where
  offset : Nat
  /-- Absent if the backend did not return owned data. -/
  data : Option Bytes
  eof : Bool
  deriving DecidableEq, Repr

inductive StreamCompletion where
  | complete
  | stopped (nextOffset : Nat)
  deriving DecidableEq, Repr

/-- `StreamOptions`: the chunk size is a `NonZeroUsize`. -/
structure StreamOptions where
  chunkSize : Nat
  positive : 0 < chunkSize

structure Chunk where
  index : Nat
  offset : Nat
  data : Bytes
  deriving DecidableEq, Repr

/-- The part of `Vfsi` that streaming uses. -/
structure StreamVfsi (P H : Type) where
  maxReadBytes : Nat
  vopen : List P → VfResult (List H)
  /-- Each range is a file, an offset and a length. -/
  vread : List (H × Nat × Nat) → VfResult (List StreamRead)
  vclose : List H → VfResult Unit

def vectorIndex (error : VfError) (index : Nat) : VfError :=
  if error.index.isSome then error.withIndex index else error

/-- `read_only_prefix`: the loop repeats the operation for the inputs before the
failure, which is deferred. -/
def readOnlyPrefix {T : Type} (execute : Nat → VfResult (List T)) (count : Nat)
    (deferred : Option VfError) : VfResult (List T × Option VfError) :=
  match execute count with
  | .ok values =>
    if values.length ≠ count then
      .error (.invalidReply none "invalid stream cohort result count")
    else .ok (values, deferred)
  | .error error =>
    match error.index with
    | none => .error error
    | some index =>
      if _h : error.isTransport = false ∧ 0 < index ∧ index < count then
        readOnlyPrefix execute index (some error)
      else if index ≥ count then
        .error (.invalidReply none "invalid stream cohort error index")
      else .error error
termination_by count
decreasing_by exact _h.2.2

inductive FileOutcome where
  | complete
  | stopped (nextOffset : Nat)
  | failed (error : VfError)
  deriving DecidableEq, Repr

abbrev StreamCallback := List Chunk → Chunk → VfResult Bool

variable {P H : Type} (fs : StreamVfsi P H) (options : StreamOptions) (callback : StreamCallback)

structure FileState where
  offset : Nat
  result : StreamRead
  delivered : List Chunk

/-- The call of the callback for one chunk, which may be empty. -/
def callBack (chunk : Chunk) (delivered : List Chunk) : List Chunk × VfResult Bool :=
  if chunk.data.isEmpty then (delivered, .ok false)
  else (delivered ++ [chunk], callback delivered chunk)

variable (index : Nat) (handle : H) (base : Nat) (failure : FileFailure) (paths : List P)

/-- One round of the loop over the chunks of file `index`. -/
def fileStep (s : FileState) : FileState ⊕ (List Chunk × FileOutcome) :=
  match s.result.data with
  | none => .inr (s.delivered, .failed (.invalidReply (some index) "missing owned stream data"))
  | some data =>
    if s.result.offset ≠ s.offset ∨ options.chunkSize < data.length ∨
        (data.isEmpty ∧ s.result.eof = false) then
      .inr (s.delivered,
        .failed (.invalidReply (some index) "invalid stream read offset, length or progress"))
    else
      match checkedAdd s.offset data.length with
      | none => .inr (s.delivered, .failed (.errno (some index) VfError.eoverflow))
      | some next =>
        match callBack callback ⟨index, s.offset, data⟩ s.delivered with
        | (delivered, .error error) => .inr (delivered, .failed error)
        | (delivered, .ok true) => .inr (delivered, .stopped next)
        | (delivered, .ok false) =>
          if s.result.eof then .inr (delivered, .complete)
          else
            match fs.vread [(handle, next, options.chunkSize)] with
            | .error error => .inr (delivered, .failed (vectorIndex error index))
            | .ok [result] => .inl ⟨next, result, delivered⟩
            | .ok _ => .inr (delivered,
                .failed (.invalidReply none "invalid stream continuation count"))

/-- Without the end of the file a round moves the offset, which stays a `u64`. -/
theorem fileStep_advances {index : Nat} {handle : H} {s s' : FileState}
    (h : fileStep fs options callback index handle s = .inl s') :
    s.offset < s'.offset ∧ s'.offset ≤ u64Max := by
  unfold fileStep at h
  split at h
  · cases h
  rename_i data hd
  split at h
  · cases h
  rename_i hv
  split at h
  · cases h
  rename_i next hn
  have hle : next = s.offset + data.length ∧ next ≤ u64Max := by
    unfold checkedAdd at hn
    split at hn
    · cases hn
      exact ⟨rfl, by assumption⟩
    · cases hn
  split at h
  · cases h
  · cases h
  split at h
  · cases h
  rename_i he
  have hd : data ≠ [] := by
    rintro rfl
    simp [he] at hv
  have hl : 0 < data.length := length_pos_iff.mpr hd
  split at h
  · cases h
  · cases h
    exact ⟨by simp only; omega, hle.2⟩
  · cases h

def fileBody :
    Loop.Body FileState (List Chunk × FileOutcome) Nat where
  step := fileStep fs options callback index handle
  variant s := u64Max - s.offset
  decreases s s' h := by
    obtain ⟨hless, hle⟩ := fileStep_advances fs options callback h
    change u64Max - s'.offset < u64Max - s.offset
    omega

/-- The loop over the chunks of one file, from its prefetched first chunk on. -/
def streamFile (first : StreamRead) (delivered : List Chunk) :
    List Chunk × FileOutcome :=
  Loop.run (fileBody fs options callback index handle) ⟨0, first, delivered⟩

/-- What the callback was given, and the completions so far. -/
structure Progress where
  delivered : List Chunk
  output : List StreamCompletion
  deriving DecidableEq, Repr

/-- Puts the end of one file on record. True means that the callback stopped. -/
def Progress.finish (s : Progress) : List Chunk × FileOutcome → Progress × VfResult Bool
  | (delivered, .complete) => (⟨delivered, s.output ++ [.complete]⟩, .ok false)
  | (delivered, .stopped next) => (⟨delivered, s.output ++ [.stopped next]⟩, .ok true)
  | (delivered, .failed error) => (⟨delivered, s.output⟩, .error error)

/-- Goes on where a part of the run neither stopped nor failed. -/
def goOn {σ : Type} (next : σ → σ × VfResult Bool) : σ × VfResult Bool → σ × VfResult Bool
  | (s, .ok false) => next s
  | (s, .ok true) => (s, .ok true)
  | (s, .error error) => (s, .error error)

def streamPrefetched : Nat → List (H × StreamRead) → Progress → Progress × VfResult Bool
  | _, [], s => (s, .ok false)
  | index, (handle, first) :: rest, s =>
    goOn (streamPrefetched (index + 1) rest)
      (s.finish (streamFile fs options callback index handle first s.delivered))

/-- The closure `operation` of one cohort, whose first file is number `base`. -/
def streamOperation (files : List H) (openError : Option VfError) (s : Progress) :
    Progress × VfResult Bool :=
  let prefetch := readOnlyPrefix
    (fun count => fs.vread ((files.take count).map fun file => (file, 0, options.chunkSize)))
    files.length none
  match prefetch with
  | .error error => (s, .error (error.mapIndex (base + ·)))
  | .ok (prefetch, readError) =>
    goOn (fun s =>
      match readError, openError with
      | some error, _ => (s, .error error)
      | none, some error => (s, .error (error.mapIndex (base + ·)))
      | none, none => (s, .ok false))
      (streamPrefetched fs options callback base (files.zip prefetch) s)

/-- The run with the files that were opened and those given to `vclose`. -/
structure StreamState (H : Type) where
  progress : Progress
  opened : List H
  closed : List H

def closeCohort (files : List H) : VfResult Unit :=
  match fs.vclose files with
  | .ok () => .ok ()
  | .error error =>
    match error.index with
    | none => .error error
    | some index =>
      if index ≥ files.length then
        .error (.invalidReply none "invalid stream close error index")
      else .error (error.mapIndex (base + ·))

/-- What a cohort gives, from the result of its operation and that of its close. -/
def settleCohort (output : List StreamCompletion) (close : VfResult Unit) :
    VfResult Bool → VfResult Bool
  | .error error => .error error
  | .ok true =>
    match close with
    | .ok () => .ok true
    | .error error =>
      match error.index with
      | none => .error error
      | some index => if index < output.length then .error error else .ok true
  | .ok false =>
    match close with
    | .ok () => .ok false
    | .error error => .error error

def streamCohort (s : StreamState H) :
    StreamState H × VfResult Bool :=
  match readOnlyPrefix (fun count => fs.vopen (paths.take count)) paths.length none with
  | .error error => (s, .error (error.mapIndex (base + ·)))
  | .ok (files, openError) =>
    let (progress, operation) :=
      streamOperation fs options callback base files openError s.progress
    let close := closeCohort fs base files
    (⟨progress, s.opened ++ files, s.closed ++ files⟩,
      settleCohort progress.output close operation)

/-- The loop over the cohorts of `paths.chunks(capacity)`. -/
def streamCohortsFrom (capacity cohort : Nat) (paths : List P) (s : StreamState H) :
    StreamState H × VfResult Bool :=
  match paths with
  | [] => (s, .ok false)
  | path :: rest =>
    let base := cohort * capacity
    goOn (streamCohortsFrom capacity (cohort + 1) (rest.drop (capacity - 1)))
      (streamCohort fs options callback base (path :: rest.take (capacity - 1)) s)
termination_by paths.length
decreasing_by simp only [length_drop, length_cons]; omega

/-- `(max_read_bytes / chunk).clamp(1, 32)`. -/
def cohortCapacity : Nat := max 1 (min 32 (fs.maxReadBytes / options.chunkSize))

def streamCohorts : StreamState H × VfResult (List StreamCompletion) :=
  let (s, result) := streamCohortsFrom fs options callback (cohortCapacity fs options) 0 paths
    ⟨⟨[], []⟩, [], []⟩
  (s, result.map fun _ => s.progress.output)

/-! ### Files, and streaming them one after another -/

/-- Why a backend refuses a request for one file: no failure of the transport. -/
structure FileFailure where
  detail : ErrorDetail
  context : Option ErrorContext
  semantic : (VfError.mk none detail context).isTransport = false

def FileFailure.error (index : Nat) : VfError :=
  ⟨some index, failure.detail, failure.context⟩

theorem FileFailure.error_isTransport (index : Nat) : (failure.error index).isTransport = false :=
  failure.semantic

/-- A file that does not change, with what the backend answers to requests for it. -/
structure StreamFile where
  contents : Bytes
  sized : contents.length ≤ u64Max
  openRefusal : Option FileFailure
  readRefusal : Nat → Option FileFailure
  closeRefusal : Option FileFailure
  /-- How many bytes a READ at an offset brings, where as many were asked for. -/
  served : Nat → Nat
  /-- Whether the READ that brings the last bytes already reports the end. -/
  eager : Nat → Bool

namespace StreamFile

variable (file : StreamFile)

/-- The bytes that a READ brings: a prefix of what is left, and not an empty one
before the end. -/
def piece (length offset : Nat) : Bytes :=
  (file.contents.drop offset).take (max 1 (min length (file.served offset)))

def atEnd (length offset : Nat) : Bool :=
  decide (file.contents.length ≤ offset + (file.piece length offset).length) &&
    ((file.piece length offset).isEmpty || file.eager offset)

def readAt (length offset : Nat) : Except FileFailure StreamRead :=
  match file.readRefusal offset with
  | some failure => .error failure
  | none => .ok ⟨offset, some (file.piece length offset), file.atEnd length offset⟩

variable {length offset : Nat}

theorem piece_length_le (hl : 0 < length) (offset : Nat) :
    (file.piece length offset).length ≤ length := by
  simp only [piece, length_take, length_drop]
  omega

theorem piece_ne_nil (h : offset < file.contents.length) : file.piece length offset ≠ [] := by
  apply ne_nil_of_length_pos
  simp only [piece, length_take, length_drop]
  omega

theorem piece_within (length : Nat) (h : offset ≤ file.contents.length) :
    offset + (file.piece length offset).length ≤ file.contents.length := by
  simp only [piece, length_take, length_drop]
  omega

theorem atEnd_of_isEmpty (h : (file.piece length offset).isEmpty) :
    file.atEnd length offset = true := by
  have hn : file.piece length offset = [] := List.isEmpty_iff.mp h
  have hle : file.contents.length ≤ offset := by
    by_contra hlt
    exact file.piece_ne_nil (Nat.lt_of_not_le hlt) hn
  simp [atEnd, hn, hle]

end StreamFile

def soloStep (file : StreamFile) (index : Nat) (s : Nat × List Chunk) :
    (Nat × List Chunk) ⊕ (List Chunk × FileOutcome) :=
  let (offset, delivered) := s
  match file.readRefusal offset with
  | some failure => .inr (delivered, .failed (failure.error index))
  | none =>
    let data := file.piece options.chunkSize offset
    match callBack callback ⟨index, offset, data⟩ delivered with
    | (delivered, .error error) => .inr (delivered, .failed error)
    | (delivered, .ok true) => .inr (delivered, .stopped (offset + data.length))
    | (delivered, .ok false) =>
      if file.atEnd options.chunkSize offset then .inr (delivered, .complete)
      else .inl (offset + data.length, delivered)

theorem soloStep_inl {file : StreamFile} {index : Nat} {s s' : Nat × List Chunk}
    (h : soloStep options callback file index s = .inl s') :
    file.readRefusal s.1 = none ∧ file.atEnd options.chunkSize s.1 = false ∧
      s'.1 = s.1 + (file.piece options.chunkSize s.1).length ∧
      callBack callback ⟨index, s.1, file.piece options.chunkSize s.1⟩ s.2 = (s'.2, .ok false) := by
  unfold soloStep at h
  dsimp only at h ⊢
  split at h
  · cases h
  rename_i hr
  split at h
  · cases h
  · cases h
  rename_i hc
  split at h
  · cases h
  · rename_i he
    cases h
    exact ⟨hr, by simpa using he, rfl, hc⟩

def soloBody (file : StreamFile) (index : Nat) :
    Loop.Body (Nat × List Chunk) (List Chunk × FileOutcome) Nat where
  step := soloStep options callback file index
  variant s := file.contents.length - s.1
  decreases s s' h := by
    obtain ⟨-, hend, hnext, -⟩ := soloStep_inl options callback h
    have hdata : file.piece options.chunkSize s.1 ≠ [] := by
      intro hnil
      rw [file.atEnd_of_isEmpty (by simp [hnil])] at hend
      cases hend
    have hlength := length_pos_iff.mpr hdata
    have hpiece : (file.piece options.chunkSize s.1).length ≤ file.contents.length - s.1 := by
      simp only [StreamFile.piece, length_take, length_drop]
      omega
    change file.contents.length - s'.1 < file.contents.length - s.1
    omega

def StreamFile.stream (file : StreamFile) (index : Nat) (delivered : List Chunk) :
    List Chunk × FileOutcome :=
  Loop.run (soloBody options callback file index) (0, delivered)

variable (files : P → StreamFile)

/-- The files one after another: what streaming in cohorts is meant to do. -/
def sequential : Nat → List P → Progress → Progress × VfResult Bool
  | _, [], s => (s, .ok false)
  | index, path :: rest, s =>
    match (files path).openRefusal with
    | some failure => (s, .error (failure.error index))
    | none =>
      goOn (sequential (index + 1) rest)
        (s.finish ((files path).stream options callback index s.delivered))

/-- The answer for the item at a position of a vector request. -/
def answerAt {α β : Type} (answer : α → Except FileFailure β) (index : Nat) (item : α) :
    VfResult β :=
  match answer item with
  | .error failure => .error (failure.error index)
  | .ok value => .ok value

/-- A vector request: all answers, or the first refusal with its position. -/
def answerEach {α β : Type} (answer : α → Except FileFailure β) (items : List α) :
    VfResult (List β) :=
  Loop.forEach (answerAt answer) 0 items

def openFile (path : P) : Except FileFailure P :=
  match (files path).openRefusal with
  | some failure => .error failure
  | none => .ok path

def closeFile (path : P) : Except FileFailure Unit :=
  match (files path).closeRefusal with
  | some failure => .error failure
  | none => .ok ()

/-- The READ of a range: a path, an offset and a length. -/
def readRange : P × Nat × Nat → Except FileFailure StreamRead
  | (path, offset, length) => (files path).readAt length offset

/-- The backend that serves the files. A handle is the path it was opened with. -/
def fileBackend (maxReadBytes : Nat) : StreamVfsi P P where
  maxReadBytes := maxReadBytes
  vopen := answerEach (openFile files)
  vread := answerEach (readRange files)
  vclose paths := (answerEach (closeFile files) paths).map fun _ => ()

end Sync

end Vnfs
