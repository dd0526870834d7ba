import Vnfs.Core
import Vnfs.Lib.Mailbox

/-!
`NfsReadPool::read_stream`: a file is read in chunks by worker threads that hold
one session each, and handed to a callback in order. The main thread schedules
chunks ahead of the next one to deliver, up to a window, and keeps what arrives
early. When it stops for whatever reason it first takes in every answer that is
still due, then has the workers close the file.

The system is the main thread, the workers and the queues between them. A worker
handles its commands one at a time and may panic at any point. The file is
quiescent; what a worker's client returns for a read is any initial part of the
bytes asked for, or an error.
-/

namespace Vnfs.Nfs

/-- The limits are `NonZeroUsize` where they have to be. -/
structure NfsReadPoolOptions where
  workerCount : Nat
  chunkSize : Nat
  maxInFlight : Nat
  maxBufferedBytes : Nat
  workerCount_pos : 0 < workerCount
  chunkSize_pos : 0 < chunkSize
  maxInFlight_pos : 0 < maxInFlight

def NfsReadPoolOptions.effective (options : NfsReadPoolOptions) : VfResult (Nat × Nat) :=
  if options.maxBufferedBytes < options.chunkSize then .error (.fromKind (some 0) .invalidInput)
  else
    let inFlight := min options.maxInFlight (options.maxBufferedBytes / options.chunkSize)
    .ok (min options.workerCount inFlight, inFlight)

/-- `WorkerCommand` without the shutdown of the pool. -/
inductive WorkerCommand where
  | start (streamId : Nat) (path : Bytes)
  | read (streamId index offset length : Nat)
  | finish (streamId : Nat)
  deriving DecidableEq, Repr

/-- `WorkerEvent` without the startup of the pool. -/
inductive WorkerEvent (n : Nat) where
  | started (streamId : Nat) (worker : Fin n) (result : VfResult (Option Nat))
  | chunk (streamId : Nat) (worker : Fin n) (index offset : Nat) (result : VfResult Bytes)
  | finished (streamId : Nat) (worker : Fin n) (result : VfResult Unit)
  | stopped (worker : Fin n)

/-- `ControlFlow`, an error, or a panic of the callback. -/
inductive Verdict where
  | resume
  | stop
  | error (error : VfError)
  | panic
  deriving DecidableEq, Repr

inductive StreamCompletion where
  | complete
  | stopped (nextOffset : Nat)
  deriving DecidableEq, Repr

/-- How a stream ends: with a result, or with the panic of the callback. -/
inductive StreamEnd where
  | result (result : VfResult StreamCompletion)
  | panicked

/-- A stream over a pool of `n` workers. The callback may depend on all calls
made to it. -/
structure ReadStream (n : Nat) where
  options : NfsReadPoolOptions
  inFlight : Nat
  effective_eq : options.effective = .ok (n, inFlight)
  streamId : Nat
  path : Bytes
  file : Bytes
  /-- Sizes and offsets are `u64`. -/
  file_le : file.length ≤ u64Max
  callback : List (Nat × Bytes) → Nat → Bytes → Verdict

namespace ReadStream

variable {n : Nat} (stream : ReadStream n)

theorem inFlight_eq : n = min stream.options.workerCount stream.inFlight ∧ stream.inFlight =
    min stream.options.maxInFlight (stream.options.maxBufferedBytes / stream.options.chunkSize) ∧
    stream.options.chunkSize ≤ stream.options.maxBufferedBytes := by
  have he := stream.effective_eq
  unfold NfsReadPoolOptions.effective at he
  split at he
  · cases he
  simp only [Except.ok.injEq, Prod.mk.injEq] at he
  obtain ⟨hw, hwi⟩ := he
  rw [hwi] at hw
  exact ⟨hw.symm, hwi.symm, by omega⟩

theorem workers_pos {n : Nat} (stream : ReadStream n) : 0 < n := by
  obtain ⟨hw, hwi, hr⟩ := stream.inFlight_eq
  have hq := Nat.div_pos hr stream.options.chunkSize_pos
  have hc := stream.options.workerCount_pos
  have hl := stream.options.maxInFlight_pos
  omega

end ReadStream

/-- The loop of `read_range`: `fuel` bounds the reads that are left. -/
def fillRange (vread : Nat → Nat → VfResult Bytes) (path : Bytes) (offset length : Nat) :
    Nat → Bytes → VfResult Bytes
  | 0, data => .ok data
  | fuel + 1, data =>
    if data.length < length then
      match checkedAdd offset data.length with
      | none => .error (.errno (some 0) VfError.eoverflow)
      | some current =>
        match vread current (length - data.length) with
        | .error error => .error error
        | .ok bytes =>
          if bytes.isEmpty then
            .error ((VfError.errno (some 0) VfError.errIo).withContext "read_pipeline" path)
          else fillRange vread path offset length fuel (data ++ bytes)
    else .ok data

/-- Every read that makes progress takes in a byte. -/
def readRange (vread : Nat → Nat → VfResult Bytes) (path : Bytes) (offset length : Nat) :
    VfResult Bytes :=
  fillRange vread path offset length length []

/-- A read returns an initial part of the bytes asked for. -/
def ReadsFile (file : Bytes) (vread : Nat → Nat → VfResult Bytes) : Prop :=
  ∀ offset length bytes, vread offset length = .ok bytes →
    bytes.length ≤ length ∧ bytes = (file.drop offset).take bytes.length

def ebusy : Nat := 16

/-- What a worker may do with a command, and the stream it has open then. -/
inductive Handles {n : Nat} (stream : ReadStream n) (worker : Fin n) :
    Option Nat → WorkerCommand → WorkerEvent n → Option Nat → Prop
  | busy {opened : Nat} (streamId : Nat) (path : Bytes) :
      Handles stream worker (some opened) (.start streamId path)
        (.started streamId worker (.error (.errno (some 0) ebusy))) (some opened)
  | unopened (streamId : Nat) (path : Bytes) (error : VfError) :
      Handles stream worker none (.start streamId path) (.started streamId worker (.error error))
        none
  | opened (streamId : Nat) (path : Bytes) :
      Handles stream worker none (.start streamId path)
        (.started streamId worker
          (.ok (if worker.val = 0 then some stream.file.length else none))) (some streamId)
  | read (streamId index offset length : Nat) (vread : Nat → Nat → VfResult Bytes)
      (honest : ReadsFile stream.file vread) :
      Handles stream worker (some streamId) (.read streamId index offset length)
        (.chunk streamId worker index offset
          ((readRange vread stream.path offset length).mapError fun error =>
            error.withIndex index)) (some streamId)
  | unread {opened : Option Nat} (streamId index offset length : Nat)
      (other : opened ≠ some streamId) :
      Handles stream worker opened (.read streamId index offset length)
        (.chunk streamId worker index offset (.error (.errno (some index) VfError.errEbadf)))
        opened
  | closed (streamId : Nat) (result : VfResult Unit) :
      Handles stream worker (some streamId) (.finish streamId)
        (.finished streamId worker result) none
  | unclosed {opened : Nat} (streamId : Nat) (other : opened ≠ streamId) :
      Handles stream worker (some opened) (.finish streamId)
        (.finished streamId worker (.error (.fromKind (some 0) .invalidInput))) (some opened)
  | nothing (streamId : Nat) :
      Handles stream worker none (.finish streamId) (.finished streamId worker (.ok ())) none

/-- Where the main thread is. -/
inductive StreamPhase (n : Nat) where
  | starting (rest : List (Fin n))
  | awaitStarted
  | running
  | delivering
  | draining
  | closing (rest : List (Fin n))
  | awaitFinished
  | returned (result : StreamEnd)

/-- The variables of `read_stream` and `finish_stream`. -/
structure StreamState (n : Nat) where
  phase : StreamPhase n
  active : List (Fin n) := []
  started : List (Fin n) := []
  fileSize : Option Nat := none
  primaryError : Option VfError := none
  nextJob : Nat := 0
  nextDelivery : Nat := 0
  jobs : List (Nat × Fin n) := []
  pending : List (Nat × Bytes) := []
  cancelled : Bool := false
  callbackError : Option VfError := none
  callbackPanic : Bool := false
  awaiting : List (Fin n) := []
  finished : List (Fin n) := []
  closeError : Option VfError := none
  workerAlive : Fin n → Bool
  /-- The calls of the callback. -/
  calls : List (Nat × Bytes) := []
  /-- The ranges a worker has answered; the code does not read it. -/
  answered : List Nat := []
  /-- What was received after scheduling stopped, `none` for a closed channel;
  the code does not read it. -/
  drained : List (Option (WorkerEvent n)) := []

namespace StreamState

variable {n : Nat} (s : StreamState n) (error : VfError) (worker : Fin n)

/-- `primary_error.get_or_insert_with`. -/
def orError : StreamState n := {s with primaryError := s.primaryError.or error}

def setError : StreamState n := {s with primaryError := some error}

/-- `finish_stream` keeps an error of its own. -/
def orCloseError : StreamState n :=
  {s with closeError := s.closeError.or error}

def lost : StreamState n :=
  {s with workerAlive := Function.update s.workerAlive worker false}

/-- A worker that stopped does not answer its ranges any more. -/
def dropJobs : StreamState n :=
  {s with jobs := s.jobs.filter fun job => job.2 ≠ worker}

def size : Nat := s.fileSize.getD 0

end StreamState

def poolError (message : String) : VfError := .transportWithKind none .other message

namespace ReadStream

variable {n : Nat} (stream : ReadStream n)

def totalRanges (size : Nat) : Nat :=
  if size = 0 then 0 else (size + stream.options.chunkSize - 1) / stream.options.chunkSize

variable (s : StreamState n) (index : Nat)

/-- `saturating_mul` of an index. -/
def offsetOf : Nat := min (index * stream.options.chunkSize) u64Max

def inContext (error : VfError) : VfError :=
  error.withContext "read_stream_pipelined" stream.path

/-- `index % effective_workers`. -/
def workerOf : Fin n := ⟨index % n, Nat.mod_lt _ stream.workers_pos⟩

/-- An event while the workers open the file. -/
def onStart : WorkerEvent n → StreamState n
  | .started streamId worker result =>
    if streamId = stream.streamId ∧ worker ∈ s.active ∧ worker ∉ s.started then
      let s := {s with started := s.started ++ [worker]}
      match result with
      | .ok (some size) =>
        if worker.val = 0 then {s with fileSize := some size}
        else s.orError (poolError "invalid read worker file-size response")
      | .ok none =>
        if worker.val = 0 then
          s.orError (poolError "invalid read worker file-size response")
        else s
      | .error error => s.orError (stream.inContext error)
    else s.orError (poolError "read worker sent an unexpected stream response")
  | .stopped worker =>
    if worker ∈ s.active ∧ worker ∉ s.started then
      ({s with started := s.started ++ [worker]}.lost worker).orError
        (poolError s!"read worker {worker} stopped during stream start")
    else s.orError (poolError "read worker sent an unexpected stream response")
  | _ => s.orError (poolError "read worker sent an unexpected stream response")

/-- A range that arrived, once its job is off the list. -/
def onData (offset : Nat) (data : Bytes) : StreamState n :=
  let expectedOffset := stream.offsetOf index
  if expectedOffset ≥ s.size then
    s.setError (poolError s!"worker returned out-of-range index {index}")
  else
    let expectedLen := min (s.size - expectedOffset) stream.options.chunkSize
    if offset ≠ expectedOffset ∨ data.length ≠ expectedLen then
      s.setError (poolError s!"worker returned malformed range {index}")
    else
      let known := (s.pending.lookup index).isSome
      let others := s.pending.filter fun held => held.1 ≠ index
      let s := {s with pending := others ++ [(index, data)]}
      if known then s.setError (poolError s!"worker returned range {index} more than once")
      else {s with phase := .delivering}

def onRange : WorkerEvent n → StreamState n
  | .chunk streamId worker index offset result =>
    if streamId = stream.streamId then
      let assigned := s.jobs.lookup index
      let s := {s with
        jobs := s.jobs.filter (fun job => job.1 ≠ index)
        answered := s.answered ++ [index]}
      if assigned ≠ some worker then
        s.orError (poolError "read worker returned an unassigned range")
      else
        match result with
        | .ok data => stream.onData s index offset data
        | .error error => s.setError (stream.inContext (error.withIndex index))
    else s.orError (poolError "read worker sent an unexpected range response")
  | .stopped worker =>
    ((s.lost worker).dropJobs worker).orError
      (poolError s!"read worker {worker} stopped during range reads")
  | _ => s.orError (poolError "read worker sent an unexpected range response")

/-- Hand the next range to the callback, if it is there. -/
def deliver : StreamState n :=
  match s.pending.lookup s.nextDelivery with
  | none => {s with phase := .running}
  | some data =>
    let start := s.nextDelivery * stream.options.chunkSize
    let verdict := stream.callback s.calls start data
    let s := {s with
      pending := s.pending.filter fun held => held.1 ≠ s.nextDelivery
      calls := s.calls ++ [(start, data)]
      nextDelivery := s.nextDelivery + 1}
    match verdict with
    | .resume => s
    | .stop => {s with cancelled := true, phase := .running}
    | .error error => {s with callbackError := some error, cancelled := true, phase := .running}
    | .panic => {s with callbackPanic := true, cancelled := true, phase := .running}

def onDrain (event : WorkerEvent n) : StreamState n :=
  let s := {s with drained := s.drained ++ [some event]}
  match event with
  | .chunk streamId worker index _ result =>
    if streamId = stream.streamId then
      let assigned := s.jobs.lookup index
      let s := {s with
        jobs := s.jobs.filter (fun job => job.1 ≠ index)
        answered := s.answered ++ [index]}
      if assigned ≠ some worker then
        s.orError (poolError "read worker returned an unassigned range while draining")
      else
        match result with
        | .ok _ => s
        | .error error => s.orError (stream.inContext error)
    else s.orError (poolError "read worker sent an unexpected drain response")
  | .stopped worker =>
    ((s.lost worker).dropJobs worker).orError
      (poolError s!"read worker {worker} stopped while draining")
  | _ => s.orError (poolError "read worker sent an unexpected drain response")

/-- An event while the workers close the file. -/
def onFinish : WorkerEvent n → StreamState n
  | .finished streamId worker result =>
    if streamId = stream.streamId ∧ worker ∈ s.awaiting ∧ worker ∉ s.finished then
      let s := {s with finished := s.finished ++ [worker]}
      match result with
      | .ok () => s
      | .error error => s.orCloseError error
    else s.orCloseError (poolError "read worker sent an unexpected cleanup response")
  | .stopped worker =>
    if worker ∈ s.awaiting ∧ worker ∉ s.finished then
      ({s with finished := s.finished ++ [worker]}.lost worker).orCloseError
        (poolError s!"read worker {worker} stopped during cleanup")
    else s.orCloseError (poolError "read worker sent an unexpected cleanup response")
  | _ => s.orCloseError (poolError "read worker sent an unexpected cleanup response")

/-- The result of the stream, once the workers have closed the file. -/
def outcome : StreamEnd :=
  if s.callbackPanic then .panicked
  else match s.primaryError, s.callbackError, s.closeError with
    | some error, _, _ => .result (.error error)
    | none, some error, _ => .result (.error error)
    | none, none, some error => .result (.error error)
    | none, none, none =>
      if s.cancelled then
        .result (.ok (.stopped (min (stream.offsetOf s.nextDelivery) s.size)))
      else .result (.ok .complete)

def started : StreamState n :=
  let s := {s with phase := .running}
  if s.primaryError.isNone ∧ s.fileSize.isNone then
    s.setError (poolError "read worker omitted file size")
  else s

end ReadStream

/-- The queues between the main thread and the workers. -/
abbrev PoolQueues (n : Nat) := Mailbox (Fin n) WorkerCommand (WorkerEvent n)

structure PoolSystem (n : Nat) where
  main : StreamState n
  queues : PoolQueues n
  /-- The stream each worker has open. -/
  opened : Fin n → Option Nat

namespace ReadStream

variable {n : Nat} (stream : ReadStream n)
  (system : PoolSystem n) (worker : Fin n) (rest : List (Fin n))

/-- `events.recv()`, with what to do with an event and with a closed channel. -/
def receive (onEvent : WorkerEvent n → StreamState n) (onClosed : StreamState n) :
    Option (PoolSystem n) :=
  match system.queues.recv with
  | .waiting => none
  | .closed => some {system with main := onClosed}
  | .event event queues => some {system with main := onEvent event, queues}

/-- `while started < active_workers.len()`. -/
def awaitStarted : Option (PoolSystem n) :=
  let s := system.main
  if s.started.length < s.active.length then
    receive system (stream.onStart s) (started
      (s.orError (poolError "read worker channel closed during stream start")))
  else some {system with main := started s}

/-- One turn of the range loop: schedule a range or receive an event. -/
def runRanges : Option (PoolSystem n) :=
  let s := system.main
  if s.primaryError.isNone ∧ !s.cancelled ∧ s.nextDelivery < stream.totalRanges s.size then
    if s.nextJob < stream.totalRanges s.size ∧ s.nextJob - s.nextDelivery < stream.inFlight then
      let offset := s.nextJob * stream.options.chunkSize
      if offset > u64Max then
        let error := VfError.errno (some 0) VfError.eoverflow
        some {system with main := {s with phase := .returned (.result (.error error))}}
      else
        let length := min (s.size - offset) stream.options.chunkSize
        let worker := stream.workerOf s.nextJob
        match system.queues.send worker (.read stream.streamId s.nextJob offset length) with
        | none =>
          let index := s.nextJob
          let error := poolError s!"read worker {worker} stopped before range {index}"
          some {system with main := (s.setError error).lost worker}
        | some queues =>
          some {system with
            main := {s with jobs := s.jobs ++ [(s.nextJob, worker)], nextJob := s.nextJob + 1}
            queues}
    else
      let closed := s.orError (poolError "read worker channel closed during range reads")
      receive system (stream.onRange s) {closed with phase := .draining}
  else some {system with main := {s with phase := .draining}}

/-- `while !jobs.is_empty()`. -/
def drainRanges : Option (PoolSystem n) :=
  let s := system.main
  if s.jobs.isEmpty then some {system with main := {s with phase := .closing s.active}}
  else
    let closed := {s with drained := s.drained ++ [none]}.orError
      (poolError "read worker channel closed while draining")
    receive system (stream.onDrain s) {closed with phase := .closing s.active}

/-- One worker of the first loop of `finish_stream`. -/
def closeWorker : PoolSystem n :=
  let s := {system.main with phase := .closing rest}
  if !s.workerAlive worker then {system with main := s}
  else
    match system.queues.send worker (.finish stream.streamId) with
    | none =>
      let error := poolError "read worker stopped before stream cleanup"
      {system with main := (s.lost worker).orCloseError error}
    | some queues => {system with main := {s with awaiting := s.awaiting ++ [worker]}, queues}

/-- `while finished < awaiting.len()`. -/
def awaitFinished : Option (PoolSystem n) :=
  let s := system.main
  if s.finished.length < s.awaiting.length then
    let closed := {s.orCloseError (poolError "read worker channel closed during cleanup") with
      workerAlive := fun _ => false}
    receive system (stream.onFinish s) {closed with phase := .returned (stream.outcome closed)}
  else some {system with main := {s with phase := .returned (stream.outcome s)}}

def startWorker : PoolSystem n :=
  let s := {system.main with phase := .starting rest}
  match system.queues.send worker (.start stream.streamId stream.path) with
  | none =>
    let error := poolError "read worker stopped before stream start"
    {system with main := (s.lost worker).orError error}
  | some queues => {system with main := {s with active := s.active ++ [worker]}, queues}

/-- One step of the main thread; `none` while it waits and once it returned. -/
def mainStep : Option (PoolSystem n) :=
  match system.main.phase with
  | .starting [] => some {system with main := {system.main with phase := .awaitStarted}}
  | .starting (worker :: rest) => some (stream.startWorker system worker rest)
  | .awaitStarted => stream.awaitStarted system
  | .running => stream.runRanges system
  | .delivering => some {system with main := stream.deliver system.main}
  | .draining => stream.drainRanges system
  | .closing [] => some {system with main := {system.main with phase := .awaitFinished}}
  | .closing (worker :: rest) => some (stream.closeWorker system worker rest)
  | .awaitFinished => stream.awaitFinished system
  | .returned _ => none

inductive Step : PoolSystem n → PoolSystem n → Prop
  | main {system system' : PoolSystem n} (step : stream.mainStep system = some system') :
      Step system system'
  | work {system : PoolSystem n} {worker : Fin n} {command : WorkerCommand}
      {rest : List WorkerCommand} {event : WorkerEvent n} {opened : Option Nat}
      (listening : system.queues.listening worker = true)
      (queued : system.queues.commands worker = command :: rest)
      (handles : Handles stream worker (system.opened worker) command event opened) :
      Step system {system with
        queues := system.queues.handled worker rest event
        opened := Function.update system.opened worker opened}
  | panic {system : PoolSystem n} {worker : Fin n}
      (listening : system.queues.listening worker = true) :
      Step system {system with queues := system.queues.died worker}
  | announce {system : PoolSystem n} {worker : Fin n}
      (gone : system.queues.listening worker = false)
      (silent : system.queues.announced worker = false) :
      Step system {system with queues := system.queues.announce worker (.stopped worker)}

def initial (workerAlive : Fin n → Bool) (queues : PoolQueues n) (opened : Fin n → Option Nat) :
    PoolSystem n :=
  ⟨{phase := .starting (List.finRange n), workerAlive}, queues, opened⟩

abbrev Reaches : PoolSystem n → PoolSystem n → Prop := Relation.ReflTransGen stream.Step

end ReadStream

end Vnfs.Nfs
