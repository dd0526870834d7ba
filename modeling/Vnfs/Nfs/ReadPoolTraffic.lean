import Vnfs.Nfs.ReadPoolWindow

/-!
What is under way between the main thread of a stream and its workers, in every
state a run can reach. The phase of the main thread says what it expects of each
worker; that is in transit and nothing else is, so an event is always one the
main thread waits for, or says that a worker stopped.
-/

namespace Vnfs.Nfs

open Mailbox Function
open List hiding min

inductive PoolRequest where
  | start (streamId : Nat)
  | read (streamId index : Nat)
  | finish (streamId : Nat)
  deriving DecidableEq, Repr

def poolReading (n : Nat) : Reading (Fin n) WorkerCommand (WorkerEvent n) PoolRequest where
  sender
    | .started _ worker _ => worker
    | .chunk _ worker _ _ _ => worker
    | .finished _ worker _ => worker
    | .stopped worker => worker
  asks
    | .start streamId _ => .start streamId
    | .read streamId index _ _ => .read streamId index
    | .finish streamId => .finish streamId
  answers
    | .started streamId _ _ => some (.start streamId)
    | .chunk streamId _ index _ _ => some (.read streamId index)
    | .finished streamId _ _ => some (.finish streamId)
    | .stopped _ => none

namespace ReadStream

variable {n : Nat} (stream : ReadStream n)

def jobsOf (jobs : List (Nat × Fin n)) (worker : Fin n) : List PoolRequest :=
  (jobs.filter fun job => job.2 = worker).map fun job => .read stream.streamId job.1

/-- What the main thread waits for, worker by worker. -/
def expected (s : StreamState n) : Fin n → List PoolRequest :=
  match s.phase with
  | .starting _ => round (.start stream.streamId) s.active []
  | .awaitStarted => round (.start stream.streamId) s.active s.started
  | .running | .delivering | .draining => stream.jobsOf s.jobs
  | .closing _ => round (.finish stream.streamId) s.awaiting []
  | .awaitFinished => round (.finish stream.streamId) s.awaiting s.finished
  | .returned _ => fun _ => []

end ReadStream

/-- What the main thread has done with the ranges so far. -/
def StreamState.ranges {n : Nat} (s : StreamState n) :
    (Nat × Nat × List (Nat × Fin n)) × List (Nat × Bytes) × List (Nat × Bytes) × List Nat :=
  ((s.nextJob, s.nextDelivery, s.jobs), s.pending, s.calls, s.answered)

def StreamState.Shape {n : Nat} (s : StreamState n) : Prop :=
  match s.phase with
  | .starting rest => (s.active ++ rest).Nodup ∧ s.started = [] ∧ s.jobs = [] ∧
      s.awaiting = [] ∧ s.finished = []
  | .awaitStarted => s.active.Nodup ∧ (s.started.Nodup ∧ s.started ⊆ s.active) ∧ s.jobs = [] ∧
      s.awaiting = [] ∧ s.finished = []
  | .running | .delivering | .draining => s.active.Nodup ∧ s.awaiting = [] ∧ s.finished = []
  | .closing rest => (s.awaiting ++ rest).Nodup ∧ s.finished = []
  | .awaitFinished => s.awaiting.Nodup ∧ s.finished.Nodup ∧ s.finished ⊆ s.awaiting
  | .returned _ => True

namespace ReadStream

variable {n : Nat} (stream : ReadStream n)

/-- A command to read asks for a range of the file. -/
def SoundCommand : WorkerCommand → Prop
  | .read _ index offset length =>
    index < stream.totalRanges stream.file.length ∧ offset = index * stream.options.chunkSize ∧
      length = min (stream.file.length - offset) stream.options.chunkSize
  | _ => True

/-- An event that brings data brings a range of the file, or its size. -/
def SoundEvent : WorkerEvent n → Prop
  | .started _ _ (.ok (some size)) => size = stream.file.length
  | .chunk _ _ index offset (.ok data) =>
    index < stream.totalRanges stream.file.length ∧ offset = index * stream.options.chunkSize ∧
      data = stream.slice index
  | _ => True

structure Sound (queues : PoolQueues n) : Prop where
  commands : ∀ worker, ∀ command ∈ queues.commands worker, stream.SoundCommand command
  events : ∀ event ∈ queues.events, stream.SoundEvent event

structure Consistent (system : PoolSystem n) : Prop where
  transit : Expects (poolReading n) system.queues (stream.expected system.main)
  shape : system.main.Shape
  sound : stream.Sound system.queues
  window : stream.Window system.main.nextJob system.main.nextDelivery system.main.jobs
    system.main.pending system.main.calls
  size : ∀ size, system.main.fileSize = some size → size = stream.file.length
  /-- The ranges are read with the size of the file known. -/
  known : system.main.phase = .running ∨ system.main.phase = .delivering →
    system.main.primaryError = none → system.main.fileSize.isSome
  accounted : ∀ index < system.main.nextJob, index ∈ system.main.answered ∨
    (index, stream.workerOf index) ∈ system.main.jobs ∨
      system.queues.listening (stream.workerOf index) = false

section Queues

variable {stream} {queues queues' : PoolQueues n} {worker : Fin n}
  {command : WorkerCommand} {event : WorkerEvent n}

/-- A sound command may be queued. -/
theorem Sound.send (h : stream.Sound queues) (hc : stream.SoundCommand command)
    (hs : queues.send worker command = some queues') :
    stream.Sound queues' ∧ queues'.listening = queues.listening := by
  unfold Mailbox.send at hs
  split at hs
  · obtain rfl := Option.some.inj hs
    refine ⟨⟨?_, h.events⟩, rfl⟩
    intro v command' hm
    dsimp only at hm
    rcases eq_or_ne v worker with rfl | hne
    · rw [update_self] at hm
      rcases mem_append.mp hm with hold | hn
      · exact h.commands v command' hold
      · rw [mem_singleton.mp hn]
        exact hc
    · rw [update_of_ne hne] at hm
      exact h.commands v command' hm
  · cases hs

/-- An event is taken off its queue. -/
theorem Sound.tail {events : List (WorkerEvent n)} (h : stream.Sound queues)
    (he : queues.events = event :: events) :
    stream.SoundEvent event ∧ stream.Sound {queues with events := events} := by
  refine ⟨h.events event (by rw [he]; exact mem_cons_self), h.commands, ?_⟩
  intro event' hm
  exact h.events event' (by rw [he]; exact mem_cons_of_mem _ hm)

private theorem slice_of_command {index offset length : Nat}
    (h : stream.SoundCommand (.read stream.streamId index offset length)) :
    (stream.file.drop offset).take length = stream.slice index := by
  obtain ⟨-, rfl, rfl⟩ := h
  unfold slice
  rw [take_eq_take_iff, length_drop]
  omega

/-- A worker answers a command with the event it stands for, and what it reads is
the range it was asked for. -/
theorem Handles.answers {opened opened' : Option Nat}
    (h : Handles stream worker opened command event opened') (hc : stream.SoundCommand command) :
    (poolReading n).sender event = worker ∧
      (poolReading n).answers event = some ((poolReading n).asks command) ∧
      stream.SoundEvent event := by
  cases h with
  | busy streamId path => exact ⟨rfl, rfl, trivial⟩
  | unopened streamId path error => exact ⟨rfl, rfl, trivial⟩
  | opened streamId path =>
    refine ⟨rfl, rfl, ?_⟩
    split
    · exact rfl
    · trivial
  | read streamId index offset length vread ho =>
    refine ⟨rfl, rfl, ?_⟩
    cases hr : readRange vread stream.path offset length with
    | error error => trivial
    | ok data =>
      obtain ⟨hd, -⟩ := readRange_ok ho hr
      obtain ⟨hi, hof, hl⟩ := hc
      refine ⟨hi, hof, hd.trans (slice_of_command ⟨hi, hof, hl⟩)⟩
  | unread streamId index offset length other => exact ⟨rfl, rfl, trivial⟩
  | closed streamId result => exact ⟨rfl, rfl, trivial⟩
  | unclosed streamId other => exact ⟨rfl, rfl, trivial⟩
  | nothing streamId => exact ⟨rfl, rfl, trivial⟩

end Queues

section Workers

variable {stream} {system : PoolSystem n} {worker : Fin n}

/-- A worker takes its next command. -/
theorem Consistent.work (h : stream.Consistent system) {command : WorkerCommand}
    {rest : List WorkerCommand} {event : WorkerEvent n} {opened : Option Nat}
    (hl : system.queues.listening worker = true)
    (hq : system.queues.commands worker = command :: rest)
    (hh : Handles stream worker (system.opened worker) command event opened) :
    stream.Consistent {system with
      queues := system.queues.handled worker rest event
      opened := update system.opened worker opened} := by
  have hc := h.sound.commands worker command (by rw [hq]; exact mem_cons_self)
  obtain ⟨hs, ha, hev⟩ := Handles.answers hh hc
  refine ⟨h.transit.handled hl hq hs ha, h.shape, ⟨?_, ?_⟩, h.window, h.size, h.known, h.accounted⟩
  · intro v command' hm
    dsimp only [Mailbox.handled] at hm
    rcases eq_or_ne v worker with rfl | hne
    · rw [update_self] at hm
      exact h.sound.commands v command' (by rw [hq]; exact mem_cons_of_mem _ hm)
    · rw [update_of_ne hne] at hm
      exact h.sound.commands v command' hm
  intro event' hm
  rcases mem_append.mp hm with hold | hn
  · exact h.sound.events event' hold
  · rw [mem_singleton.mp hn]
    exact hev

/-- A worker stops. -/
theorem Consistent.panic (h : stream.Consistent system)
    (hl : system.queues.listening worker = true) :
    stream.Consistent {system with queues := system.queues.died worker} := by
  refine ⟨h.transit.died hl, h.shape, ⟨?_, h.sound.events⟩, h.window, h.size, h.known, ?_⟩
  · intro v command hm
    dsimp only [Mailbox.died] at hm
    rcases eq_or_ne v worker with rfl | hne
    · rw [update_self] at hm
      cases hm
    · rw [update_of_ne hne] at hm
      exact h.sound.commands v command hm
  intro index hi
  rcases h.accounted index hi with ha | hj | hg
  · exact .inl ha
  · exact .inr (.inl hj)
  right
  right
  dsimp only [Mailbox.died]
  rcases eq_or_ne (stream.workerOf index) worker with heq | hne
  · rw [heq, update_self]
  · rw [update_of_ne hne, hg]

/-- A worker that stopped is announced to the main thread. -/
theorem Consistent.announce (h : stream.Consistent system)
    (hg : system.queues.listening worker = false) (hs : system.queues.announced worker = false) :
    stream.Consistent {system with
      queues := system.queues.announce worker (.stopped worker)} := by
  refine ⟨h.transit.announce hg hs rfl rfl, h.shape, ⟨h.sound.commands, ?_⟩, h.window,
    h.size, h.known, h.accounted⟩
  intro event hm
  rcases mem_append.mp hm with hold | hn
  · exact h.sound.events event hold
  · rw [mem_singleton.mp hn]
    trivial

end Workers

theorem receive_cases {system system' : PoolSystem n} {onEvent : WorkerEvent n → StreamState n}
    {onClosed : StreamState n} (h : receive system onEvent onClosed = some system') :
    (∃ event events, system.queues.events = event :: events ∧ system' = {system with
      main := onEvent event
      queues := {system.queues with events := events}}) ∨
    (system.queues.events = [] ∧ (∀ worker, system.queues.announced worker = true) ∧
      system' = {system with main := onClosed}) := by
  unfold receive at h
  split at h
  · cases h
  · rename_i hc
    obtain ⟨he, ha⟩ := recv_closed hc
    exact .inr ⟨he, ha, (Option.some.inj h).symm⟩
  · rename_i event queues hr
    obtain ⟨events, he, rfl⟩ := recv_event hr
    exact .inl ⟨event, events, he, (Option.some.inj h).symm⟩

section Main

variable {stream} {system : PoolSystem n} {main : StreamState n} {queues : PoolQueues n}

theorem Consistent.size_eq (h : stream.Consistent system)
    (hkn : system.main.fileSize.isSome) : system.main.size = stream.file.length := by
  obtain ⟨size, hf⟩ := Option.isSome_iff_exists.mp hkn
  rw [StreamState.size, hf, Option.getD_some, h.size size hf]

/-- The offset of a range that is to be scheduled does not overflow. -/
theorem Consistent.offset_le (h : stream.Consistent system)
    (hph : system.main.phase = .running) (hn : system.main.primaryError = none)
    (hj : system.main.nextJob < stream.totalRanges system.main.size) :
    system.main.nextJob * stream.options.chunkSize ≤ u64Max := by
  rw [h.size_eq (h.known (.inl hph) hn)] at hj
  have hlt := stream.offset_lt_of_lt_total hj
  have hle := stream.file_le
  omega

/-- A step of the main thread that leaves the ranges alone. -/
theorem Consistent.of_same (h : stream.Consistent system)
    (ht : Expects (poolReading n) queues (stream.expected main)) (hsh : main.Shape)
    (hsn : stream.Sound queues) (hl : queues.listening = system.queues.listening)
    (hs : main.ranges = system.main.ranges)
    (hsi : ∀ size, main.fileSize = some size → size = stream.file.length)
    (hkn : main.phase = .running ∨ main.phase = .delivering →
      main.primaryError = none → main.fileSize.isSome) :
    stream.Consistent {system with main := main, queues := queues} := by
  simp only [StreamState.ranges, Prod.mk.injEq] at hs
  obtain ⟨⟨hne, hn, hj⟩, hp, hcs, ha⟩ := hs
  refine ⟨ht, hsh, hsn, ?_, hsi, hkn, ?_⟩
  · dsimp only
    rw [hne, hn, hj, hp, hcs]
    exact h.window
  · dsimp only
    rw [hne, ha, hj, hl]
    exact h.accounted

variable {worker : Fin n} {rest : List (Fin n)} {s : StreamState n} {event : WorkerEvent n}
  {events : List (WorkerEvent n)} {system' : PoolSystem n} {index : Nat} {s' : StreamState n}

/-- The main thread asks a worker to open the file. -/
theorem Consistent.startWorker (h : stream.Consistent system)
    (hph : system.main.phase = .starting (worker :: rest)) :
    stream.Consistent (stream.startWorker system worker rest) := by
  have ht := h.transit
  have hsh := h.shape
  simp only [expected, hph] at ht
  simp only [StreamState.Shape, hph] at hsh
  obtain ⟨hnd, hl⟩ := hsh
  unfold ReadStream.startWorker
  split
  · refine h.of_same ht ⟨?_, hl⟩ h.sound rfl rfl h.size ?_
    · exact hnd.sublist (Sublist.append_left (sublist_cons_self ..) _)
    · rintro (hr | hd)
      · cases hr
      · cases hd
  rename_i queues hs
  have hc : stream.SoundCommand (.start stream.streamId stream.path) := trivial
  obtain ⟨hsn, hli⟩ := h.sound.send hc hs
  have hn : worker ∉ system.main.active := by
    intro hm
    exact (nodup_append.mp hnd).2.2 worker hm worker mem_cons_self rfl
  have hse := ht.send hs
  refine h.of_same ?_ ⟨?_, hl⟩ hsn hli rfl h.size ?_
  · rwa [show (poolReading n).asks (.start stream.streamId stream.path) =
      .start stream.streamId from rfl, round_ask hn] at hse
  · simpa using hnd
  · rintro (hr | hd)
    · cases hr
    · cases hd

variable (stream)

private theorem onStart_started (worker : Fin n) (result : VfResult (Option Nat))
    (h : worker ∈ s.active ∧ worker ∉ s.started) :
    ∃ fileSize primaryError, stream.onStart s (.started stream.streamId worker result) = {s with
        started := hear s.active s.started worker
        fileSize := fileSize
        primaryError := primaryError} ∧
      (fileSize = s.fileSize ∨ ∃ size, result = .ok (some size) ∧ fileSize = some size) := by
  dsimp only [onStart, hear]
  rw [if_pos ⟨rfl, h⟩, if_pos h]
  split
  · split
    · exact ⟨_, _, rfl, .inr ⟨_, rfl, rfl⟩⟩
    · exact ⟨_, _, rfl, .inl rfl⟩
  · split
    · exact ⟨_, _, rfl, .inl rfl⟩
    · exact ⟨_, _, rfl, .inl rfl⟩
  · exact ⟨_, _, rfl, .inl rfl⟩

/-- A worker that stops while the file is opened counts as one that answered. -/
private theorem onStart_stopped (s : StreamState n) (worker : Fin n) :
    ∃ primaryError workerAlive, stream.onStart s (.stopped worker) = {s with
      started := hear s.active s.started worker
      primaryError := primaryError
      workerAlive := workerAlive} := by
  dsimp only [onStart, hear]
  split
  · exact ⟨_, _, rfl⟩
  · exact ⟨_, _, rfl⟩

variable {stream}

/-- An event while the file is opened. -/
theorem Consistent.onStart (h : stream.Consistent system)
    (hph : system.main.phase = .awaitStarted) (he : system.queues.events = event :: events) :
    stream.Consistent {system with
      main := stream.onStart system.main event
      queues := {system.queues with events := events}} := by
  obtain ⟨hev, hs⟩ := h.sound.tail he
  have ht := h.transit
  have hsh := h.shape
  simp only [expected, hph] at ht
  simp only [StreamState.Shape, hph] at hsh
  obtain ⟨ha, hst, hl⟩ := hsh
  cases event with
  | started streamId worker result =>
    obtain ⟨hid, hw, ht⟩ := ht.round_answer he rfl
    obtain rfl := PoolRequest.start.inj hid
    obtain ⟨fileSize, primaryError, heq, hsi⟩ := stream.onStart_started worker result hw
    rw [heq]
    refine h.of_same ?_ ?_ hs rfl rfl ?_ (by simp [hph])
    · simp only [expected, hph]
      exact ht
    · simp only [StreamState.Shape, hph]
      exact ⟨ha, hear_nodup hst worker, hl⟩
    intro size hf
    rcases hsi with hold | ⟨size', rfl, hn⟩
    · exact h.size size (hold.symm.trans hf)
    · obtain rfl := Option.some.inj (hn.symm.trans hf)
      exact hev
  | chunk streamId worker index offset result => cases (ht.round_answer he rfl).1
  | finished streamId worker result => cases (ht.round_answer he rfl).1
  | stopped worker =>
    obtain ⟨primaryError, workerAlive, heq⟩ := stream.onStart_stopped system.main worker
    rw [heq]
    refine h.of_same ?_ ?_ hs rfl rfl h.size (by simp [hph])
    · simp only [expected, hph]
      exact ht.round_stopped he rfl
    · simp only [StreamState.Shape, hph]
      exact ⟨ha, hear_nodup hst worker, hl⟩

theorem started_spec (s : StreamState n) : ∃ primaryError, started s = {s with
      phase := .running
      primaryError := primaryError} ∧ (primaryError = none → s.fileSize.isSome) := by
  dsimp only [started]
  split
  · refine ⟨_, rfl, ?_⟩
    intro hn
    cases hn
  rename_i hkn
  refine ⟨_, rfl, ?_⟩
  intro hn
  rw [Option.isSome_iff_ne_none]
  simpa [hn] using hkn

/-- All workers have answered, and the opening is over. -/
theorem Consistent.started (h : stream.Consistent system) (hph : system.main.phase = .awaitStarted)
    (primaryError : Option VfError) (ht : Expects (poolReading n) system.queues (fun _ => [])) :
    stream.Consistent {system with
      main := ReadStream.started {system.main with primaryError := primaryError}} := by
  have hsh := h.shape
  simp only [StreamState.Shape, hph] at hsh
  obtain ⟨ha, -, hj, hl⟩ := hsh
  obtain ⟨error, heq, hkn⟩ := started_spec {system.main with primaryError := primaryError}
  rw [heq]
  refine h.of_same ?_ ⟨ha, hl⟩ h.sound rfl rfl h.size fun _ => hkn
  simp only [expected, hj]
  exact ht

theorem Consistent.awaitStarted (h : stream.Consistent system)
    (hph : system.main.phase = .awaitStarted)
    (hs : stream.awaitStarted system = some system') : stream.Consistent system' := by
  unfold ReadStream.awaitStarted at hs
  dsimp only at hs
  split at hs
  · rcases receive_cases hs with ⟨event, events, he, rfl⟩ | ⟨he, ha, rfl⟩
    · exact h.onStart hph he
    · exact h.started hph _ (h.transit.of_closed he ha _)
  rename_i hal
  obtain rfl := Option.some.inj hs
  have ht := h.transit
  have hsh := h.shape
  simp only [expected, hph] at ht
  simp only [StreamState.Shape, hph] at hsh
  rw [round_done hsh.2.1 (Nat.le_of_not_lt hal)] at ht
  exact h.started hph _ ht

/-- The main thread asks a worker to close the file. -/
theorem Consistent.closeWorker (h : stream.Consistent system)
    (hph : system.main.phase = .closing (worker :: rest)) :
    stream.Consistent (stream.closeWorker system worker rest) := by
  have ht := h.transit
  have hsh := h.shape
  simp only [expected, hph] at ht
  simp only [StreamState.Shape, hph] at hsh
  obtain ⟨hnd, hfi⟩ := hsh
  have hf : (system.main.awaiting ++ rest).Nodup :=
    hnd.sublist (Sublist.append_left (sublist_cons_self ..) _)
  unfold ReadStream.closeWorker
  dsimp only
  split
  · exact h.of_same ht ⟨hf, hfi⟩ h.sound rfl rfl h.size (by simp)
  split
  · exact h.of_same ht ⟨hf, hfi⟩ h.sound rfl rfl
      h.size (by simp [StreamState.orCloseError, StreamState.lost])
  rename_i queues hs
  have hc : stream.SoundCommand (.finish stream.streamId) := trivial
  obtain ⟨hsn, hl⟩ := h.sound.send hc hs
  have hn : worker ∉ system.main.awaiting := by
    intro hm
    exact (nodup_append.mp hnd).2.2 worker hm worker mem_cons_self rfl
  have hse := ht.send hs
  refine h.of_same ?_ ⟨?_, hfi⟩ hsn hl rfl h.size (by simp)
  · rwa [show (poolReading n).asks (.finish stream.streamId) =
      .finish stream.streamId from rfl, round_ask hn] at hse
  · simpa using hnd

variable (stream)

private theorem onFinish_finished (worker : Fin n) (result : VfResult Unit)
    (h : worker ∈ s.awaiting ∧ worker ∉ s.finished) :
    ∃ closeError, stream.onFinish s (.finished stream.streamId worker result) = {s with
      finished := hear s.awaiting s.finished worker
      closeError := closeError} := by
  dsimp only [onFinish, hear]
  rw [if_pos ⟨rfl, h⟩, if_pos h]
  split
  · exact ⟨_, rfl⟩
  · exact ⟨_, rfl⟩

private theorem onFinish_stopped (s : StreamState n) (worker : Fin n) :
    ∃ closeError workerAlive, stream.onFinish s (.stopped worker) = {s with
      finished := hear s.awaiting s.finished worker
      closeError := closeError
      workerAlive := workerAlive} := by
  dsimp only [onFinish, hear]
  split
  · exact ⟨_, _, rfl⟩
  · exact ⟨_, _, rfl⟩

variable {stream}

/-- An event while the file is closed. -/
theorem Consistent.onFinish (h : stream.Consistent system)
    (hph : system.main.phase = .awaitFinished) (he : system.queues.events = event :: events) :
    stream.Consistent {system with
      main := stream.onFinish system.main event
      queues := {system.queues with events := events}} := by
  obtain ⟨-, hs⟩ := h.sound.tail he
  have ht := h.transit
  have hsh := h.shape
  simp only [expected, hph] at ht
  simp only [StreamState.Shape, hph] at hsh
  obtain ⟨ha, hf⟩ := hsh
  cases event with
  | finished streamId worker result =>
    obtain ⟨hid, hw, ht⟩ := ht.round_answer he rfl
    obtain rfl := PoolRequest.finish.inj hid
    obtain ⟨closeError, heq⟩ := stream.onFinish_finished worker result hw
    rw [heq]
    refine h.of_same ?_ ?_ hs rfl rfl h.size (by simp [hph])
    · simp only [expected, hph]
      exact ht
    · simp only [StreamState.Shape, hph]
      exact ⟨ha, hear_nodup hf worker⟩
  | started streamId worker result => cases (ht.round_answer he rfl).1
  | chunk streamId worker index offset result => cases (ht.round_answer he rfl).1
  | stopped worker =>
    obtain ⟨closeError, workerAlive, heq⟩ := stream.onFinish_stopped system.main worker
    rw [heq]
    refine h.of_same ?_ ?_ hs rfl rfl h.size (by simp [hph])
    · simp only [expected, hph]
      exact ht.round_stopped he rfl
    · simp only [StreamState.Shape, hph]
      exact ⟨ha, hear_nodup hf worker⟩

theorem Consistent.returned (h : stream.Consistent system) {main : StreamState n}
    {result : StreamEnd} (hph : main.phase = .returned result)
    (hs : main.ranges = system.main.ranges) (hsi : main.fileSize = system.main.fileSize)
    (ht : Expects (poolReading n) system.queues (fun _ => [])) :
    stream.Consistent {system with main := main} := by
  refine h.of_same ?_ ?_ h.sound rfl hs (fun size hf => h.size size (hsi ▸ hf)) (by simp [hph])
  · simpa only [expected, hph] using ht
  · simp only [StreamState.Shape, hph]

theorem Consistent.awaitFinished (h : stream.Consistent system)
    (hph : system.main.phase = .awaitFinished)
    (hs : stream.awaitFinished system = some system') : stream.Consistent system' := by
  unfold ReadStream.awaitFinished at hs
  dsimp only at hs
  split at hs
  · rcases receive_cases hs with ⟨event, events, he, rfl⟩ | ⟨he, ha, rfl⟩
    · exact h.onFinish hph he
    · exact h.returned rfl rfl rfl (h.transit.of_closed he ha _)
  rename_i hal
  obtain rfl := Option.some.inj hs
  have ht := h.transit
  have hsh := h.shape
  simp only [expected, hph] at ht
  simp only [StreamState.Shape, hph] at hsh
  rw [round_done hsh.2 (Nat.le_of_not_lt hal)] at ht
  exact h.returned rfl rfl rfl ht

variable (stream)

private theorem jobsOf_append (jobs : List (Nat × Fin n)) (index : Nat) (worker : Fin n) :
    stream.jobsOf (jobs ++ [(index, worker)]) = update (stream.jobsOf jobs) worker
      (stream.jobsOf jobs worker ++ [.read stream.streamId index]) := by
  funext v
  unfold jobsOf
  rcases eq_or_ne v worker with rfl | hne
  · simp
  · simp [hne, hne.symm]

private theorem jobsOf_drop (jobs : List (Nat × Fin n)) (worker : Fin n) :
    stream.jobsOf (jobs.filter fun job => job.2 ≠ worker) =
      update (stream.jobsOf jobs) worker [] := by
  funext v
  unfold jobsOf
  rcases eq_or_ne v worker with rfl | hne
  · simp
  rw [update_of_ne hne, filter_filter]
  congr 1
  apply filter_congr
  intro job _
  rcases eq_or_ne job.2 v with hv | hv
  · simp [hv, hne]
  · simp [hv]

/-- The first range expected of a worker is one of its jobs, and the only one with
its index. -/
private theorem jobsOf_answer {jobs : List (Nat × Fin n)} {streamId : Nat} {rest : List PoolRequest}
    (hor : jobs.Pairwise fun job later => job.1 < later.1)
    (hjo : stream.jobsOf jobs worker = .read streamId index :: rest) :
    streamId = stream.streamId ∧ (index, worker) ∈ jobs ∧ jobs.lookup index = some worker ∧
      stream.jobsOf (jobs.filter fun job => job.1 ≠ index) =
        update (stream.jobsOf jobs) worker rest := by
  induction jobs with
  | nil => cases hjo
  | cons job jobs ih =>
    obtain ⟨hf, hla⟩ := pairwise_cons.mp hor
    obtain ⟨other, ho⟩ := job
    rcases eq_or_ne ho worker with rfl | hne
    · simp only [jobsOf, filter_cons, decide_true, if_true, map_cons,
        List.cons.injEq, PoolRequest.read.injEq] at hjo
      obtain ⟨⟨rfl, rfl⟩, rfl⟩ := hjo
      refine ⟨rfl, mem_cons_self, by simp, ?_⟩
      have hk : jobs.filter (fun job => job.1 ≠ other) = jobs := by
        apply filter_eq_self.mpr
        intro job hj
        simpa using (Nat.ne_of_lt (hf job hj)).symm
      rw [filter_cons_of_neg (by simp), hk]
      funext v
      unfold jobsOf
      rcases eq_or_ne v ho with rfl | hv
      · simp
      · simp [hv, hv.symm]
    have hs : ∀ jobs : List (Nat × Fin n),
        stream.jobsOf ((other, ho) :: jobs) worker = stream.jobsOf jobs worker := by
      intro jobs
      simp [jobsOf, hne]
    rw [hs] at hjo
    obtain ⟨hid, hm, hl, hr⟩ := ih hla hjo
    have hi : other ≠ index := Nat.ne_of_lt (hf _ hm)
    refine ⟨hid, mem_cons_of_mem _ hm, ?_, ?_⟩
    · rw [lookup_cons, beq_eq_false_iff_ne.mpr hi.symm]
      exact hl
    rw [filter_cons_of_pos (by simpa using hi)]
    funext v
    have hv := congrFun hr v
    rcases eq_or_ne v worker with rfl | hot
    · rw [update_self] at hv ⊢
      rw [hs, hv]
    rw [update_of_ne hot] at hv ⊢
    simp only [jobsOf, filter_cons] at hv ⊢
    split
    · rw [map_cons, map_cons, hv]
    · exact hv

variable {stream}

/-- The next range is sent to its worker. -/
theorem Consistent.runRanges_send (h : stream.Consistent system)
    (hph : system.main.phase = .running) (hsi : system.main.size = stream.file.length)
    (hj : system.main.nextJob < stream.totalRanges system.main.size)
    (hr : system.main.nextJob - system.main.nextDelivery < stream.inFlight)
    (hse : system.queues.send (stream.workerOf system.main.nextJob)
      (.read stream.streamId system.main.nextJob (system.main.nextJob * stream.options.chunkSize)
        (min (system.main.size - system.main.nextJob * stream.options.chunkSize)
          stream.options.chunkSize)) = some queues) :
    stream.Consistent {system with
      main := {system.main with
        jobs := system.main.jobs ++ [(system.main.nextJob, stream.workerOf system.main.nextJob)]
        nextJob := system.main.nextJob + 1}
      queues := queues} := by
  rw [hsi] at hj hse
  have ht := h.transit
  have hsh := h.shape
  simp only [expected, hph] at ht
  have hc : stream.SoundCommand (.read stream.streamId system.main.nextJob
      (system.main.nextJob * stream.options.chunkSize)
      (min (stream.file.length - system.main.nextJob * stream.options.chunkSize)
        stream.options.chunkSize)) := ⟨hj, rfl, rfl⟩
  obtain ⟨hsn, hl⟩ := h.sound.send hc hse
  have hs := ht.send hse
  refine ⟨?_, ?_, hsn, h.window.schedule hj hr, h.size, h.known, ?_⟩
  · simp only [expected, hph]
    rw [jobsOf_append]
    exact hs
  · simp only [StreamState.Shape, hph] at hsh ⊢
    exact hsh
  intro index hi
  rcases Nat.lt_succ_iff_lt_or_eq.mp hi with hold | rfl
  · rw [hl]
    rcases h.accounted index hold with ha | hm | hg
    · exact .inl ha
    · exact .inr (.inl (mem_append_left _ hm))
    · exact .inr (.inr hg)
  · exact .inr (.inl (by simp))

def Waiting (s : StreamState n) : Prop := s.phase = .running ∨ s.phase = .draining

theorem Waiting.expected (h : Waiting s) (hph : s'.phase = s.phase) :
    stream.expected s' = stream.jobsOf s'.jobs := by
  unfold ReadStream.expected
  rcases h with h | h <;> rw [hph, h]

theorem Waiting.shape (h : Waiting s) (hph : s'.phase = s.phase) :
    s'.Shape ↔ s'.active.Nodup ∧ s'.awaiting = [] ∧ s'.finished = [] := by
  unfold StreamState.Shape
  rcases h with h | h <;> rw [hph, h]

/-- An event while ranges are waited for is the answer to a job, or says that a
worker stopped. -/
theorem Consistent.event_cases (h : stream.Consistent system) (hw : Waiting system.main)
    (hev : system.queues.events = event :: events) :
    (∃ worker index offset result, event = .chunk stream.streamId worker index offset result ∧
      (index, worker) ∈ system.main.jobs ∧ system.main.jobs.lookup index = some worker) ∨
    ∃ worker, event = .stopped worker := by
  have ht := h.transit
  rw [hw.expected rfl] at ht
  cases event with
  | chunk streamId worker index offset result =>
    obtain ⟨rest, he, -⟩ := ht.recv_answer hev rfl
    obtain ⟨rfl, hm, hl, -⟩ := stream.jobsOf_answer h.window.jobs_ordered he
    exact .inl ⟨worker, index, offset, result, rfl, hm, hl⟩
  | stopped worker => exact .inr ⟨worker, rfl⟩
  | started streamId worker result =>
    obtain ⟨rest, he, -⟩ := ht.recv_answer hev rfl
    simp [jobsOf, map_eq_cons_iff] at he
  | finished streamId worker result =>
    obtain ⟨rest, he, -⟩ := ht.recv_answer hev rfl
    simp [jobsOf, map_eq_cons_iff] at he

/-- The answer to a job takes the job off the list. -/
theorem Consistent.answered (h : stream.Consistent system) (hw : Waiting system.main)
    {offset : Nat} {result : VfResult Bytes}
    (hev : system.queues.events = .chunk stream.streamId worker index offset result :: events) :
    stream.Consistent {system with
      main := {system.main with
        jobs := system.main.jobs.filter fun job => job.1 ≠ index
        answered := system.main.answered ++ [index]}
      queues := {system.queues with events := events}} := by
  have ht := h.transit
  rw [hw.expected rfl] at ht
  obtain ⟨rest, he, ht⟩ := ht.recv_answer hev rfl
  obtain ⟨-, -, -, hf⟩ := stream.jobsOf_answer h.window.jobs_ordered he
  refine ⟨?_, ?_, (h.sound.tail hev).2, h.window.lose filter_sublist, h.size, h.known, ?_⟩
  · rw [hw.expected]
    · dsimp only
      rw [hf]
      exact ht
    · rfl
  · rw [hw.shape]
    · exact (hw.shape rfl).mp h.shape
    · rfl
  intro other ho
  rcases h.accounted other ho with ha | hm | hg
  · exact .inl (mem_append_left _ ha)
  · rcases eq_or_ne other index with rfl | hne
    · exact .inl (by simp)
    · exact .inr (.inl (mem_filter.mpr ⟨hm, by simpa using hne⟩))
  · exact .inr (.inr hg)

/-- A worker that stops takes its jobs with it. -/
theorem Consistent.stopped (h : stream.Consistent system) (hw : Waiting system.main)
    (he : system.queues.events = .stopped worker :: events) :
    stream.Consistent {system with
      main := {system.main with jobs := system.main.jobs.filter fun job => job.2 ≠ worker}
      queues := {system.queues with events := events}} := by
  have ht := h.transit
  rw [hw.expected rfl] at ht
  obtain ⟨hg, ht⟩ := ht.recv_stopped he rfl
  refine ⟨?_, ?_, (h.sound.tail he).2, h.window.lose filter_sublist, h.size, h.known, ?_⟩
  · rw [hw.expected]
    · dsimp only
      rw [jobsOf_drop]
      exact ht
    · rfl
  · rw [hw.shape]
    · exact (hw.shape rfl).mp h.shape
    · rfl
  intro other ho
  rcases h.accounted other ho with ha | hm | hl
  · exact .inl ha
  · rcases eq_or_ne (stream.workerOf other) worker with heq | hne
    · exact .inr (.inr (heq ▸ hg))
    · exact .inr (.inl (mem_filter.mpr ⟨hm, by simpa using hne⟩))
  · exact .inr (.inr hl)

private theorem lookup_eq_none {pending : List (Nat × Bytes)}
    (h : ∀ held ∈ pending, held.1 ≠ index) :
    pending.lookup index = none := by
  rw [lookup_eq_none_iff]
  intro held hh
  simpa using (h held hh).symm

private theorem onData_slice (hs : s.size = stream.file.length)
    (hi : index < stream.totalRanges stream.file.length) (hp : ∀ held ∈ s.pending, held.1 ≠ index) :
    stream.onData s index (index * stream.options.chunkSize) (stream.slice index) = {s with
      pending := s.pending ++ [(index, stream.slice index)]
      phase := .delivering} := by
  have hlt := stream.offset_lt_of_lt_total hi
  have ho : s.pending.filter (fun held => held.1 ≠ index) = s.pending := by
    apply filter_eq_self.mpr
    intro held hh
    simpa using hp held hh
  dsimp only [onData]
  rw [hs, stream.offsetOf_eq hi, if_neg (Nat.not_le.mpr hlt), stream.slice_length,
    if_neg (by simp), lookup_eq_none hp, ho]
  rfl

/-- A range whose job is off the list is kept for its turn. -/
theorem Consistent.arrive (h : stream.Consistent system) (hph : system.main.phase = .running)
    (hkn : system.main.fileSize.isSome) (hi : index < stream.totalRanges stream.file.length)
    (hin : system.main.nextDelivery ≤ index ∧ index < system.main.nextJob)
    (hj : ∀ job ∈ system.main.jobs, job.1 ≠ index)
    (hp : ∀ held ∈ system.main.pending, held.1 ≠ index) :
    let offset := index * stream.options.chunkSize
    stream.Consistent {system with
      main := stream.onData system.main index offset (stream.slice index)} := by
  intro offset
  have hs := h.size_eq hkn
  have ht := h.transit
  have hsh := h.shape
  simp only [expected, hph] at ht
  simp only [StreamState.Shape, hph] at hsh
  rw [onData_slice hs hi hp]
  exact ⟨ht, hsh, h.sound, h.window.arrive hin hj hp, h.size, fun _ _ => hkn, h.accounted⟩

/-- An event while ranges are read. -/
theorem Consistent.onRange (h : stream.Consistent system) (hph : system.main.phase = .running)
    (hn : system.main.primaryError = none) (he : system.queues.events = event :: events) :
    stream.Consistent {system with
      main := stream.onRange system.main event
      queues := {system.queues with events := events}} := by
  have hw : Waiting system.main := .inl hph
  have hkn := h.known (.inl hph) hn
  rcases h.event_cases hw he with
    ⟨worker, index, offset, result, rfl, hm, hl⟩ | ⟨worker, rfl⟩
  · have ha := h.answered hw he
    obtain ⟨hev, -⟩ := h.sound.tail he
    dsimp only [ReadStream.onRange]
    rw [if_pos rfl, if_neg (by simp [hl])]
    cases result with
    | error error =>
      refine ha.of_same ha.transit ha.shape ha.sound rfl rfl h.size ?_
      intro _ hs
      cases hs
    | ok data =>
      obtain ⟨hi, rfl, rfl⟩ := hev
      apply ha.arrive hph hkn hi (h.window.jobs_within _ hm)
      · intro job hj
        simpa using (mem_filter.mp hj).2
      · intro held hh heq
        exact h.window.apart _ hm held hh heq.symm
  have hst := h.stopped hw he
  refine hst.of_same hst.transit hst.shape hst.sound rfl rfl h.size ?_
  intro _ hs
  simp [ReadStream.onRange, StreamState.orError, StreamState.dropJobs, StreamState.lost, hn] at hs

theorem Consistent.runRanges (h : stream.Consistent system) (hph : system.main.phase = .running)
    (hst : stream.runRanges system = some system') : stream.Consistent system' := by
  have ht := h.transit
  have hsh := h.shape
  simp only [expected, hph] at ht
  simp only [StreamState.Shape, hph] at hsh
  unfold ReadStream.runRanges at hst
  dsimp only at hst
  split at hst
  · rename_i hl
    have hn : system.main.primaryError = none := Option.isNone_iff_eq_none.mp hl.1
    have hkn := h.known (.inl hph) hn
    have hsi := h.size_eq hkn
    split at hst
    · rename_i hs
      split at hst
      · rename_i ho
        have hle := h.offset_le hph hn hs.1
        omega
      split at hst
      · obtain rfl := Option.some.inj hst
        refine h.of_same h.transit h.shape h.sound rfl rfl h.size ?_
        intro _ hso
        cases hso
      · rename_i queues hse
        obtain rfl := Option.some.inj hst
        exact h.runRanges_send hph hsi hs.1 hs.2 hse
    rcases receive_cases hst with ⟨event, events, he, rfl⟩ | ⟨he, ha, rfl⟩
    · exact h.onRange hph hn he
    · exact h.of_same (h.transit.of_closed he ha _) hsh h.sound rfl rfl h.size (by simp)
  · obtain rfl := Option.some.inj hst
    exact h.of_same ht hsh h.sound rfl rfl h.size (by simp)

/-- The ranges that arrived in order are handed to the caller. -/
theorem Consistent.deliver (h : stream.Consistent system) (hph : system.main.phase = .delivering) :
    stream.Consistent {system with main := stream.deliver system.main} := by
  have ht := h.transit
  have hsh := h.shape
  simp only [expected, hph] at ht
  simp only [StreamState.Shape, hph] at hsh
  have hkn := h.known (.inr hph)
  unfold ReadStream.deliver
  split
  · exact h.of_same ht hsh h.sound rfl rfl h.size fun _ => hkn
  rename_i data hl
  have hh : (system.main.nextDelivery, data) ∈ system.main.pending := by
    obtain ⟨before, after, hs, -⟩ := lookup_eq_some_iff.mp hl
    simp [hs]
  have hw := h.window.deliver hh
  dsimp only
  split
  · refine ⟨h.transit, h.shape, h.sound, hw, h.size, h.known, h.accounted⟩
  · exact ⟨ht, hsh, h.sound, hw, h.size, fun _ => hkn, h.accounted⟩
  · exact ⟨ht, hsh, h.sound, hw, h.size, fun _ => hkn, h.accounted⟩
  · exact ⟨ht, hsh, h.sound, hw, h.size, fun _ => hkn, h.accounted⟩

/-- An event while the jobs that are left are waited for. -/
theorem Consistent.onDrain (h : stream.Consistent system) (hph : system.main.phase = .draining)
    (he : system.queues.events = event :: events) :
    stream.Consistent {system with
      main := stream.onDrain system.main event
      queues := {system.queues with events := events}} := by
  have hw : Waiting system.main := .inr hph
  rcases h.event_cases hw he with
    ⟨worker, index, offset, result, rfl, hm, hl⟩ | ⟨worker, rfl⟩
  · have ha := h.answered hw he
    dsimp only [ReadStream.onDrain]
    rw [if_pos rfl, if_neg (by simp [hl])]
    cases result with
    | error error =>
      exact ha.of_same ha.transit ha.shape ha.sound rfl rfl h.size
        (by simp [StreamState.orError, hph])
    | ok data =>
      exact ha.of_same ha.transit ha.shape ha.sound rfl rfl h.size (by simp [hph])
  · have hs := h.stopped hw he
    refine hs.of_same hs.transit hs.shape hs.sound rfl rfl h.size ?_
    simp [ReadStream.onDrain, StreamState.orError, StreamState.dropJobs, StreamState.lost, hph]

theorem Consistent.drainRanges (h : stream.Consistent system) (hph : system.main.phase = .draining)
    (hs : stream.drainRanges system = some system') : stream.Consistent system' := by
  have ht := h.transit
  have hsh := h.shape
  simp only [expected, hph] at ht
  simp only [StreamState.Shape, hph] at hsh
  obtain ⟨ha, hw, hf⟩ := hsh
  have hc : (system.main.awaiting ++ system.main.active).Nodup := by
    rw [hw]
    exact ha
  unfold ReadStream.drainRanges at hs
  dsimp only at hs
  split at hs
  · rename_i hj
    obtain rfl := Option.some.inj hs
    refine h.of_same ?_ ⟨hc, hf⟩ h.sound rfl rfl h.size (by simp)
    rw [List.isEmpty_iff.mp hj] at ht
    simp only [expected, hw]
    exact ht
  rcases receive_cases hs with ⟨event, events, he, rfl⟩ | ⟨he, han, rfl⟩
  · exact h.onDrain hph he
  · exact h.of_same (h.transit.of_closed he han _) ⟨hc, hf⟩ h.sound rfl
      rfl h.size (by simp)

/-- Every step of the main thread, by its phase. -/
theorem Consistent.mainStep (h : stream.Consistent system)
    (hst : stream.mainStep system = some system') : stream.Consistent system' := by
  have ht := h.transit
  have hsh := h.shape
  unfold ReadStream.mainStep at hst
  split at hst <;> rename_i hph
  · obtain rfl := Option.some.inj hst
    simp only [expected, hph] at ht
    simp only [StreamState.Shape, hph, append_nil] at hsh
    obtain ⟨ha, hs, hl⟩ := hsh
    refine h.of_same ?_ ⟨ha, ?_, hl⟩ h.sound rfl rfl h.size (by simp)
    · simpa only [expected, hs] using ht
    · simp [hs]
  · obtain rfl := Option.some.inj hst
    exact h.startWorker hph
  · exact h.awaitStarted hph hst
  · exact h.runRanges hph hst
  · obtain rfl := Option.some.inj hst
    exact h.deliver hph
  · exact h.drainRanges hph hst
  · obtain rfl := Option.some.inj hst
    simp only [expected, hph] at ht
    simp only [StreamState.Shape, hph, append_nil] at hsh
    obtain ⟨hw, hf⟩ := hsh
    refine h.of_same ?_ ⟨hw, ?_⟩ h.sound rfl rfl h.size (by simp)
    · simpa only [expected, hf] using ht
    · simp [hf]
  · obtain rfl := Option.some.inj hst
    exact h.closeWorker hph
  · exact h.awaitFinished hph hst
  · cases hst

theorem Consistent.step (h : stream.Consistent system) (hs : stream.Step system system') :
    stream.Consistent system' := by
  cases hs with
  | main step => exact h.mainStep step
  | work listening queued handles => exact h.work listening queued handles
  | panic listening => exact h.panic listening
  | announce gone silent => exact h.announce gone silent

variable (stream) in
/-- Nothing is queued or waited for at the start. -/
theorem Consistent.initial (workerAlive : Fin n → Bool) (opened : Fin n → Option Nat)
    (hid : Expects (poolReading n) queues (fun _ => [])) :
    stream.Consistent (ReadStream.initial workerAlive queues opened) := by
  refine ⟨?_, ⟨?_, rfl, rfl, rfl, rfl⟩, ⟨?_, ?_⟩, stream.window_start, ?_, ?_, ?_⟩
  · exact hid
  · exact nodup_finRange n
  · intro worker command hm
    rw [show (ReadStream.initial workerAlive queues opened).queues = queues from rfl,
      (hid.idle rfl).1] at hm
    cases hm
  · intro event hm
    have hn := (hid.idle rfl).2 event hm rfl
    cases event with
    | stopped worker => trivial
    | started streamId worker result => cases hn
    | chunk streamId worker index offset result => cases hn
    | finished streamId worker result => cases hn
  · intro size hs
    cases hs
  · rintro (hr | hd)
    · cases hr
    · cases hd
  · intro index hi
    cases hi

end Main

end ReadStream

end Vnfs.Nfs
