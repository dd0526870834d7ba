import Vnfs.Sync.StreamOrder

/-!
What the callback gets. Files are delivered in order, each one from its beginning
and, unless the run ends there, to its end. Streaming in cohorts gives this, and the
result of streaming one after another, except where the prefetch of a later cohort
hits a refused READ behind the first file of that cohort.
-/

namespace Vnfs.Sync

open List

/-- Chunks that follow one another from an offset on. -/
def Contiguous : Nat → List Chunk → Prop
  | _, [] => True
  | offset, chunk :: rest =>
    chunk.offset = offset ∧ chunk.data ≠ [] ∧ Contiguous (offset + chunk.data.length) rest

def bytesOf (chunks : List Chunk) : Bytes := chunks.flatMap Chunk.data

structure DeliveredOf (index : Nat) (file : StreamFile) (chunks : List Chunk) : Prop where
  numbered : ∀ chunk ∈ chunks, chunk.index = index
  contiguous : Contiguous 0 chunks
  contents : bytesOf chunks = file.contents.take (bytesOf chunks).length

/-- The chunks and completions of a run over files, the first of which has a number:
whole files, and behind them part of one. -/
inductive Delivered {P : Type} (files : P → StreamFile) :
    Nat → List P → List Chunk → List StreamCompletion → Prop
  | start (index : Nat) (paths : List P) : Delivered files index paths [] []
  | midway {index : Nat} {path : P} {chunks : List Chunk} (rest : List P)
      (some : DeliveredOf index (files path) chunks) :
      Delivered files index (path :: rest) chunks []
  | stopped {index : Nat} {path : P} {chunks : List Chunk} (rest : List P)
      (some : DeliveredOf index (files path) chunks) :
      Delivered files index (path :: rest) chunks [.stopped (bytesOf chunks).length]
  | complete {index : Nat} {path : P} {chunks more : List Chunk} {rest : List P}
      {output : List StreamCompletion} (all : DeliveredOf index (files path) chunks)
      (whole : bytesOf chunks = (files path).contents)
      (others : Delivered files (index + 1) rest more output) :
      Delivered files index (path :: rest) (chunks ++ more) (.complete :: output)

theorem contiguous_concat {offset : Nat} {chunks : List Chunk} {chunk : Chunk}
    (h : Contiguous offset chunks) (ho : chunk.offset = offset + (bytesOf chunks).length)
    (hd : chunk.data ≠ []) : Contiguous offset (chunks ++ [chunk]) := by
  induction chunks generalizing offset with
  | nil => exact ⟨ho, hd, trivial⟩
  | cons first chunks ih =>
    obtain ⟨hf, hne, hr⟩ := h
    refine ⟨hf, hne, ih hr ?_⟩
    rw [ho, bytesOf, flatMap_cons, length_append, Nat.add_assoc]
    rfl

theorem StreamFile.take_piece (file : StreamFile) (length offset : Nat) :
    file.contents.take offset ++ file.piece length offset =
      file.contents.take (offset + (file.piece length offset).length) := by
  have hpc : file.piece length offset =
      (file.contents.drop offset).take (file.piece length offset).length := by
    rw [piece, length_take, take_eq_take_iff]
    simp
  rw [take_add, ← hpc]

section Solo

variable {options : StreamOptions} {callback : StreamCallback} {file : StreamFile} {index : Nat}

/-- What the loop over a file has delivered when it stands at an offset. -/
structure DeliveredTo (file : StreamFile) (index : Nat) (before : List Chunk) (offset : Nat)
    (delivered : List Chunk) : Prop where
  within : offset ≤ file.contents.length
  chunks : ∃ chunks, delivered = before ++ chunks ∧ DeliveredOf index file chunks ∧
    (bytesOf chunks).length = offset

theorem DeliveredTo.callBack {before delivered delivered' : List Chunk} {offset : Nat}
    {answer : VfResult Bool} (h : DeliveredTo file index before offset delivered)
    (hca : callBack callback ⟨index, offset, file.piece options.chunkSize offset⟩ delivered =
      (delivered', answer)) :
    DeliveredTo file index before (offset + (file.piece options.chunkSize offset).length)
      delivered' := by
  obtain ⟨hin, chunks, rfl, hof, hl⟩ := h
  refine ⟨file.piece_within _ hin, ?_⟩
  rw [Sync.callBack] at hca
  split at hca
  · rename_i he
    obtain ⟨rfl, -⟩ := Prod.mk.inj hca
    have hn : file.piece options.chunkSize offset = [] := List.isEmpty_iff.mp he
    exact ⟨chunks, rfl, hof, by rw [hn, hl]; rfl⟩
  rename_i hne
  obtain ⟨rfl, -⟩ := Prod.mk.inj hca
  have hd : file.piece options.chunkSize offset ≠ [] := by simpa using hne
  have hb : bytesOf (chunks ++ [⟨index, offset, file.piece options.chunkSize offset⟩]) =
      bytesOf chunks ++ file.piece options.chunkSize offset := by
    simp [bytesOf]
  have hs : (bytesOf (chunks ++ [⟨index, offset, file.piece options.chunkSize offset⟩])).length =
      offset + (file.piece options.chunkSize offset).length := by
    rw [hb, length_append, hl]
  refine ⟨chunks ++ [⟨index, offset, file.piece options.chunkSize offset⟩],
    append_assoc _ _ _, ⟨?_, ?_, ?_⟩, hs⟩
  · intro chunk hc
    rcases mem_append.mp hc with hold | hnew
    · exact hof.numbered chunk hold
    · rw [mem_singleton.mp hnew]
  · apply contiguous_concat hof.contiguous _ hd
    rw [hl, Nat.zero_add]
  · rw [hs, ← file.take_piece, hb, hof.contents, hl]

/-- The outcome of a file fits what was delivered of it. -/
def Ended (file : StreamFile) (chunks : List Chunk) : FileOutcome → Prop
  | .complete => bytesOf chunks = file.contents
  | .stopped next => next = (bytesOf chunks).length
  | .failed _ => True

variable (options callback) in
theorem stream_delivered (file : StreamFile) (index : Nat) (before : List Chunk) :
    ∃ chunks, (file.stream options callback index before).1 = before ++ chunks ∧
      DeliveredOf index file chunks ∧
      Ended file chunks (file.stream options callback index before).2 := by
  apply Loop.run_invariant (soloBody options callback file index)
    (P := fun s => DeliveredTo file index before s.1 s.2)
    (Q := fun r => ∃ chunks, r.1 = before ++ chunks ∧ DeliveredOf index file chunks ∧
      Ended file chunks r.2)
  · intro s s' hs hst
    obtain ⟨-, -, hn, hc⟩ := soloStep_inl options callback hst
    rw [hn]
    exact hs.callBack hc
  · rintro ⟨offset, delivered⟩ r hs hst
    change soloStep options callback file index (offset, delivered) = .inr r at hst
    rw [soloStep] at hst
    dsimp only at hst
    split at hst
    · cases hst
      obtain ⟨-, chunks, rfl, hof, -⟩ := hs
      exact ⟨chunks, rfl, hof, trivial⟩
    split at hst
    · rename_i hc
      cases hst
      obtain ⟨-, chunks, rfl, hof, -⟩ := hs.callBack hc
      exact ⟨chunks, rfl, hof, trivial⟩
    · rename_i hc
      cases hst
      obtain ⟨-, chunks, rfl, hof, hl⟩ := hs.callBack hc
      exact ⟨chunks, rfl, hof, hl.symm⟩
    rename_i hc
    split at hst
    · rename_i he
      cases hst
      obtain ⟨-, chunks, rfl, hof, hl⟩ := hs.callBack hc
      refine ⟨chunks, rfl, hof, ?_⟩
      have hle : file.contents.length ≤ offset + (file.piece options.chunkSize offset).length := by
        rw [StreamFile.atEnd, Bool.and_eq_true, decide_eq_true_eq] at he
        exact he.1
      change bytesOf chunks = file.contents
      rw [hof.contents, hl, take_of_length_le hle]
    · cases hst
  · exact ⟨Nat.zero_le _, [], (append_nil _).symm, ⟨by simp, trivial, by simp [bytesOf]⟩, rfl⟩

end Solo

section Run

variable {P : Type} (options : StreamOptions) (callback : StreamCallback) (files : P → StreamFile)

theorem sequential_delivered (index : Nat) (paths : List P) (s : Progress) : ∃ more output,
      (sequential options callback files index paths s).1 =
        ⟨s.delivered ++ more, s.output ++ output⟩ ∧
      Delivered files index paths more output := by
  induction paths generalizing index s with
  | nil => exact ⟨[], [], by simp [sequential], .start index []⟩
  | cons path rest ih =>
    rw [sequential]
    cases (files path).openRefusal with
    | some failure => exact ⟨[], [], by simp, .start index _⟩
    | none =>
      obtain ⟨chunks, hc, hof, he⟩ :=
        stream_delivered options callback (files path) index s.delivered
      generalize (files path).stream options callback index s.delivered = r at hc he
      obtain ⟨delivered, _ | next | error⟩ := r <;> obtain rfl : delivered = _ := hc
      · obtain ⟨more, output, hr, hm⟩ :=
          ih (index + 1) ⟨s.delivered ++ chunks, s.output ++ [.complete]⟩
        refine ⟨chunks ++ more, .complete :: output, ?_, .complete hof he hm⟩
        change (sequential options callback files (index + 1) rest _).1 = _
        rw [hr, append_assoc, append_assoc]
        rfl
      · refine ⟨chunks, [.stopped next], rfl, ?_⟩
        obtain rfl : next = _ := he
        exact .stopped rest hof
      · exact ⟨chunks, [], by simp [Progress.finish, goOn], .midway rest hof⟩

variable {options callback files} (number : Nat → Nat)

theorem sequentialAs_progress (index : Nat) (paths : List P) (s : Progress) :
    (sequentialAs options callback files number index paths s).1 =
      (sequential options callback files index paths s).1 := by
  induction paths generalizing index s with
  | nil => rfl
  | cons path rest ih =>
    rw [sequentialAs, sequential]
    cases (files path).openRefusal with
    | some failure => rfl
    | none =>
      cases hr : (files path).readRefusal 0 with
      | some failure =>
        rw [stream_of_refused hr]
        rfl
      | none =>
        obtain ⟨s', _ | _ | _⟩ := s.finish ((files path).stream options callback index s.delivered)
        · rfl
        · exact ih (index + 1) s'
        · rfl

variable {index : Nat} {paths : List P} {s s' : Progress}

theorem sequentialAs_of_ok (h : sequential options callback files index paths s = (s', .ok false)) :
    sequentialAs options callback files number index paths s = (s', .ok false) := by
  induction paths generalizing index s with
  | nil => exact h
  | cons path rest ih =>
    rw [sequential] at h
    rw [sequentialAs]
    cases ho : (files path).openRefusal with
    | some failure =>
      rw [ho] at h
      cases h
    | none =>
      rw [ho] at h
      cases hr : (files path).readRefusal 0 with
      | some failure =>
        rw [stream_of_refused hr] at h
        cases h
      | none =>
        generalize s.finish ((files path).stream options callback index s.delivered) = r at h ⊢
        obtain ⟨t, _ | _ | _⟩ := r
        · cases h
        · exact ih h
        · cases h

variable (options callback files) in
/-- The run comes to a file whose first READ is refused, and that file is neither in
the first cohort nor the first of its own. -/
def PrefetchRefused (capacity : Nat) (paths : List P) : Prop :=
  ∃ front path rest failure s, paths = front ++ path :: rest ∧
    sequential options callback files 0 front ⟨[], []⟩ = (s, .ok false) ∧
    (files path).openRefusal = none ∧ (files path).readRefusal 0 = some failure ∧
    capacity ≤ front.length ∧ front.length % capacity ≠ 0

theorem sequentialAs_refused (rest : List P) {front : List P} {path : P} {failure : FileFailure}
    (hfr : sequential options callback files index front s = (s', .ok false))
    (ho : (files path).openRefusal = none) (hr : (files path).readRefusal 0 = some failure) :
    sequentialAs options callback files number index (front ++ path :: rest) s =
      (s', .error (failure.error (number (index + front.length)))) := by
  rw [sequentialAs_append, sequentialAs_of_ok number hfr]
  change sequentialAs options callback files number (index + front.length) (path :: rest) s' = _
  rw [sequentialAs, ho, hr]

variable (options callback files) in
/-- The run ends at a refused first READ, or the numbers do not matter. -/
theorem sequentialAs_cases (index : Nat) (paths : List P) (s : Progress) :
    sequentialAs options callback files number index paths s =
        sequential options callback files index paths s ∨
      ∃ front path rest failure s', paths = front ++ path :: rest ∧
        sequential options callback files index front s = (s', .ok false) ∧
        (files path).openRefusal = none ∧ (files path).readRefusal 0 = some failure := by
  induction paths generalizing index s with
  | nil => exact .inl rfl
  | cons path rest ih =>
    cases ho : (files path).openRefusal with
    | some failure =>
      left
      rw [sequentialAs, sequential, ho]
    | none =>
      cases hr : (files path).readRefusal 0 with
      | some failure => exact .inr ⟨[], path, rest, failure, s, rfl, rfl, ho, hr⟩
      | none =>
        rw [sequentialAs, sequential, ho, hr]
        cases hf : s.finish ((files path).stream options callback index s.delivered) with
        | mk t result =>
        obtain _ | _ | _ := result
        · exact .inl rfl
        · obtain heq | ⟨front, x, rest, failure, s', rfl, hfr, hx⟩ := ih (index + 1) t
          · exact .inl heq
          refine .inr ⟨path :: front, x, rest, failure, s', rfl, ?_, hx⟩
          rw [sequential, ho]
          rw [hf]
          exact hfr
        · exact .inl rfl

theorem reportedNumber_eq_iff {capacity : Nat} (hc : 0 < capacity) :
    reportedNumber capacity index = index ↔ ¬ (capacity ≤ index ∧ index % capacity ≠ 0) := by
  have hm := Nat.mod_lt index hc
  rw [reportedNumber]
  split
  · simp [*]
  constructor
  · intro h
    omega
  · intro h
    exact Nat.mod_eq_of_lt (by omega)

/-- Streaming in cohorts gives what streaming one after another gives: the same
callbacks and the same result; files come in order, each whole and once; and what was
opened is closed. -/
structure StreamedInOrder (options : StreamOptions) (callback : StreamCallback)
    (files : P → StreamFile) (paths : List P)
    (run : StreamState P × VfResult (List StreamCompletion)) : Prop where
  progress : run.1.progress = (sequential options callback files 0 paths ⟨[], []⟩).1
  result : run.2 = (sequential options callback files 0 paths ⟨[], []⟩).2.map fun _ =>
    run.1.progress.output
  delivered : Delivered files 0 paths run.1.progress.delivered run.1.progress.output
  closed : run.1.closed = run.1.opened

theorem streamCohorts_eq (maxReadBytes : Nat)
    (hcl : ∀ k path, paths[k]? = some path → (files path).closeRefusal.isSome →
      (sequential options callback files 0 paths ⟨[], []⟩).1.output.length ≤ k) :
    ∃ handles, streamCohorts (fileBackend files maxReadBytes) options callback paths =
      (⟨(sequential options callback files 0 paths ⟨[], []⟩).1, handles, handles⟩,
        (sequentialAs options callback files
          (reportedNumber (cohortCapacity (fileBackend files maxReadBytes) options)) 0 paths
            ⟨[], []⟩).2.map
          fun _ => (sequential options callback files 0 paths ⟨[], []⟩).1.output) := by
  set capacity := cohortCapacity (fileBackend files maxReadBytes) options with hc
  have hpo : 0 < capacity := Nat.lt_of_lt_of_le Nat.one_pos (Nat.le_max_left _ _)
  have hb : (StreamState.mk (H := P) ⟨[], []⟩ [] []).progress.output.length = 0 * capacity := by
    simp
  have hbe : ∀ k path, paths[k]? = some path → (files path).closeRefusal.isSome →
      (sequentialAs options callback files (reportedNumber capacity) (0 * capacity) paths
        ⟨[], []⟩).1.output.length ≤ 0 * capacity + k := by
    intro k path hp hre
    rw [sequentialAs_progress, Nat.zero_mul, Nat.zero_add]
    exact hcl k path hp hre
  obtain ⟨handles, hr⟩ := streamCohortsFrom_eq maxReadBytes hpo hb hbe rfl
  refine ⟨handles, ?_⟩
  rw [Nat.zero_mul, sequentialAs_progress] at hr
  rw [streamCohorts, ← hc, hr]

/-- Streaming in cohorts is streaming one after another exactly if no prefetch of a
later cohort is refused behind its first file. Only files that the callback has not
seen may refuse to be closed. -/
theorem streamCohorts_sequential_iff (options : StreamOptions) (callback : StreamCallback)
    (files : P → StreamFile) (maxReadBytes : Nat) (paths : List P)
    (hclose : ∀ k path, paths[k]? = some path → (files path).closeRefusal.isSome →
      (sequential options callback files 0 paths ⟨[], []⟩).1.output.length ≤ k) :
    StreamedInOrder options callback files paths
        (streamCohorts (fileBackend files maxReadBytes) options callback paths) ↔
      ¬ PrefetchRefused options callback files
        (cohortCapacity (fileBackend files maxReadBytes) options) paths := by
  obtain ⟨handles, hrun⟩ := streamCohorts_eq maxReadBytes hclose
  have hpos : 0 < cohortCapacity (fileBackend files maxReadBytes) options :=
    Nat.lt_of_lt_of_le Nat.one_pos (Nat.le_max_left _ _)
  rw [hrun]
  constructor
  · rintro ⟨-, hresult, -, -⟩ ⟨front, path, rest, failure, s, rfl, hfront, hopen, hread, hindex⟩
    have hsequential := sequentialAs_refused id rest hfront hopen hread
    rw [sequentialAs_id] at hsequential
    rw [sequentialAs_refused _ rest hfront hopen hread, hsequential] at hresult
    have hnumber : reportedNumber (cohortCapacity (fileBackend files maxReadBytes) options)
        front.length = front.length := by
      simpa [Except.map, FileFailure.error] using hresult
    exact (reportedNumber_eq_iff hpos).mp hnumber hindex
  intro hnot
  obtain ⟨more, output, hprogress, hdelivered⟩ :=
    sequential_delivered options callback files 0 paths ⟨[], []⟩
  refine ⟨rfl, ?_, ?_, rfl⟩
  · obtain heq | ⟨front, path, rest, failure, s, rfl, hfront, hopen, hread⟩ :=
      sequentialAs_cases options callback files
        (reportedNumber (cohortCapacity (fileBackend files maxReadBytes) options)) 0 paths
        ⟨[], []⟩
    · rw [heq]
    have hsame : reportedNumber (cohortCapacity (fileBackend files maxReadBytes) options)
        front.length = front.length :=
      (reportedNumber_eq_iff hpos).mpr fun hindex =>
        hnot ⟨front, path, rest, failure, s, rfl, hfront, hopen, hread, hindex⟩
    have hsequential := sequentialAs_refused id rest hfront hopen hread
    rw [sequentialAs_id] at hsequential
    rw [sequentialAs_refused _ rest hfront hopen hread, hsequential]
    simp [hsame]
  · dsimp only
    rw [hprogress]
    exact hdelivered

end Run

/-- An empty file, whose READs may be refused. -/
def emptyFile (refusal : Option FileFailure) : StreamFile where
  contents := []
  sized := Nat.zero_le _
  openRefusal := none
  readRefusal _ := refusal
  closeRefusal := none
  served _ := 0
  eager _ := true

def ioFailure : FileFailure := ⟨.status (.errno VfError.errIo), none, rfl⟩

/-- Files of which only the last one refuses its READs. -/
def lastRefused (last path : Nat) : StreamFile :=
  emptyFile (if path = last then some ioFailure else none)

theorem lastRefused_closes (last path : Nat) : (lastRefused last path).closeRefusal = none := rfl

theorem stream_emptyFile (options : StreamOptions) (callback : StreamCallback) (index : Nat)
    (delivered : List Chunk) :
    (emptyFile none).stream options callback index delivered = (delivered, .complete) := by
  apply Loop.run_of_inr
  simp [soloBody, soloStep, emptyFile, StreamFile.piece, StreamFile.atEnd, callBack]

theorem sequentialAs_lastRefused (options : StreamOptions) (callback : StreamCallback)
    (number : Nat → Nat) :
    (sequentialAs options callback (lastRefused 3) number 0 [0, 1, 2, 3] ⟨[], []⟩).2 =
      .error (ioFailure.error (number 3)) := by
  have ho : ∀ refusal, (emptyFile refusal).openRefusal = none := fun _ => rfl
  have hr : ∀ refusal, (emptyFile refusal).readRefusal 0 = refusal := fun _ => rfl
  simp [sequentialAs, lastRefused, stream_emptyFile, Progress.finish, goOn, ho, hr]

/-- Four empty files in cohorts of two: the refused READ of the last one is reported
for the second one. -/
theorem streamCohorts_reports_second :
    (streamCohorts (fileBackend (lastRefused 3) 2) ⟨1, Nat.one_pos⟩ (fun _ _ => .ok false)
        [0, 1, 2, 3]).2 = .error (ioFailure.error 1) ∧
      (sequential ⟨1, Nat.one_pos⟩ (fun _ _ => .ok false) (lastRefused 3) 0 [0, 1, 2, 3]
        ⟨[], []⟩).2 = .error (ioFailure.error 3) := by
  constructor
  · have hclose : ∀ k path, [0, 1, 2, 3][k]? = some path →
        (lastRefused 3 path).closeRefusal.isSome →
        (sequential ⟨1, Nat.one_pos⟩ (fun _ _ => .ok false) (lastRefused 3) 0 [0, 1, 2, 3]
          ⟨[], []⟩).1.output.length ≤ k := by
      simp [lastRefused_closes]
    obtain ⟨handles, hrun⟩ := streamCohorts_eq 2 hclose
    rw [hrun, sequentialAs_lastRefused]
    rfl
  · rw [← sequentialAs_id, sequentialAs_lastRefused]
    rfl

/-- The refused READ of the first file of the second cohort is reported as such. -/
theorem streamCohorts_sequential_third :
    StreamedInOrder ⟨1, Nat.one_pos⟩ (fun _ _ => .ok false) (lastRefused 2) [0, 1, 2]
      (streamCohorts (fileBackend (lastRefused 2) 2) ⟨1, Nat.one_pos⟩ (fun _ _ => .ok false)
        [0, 1, 2]) := by
  apply (streamCohorts_sequential_iff _ _ _ _ _ (by simp [lastRefused_closes])).mpr
  rintro ⟨front, path, rest, failure, s, hpaths, -, -, -, hle, hmod⟩
  have hlength := congrArg List.length hpaths
  have hcapacity : cohortCapacity (fileBackend (lastRefused 2) 2) ⟨1, Nat.one_pos⟩ = 2 := rfl
  rw [hcapacity] at hle hmod
  rw [length_append, length_cons, length_cons, length_cons, length_cons,
    length_nil] at hlength
  omega

end Vnfs.Sync
