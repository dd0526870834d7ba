import Vnfs.Sync.StreamCohorts

/-!
Streaming in cohorts against streaming the files one after another. The opened
files and the prefetched ones are each a front part of the cohort; behind them
stands the file that was refused. So a cohort delivers what the files before the
refused one give in turn, and then reports the refusal.
-/

namespace Vnfs.Sync

open List StreamFile Loop

section Front

variable {α β : Type} {answer : α → Except FileFailure β} {value : α → β}
  {x : α} {failure : FileFailure} {items : List α} {T : Type}
  {execute : Nat → VfResult (List T)} {count : Nat}

theorem answerAt_ok {y : β} (h : answer x = .ok y) (index : Nat) :
    answerAt answer index x = .ok y := by
  rw [answerAt, h]

theorem answerAt_error (h : answer x = .error failure) (index : Nat) :
    answerAt answer index x = .error (failure.error index) := by
  rw [answerAt, h]

theorem forEach_answered (hok : ∀ x ∈ items, answer x = .ok (value x)) (index : Nat) :
    forEach (answerAt answer) index items = .ok (items.map value) := by
  induction items generalizing index with
  | nil => rfl
  | cons x items ih =>
    have hx := answerAt_ok (hok x mem_cons_self) index
    have hr := ih (fun y hy => hok y (mem_cons_of_mem _ hy)) (index + 1)
    rw [forEach, hx, hr]
    rfl

theorem forEach_refused (hok : ∀ x ∈ items, answer x = .ok (value x))
    (hx : answer x = .error failure) (rest : List α) (index : Nat) :
    forEach (answerAt answer) index (items ++ x :: rest) =
      .error (failure.error (index + items.length)) := by
  induction items generalizing index with
  | nil =>
    rw [nil_append, forEach, answerAt_error hx]
    rfl
  | cons y items ih =>
    have hy := answerAt_ok (hok y mem_cons_self) index
    have hr := ih (fun z hz => hok z (mem_cons_of_mem _ hz)) (index + 1)
    rw [cons_append, forEach, hy, hr, length_cons, Nat.add_assoc, Nat.add_comm 1]
    rfl

theorem answerEach_answered (hok : ∀ x ∈ items, answer x = .ok (value x)) :
    answerEach answer items = .ok (items.map value) :=
  forEach_answered hok 0

theorem answerEach_refused (hok : ∀ x ∈ items, answer x = .ok (value x))
    (hx : answer x = .error failure) (rest : List α) :
    answerEach answer (items ++ x :: rest) = .error (failure.error items.length) := by
  have h := forEach_refused hok hx rest 0
  rwa [Nat.zero_add] at h

/-- The answered items stand in front of the first refused one, if there is one. -/
theorem answered_or_refused (hv : ∀ x y, answer x = .ok y → y = value x) (items : List α) :
    (∀ x ∈ items, answer x = .ok (value x)) ∨ ∃ front x rest failure, items = front ++ x :: rest ∧
        (∀ x ∈ front, answer x = .ok (value x)) ∧ answer x = .error failure := by
  induction items with
  | nil => exact .inl (by simp)
  | cons x items ih =>
    cases hx : answer x with
    | error failure => exact .inr ⟨[], x, items, failure, rfl, by simp, hx⟩
    | ok y =>
      have hy : answer x = .ok (value x) := by rw [← hv x y hx, hx]
      obtain ha | ⟨front, z, rest, failure, rfl, hfr, hz⟩ := ih
      · exact .inl (forall_mem_cons.mpr ⟨hy, ha⟩)
      · exact .inr ⟨x :: front, z, rest, failure, rfl, forall_mem_cons.mpr ⟨hy, hfr⟩, hz⟩

theorem readOnlyPrefix_ok {values : List T} (h : execute count = .ok values)
    (hl : values.length = count) (deferred : Option VfError) :
    readOnlyPrefix execute count deferred = .ok (values, deferred) := by
  rw [readOnlyPrefix, h]
  simp [hl]

theorem readOnlyPrefix_deferred {index : Nat} (h : execute count = .error (failure.error index))
    (hp : 0 < index) (hlt : index < count) (deferred : Option VfError) :
    readOnlyPrefix execute count deferred =
      readOnlyPrefix execute index (some (failure.error index)) := by
  have hr : (failure.error index).isTransport = false ∧ 0 < index ∧ index < count :=
    ⟨failure.error_isTransport index, hp, hlt⟩
  rw [readOnlyPrefix, h]
  change (if _h : (failure.error index).isTransport = false ∧ 0 < index ∧ index < count then
    readOnlyPrefix execute index (some (failure.error index)) else _) = _
  rw [dif_pos hr]

theorem readOnlyPrefix_first (h : execute count = .error (failure.error 0)) (hp : 0 < count)
    (deferred : Option VfError) :
    readOnlyPrefix execute count deferred = .error (failure.error 0) := by
  rw [readOnlyPrefix, h]
  have hn : ¬ 0 ≥ count := Nat.not_le.mpr hp
  simp [FileFailure.error, hn]

theorem readOnlyPrefix_answered (hok : ∀ x ∈ items, answer x = .ok (value x)) :
    readOnlyPrefix (fun count => answerEach answer (items.take count)) items.length none =
      .ok (items.map value, none) := by
  apply readOnlyPrefix_ok
  · rw [take_length]
    exact answerEach_answered hok
  · exact length_map _

theorem readOnlyPrefix_refused (hok : ∀ x ∈ items, answer x = .ok (value x))
    (hx : answer x = .error failure) (hi : items ≠ []) (rest : List α) :
    readOnlyPrefix (fun count => answerEach answer ((items ++ x :: rest).take count))
      (items ++ x :: rest).length none =
      .ok (items.map value, some (failure.error items.length)) := by
  have hp : 0 < items.length := length_pos_iff.mpr hi
  have hlt : items.length < (items ++ x :: rest).length := by simp
  have hr : answerEach answer ((items ++ x :: rest).take (items ++ x :: rest).length) =
      .error (failure.error items.length) := by
    rw [take_length]
    exact answerEach_refused hok hx rest
  rw [readOnlyPrefix_deferred hr hp hlt]
  apply readOnlyPrefix_ok
  · rw [take_left]
    exact answerEach_answered hok
  · exact length_map _

theorem readOnlyPrefix_refused_first (hx : answer x = .error failure) (rest : List α) :
    readOnlyPrefix (fun count => answerEach answer ((x :: rest).take count))
      (x :: rest).length none = .error (failure.error 0) := by
  apply readOnlyPrefix_first
  · rw [take_length]
    rw [answerEach, forEach, answerAt_error hx]
    rfl
  · simp

end Front

section OneFile

variable {P : Type} {options : StreamOptions} {callback : StreamCallback} {files : P → StreamFile}
  {maxReadBytes : Nat}

/-- The answer to the READ of a range that the file has not refused. -/
def StreamFile.readResult (file : StreamFile) (length offset : Nat) : StreamRead :=
  ⟨offset, some (file.piece length offset), file.atEnd length offset⟩

variable {file : StreamFile} {offset : Nat} {path : P} {s : Nat × List Chunk} {index : Nat}

theorem StreamFile.readAt_of_none (h : file.readRefusal offset = none) (length : Nat) :
    file.readAt length offset = .ok (file.readResult length offset) := by
  rw [readAt, h]
  rfl

theorem StreamFile.readAt_of_some {failure : FileFailure}
    (h : file.readRefusal offset = some failure) (length : Nat) :
    file.readAt length offset = .error failure := by
  rw [readAt, h]

theorem fileBackend_vread_one (path : P) (offset length : Nat) :
    (fileBackend files maxReadBytes).vread [(path, offset, length)] =
      match (files path).readRefusal offset with
      | some failure => .error (failure.error 0)
      | none => .ok [(files path).readResult length offset] := by
  change answerEach _ _ = _
  cases h : (files path).readRefusal offset with
  | none =>
    have hr : readRange files (path, offset, length) =
        .ok ((files path).readResult length offset) := readAt_of_none h length
    rw [answerEach, forEach, answerAt_ok hr]
    rfl
  | some failure =>
    have hr : readRange files (path, offset, length) = .error failure := readAt_of_some h length
    rw [answerEach, forEach, answerAt_error hr]
    rfl

/-- The state of the client's loop where the file is read at an offset. -/
def StreamFile.stateAt (file : StreamFile) (options : StreamOptions) (s : Nat × List Chunk) :
    FileState :=
  ⟨s.1, file.readResult options.chunkSize s.1, s.2⟩

variable (options callback maxReadBytes) in
/-- A round of the client's loop is a round of reading the file on its own; it also
makes the next request, and so ends with the round in which that is refused. -/
theorem fileStep_eq (index : Nat) (hr : (files path).readRefusal s.1 = none)
    (hs : s.1 ≤ (files path).contents.length) :
    fileStep (fileBackend files maxReadBytes) options callback index path
        ((files path).stateAt options s) =
      match soloStep options callback (files path) index s with
      | .inr r => .inr r
      | .inl next =>
        match (files path).readRefusal next.1 with
        | some failure => .inr (next.2, .failed (failure.error index))
        | none => .inl ((files path).stateAt options next) := by
  obtain ⟨offset, delivered⟩ := s
  set file := files path with hf
  have hsh := file.piece_length_le options.positive offset
  have hin := file.piece_within options.chunkSize hs
  have hsu : checkedAdd offset (file.piece options.chunkSize offset).length =
      some (offset + (file.piece options.chunkSize offset).length) :=
    if_pos (hin.trans file.sized)
  have hv : ¬ (offset ≠ offset ∨ options.chunkSize < (file.piece options.chunkSize offset).length ∨
      ((file.piece options.chunkSize offset).isEmpty ∧
        file.atEnd options.chunkSize offset = false)) := by
    rintro (h | h | ⟨hem, he⟩)
    · exact h rfl
    · omega
    · rw [file.atEnd_of_isEmpty hem] at he
      cases he
  rw [stateAt, readResult, fileStep, soloStep]
  dsimp only at hr ⊢
  rw [if_neg hv, hsu, hr]
  dsimp only
  split
  · rfl
  · rfl
  by_cases he : file.atEnd options.chunkSize offset = true
  · rw [if_pos he, if_pos he]
  rw [if_neg he, if_neg he, fileBackend_vread_one, ← hf]
  cases hn : file.readRefusal (offset + (file.piece options.chunkSize offset).length) with
  | none => simp only [hn]; rfl
  | some failure => simp only [hn]; rfl

theorem soloStep_within {s' : Nat × List Chunk}
    (h : soloStep options callback file index s = .inl s') (hs : s.1 ≤ file.contents.length) :
    s'.1 ≤ file.contents.length := by
  obtain ⟨-, -, hn, -⟩ := soloStep_inl options callback h
  rw [hn]
  exact file.piece_within _ hs

theorem fileRun_eq (hre : (files path).readRefusal s.1 = none)
    (hs : s.1 ≤ (files path).contents.length) :
    run (fileBody (fileBackend files maxReadBytes) options callback index path)
        ((files path).stateAt options s) =
      run (soloBody options callback (files path) index) s := by
  -- By induction on the rounds of the file on its own: the client's loop is one
  -- request ahead of them.
  induction s using run.induct (soloBody options callback (files path) index) with
  | case1 s next hst ih =>
    have hr := fileStep_eq options callback maxReadBytes index hre hs
    rw [show soloStep options callback (files path) index s = .inl next from hst] at hr
    rw [run_of_inl _ hst]
    cases hn : (files path).readRefusal next.1 with
    | none =>
      simp only [hn] at hr
      rw [run_of_inl _ hr]
      exact ih hn (soloStep_within hst hs)
    | some failure =>
      simp only [hn] at hr
      rw [run_of_inr _ hr]
      symm
      apply run_of_inr
      change soloStep options callback (files path) index next = _
      rw [soloStep, hn]
  | case2 s r hst =>
    have hr := fileStep_eq options callback maxReadBytes index hre hs
    rw [show soloStep options callback (files path) index s = .inr r from hst] at hr
    rw [run_of_inr _ hst]
    exact run_of_inr _ hr

theorem streamFile_eq (hr : (files path).readRefusal 0 = none) (index : Nat)
    (delivered : List Chunk) :
    streamFile (fileBackend files maxReadBytes) options callback index path
        ((files path).readResult options.chunkSize 0) delivered =
      (files path).stream options callback index delivered := by
  have hst : (0, delivered).1 ≤ (files path).contents.length := Nat.zero_le _
  exact fileRun_eq hr hst

end OneFile

section Cohort

variable {P : Type} (options : StreamOptions) (callback : StreamCallback) (files : P → StreamFile)

/-- Streaming one after another, with a number of its own for the error of a refused
first READ. -/
def sequentialAs (number : Nat → Nat) : Nat → List P → Progress → Progress × VfResult Bool
  | _, [], s => (s, .ok false)
  | index, path :: rest, s =>
    match (files path).openRefusal, (files path).readRefusal 0 with
    | some failure, _ => (s, .error (failure.error index))
    | none, some failure => (s, .error (failure.error (number index)))
    | none, none =>
      goOn (sequentialAs number (index + 1) rest)
        (s.finish ((files path).stream options callback index s.delivered))

/-- The file is opened and its first chunk read. -/
structure Ready (path : P) : Prop where
  opened : (files path).openRefusal = none
  read : (files path).readRefusal 0 = none

variable {options callback files} {number : Nat → Nat}

theorem goOn_goOn {σ : Type} (f g : σ → σ × VfResult Bool) (r : σ × VfResult Bool) :
    goOn (fun s => goOn g (f s)) r = goOn g (goOn f r) := by
  obtain ⟨s, _ | _ | _⟩ := r <;> rfl

variable {failure : FileFailure} {path : P} {front : List P} {α β : Type} {opened : List P}
  {base : Nat} {paths : List P} {st : StreamState P}

theorem stream_of_refused {file : StreamFile} (h : file.readRefusal 0 = some failure) (index : Nat)
    (delivered : List Chunk) :
    file.stream options callback index delivered = (delivered, .failed (failure.error index)) := by
  apply run_of_inr
  change soloStep options callback file index (0, delivered) = _
  rw [soloStep, h]

theorem sequentialAs_id (index : Nat) (paths : List P) (s : Progress) :
    sequentialAs options callback files id index paths s =
      sequential options callback files index paths s := by
  induction paths generalizing index s with
  | nil => rfl
  | cons path rest ih =>
    rw [sequentialAs, sequential]
    cases ho : (files path).openRefusal with
    | some failure => rfl
    | none =>
      cases hr : (files path).readRefusal 0 with
      | some failure =>
        rw [stream_of_refused hr]
        rfl
      | none =>
        have hn : sequentialAs options callback files id (index + 1) rest =
            sequential options callback files (index + 1) rest :=
          funext (ih (index + 1))
        rw [hn]

theorem sequentialAs_ready (h : Ready files path) (index : Nat) (rest : List P) (s : Progress) :
    sequentialAs options callback files number index (path :: rest) s =
      goOn (sequentialAs options callback files number (index + 1) rest)
        (s.finish ((files path).stream options callback index s.delivered)) := by
  rw [sequentialAs, h.opened, h.read]

theorem sequentialAs_append (index : Nat) (front back : List P) (s : Progress) :
    sequentialAs options callback files number index (front ++ back) s =
      goOn (sequentialAs options callback files number (index + front.length) back)
        (sequentialAs options callback files number index front s) := by
  induction front generalizing index s with
  | nil => rfl
  | cons path front ih =>
    rw [cons_append, sequentialAs, sequentialAs]
    cases (files path).openRefusal with
    | some failure => rfl
    | none =>
      cases (files path).readRefusal 0 with
      | some failure => rfl
      | none =>
        have hn : sequentialAs options callback files number (index + 1) (front ++ back) =
            fun s => goOn (sequentialAs options callback files number
              (index + (front.length + 1)) back)
              (sequentialAs options callback files number (index + 1) front s) := by
          funext s
          rw [ih, Nat.add_assoc, Nat.add_comm 1]
        rw [hn]
        exact goOn_goOn _ _ _

theorem streamPrefetched_eq {maxReadBytes : Nat} (hrd : ∀ path ∈ front, Ready files path)
    (index : Nat) (s : Progress) :
    streamPrefetched (fileBackend files maxReadBytes) options callback index
        (front.map fun path => (path, (files path).readResult options.chunkSize 0)) s =
      sequentialAs options callback files number index front s := by
  induction front generalizing index s with
  | nil => rfl
  | cons path front ih =>
    have hpa := hrd path mem_cons_self
    have hr := ih fun p hp => hrd p (mem_cons_of_mem _ hp)
    rw [sequentialAs_ready hpa, map_cons, streamPrefetched, streamFile_eq hpa.read,
      funext (hr (index + 1))]

theorem answerEach_map {γ : Type} (answer : β → Except FileFailure γ) (f : α → β) (items : List α) :
    answerEach answer (items.map f) = answerEach (fun x => answer (f x)) items := by
  have hi : ∀ index, forEach (answerAt answer) index (items.map f) =
      forEach (answerAt fun x => answer (f x)) index items := by
    induction items with
    | nil => intro index; rfl
    | cons x items ih =>
      intro index
      rw [map_cons, forEach, forEach, ih]
      rfl
  exact hi 0

theorem zip_map_front (front rest : List α) (f : α → β) :
    (front ++ rest).zip (front.map f) = front.map fun x => (x, f x) := by
  induction front with
  | nil => simp
  | cons x front ih => simp [ih]

variable (maxReadBytes : Nat)

variable (options files) in
def readFirst (path : P) : Except FileFailure StreamRead :=
  (files path).readAt options.chunkSize 0

theorem prefetch_eq (opened : List P) : (fun count => (fileBackend files maxReadBytes).vread
      ((opened.take count).map fun file => (file, 0, options.chunkSize))) =
    fun count => answerEach (readFirst options files) (opened.take count) := by
  funext count
  exact answerEach_map (readRange files) _ _

theorem streamOperation_ready (hrd : ∀ path ∈ opened, Ready files path) (base : Nat)
    (openError : Option VfError) (s : Progress) :
    streamOperation (fileBackend files maxReadBytes) options callback base opened openError s =
      goOn (fun s =>
        match openError with
        | some error => (s, .error (error.mapIndex (base + ·)))
        | none => (s, .ok false))
        (sequentialAs options callback files number base opened s) := by
  have hr : ∀ path ∈ opened, readFirst options files path =
      .ok ((files path).readResult options.chunkSize 0) :=
    fun path hp => readAt_of_none (hrd path hp).read _
  have hz := zip_map_front opened [] fun path => (files path).readResult options.chunkSize 0
  rw [append_nil] at hz
  rw [streamOperation, prefetch_eq, readOnlyPrefix_answered hr]
  dsimp only
  rw [hz, streamPrefetched_eq hrd]
  cases openError <;> rfl

/-- The error of a refused first READ behind the first file of the cohort has the
number of the file within the cohort. -/
theorem streamOperation_refused (hrd : ∀ path ∈ front, Ready files path)
    (hp : (files path).readRefusal 0 = some failure) (base : Nat) (rest : List P)
    (openError : Option VfError) (s : Progress) :
    streamOperation (fileBackend files maxReadBytes) options callback base
        (front ++ path :: rest) openError s =
      goOn (fun s => (s, .error (failure.error (if front.length = 0 then base else front.length))))
        (sequentialAs options callback files number base front s) := by
  have hre : ∀ path ∈ front, readFirst options files path =
      .ok ((files path).readResult options.chunkSize 0) :=
    fun path hp => readAt_of_none (hrd path hp).read _
  have hr : readFirst options files path = .error failure := readAt_of_some hp _
  rw [streamOperation, prefetch_eq]
  cases hfr : front with
  | nil =>
    rw [nil_append, readOnlyPrefix_refused_first hr]
    rfl
  | cons x xs =>
    rw [← hfr]
    have hne : front ≠ [] := by simp [hfr]
    have hl : front.length ≠ 0 := by simp [hfr]
    rw [readOnlyPrefix_refused hre hr hne]
    dsimp only
    rw [zip_map_front, streamPrefetched_eq hrd, if_neg hl]

variable (files) in
/-- The vector OPEN of a cohort: its first file is refused, or the files in front of
the first refused one are opened. -/
theorem openCohort_cases (paths : List P) :
    (∃ path rest failure, paths = path :: rest ∧ (files path).openRefusal = some failure ∧
      readOnlyPrefix (fun count => (fileBackend files maxReadBytes).vopen (paths.take count))
        paths.length none = .error (failure.error 0)) ∨
    ∃ opened openError tail, paths = opened ++ tail ∧
      (∀ path ∈ opened, (files path).openRefusal = none) ∧
      readOnlyPrefix (fun count => (fileBackend files maxReadBytes).vopen (paths.take count))
        paths.length none = .ok (opened, openError) ∧
      (tail = [] ∧ openError = none ∨
        ∃ path rest failure, tail = path :: rest ∧ (files path).openRefusal = some failure ∧
          openError = some (failure.error opened.length)) := by
  have hv : ∀ path opened, openFile files path = .ok opened → opened = id path := by
    intro path opened h
    unfold openFile at h
    split at h
    · cases h
    · exact (Except.ok.inj h).symm
  have hn : ∀ path, openFile files path = .ok (id path) → (files path).openRefusal = none := by
    intro path h
    unfold openFile at h
    split at h
    · cases h
    · assumption
  have hs : ∀ path failure, openFile files path = .error failure →
      (files path).openRefusal = some failure := by
    intro path failure h
    unfold openFile at h
    split at h
    · cases h
      assumption
    · cases h
  obtain ha | ⟨front, path, rest, failure, rfl, hfr, hpa⟩ := answered_or_refused hv paths
  · refine .inr ⟨paths, none, [], by simp, fun path hp => hn path (ha path hp), ?_, ?_⟩
    · have h := readOnlyPrefix_answered ha
      rwa [map_id] at h
    · exact .inl ⟨rfl, rfl⟩
  by_cases hne : front = []
  · subst hne
    refine .inl ⟨path, rest, failure, rfl, hs path failure hpa, ?_⟩
    exact readOnlyPrefix_refused_first hpa rest
  refine .inr ⟨front, some (failure.error front.length), path :: rest, rfl,
    fun path hp => hn path (hfr path hp), ?_, ?_⟩
  · have h := readOnlyPrefix_refused hfr hpa hne rest
    rwa [map_id] at h
  · exact .inr ⟨path, rest, failure, rfl, hs path failure hpa, rfl⟩

theorem ready_or_refused (ho : ∀ path ∈ opened, (files path).openRefusal = none) :
    (∀ path ∈ opened, Ready files path) ∨
      ∃ front path rest failure, opened = front ++ path :: rest ∧
        (∀ path ∈ front, Ready files path) ∧ (files path).openRefusal = none ∧
        (files path).readRefusal 0 = some failure := by
  induction opened with
  | nil => exact .inl (by simp)
  | cons path opened ih =>
    have hpa := ho path mem_cons_self
    cases hr : (files path).readRefusal 0 with
    | some failure => exact .inr ⟨[], path, opened, failure, rfl, by simp, hpa, hr⟩
    | none =>
      obtain ha | ⟨front, x, rest, failure, rfl, hfr, hx⟩ :=
        ih fun p hp => ho p (mem_cons_of_mem _ hp)
      · exact .inl (forall_mem_cons.mpr ⟨⟨hpa, hr⟩, ha⟩)
      · exact .inr ⟨path :: front, x, rest, failure, rfl, forall_mem_cons.mpr ⟨⟨hpa, hr⟩, hfr⟩, hx⟩

variable (options callback) in
/-- The operation of a cohort delivers its files one after another. -/
theorem streamOperation_eq {tail : List P} {openError : Option VfError}
    (hopd : ∀ path ∈ opened, (files path).openRefusal = none) (ht : tail = [] ∧ openError = none ∨
      ∃ path rest failure, tail = path :: rest ∧ (files path).openRefusal = some failure ∧
        openError = some (failure.error opened.length))
    (hn : ∀ n < opened.length, number (base + n) = if n = 0 then base else n) (s : Progress) :
    streamOperation (fileBackend files maxReadBytes) options callback base opened openError s =
      sequentialAs options callback files number base (opened ++ tail) s := by
  obtain hr | ⟨front, path, rest, failure, rfl, hr, ho, hre⟩ := ready_or_refused hopd
  · rw [streamOperation_ready maxReadBytes hr, sequentialAs_append]
    congr 1
    funext s
    obtain ⟨rfl, rfl⟩ | ⟨path, rest, failure, rfl, hp, rfl⟩ := ht
    · rfl
    · rw [sequentialAs, hp]
      rfl
  rw [streamOperation_refused maxReadBytes hr hre, append_assoc, sequentialAs_append]
  congr 1
  funext s
  have hlt : front.length < (front ++ path :: rest).length := by simp
  rw [cons_append, sequentialAs, ho, hre, hn _ hlt]

theorem finish_output (s : Progress) (r : List Chunk × FileOutcome) :
    s.output.length ≤ (s.finish r).1.output.length ∧
      ((s.finish r).2 = .ok false → (s.finish r).1.output.length = s.output.length + 1) := by
  obtain ⟨delivered, _ | _ | _⟩ := r <;> simp [Progress.finish]

variable (options callback files number) in
theorem sequentialAs_output (index : Nat) (paths : List P) (s : Progress) :
    s.output.length ≤ (sequentialAs options callback files number index paths s).1.output.length ∧
      ((sequentialAs options callback files number index paths s).2 = .ok false →
        (sequentialAs options callback files number index paths s).1.output.length =
          s.output.length + paths.length) := by
  induction paths generalizing index s with
  | nil => exact ⟨le_rfl, fun _ => rfl⟩
  | cons path rest ih =>
    rw [sequentialAs]
    cases (files path).openRefusal with
    | some failure => exact ⟨le_rfl, fun h => nomatch h⟩
    | none =>
      cases (files path).readRefusal 0 with
      | some failure => exact ⟨le_rfl, fun h => nomatch h⟩
      | none =>
        have hf := finish_output s ((files path).stream options callback index s.delivered)
        generalize s.finish _ = r at hf
        obtain ⟨s', _ | _ | _⟩ := r
        · exact ⟨hf.1, fun h => nomatch h⟩
        · obtain ⟨hle, hl⟩ := ih (index + 1) s'
          dsimp only [goOn]
          have ho : s'.output.length = s.output.length + 1 := hf.2 rfl
          refine ⟨by omega, fun h => ?_⟩
          rw [length_cons]
          have := hl h
          omega
        · exact ⟨hf.1, fun h => nomatch h⟩

theorem goOn_output (index : Nat) (paths : List P) (r : Progress × VfResult Bool) :
    r.1.output.length ≤
      (goOn (sequentialAs options callback files number index paths) r).1.output.length := by
  obtain ⟨s, _ | _ | _⟩ := r
  · exact le_rfl
  · exact (sequentialAs_output options callback files number index paths s).1
  · exact le_rfl

theorem settleCohort_ok (output : List StreamCompletion) (operation : VfResult Bool) :
    settleCohort output (.ok ()) operation = operation := by
  obtain _ | _ | _ := operation <;> rfl

/-- The close of a cohort does not change its result if no file that was delivered
refuses it. -/
theorem settleCohort_eq {output : List StreamCompletion} {operation : VfResult Bool}
    (hcl : ∀ k path, opened[k]? = some path → (files path).closeRefusal.isSome →
      output.length ≤ base + k)
    (ha : operation = .ok false → base + opened.length ≤ output.length) :
    settleCohort output (closeCohort (fileBackend files maxReadBytes) base opened) operation =
      operation := by
  have hv : ∀ path x, closeFile files path = .ok x → x = (fun _ => ()) path := fun _ _ _ => rfl
  obtain hok | ⟨front, path, rest, failure, rfl, hfr, hp⟩ := answered_or_refused hv opened
  · have hc : closeCohort (fileBackend files maxReadBytes) base opened = .ok () := by
      rw [closeCohort, fileBackend]
      dsimp only
      rw [answerEach_answered hok]
      rfl
    rw [hc, settleCohort_ok]
  have hlt : ¬ front.length ≥ (front ++ path :: rest).length := by simp
  have hc : closeCohort (fileBackend files maxReadBytes) base (front ++ path :: rest) =
      .error (failure.error (base + front.length)) := by
    rw [closeCohort, fileBackend]
    dsimp only
    rw [answerEach_refused hfr hp]
    change (if front.length ≥ (front ++ path :: rest).length then _ else _) = _
    rw [if_neg hlt]
    rfl
  have hr : (files path).closeRefusal.isSome := by
    unfold closeFile at hp
    split at hp
    · simp [*]
    · cases hp
  have hb := hcl front.length path (by simp) hr
  rw [hc]
  obtain error | _ | _ := operation
  · rfl
  · have hle := ha rfl
    omega
  · change (if base + front.length < output.length then _ else _) = _
    rw [if_neg (by omega)]

theorem streamCohort_eq (hnu : ∀ n < paths.length, number (base + n) = if n = 0 then base else n)
    (hb : st.progress.output.length = base)
    (hcl : ∀ k path, paths[k]? = some path → (files path).closeRefusal.isSome →
      (sequentialAs options callback files number base paths st.progress).1.output.length ≤
        base + k) (hc : st.opened = st.closed) :
    ∃ handles, streamCohort (fileBackend files maxReadBytes) options callback base paths st =
      (⟨(sequentialAs options callback files number base paths st.progress).1, handles, handles⟩,
        (sequentialAs options callback files number base paths st.progress).2) := by
  obtain ⟨path, rest, failure, rfl, hopen, hf⟩ | ⟨opened, openError, tail, rfl, hopd, hfr, ht⟩ :=
    openCohort_cases files maxReadBytes paths
  · refine ⟨st.opened, ?_⟩
    rw [streamCohort, hf, sequentialAs, hopen]
    obtain ⟨progress, opened, closed⟩ := st
    obtain rfl : opened = closed := hc
    rfl
  refine ⟨st.opened ++ opened, ?_⟩
  have ho := streamOperation_eq options callback maxReadBytes hopd ht
    (fun n hn => hnu n (by simp; omega)) st.progress
  rw [streamCohort, hfr]
  dsimp only
  rw [ho, ← hc]
  congr 1
  apply settleCohort_eq
  · intro k path hp hr
    apply hcl k path _ hr
    exact getElem?_append_left (List.getElem?_eq_some_iff.mp hp).1 ▸ hp
  intro hok
  have hl := (sequentialAs_output options callback files number base (opened ++ tail)
    st.progress).2 hok
  rw [length_append] at hl
  omega

/-- The number that the error of a refused first READ has. -/
def reportedNumber (capacity index : Nat) : Nat :=
  if index % capacity = 0 then index else index % capacity

/-- All cohorts: the files one after another, but for the numbers of the errors. -/
theorem streamCohortsFrom_eq {capacity cohort : Nat} (hca : 0 < capacity)
    (hba : st.progress.output.length = cohort * capacity)
    (hcl : ∀ k path, paths[k]? = some path → (files path).closeRefusal.isSome →
      (sequentialAs options callback files (reportedNumber capacity) (cohort * capacity) paths
        st.progress).1.output.length ≤ cohort * capacity + k) (hclos : st.opened = st.closed) :
    ∃ handles, streamCohortsFrom (fileBackend files maxReadBytes) options callback capacity cohort
        paths st =
      (⟨(sequentialAs options callback files (reportedNumber capacity) (cohort * capacity) paths
          st.progress).1, handles, handles⟩,
        (sequentialAs options callback files (reportedNumber capacity) (cohort * capacity) paths
          st.progress).2) := by
  induction hlen : paths.length using Nat.strong_induction_on generalizing cohort paths st with
  | h length ih =>
  cases paths with
  | nil =>
    refine ⟨st.opened, ?_⟩
    obtain ⟨progress, opened, closed⟩ := st
    obtain rfl : opened = closed := hclos
    rw [streamCohortsFrom]
    rfl
  | cons path rest =>
    set here := path :: rest.take (capacity - 1) with hh
    set later := rest.drop (capacity - 1) with hl
    have hs : path :: rest = here ++ later := by
      rw [hh, hl, cons_append, take_append_drop]
    have hsh : here.length ≤ capacity := by
      rw [hh, length_cons, length_take]
      omega
    have hnu : ∀ n < here.length, reportedNumber capacity (cohort * capacity + n) =
        if n = 0 then cohort * capacity else n := by
      intro n hn
      have hm : (cohort * capacity + n) % capacity = n := by
        rw [Nat.mul_add_mod_self_right, Nat.mod_eq_of_lt (hn.trans_le hsh)]
      rw [reportedNumber, hm]
      by_cases hz : n = 0
      · rw [if_pos hz, if_pos hz, hz, Nat.add_zero]
      · rw [if_neg hz, if_neg hz]
    rw [hs, sequentialAs_append] at hcl
    rw [streamCohortsFrom, hs, sequentialAs_append, ← hh, ← hl]
    have hhe : ∀ k path, here[k]? = some path → (files path).closeRefusal.isSome →
        (sequentialAs options callback files (reportedNumber capacity) (cohort * capacity) here
          st.progress).1.output.length ≤ cohort * capacity + k := by
      intro k p hp hr
      have hk : (here ++ later)[k]? = some p :=
        getElem?_append_left (List.getElem?_eq_some_iff.mp hp).1 ▸ hp
      exact (goOn_output _ _ _).trans (hcl k p hk hr)
    obtain ⟨handles, hc⟩ := streamCohort_eq maxReadBytes hnu hba hhe hclos
    have hcn := (sequentialAs_output options callback files (reportedNumber capacity)
      (cohort * capacity) here st.progress).2
    rw [hc]
    generalize sequentialAs options callback files (reportedNumber capacity) (cohort * capacity)
      here st.progress = r at hcl hcn
    obtain ⟨s', error | _ | _⟩ := r
    · exact ⟨handles, rfl⟩
    · change ∃ handles, streamCohortsFrom _ _ _ _ _ _ _ = _
      by_cases he : later = []
      · refine ⟨handles, ?_⟩
        rw [he, streamCohortsFrom]
        rfl
      have hf : here.length = capacity := by
        have hlo := length_pos_iff.mpr he
        rw [hl, length_drop] at hlo
        rw [hh, length_cons, length_take]
        omega
      have hne : cohort * capacity + here.length = (cohort + 1) * capacity := by
        rw [hf, Nat.succ_mul]
      rw [hne] at hcl ⊢
      have hle : later.length < length := by
        rw [← hlen, hl, length_drop, length_cons]
        omega
      apply ih later.length hle _ _ rfl rfl
      · have hd : s'.output.length = _ := hcn rfl
        change s'.output.length = _
        omega
      intro k p hp hr
      have hk : (here ++ later)[here.length + k]? = some p := by
        rw [getElem?_append_right (Nat.le_add_right _ _), Nat.add_sub_cancel_left]
        exact hp
      have hb := hcl _ p hk hr
      rwa [← Nat.add_assoc, hne] at hb
    · exact ⟨handles, rfl⟩

end Cohort

end Vnfs.Sync
