import Vnfs.Core
import Vnfs.Lib.ByteFile
import Vnfs.Sync.WriteGraph

/-!
`vwrite_all_native` of `vfsi-sync`: every request is checked before any I/O, the
dependency graph is built from the backend's object references, and waves of
requests without open dependencies are dispatched until every byte is
acknowledged. A short write goes into the next wave with what is left of it; a
complete one releases its successors.

The backend is a parameter. A request's `OpenFile` names the shared backend it
belongs to by a number.
-/

namespace Vnfs.Sync

open Function List Loop

structure OpenFile where
  inner : Nat
  file : Option FileOperand
  append : Bool
  path : Bytes
  deriving DecidableEq, Repr

structure FsWrite where
  file : OpenFile
  offset : VfOffset
  data : Bytes
  deriving DecidableEq, Repr

structure FsWriteResult where
  offset : Nat
  bytesWritten : Nat
  stable : Bool
  deriving DecidableEq, Repr

/-- What the client calls on a backend in the state `σ`; `ρ` are its object
references. -/
structure Backend (σ ρ : Type) where
  /-- The lock around the backend is poisoned. -/
  isPoisoned : σ → Bool
  prepareObjectRefs : σ → List FileOperand → VfResult Unit × σ
  openObjectRef : σ → FileOperand → VfResult (Option ρ)
  vwriteImpl : σ → List WriteRequest → VfResult (List WriteResult) × σ

structure FsClient (σ ρ : Type) where
  inner : Nat
  backend : Backend σ ρ

def OpenFile.raw (file : OpenFile) : VfResult FileOperand :=
  match file.file with
  | some operand => .ok operand
  | none => .error (.errno (some 0) VfError.errEbadf)

def poisoned : VfError := .errno (some 0) VfError.errIo

def withIndexedContext (error : VfError) (operation : String) (path : Nat → Option Bytes) :
    VfError :=
  match error.index.bind path with
  | some path => error.withContext operation path
  | none => error

def writeResult (result : WriteResult) : FsWriteResult :=
  ⟨result.offset, result.bytesWritten, result.stable⟩

variable (operation : String)

def wrongResultCount (expected actual : Nat) : VfError :=
  .transportWithKind none .invalidReply
    s!"{operation} backend returned {actual} results for {expected} requests"

def contractError (index : Option Nat) (detail : String) : VfError :=
  .invalidReply index s!"{operation} backend contract violation: {detail}"

/-- The check of one result against its request. -/
def validateWriteResult (index : Nat) (pair : WriteRequest × WriteResult) :
    VfResult Unit :=
  let (request, result) := pair
  let written := result.bytesWritten
  let length := request.data.length
  if result.file ≠ request.file then
    .error (contractError operation (some index) "result file does not match request")
  else if written > length then
    .error (contractError operation (some index)
      s!"reported {written} bytes written for a {length}-byte write")
  else match request.offset with
    | .pos expected =>
      let offset := result.offset
      if offset ≠ expected then
        .error (contractError operation (some index)
          s!"result offset {offset} does not match {expected}")
      else .ok ()
    | _ => .ok ()

def validateWriteResults (requests : List WriteRequest) (results : List WriteResult) :
    VfResult Unit :=
  let actual := results.length
  let expected := requests.length
  if actual ≠ expected then
    .error (contractError operation none s!"returned {actual} results for {expected} requests")
  else (Loop.forEach (validateWriteResult operation) 0 (requests.zip results)).map fun _ => ()

namespace FsClient

variable {σ ρ : Type} (client : FsClient σ ρ)

def validateOwner (file : OpenFile) (index : Nat) : VfResult Unit :=
  if client.inner = file.inner then .ok () else .error (.fromKind (some index) .invalidInput)

def nativeRequest (index : Nat) (request : FsWrite) : VfResult WriteRequest := do
  client.validateOwner request.file index
  let raw ← request.file.raw.mapError fun error => error.withIndex index
  let offset := if request.file.append then .eof else request.offset
  .ok {file := raw, offset, data := request.data}

def vwriteNative (st : σ) (requests : List FsWrite) : VfResult (List FsWriteResult) × σ :=
  match Loop.forEach client.nativeRequest 0 requests with
  | .error error => (.error error, st)
  | .ok writes =>
    if client.backend.isPoisoned st then (.error poisoned, st)
    else
      let context := fun error => withIndexedContext error "vwrite_native"
        fun index => (requests.map fun request => request.file.path)[index]?
      match client.backend.vwriteImpl st writes with
      | (.error error, st) => (.error (context error), st)
      | (.ok results, st) =>
        if results.length ≠ requests.length then
          (.error (wrongResultCount "vwrite_native" requests.length results.length), st)
        else match validateWriteResults "vwrite_native" writes results with
          | .error error => (.error (context error), st)
          | .ok () => (.ok (results.map writeResult), st)

/-- The checks before any I/O; the result is the offset the graph uses. An
append ignores the offset it was given. -/
def prepareWrite (index : Nat) (request : FsWrite) : VfResult Nat := do
  client.validateOwner request.file index
  let _ ← request.file.raw.mapError fun error =>
    (error.withIndex index).withContext "vwrite_all_native" request.file.path
  match request.offset with
  | .pos offset =>
    if request.file.append ∧ ¬ request.data.isEmpty then .ok 0
    else match checkedAdd offset request.data.length with
      | some _ => .ok offset
      | none => .error ((VfError.errno (some index) VfError.eoverflow).withContext
          "vwrite_all_native" request.file.path)
  | _ => .error ((VfError.fromKind (some index) .invalidInput).withContext
      "vwrite_all_native" request.file.path)

end FsClient

/-- An acknowledged part of a request: its result, and the bytes before it. -/
structure Piece (n : Nat) where
  index : Fin n
  start : Nat
  result : FsWriteResult
  deriving DecidableEq, Repr

structure WaveState (σ : Type) (n : Nat) where
  backend : σ
  graph : DependencyGraph (Fin n)
  waveIndices : List (Fin n)
  nextWaveIndices : List (Fin n)
  /-- The offset reported for each request. -/
  offsets : Fin n → Nat
  totals : Fin n → Nat
  stable : Fin n → Bool
  /-- What was acknowledged, in order; the code does not read it. -/
  history : List (Piece n)

namespace FsClient

variable {σ ρ : Type} (client : FsClient σ ρ) (requests : List FsWrite)

/-- What is left of a request, as the next wave sends it. -/
def continuation {n : Nat} (request : FsWrite) (index : Fin n) (total : Nat) : VfResult FsWrite :=
  match request.offset with
  | .pos offset =>
    if request.file.append then .ok ⟨request.file, .pos 0, request.data.drop total⟩
    else match checkedAdd offset total with
      | some offset => .ok ⟨request.file, .pos offset, request.data.drop total⟩
      | none => .error ((VfError.errno (some index) VfError.eoverflow).withContext
          "vwrite_all_native" request.file.path)
  | _ => .error ((VfError.fromKind (some index) .invalidInput).withContext
      "vwrite_all_native" request.file.path)

/-- An append reports where its last piece ended, less all it has written. -/
def completionOffset {n : Nat} (index : Fin n) (request : FsWrite) (offset total : Nat)
    (result : FsWriteResult) : VfResult Nat :=
  if request.file.append then
    match checkedAdd result.offset result.bytesWritten with
    | some stop =>
      if total ≤ stop then .ok (stop - total)
      else .error (.transportWithKind (some index) .invalidReply
        "append completion offset cannot be represented")
    | none => .error (.transportWithKind (some index) .invalidReply
        "append completion offset cannot be represented")
  else .ok offset

def settle (st : WaveState σ requests.length) (index : Fin requests.length)
    (result : FsWriteResult) : VfResult (WaveState σ requests.length) := do
  let request := requests.get index
  if result.bytesWritten = 0 then
    .error ((VfError.errno (some index) VfError.errIo).withContext
      "vwrite_all_native" request.file.path)
  else
    let total := st.totals index + result.bytesWritten
    let offset ← completionOffset index request (st.offsets index) total result
    let piece : Piece requests.length := ⟨index, st.totals index, result⟩
    let st := {st with
      totals := update st.totals index total
      offsets := update st.offsets index offset
      stable := update st.stable index (st.stable index && result.stable)
      history := st.history ++ [piece]}
    if total = request.data.length then
      let (graph, nextWaveIndices) := st.graph.complete index st.nextWaveIndices
      .ok {st with graph, nextWaveIndices}
    else .ok {st with nextWaveIndices := st.nextWaveIndices ++ [index]}

def settleAll : List (Fin requests.length × FsWriteResult) → WaveState σ requests.length →
    VfResult (WaveState σ requests.length)
  | [], st => .ok st
  | (index, result) :: rest, st => do
      let st ← settle requests st index result
      settleAll rest st

def waveStep (st : WaveState σ requests.length) :
    WaveState σ requests.length ⊕ (VfResult Unit × WaveState σ requests.length) :=
  if st.waveIndices.isEmpty then .inr (.ok (), st)
  else
    match Loop.forEach (fun _ index => continuation (requests.get index) index (st.totals index)) 0
        st.waveIndices with
    | .error error => .inr (.error error, st)
    | .ok wave =>
      match client.vwriteNative st.backend wave with
      | (.error error, backend) =>
        let attributed := error.mapIndex fun index =>
          (st.waveIndices[index]?.map Fin.val).getD index
        .inr (.error attributed, {st with backend})
      | (.ok results, backend) =>
        match settleAll requests (st.waveIndices.zip results)
            {st with backend, nextWaveIndices := []} with
        | .error error => .inr (.error error, {st with backend})
        | .ok st =>
          let sorted := st.nextWaveIndices.insertionSort (· ≤ ·)
          .inl {st with waveIndices := sorted, nextWaveIndices := []}

def outstanding (st : WaveState σ requests.length) : Nat :=
  ∑ i, ((requests.get i).data.length - st.totals i)

variable {client requests}

def nativeOf (request : FsWrite) : WriteRequest where
  file := request.file.file.getD .cwd
  offset := if request.file.append then .eof else request.offset
  data := request.data

/-- A request without its first `total` bytes. -/
def remainder (request : FsWrite) (total : Nat) : FsWrite where
  file := request.file
  offset :=
    if request.file.append then .pos 0
    else match request.offset with
      | .pos offset => .pos (offset + total)
      | other => other
  data := request.data.drop total

variable {request : FsWrite} {result : FsWriteResult} {raws : List WriteResult} {backend : σ}

theorem nativeRequest_ok {index : Nat} {write : WriteRequest}
    (h : client.nativeRequest index request = .ok write) : write = nativeOf request := by
  unfold nativeRequest OpenFile.raw at h
  cases ho : client.validateOwner request.file index with
  | error e => simp [ho, bind, Except.bind] at h
  | ok _ =>
    cases hf : request.file.file with
    | none => simp [ho, hf, bind, Except.bind, Except.mapError] at h
    | some raw =>
      simp only [ho, hf, bind, Except.bind, Except.mapError, Except.ok.injEq] at h
      subst h
      simp [nativeOf, hf]

theorem written_le_of_validate {operation : String} {writes : List WriteRequest}
    {results : List WriteResult} (h : validateWriteResults operation writes results = .ok ())
    {pair : WriteRequest × WriteResult} (hp : pair ∈ writes.zip results) :
    pair.2.bytesWritten ≤ pair.1.data.length := by
  unfold validateWriteResults at h
  dsimp only at h
  split at h
  · cases h
  cases ha : forEach (validateWriteResult operation) 0 (writes.zip results) with
  | error e => simp [ha, Except.map] at h
  | ok checked =>
    obtain ⟨k, hk⟩ := mem_iff_getElem?.mp hp
    obtain ⟨_, _, hck⟩ := (forEach_ok ha).2 k pair hk
    unfold validateWriteResult at hck
    dsimp only at hck
    split at hck
    · cases hck
    · split at hck
      · cases hck
      · omega

/-- A successful `vwrite_native` is one call of the backend, whose results fit
the requests. -/
theorem vwriteNative_ok {st st' : σ} {wave : List FsWrite} {results : List FsWriteResult}
    (h : client.vwriteNative st wave = (.ok results, st')) :
    ∃ raws, client.backend.vwriteImpl st (wave.map nativeOf) = (.ok raws, st') ∧
      raws.length = wave.length ∧
      (∀ pair ∈ (wave.map nativeOf).zip raws, pair.2.bytesWritten ≤ pair.1.data.length) ∧
      results = raws.map writeResult := by
  unfold vwriteNative at h
  split at h
  · cases h
  rename_i writes hw
  split at h
  · cases h
  split at h
  · cases h
  rename_i raws backend hi
  split at h
  · cases h
  split at h
  · cases h
  rename_i hv
  cases h
  have heq := forEach_eq_map (fun _ _ _ h => nativeRequest_ok h) hw
  subst heq
  exact ⟨raws, hi, by omega, fun pair => written_le_of_validate hv, rfl⟩

theorem continuation_ok {n : Nat} {piece : FsWrite} {index : Fin n} {total : Nat}
    (h : continuation request index total = .ok piece) : piece = remainder request total := by
  unfold continuation at h
  unfold remainder
  split at h
  · rename_i offset ho
    split at h
    · rename_i ha
      obtain rfl := Except.ok.inj h
      simp [ha]
    rename_i ha
    split at h
    · rename_i next had
      obtain rfl := Except.ok.inj h
      simp [ha, checkedAdd_eq_some had]
    · cases h
  · cases h

structure Settled (st : WaveState σ requests.length) (index : Fin requests.length)
    (result : FsWriteResult) (st' : WaveState σ requests.length) : Prop where
  progress : 0 < result.bytesWritten
  backend : st'.backend = st.backend
  totals : st'.totals =
    update st.totals index (st.totals index + result.bytesWritten)
  stable : st'.stable = update st.stable index (st.stable index && result.stable)
  history : st'.history = st.history ++ [⟨index, st.totals index, result⟩]
  next : (st'.totals index = (requests.get index).data.length ∧
      (st'.graph, st'.nextWaveIndices) = st.graph.complete index st.nextWaveIndices) ∨
    (st'.totals index ≠ (requests.get index).data.length ∧ st'.graph = st.graph ∧
      st'.nextWaveIndices = st.nextWaveIndices ++ [index])

theorem settle_ok {st st' : WaveState σ requests.length} {index : Fin requests.length}
    (h : settle requests st index result = .ok st') : Settled st index result st' := by
  unfold settle at h
  split at h
  · cases h
  rename_i hpr
  cases ho : completionOffset index (requests.get index) (st.offsets index)
      (st.totals index + result.bytesWritten) result with
  | error e =>
    simp only [ho, bind, Except.bind] at h
    cases h
  | ok offset =>
    simp only [ho, bind, Except.bind] at h
    split at h
    · rename_i hf
      obtain rfl := Except.ok.inj h
      exact ⟨Nat.pos_of_ne_zero hpr, rfl, rfl, rfl, rfl, .inl ⟨by simpa using hf, rfl⟩⟩
    rename_i hp
    obtain rfl := Except.ok.inj h
    exact ⟨Nat.pos_of_ne_zero hpr, rfl, rfl, rfl, rfl, .inr ⟨by simpa using hp, rfl, rfl⟩⟩

theorem settleAll_cons_ok {index : Fin requests.length}
    {rest : List (Fin requests.length × FsWriteResult)} {st st' : WaveState σ requests.length}
    (h : settleAll requests ((index, result) :: rest) st = .ok st') :
    ∃ middle, Settled st index result middle ∧ settleAll requests rest middle = .ok st' := by
  unfold settleAll at h
  cases hf : settle requests st index result with
  | error e => simp [hf, bind, Except.bind] at h
  | ok middle =>
    simp only [hf, bind, Except.bind] at h
    exact ⟨middle, settle_ok hf, h⟩

variable (requests) in
def sent (st : WaveState σ requests.length) : List WriteRequest :=
  st.waveIndices.map fun index => nativeOf (remainder (requests.get index) (st.totals index))

/-- A wave that goes through: one call of the backend, then its results. -/
structure Round (client : FsClient σ ρ) (st : WaveState σ requests.length)
    (raws : List WriteResult) (backend : σ) (settled : WaveState σ requests.length) : Prop where
  nonempty : st.waveIndices ≠ []
  call : client.backend.vwriteImpl st.backend (sent requests st) = (.ok raws, backend)
  length_eq : raws.length = st.waveIndices.length
  fits : ∀ pair ∈ (sent requests st).zip raws, pair.2.bytesWritten ≤ pair.1.data.length
  settle : settleAll requests (st.waveIndices.zip (raws.map writeResult))
    {st with backend, nextWaveIndices := []} = .ok settled

theorem waveStep_inl {st st' : WaveState σ requests.length}
    (h : client.waveStep requests st = .inl st') :
    ∃ raws backend settled, Round client st raws backend settled ∧ st' = {settled with
        waveIndices := settled.nextWaveIndices.insertionSort (· ≤ ·), nextWaveIndices := []} := by
  unfold waveStep at h
  split at h
  · cases h
  rename_i hne
  split at h
  · cases h
  rename_i wave hw
  have hp := forEach_eq_map (g := fun index => remainder (requests.get index) (st.totals index))
    (fun _ _ _ hpc => continuation_ok hpc) hw
  split at h
  · cases h
  rename_i results backend hc
  obtain ⟨raws, hi, hl, hf, rfl⟩ := vwriteNative_ok hc
  split at h
  · cases h
  rename_i settled hse
  have hs : sent requests st = wave.map nativeOf := by
    rw [hp, map_map]
    rfl
  refine ⟨raws, backend, settled, ⟨?_, ?_, ?_, ?_, hse⟩, (Sum.inl.inj h).symm⟩
  · simpa using hne
  · rw [hs]
    exact hi
  · rw [hl, hp, length_map]
  · rw [hs]
    exact hf

theorem waveStep_inr_ok {st final : WaveState σ requests.length}
    (h : client.waveStep requests st = .inr (.ok (), final)) :
    st.waveIndices = [] ∧ final = st := by
  unfold waveStep at h
  split at h
  · rename_i he
    cases h
    exact ⟨by simpa using he, rfl⟩
  split at h
  · cases h
  · split at h
    · cases h
    · split at h <;> cases h

theorem Round.written_le {st settled : WaveState σ requests.length}
    (h : Round client st raws backend settled) {pair : Fin requests.length × FsWriteResult}
    (hp : pair ∈ st.waveIndices.zip (raws.map writeResult)) :
    pair.2.bytesWritten ≤ (requests.get pair.1).data.length - st.totals pair.1 := by
  obtain ⟨k, hk⟩ := mem_iff_getElem?.mp hp
  obtain ⟨hi, hr⟩ := getElem?_zip_eq_some.mp hk
  rw [getElem?_map, Option.map_eq_some_iff] at hr
  obtain ⟨raw, hra, hr⟩ := hr
  have hf := h.fits (nativeOf (remainder (requests.get pair.1) (st.totals pair.1)), raw) (by
    apply mem_iff_getElem?.mpr
    refine ⟨k, getElem?_zip_eq_some.mpr ⟨?_, hra⟩⟩
    rw [sent, getElem?_map, hi]
    rfl)
  rw [← hr]
  simpa [nativeOf, remainder, writeResult] using hf

theorem Settled.outstanding_le {st st' : WaveState σ requests.length} {index : Fin requests.length}
    (h : Settled st index result st') : outstanding requests st' ≤ outstanding requests st := by
  apply Finset.sum_le_sum
  intro i _
  rw [h.totals]
  by_cases hi : i = index
  · subst hi
    rw [update_self]
    omega
  · rw [update_of_ne hi]

theorem Settled.outstanding_lt {st st' : WaveState σ requests.length} {index : Fin requests.length}
    (h : Settled st index result st')
    (hf : result.bytesWritten ≤ (requests.get index).data.length - st.totals index) :
    outstanding requests st' < outstanding requests st := by
  have hp := h.progress
  apply Finset.sum_lt_sum
  · intro i _
    rw [h.totals]
    by_cases hi : i = index
    · subst hi
      rw [update_self]
      omega
    · rw [update_of_ne hi]
  · refine ⟨index, Finset.mem_univ _, ?_⟩
    rw [h.totals, update_self]
    omega

theorem settleAll_outstanding_le {pairs : List (Fin requests.length × FsWriteResult)}
    {st st' : WaveState σ requests.length} (h : settleAll requests pairs st = .ok st') :
    outstanding requests st' ≤ outstanding requests st := by
  induction pairs generalizing st with
  | nil => rw [Except.ok.inj h]
  | cons pair rest ih =>
    obtain ⟨middle, hf, hr⟩ := settleAll_cons_ok h
    exact Nat.le_trans (ih hr) hf.outstanding_le

theorem Round.outstanding_lt {st settled : WaveState σ requests.length}
    (h : Round client st raws backend settled) :
    outstanding requests settled < outstanding requests st := by
  have hwr : ∀ pair ∈ st.waveIndices.zip (raws.map writeResult), pair.2.bytesWritten ≤
      (requests.get pair.1).data.length - st.totals pair.1 := fun pair => h.written_le
  have hs := h.settle
  have hle := h.length_eq
  obtain ⟨index, rest, hw⟩ := exists_cons_of_ne_nil h.nonempty
  cases raws with
  | nil => simp [hw] at hle
  | cons raw raws =>
    rw [hw, map_cons, zip_cons_cons] at hs hwr
    obtain ⟨middle, hf, hr⟩ := settleAll_cons_ok hs
    have hl := hf.outstanding_lt (hwr _ mem_cons_self)
    exact Nat.lt_of_le_of_lt (settleAll_outstanding_le hr) hl

variable (client requests)

/-- The wave loop. Every wave writes at least one byte. -/
def waveBody : Loop.Body (WaveState σ requests.length)
    (VfResult Unit × WaveState σ requests.length) Nat where
  step := client.waveStep requests
  variant := outstanding requests
  decreases := by
    intro st st' h
    obtain ⟨raws, backend, settled, hround, rfl⟩ := waveStep_inl h
    exact hround.outstanding_lt

def rangeOf (offsets : Fin requests.length → Nat) (index : Fin requests.length) :
    WriteRange (Fin requests.length) where
  index := index
  start := offsets index
  stop := offsets index + (requests.get index).data.length
  append := (requests.get index).file.append

/-- The requests with data, in input order. -/
def nonEmpty : List (Fin requests.length) :=
  (finRange requests.length).filter fun index => ¬ (requests.get index).data.isEmpty

/-- The loop that asks for each object and extends the graph. -/
def groupRequests [DecidableEq ρ] (st : σ) (offsets : Fin requests.length → Nat) :
    List (WriteRange (Fin requests.length)) → List (Fin requests.length) →
      Grouping ρ (Fin requests.length) → VfResult (Grouping ρ (Fin requests.length))
  | _, [], groups => .ok groups
  | earlier, index :: rest, groups => do
      let request := requests.get index
      let raw ← request.file.raw
      let object ← (client.backend.openObjectRef st raw).mapError fun error =>
        (error.withIndex index).withContext "vwrite_all_native" request.file.path
      let range := rangeOf requests offsets index
      groupRequests st offsets (earlier ++ [range]) rest (groups.add earlier range object)

/-- The error of `prepare_object_refs`, whose index counts requests with data. -/
def mapIdentityError (error : VfError) : VfError :=
  withIndexedContext
    (error.mapIndex fun index => ((nonEmpty requests)[index]?.map Fin.val).getD index)
    "vwrite_all_native" fun index => requests[index]?.map fun request => request.file.path

/-- The graph of the batch. A single request with data needs none. -/
def planWrites [DecidableEq ρ] (st : σ) (offsets : Fin requests.length → Nat) :
    VfResult (Schedule (Fin requests.length)) × σ :=
  let indices := nonEmpty requests
  if indices.length < 2 then (.ok ⟨.empty, indices⟩, st)
  else if client.backend.isPoisoned st then (.error poisoned, st)
  else
    let rawFiles := indices.filterMap fun index => (requests.get index).file.file
    match client.backend.prepareObjectRefs st rawFiles with
    | (.error error, st) => (.error (mapIdentityError requests error), st)
    | (.ok (), st) =>
      ((client.groupRequests requests st offsets [] indices .empty).map Grouping.schedule, st)

/-- Check and plan: the state in which the waves begin. -/
def startWaves [DecidableEq ρ] (st : σ) : VfResult (WaveState σ requests.length) × σ :=
  match Loop.forEach client.prepareWrite 0 requests with
  | .error error => (.error error, st)
  | .ok offsets =>
    let offsetOf : Fin requests.length → Nat := fun index => offsets.getD index 0
    match client.planWrites requests st offsetOf with
    | (.error error, st) => (.error error, st)
    | (.ok schedule, st) =>
      (.ok ⟨st, schedule.graph, schedule.waveIndices, [], offsetOf, fun _ => 0,
        fun _ => true, []⟩, st)

/-- All waves; the result is the last state of the loop. -/
def runWrites [DecidableEq ρ] (st : σ) : VfResult (WaveState σ requests.length) × σ :=
  match client.startWaves requests st with
  | (.error error, st) => (.error error, st)
  | (.ok initial, _) =>
    let (outcome, final) := Loop.run (client.waveBody requests) initial
    (outcome.map fun _ => final, final.backend)

def results (final : WaveState σ requests.length) : List FsWriteResult :=
  (finRange requests.length).map fun index =>
    ⟨final.offsets index, final.totals index, final.stable index⟩

def vwriteAllNative [DecidableEq ρ] (st : σ) : VfResult (List FsWriteResult) × σ :=
  let (outcome, st) := client.runWrites requests st
  (outcome.map (results requests), st)

/-- For evaluating a batch: the results after at most `fuel` waves. -/
theorem vwriteAllNative_of_runFor [DecidableEq ρ] (st : σ) (fuel : Nat)
    {outcome : VfResult (List FsWriteResult)}
    (h : ((client.startWaves requests st).1.toOption.bind fun initial =>
      (runFor (client.waveBody requests) fuel initial).map fun exit =>
        exit.1.map fun _ => results requests exit.2) = some outcome) :
    (client.vwriteAllNative requests st).1 = outcome := by
  unfold vwriteAllNative runWrites
  cases hst : client.startWaves requests st with
  | mk started st' =>
    rw [hst] at h
    cases started with
    | error e => cases h
    | ok initial =>
      have he := run_of_runFor (client.waveBody requests) fuel
        (fun exit => exit.1.map fun _ => results requests exit.2) h
      change ((run (client.waveBody requests) initial).1.map fun _ =>
        (run (client.waveBody requests) initial).2).map (results requests) = outcome
      rw [← he]
      cases (run (client.waveBody requests) initial).1 <;> rfl

end FsClient

end Vnfs.Sync
