import Vnfs.Core

/-!
The vectors of the mount-aware client. An operand has a route, to the kernel's mount or to a
direct connection; adjacent operands of one backend go out as one vector of that backend, and
the index of its error is moved to the place in the whole list. What needs no backend is
checked for all operands before the first vector goes out; that the files of a read or of a
partial write are open is checked vector by vector, before anything of the vector is done.

The backends' own vectors are taken to be in order. A buffer is known by its length. What
becomes of the handles of a vector of opens that fails later is left out.
-/

namespace Vnfs.Auto.Dispatch

open List

variable {σ ι τ R Z : Type}

/-- `libc::EACCES` and `libc::EFBIG`. -/
def eacces : Nat := 13

def efbig : Nat := 27

def indexed (error : VfError) (start : Nat) : VfError :=
  match error.index with
  | some index => error.withIndex (start + index)
  | none => error

/-- What comes behind `start` items with the results `output`. -/
def extend (start : Nat) (output : List R) : σ × VfResult (List R) → σ × VfResult (List R)
  | (s, .error error) => (s, .error (indexed error start))
  | (s, .ok results) => (s, .ok (output ++ results))

/-- Items one at a time, up to the first that fails. -/
def inTurn (one : σ → ι → σ × VfResult R) (s : σ) : List ι → σ × VfResult (List R)
  | [] => (s, .ok [])
  | item :: items =>
    match one s item with
    | (s, .error error) => (s, .error (error.withIndex 0))
    | (s, .ok result) => extend 1 [result] (inTurn one s items)

section InTurn

variable {one : σ → ι → σ × VfResult R}

theorem indexed_indexed (error : VfError) (m n : Nat) :
    indexed (indexed error n) m = indexed error (m + n) := by
  obtain ⟨_ | index, detail, context⟩ := error
  · rfl
  · simp [indexed, VfError.withIndex, Nat.add_assoc]

theorem indexed_zero (error : VfError) : indexed error 0 = error := by
  obtain ⟨_ | index, detail, context⟩ := error
  · rfl
  · simp [indexed, VfError.withIndex]

theorem extend_extend (m n : Nat) (xs ys : List R) (done : σ × VfResult (List R)) :
    extend m xs (extend n ys done) = extend (m + n) (xs ++ ys) done := by
  obtain ⟨s, error | results⟩ := done
  · simp only [extend, indexed_indexed]
  · simp only [extend, append_assoc]

theorem extend_zero (done : σ × VfResult (List R)) : extend 0 [] done = done := by
  obtain ⟨s, error | results⟩ := done
  · simp only [extend, indexed_zero]
  · rfl

theorem extend_eq_ok {start : Nat} {output results : List R} {done : σ × VfResult (List R)}
    {t : σ} : extend start output done = (t, .ok results) ↔
      ∃ rs, done = (t, .ok rs) ∧ output ++ rs = results := by
  obtain ⟨s, error | rs⟩ := done <;> simp [extend]

theorem inTurn_append (s : σ) (front back : List ι) :
    inTurn one s (front ++ back) = match inTurn one s front with
      | (s, .error error) => (s, .error error)
      | (s, .ok results) => extend front.length results (inTurn one s back) := by
  induction front generalizing s with
  | nil => exact (extend_zero _).symm
  | cons item front ih =>
    rw [cons_append, inTurn, inTurn]
    rcases one s item with ⟨t, error | result⟩
    · rfl
    · dsimp only
      rw [ih]
      rcases inTurn one t front with ⟨u, error | results⟩
      · rfl
      · change extend 1 [result] (extend front.length results _) = _
        rw [extend_extend, Nat.add_comm]
        rfl

theorem inTurn_map {one' : σ → τ → σ × VfResult R} {f : τ → ι} {items : List τ}
    (h : ∀ item ∈ items, ∀ s, one s (f item) = one' s item) (s : σ) :
    inTurn one s (items.map f) = inTurn one' s items := by
  induction items generalizing s with
  | nil => rfl
  | cons item items ih =>
    rw [map_cons, inTurn, inTurn, h item mem_cons_self]
    rcases one' s item with ⟨t, error | result⟩
    · rfl
    · dsimp only
      rw [ih fun item hm => h item (mem_cons_of_mem _ hm)]

theorem inTurn_zipWith (f : ι → R → Z) (s : σ) (items : List ι) :
    inTurn (fun s item => ((one s item).1, (one s item).2.map (f item))) s items =
      ((inTurn one s items).1, (inTurn one s items).2.map (zipWith f items)) := by
  induction items generalizing s with
  | nil => rfl
  | cons item items ih =>
    rw [inTurn, inTurn]
    rcases one s item with ⟨t, error | result⟩
    · rfl
    · change extend 1 _ (inTurn _ t items) =
        ((extend 1 [result] (inTurn one t items)).1, Except.map _ (extend 1 [result] _).2)
      rw [ih]
      rcases inTurn one t items with ⟨u, error | results⟩ <;> rfl

end InTurn

/-- A vector operation of a backend, which does its items one at a time. -/
structure OrderedVector (σ ι R : Type) where
  run : σ → List ι → σ × VfResult (List R)
  one : σ → ι → σ × VfResult R
  inOrder : ∀ s items, run s items = inTurn one s items

structure NfsConnection where
  identity : Nat
  credentials : Nat
  deriving DecidableEq

inductive Route where
  | posix
  | nfs (connection : NfsConnection)
  deriving DecidableEq

namespace Route

def sameBackend : Route → Route → Bool
  | posix, posix => true
  | nfs a, nfs b => a.identity == b.identity
  | _, _ => false

/-- The kernel's mount, or the client of a connection. -/
def backend : Route → Option Nat
  | posix => none
  | nfs connection => some connection.identity

theorem sameBackend_iff (a b : Route) : a.sameBackend b ↔ a.backend = b.backend := by
  cases a <;> cases b <;> simp [sameBackend, backend]

end Route

structure Resolved where
  route : Route
  path : Bytes

structure OpenOp where
  path : Bytes
  flags : Nat
  mode : Nat

/-- A file of a backend. -/
structure Inner where
  handle : Nat
  /-- The path it was opened with, for diagnostics. -/
  path : Bytes
  isClosed : Bool
  deriving DecidableEq

structure AutoFile where
  path : Bytes
  route : Route
  inner : Inner
  owner : Nat
  deriving DecidableEq

/-- A read of `F`, a range or into a buffer of the given length. -/
structure ReadAt (F : Type) where
  file : F
  offset : Nat
  length : Nat

structure WriteAt (F : Type) where
  file : F
  offset : Nat
  data : Bytes

structure ReadResult where
  offset : Nat
  data : Bytes
  eof : Bool

structure ReadIntoResult where
  offset : Nat
  bytesRead : Nat
  eof : Bool

/-- The error of `raw` for the first file of a vector that is closed. -/
def firstClosed (inner : ι → Inner) (explain : Inner → VfError → VfError) :
    Nat → List ι → Option VfError
  | _, [] => none
  | index, item :: rest =>
    if (inner item).isClosed then
      some (explain (inner item) (.errno (some index) VfError.errEbadf))
    else firstClosed inner explain (index + 1) rest

/-- A vector of `FsClient` on handles: all of them are looked at before the backend is. -/
def onOpenFiles (inner : ι → Inner) (explain : Inner → VfError → VfError)
    (vector : OrderedVector σ ι R) (s : σ) (items : List ι) : σ × VfResult (List R) :=
  match firstClosed inner explain 0 items with
  | some error => (s, .error error)
  | none => vector.run s items

/-- Runs of operands of one backend: the files of a run are looked at first, and if all are open
its operands are done one at a time. -/
def eachRun (same : τ → τ → Bool) (check : List τ → Option VfError)
    (one : σ → τ → σ × VfResult R) (s : σ) : List τ → σ × VfResult (List R)
  | [] => (s, .ok [])
  | first :: rest =>
    let run := first :: rest.takeWhile (same first)
    match check run with
    | some error => (s, .error error)
    | none =>
      match inTurn one s run with
      | (s, .error error) => (s, .error error)
      | (s, .ok results) =>
        extend run.length results (eachRun same check one s (rest.dropWhile (same first)))
termination_by items => items.length
decreasing_by exact Nat.lt_succ_of_le (dropWhile_suffix _).length_le

section OpenFiles

theorem firstClosed_map {inner : ι → Inner} {explain : Inner → VfError → VfError} {f : τ → ι}
    (index : Nat) (items : List τ) : firstClosed inner explain index (items.map f) =
      firstClosed (inner ∘ f) explain index items := by
  induction items generalizing index with
  | nil => rfl
  | cons item items ih =>
    rw [map_cons, firstClosed, firstClosed, ih]
    rfl

theorem firstClosed_eq_none {inner : ι → Inner} {explain : Inner → VfError → VfError}
    {items : List ι} (h : ∀ item ∈ items, (inner item).isClosed = false) (index : Nat) :
    firstClosed inner explain index items = none := by
  induction items generalizing index with
  | nil => rfl
  | cons item items ih =>
    rw [firstClosed, h item mem_cons_self]
    exact ih (fun item hm => h item (mem_cons_of_mem _ hm)) _

/-- While the checks find nothing, the runs make no difference. -/
theorem eachRun_of_open {same : τ → τ → Bool} {check : List τ → Option VfError}
    {one : σ → τ → σ × VfResult R} {items : List τ}
    (h : ∀ run, (∀ item ∈ run, item ∈ items) → check run = none) (s : σ) :
    eachRun same check one s items = inTurn one s items := by
  have hsplit (first : τ) (rest : List τ) : first :: rest =
      (first :: rest.takeWhile (same first)) ++ rest.dropWhile (same first) := by
    rw [cons_append, takeWhile_append_dropWhile]
  fun_induction eachRun same check one s items with
  | case1 s => rfl
  | case2 s first rest run error hcheck =>
    have hrun : check run = none := h run fun item hm => by
      rw [hsplit]
      exact mem_append_left _ hm
    rw [hrun] at hcheck
    cases hcheck
  | case3 s first rest run hcheck t error hrun =>
    rw [hsplit, inTurn_append, hrun]
  | case4 s first rest run hcheck t results hrun ih =>
    rw [hsplit, inTurn_append, hrun, ih]
    intro run hm
    apply h run
    intro item hi
    rw [hsplit]
    exact mem_append_right _ (hm item hi)

end OpenFiles

/-- A read of whole files within what is left of a budget. -/
def limited (one : σ → ι → σ × VfResult Bytes) (s : σ × Nat) (item : ι) :
    (σ × Nat) × VfResult Bytes :=
  match one s.1 item with
  | (t, .error error) => ((t, s.2), .error error)
  | (t, .ok data) =>
    if data.length ≤ s.2 then ((t, s.2 - data.length), .ok data)
    else ((t, s.2), .error (.errno none efbig))

def dropBudget (done : (σ × Nat) × Z) : σ × Z := (done.1.1, done.2)

def spend (remaining : Nat) : List Bytes → Option Nat
  | [] => some remaining
  | buffer :: buffers =>
    if buffer.length ≤ remaining then spend (remaining - buffer.length) buffers else none

section Limited

variable {one : σ → ι → σ × VfResult Bytes}

theorem spend_eq_some {n m : Nat} {buffers : List Bytes} :
    spend n buffers = some m ↔ (buffers.map length).sum + m = n := by
  induction buffers generalizing n with
  | nil => simp [spend, eq_comm]
  | cons buffer buffers ih =>
    rw [spend, map_cons, sum_cons]
    split
    · rw [ih]
      omega
    · simp only [reduceCtorEq, false_iff]
      omega

/-- Within a budget the files are read as without one, if they fit it. -/
theorem inTurn_limited {s t : σ} {n m : Nat} {items : List ι} {files : List Bytes} :
    inTurn (limited one) (s, n) items = ((t, m), .ok files) ↔
      inTurn one s items = (t, .ok files) ∧ (files.map length).sum + m = n := by
  induction items generalizing s n files with
  | nil =>
    simp only [inTurn, Prod.mk.injEq, Except.ok.injEq]
    constructor
    · rintro ⟨⟨rfl, rfl⟩, rfl⟩
      simp
    · rintro ⟨⟨rfl, rfl⟩, h⟩
      simpa using h.symm
  | cons item items ih =>
    rw [inTurn, inTurn, limited]
    rcases one s item with ⟨u, error | data⟩
    · simp
    by_cases hd : data.length ≤ n
    · simp only [if_pos hd, extend_eq_ok, ih]
      constructor
      · rintro ⟨rs, ⟨h, hs⟩, rfl⟩
        exact ⟨⟨rs, h, rfl⟩, by simp; omega⟩
      · rintro ⟨⟨rs, h, rfl⟩, hs⟩
        rw [singleton_append, map_cons, sum_cons] at hs
        exact ⟨rs, ⟨h, by omega⟩, rfl⟩
    · simp only [if_neg hd, extend_eq_ok]
      constructor
      · nofun
      · rintro ⟨⟨rs, h, rfl⟩, hs⟩
        rw [singleton_append, map_cons, sum_cons] at hs
        omega

end Limited

/-- The client, with the vectors of its backends. -/
structure Client (σ : Type) where
  owner : Nat
  currentIdentity : Option Nat
  openFlagsToLibc : Nat → VfResult Nat
  vopen : Option Nat → OrderedVector σ OpenOp Inner
  vread : Nat → Option Nat → OrderedVector σ (ReadAt Inner) ReadResult
  vreadInto : Nat → Option Nat → OrderedVector σ (ReadAt Inner) ReadIntoResult
  vwrite : Option Nat → OrderedVector σ (WriteAt Inner) WriteResult
  vwriteAll : Option Nat → OrderedVector σ (WriteAt Inner) WriteResult
  vclose : Option Nat → OrderedVector σ Inner Unit
  readFile : Option Nat → σ → Bytes → σ × VfResult Bytes
  /-- Whole files, with the budget beside the state. -/
  readFiles : Option Nat → OrderedVector (σ × Nat) Bytes Bytes
  readFiles_one : ∀ backend, (readFiles backend).one = limited (readFile backend)

section Runs

variable (dispatch : Option Nat → σ → List ι → σ × VfResult (List R)) (route : τ → Route)
  (project : τ → ι) (skip : τ → Option R)

/-- The loop over the runs of operands of one backend. An operand that is passed over, with the
result `skip`, ends a run. -/
def runsFrom (start : Nat) (output : List R) (s : σ) : List τ → σ × VfResult (List R)
  | [] => (s, .ok output)
  | first :: rest =>
    match skip first with
    | some result => runsFrom (start + 1) (output ++ [result]) s rest
    | none =>
      let joins item := (skip item).isNone && (route first).sameBackend (route item)
      let batch := first :: rest.takeWhile joins
      match dispatch (route first).backend s (batch.map project) with
      | (s, .error error) => (s, .error (indexed error start))
      | (s, .ok results) =>
        runsFrom (start + batch.length) (output ++ results) s (rest.dropWhile joins)
termination_by items => items.length
decreasing_by
  · exact Nat.lt_succ_self _
  · exact Nat.lt_succ_of_le (dropWhile_suffix _).length_le

variable (vector : Option Nat → OrderedVector σ ι R)

/-- One operand on its own route. -/
def each (s : σ) (item : τ) : σ × VfResult R :=
  match skip item with
  | some result => (s, .ok result)
  | none => (vector (route item).backend).one s (project item)

variable {vector route project skip}

/-- The vector for a run does its operands one at a time, each on its own route. -/
theorem run_batch {first : τ} (hf : skip first = none) (rest : List τ) (s : σ) :
    let batch := first :: rest.takeWhile fun item =>
      (skip item).isNone && (route first).sameBackend (route item)
    (vector (route first).backend).run s (batch.map project) =
      inTurn (each route project skip vector) s batch := by
  intro batch
  have hb (item : τ) (hm : item ∈ batch) :
      skip item = none ∧ (route item).backend = (route first).backend := by
    rcases mem_cons.mp hm with rfl | hm
    · exact ⟨hf, rfl⟩
    · have hj := mem_takeWhile_imp hm
      rw [Bool.and_eq_true, Option.isNone_iff_eq_none, Route.sameBackend_iff] at hj
      exact ⟨hj.1, hj.2.symm⟩
  rw [(vector (route first).backend).inOrder]
  refine inTurn_map (fun item hm s => ?_) s
  rw [each, (hb item hm).1, (hb item hm).2]

/-- The loop over the runs does the operands one at a time. -/
theorem runsFrom_eq (start : Nat) (output : List R) (s : σ) (items : List τ) :
    runsFrom (fun backend => (vector backend).run) route project skip start output s items =
      extend start output (inTurn (each route project skip vector) s items) := by
  fun_induction runsFrom (fun backend => (vector backend).run) route project skip start output s
    items with
  | case1 start output s => simp [inTurn, extend]
  | case2 start output s first rest result hs ih =>
    rw [ih, inTurn, each, hs]
    exact (extend_extend start 1 output [result] _).symm
  | case3 start output s first rest hs joins batch t error hr =>
    have hi := (run_batch hs rest s).symm.trans hr
    rw [← takeWhile_append_dropWhile (p := joins) (l := rest), ← cons_append, inTurn_append, hi]
    rfl
  | case4 start output s first rest hs joins batch t results hr ih =>
    have hi := (run_batch hs rest s).symm.trans hr
    rw [ih]
    nth_rewrite 2 [← takeWhile_append_dropWhile (p := joins) (l := rest)]
    rw [← cons_append, inTurn_append, hi]
    exact (extend_extend _ _ _ _ _).symm

theorem runsFrom_start (s : σ) (items : List τ) :
    runsFrom (fun backend => (vector backend).run) route project skip 0 [] s items =
      inTurn (each route project skip vector) s items := by
  rw [runsFrom_eq, extend_zero]

variable {inner : ι → Inner} {explain : Inner → VfError → VfError}

/-- With vectors that look at their files first, the loop goes run by run. -/
theorem runsFrom_onOpenFiles (start : Nat) (output : List R) (s : σ) (items : List τ) :
    runsFrom (fun backend => onOpenFiles inner explain (vector backend)) route project
        (fun _ => none) start output s items =
      extend start output (eachRun (fun a b => (route a).sameBackend (route b))
        (firstClosed (inner ∘ project) explain 0) (each route project (fun _ => none) vector)
        s items) := by
  fun_induction runsFrom (fun backend => onOpenFiles inner explain (vector backend)) route project
    (fun _ => none) start output s items with
  | case1 start output s => simp [eachRun, extend]
  | case2 start output s first rest result hskip => cases hskip
  | case3 start output s first rest hskip joins batch t error hrun =>
    rw [onOpenFiles, firstClosed_map, run_batch hskip rest s] at hrun
    rw [eachRun]
    change _ = extend start output (match firstClosed (inner ∘ project) explain 0 batch with
      | some error => _
      | none => match inTurn (each route project (fun _ => none) vector) s batch with
        | (s, .error error) => _
        | (s, .ok results) => _)
    split at hrun
    · cases hrun
      rfl
    · change inTurn (each route project (fun _ => none) vector) s batch = _ at hrun
      rw [hrun]
      rfl
  | case4 start output s first rest hskip joins batch t results hrun ih =>
    rw [onOpenFiles, firstClosed_map, run_batch hskip rest s] at hrun
    rw [ih, eachRun]
    change _ = extend start output (match firstClosed (inner ∘ project) explain 0 batch with
      | some error => _
      | none => match inTurn (each route project (fun _ => none) vector) s batch with
        | (s, .error error) => _
        | (s, .ok results) => _)
    split at hrun
    · cases hrun
    · change inTurn (each route project (fun _ => none) vector) s batch = _ at hrun
      rw [hrun]
      exact (extend_extend _ _ _ _ _).symm

end Runs

/-- A check that is made before anything is sent. -/
def guarded (check : VfResult Unit) (s : σ) (done : σ × VfResult Z) : σ × VfResult Z :=
  match check with
  | .error error => (s, .error error)
  | .ok () => done

namespace Client

variable (client : Client σ)

variable (s : σ) (requests : List (OpenOp × Resolved)) (resolved : List Resolved)
  (maxTotalBytes : Nat) (file : AutoFile) (files : List AutoFile) (complete : Bool)
  (maxBytes : Nat)

def checkOwner (index : Nat) : VfResult Unit :=
  if client.owner ≠ file.owner then .error (.fromKind (some index) .invalidInput)
  else
    match file.route with
    | .posix => .ok ()
    | .nfs connection =>
      if client.currentIdentity ≠ some connection.credentials then
        let error := (VfError.errno (some 0) eacces).withContext "auto_auth" file.path
        .error (error.withIndex index)
      else .ok ()

def validateOpenRequests : Nat → List OpenOp → VfResult Unit
  | _, [] => .ok ()
  | index, request :: rest =>
    match client.openFlagsToLibc request.flags with
    | .error error => .error ((error.withIndex index).withContext "vopen" request.path)
    | .ok _ => validateOpenRequests (index + 1) rest

/-- The results are handles, which the client wraps with the caller's paths. -/
def vopenResolved :
    σ × VfResult (List AutoFile) :=
  let done := runsFrom (fun backend => (client.vopen backend).run) (·.2.route)
    (fun request => {request.1 with path := request.2.path}) (fun _ => none) 0 [] s requests
  (done.1, done.2.map (zipWith
    (fun request inner => ⟨request.1.path, request.2.route, inner, client.owner⟩) requests))

def vopenImpl : σ × VfResult (List AutoFile) :=
  guarded (client.validateOpenRequests 0 (requests.map Prod.fst)) s
    (client.vopenResolved s requests)

/-- The files of one run. What they take of the budget is counted again. -/
def runFiles (backend : Option Nat) (s : σ × Nat) (paths : List Bytes) :
    (σ × Nat) × VfResult (List Bytes) :=
  match (client.readFiles backend).run s paths with
  | (t, .error error) => (t, .error error)
  | (t, .ok buffers) =>
    match spend s.2 buffers with
    | none => (t, .error (.errno (some 0) efbig))
    | some remaining => ((t.1, remaining), .ok buffers)

theorem runFiles_inOrder (backend : Option Nat) (s : σ × Nat) (paths : List Bytes) :
    client.runFiles backend s paths = inTurn (limited (client.readFile backend)) s paths := by
  rw [runFiles, (client.readFiles backend).inOrder, client.readFiles_one]
  rcases hr : inTurn (limited (client.readFile backend)) s paths with ⟨⟨t, m⟩, error | files⟩
  · rfl
  · have hm : spend s.2 files = some m := spend_eq_some.mpr (inTurn_limited.mp hr).2
    dsimp only
    rw [hm]

def filesVector (backend : Option Nat) : OrderedVector (σ × Nat) Bytes Bytes where
  run := client.runFiles backend
  one := limited (client.readFile backend)
  inOrder := client.runFiles_inOrder backend

def readFilesNative :
    σ × VfResult (List Bytes) :=
  dropBudget (runsFrom (fun backend => (client.filesVector backend).run) Resolved.route
    Resolved.path (fun _ => none) 0 [] (s, maxTotalBytes) resolved)

/-- A sum that overflows is above every limit. -/
def checkReads (maxBytes : Nat) : Nat → Nat → List (ReadAt AutoFile) → VfResult Unit
  | _, _, [] => .ok ()
  | index, requested, request :: rest => do
    client.checkOwner request.file index
    if requested + request.length > maxBytes then .error (.errno (some index) efbig)
    else checkReads maxBytes (index + 1) (requested + request.length) rest

def projectRead (request : ReadAt AutoFile) : ReadAt Inner :=
  ⟨request.file.inner, request.offset, request.length⟩

/-- `with_context`, as the vectors of `FsClient` add it. -/
def inContext (operation : String) (file : Inner) (error : VfError) : VfError :=
  error.withContext operation file.path

def vreadWithLimit (requests : List (ReadAt AutoFile)) (maxBytes : Nat) :
    σ × VfResult (List ReadResult) :=
  guarded (client.checkReads maxBytes 0 0 requests) s
    (runsFrom (fun backend => onOpenFiles ReadAt.file (inContext "vread_native")
      (client.vread maxBytes backend)) (·.file.route) projectRead (fun _ => none) 0 [] s requests)

def vreadIntoWithLimit (requests : List (ReadAt AutoFile)) (maxBytes : Nat) :
    σ × VfResult (List ReadIntoResult) :=
  guarded (client.checkReads maxBytes 0 0 requests) s
    (runsFrom (fun backend => onOpenFiles ReadAt.file (inContext "vread_into_native")
      (client.vreadInto maxBytes backend)) (·.file.route) projectRead (fun _ => none) 0 [] s
      requests)

def checkWrites (complete : Bool) : Nat → List (WriteAt AutoFile) → VfResult Unit
  | _, [] => .ok ()
  | index, request :: rest => do
    client.checkOwner request.file index
    if complete && request.file.inner.isClosed then
      .error ((VfError.errno (some index) VfError.errEbadf).withContext "vwrite_native"
        request.file.path)
    else if complete && decide (request.offset + request.data.length > u64Max) then
      .error ((VfError.errno (some index) VfError.eoverflow).withContext "vwrite_native"
        request.file.path)
    else checkWrites complete (index + 1) rest

def projectWrite (request : WriteAt AutoFile) : WriteAt Inner :=
  ⟨request.file.inner, request.offset, request.data⟩

/-- The files of a complete write were all checked before. -/
def writing (backend : Option Nat) : σ → List (WriteAt Inner) → σ × VfResult (List WriteResult) :=
  if complete then (client.vwriteAll backend).run
  else onOpenFiles WriteAt.file (fun _ error => error) (client.vwrite backend)

def writeVector (requests : List (WriteAt AutoFile)) (complete : Bool) :
    σ × VfResult (List WriteResult) :=
  guarded (client.checkWrites complete 0 requests) s
    (runsFrom (client.writing complete) (·.file.route) projectWrite (fun _ => none) 0 [] s
      requests)

def checkOwners : Nat → List AutoFile → VfResult Unit
  | _, [] => .ok ()
  | index, file :: rest => do
    client.checkOwner file index
    checkOwners (index + 1) rest

/-- A file that is closed already is passed over. -/
def closed : Option Unit := if file.inner.isClosed then some () else none

def vcloseImpl : σ × VfResult Unit :=
  let done := runsFrom (fun backend => (client.vclose backend).run) AutoFile.route AutoFile.inner
    closed 0 [] s files
  guarded (client.checkOwners 0 files) s (done.1, done.2.map fun _ => ())

/-! ### One operand at a time -/

def openOne (request : OpenOp × Resolved) : σ × VfResult AutoFile :=
  let done := (client.vopen request.2.route.backend).one s {request.1 with path := request.2.path}
  (done.1, done.2.map fun inner => ⟨request.1.path, request.2.route, inner, client.owner⟩)

def readFileOne (item : Resolved) : σ × VfResult Bytes :=
  client.readFile item.route.backend s item.path

def readOne (s : σ) (request : ReadAt AutoFile) : σ × VfResult ReadResult :=
  (client.vread maxBytes request.file.route.backend).one s (projectRead request)

def readIntoOne (s : σ) (request : ReadAt AutoFile) :
    σ × VfResult ReadIntoResult :=
  (client.vreadInto maxBytes request.file.route.backend).one s (projectRead request)

def writeOne (s : σ) (request : WriteAt AutoFile) : σ × VfResult WriteResult :=
  (if complete then client.vwriteAll else client.vwrite) request.file.route.backend |>.one s
    (projectWrite request)

/-- Adjacent operands go out together if their files are on one backend. -/
def together (file : τ → AutoFile) (a b : τ) : Bool := (file a).route.sameBackend (file b).route

/-- The first closed file of a run. -/
def closedIn (operation : Option String) (file : τ → AutoFile) (run : List τ) : Option VfError :=
  firstClosed (fun item => (file item).inner)
    (fun inner error => operation.elim error fun operation => inContext operation inner error) 0 run

def closeOne : σ × VfResult Unit :=
  if file.inner.isClosed then (s, .ok ()) else (client.vclose file.route.backend).one s file.inner

variable {client}

theorem vopenImpl_eq : client.vopenImpl s requests =
      guarded (client.validateOpenRequests 0 (requests.map Prod.fst)) s
        (inTurn client.openOne s requests) := by
  rw [vopenImpl, vopenResolved, runsFrom_start]
  congr 1
  exact (inTurn_zipWith _ s requests).symm

theorem readFilesNative_eq : client.readFilesNative s resolved maxTotalBytes =
      dropBudget (inTurn (limited client.readFileOne) (s, maxTotalBytes) resolved) := by
  rw [readFilesNative, runsFrom_start]
  rfl

theorem readFilesNative_ok_iff (t : σ) (files : List Bytes) :
    client.readFilesNative s resolved maxTotalBytes = (t, .ok files) ↔
      inTurn client.readFileOne s resolved = (t, .ok files) ∧
        (files.map length).sum ≤ maxTotalBytes := by
  rw [readFilesNative_eq]
  rcases hr : inTurn (limited client.readFileOne) (s, maxTotalBytes) resolved with ⟨⟨u, m⟩, r⟩
  constructor
  · rintro ⟨⟩
    obtain ⟨h, hm⟩ := inTurn_limited.mp hr
    exact ⟨h, by omega⟩
  · rintro ⟨h, hm⟩
    rw [inTurn_limited.mpr ⟨h, Nat.add_sub_cancel' hm⟩] at hr
    cases hr
    rfl

theorem vcloseImpl_eq : client.vcloseImpl s files = guarded (client.checkOwners 0 files) s
      ((inTurn client.closeOne s files).1, (inTurn client.closeOne s files).2.map fun _ => ()) := by
  have ho : each AutoFile.route AutoFile.inner closed client.vclose = client.closeOne := by
    funext s file
    rw [each, closeOne, closed]
    cases file.inner.isClosed <;> rfl
  rw [vcloseImpl, runsFrom_start, ho]

section OpenFiles

variable {s}

theorem closedIn_eq_none {operation : Option String} {file : τ → AutoFile} {items : List τ}
    (h : ∀ item ∈ items, (file item).inner.isClosed = false) (run : List τ)
    (hrun : ∀ item ∈ run, item ∈ items) : closedIn operation file run = none :=
  firstClosed_eq_none (fun item hm => h item (hrun item hm)) 0

theorem vreadWithLimit_eq (requests : List (ReadAt AutoFile)) (maxBytes : Nat) :
    client.vreadWithLimit s requests maxBytes =
      guarded (client.checkReads maxBytes 0 0 requests) s
        (eachRun (together ReadAt.file) (closedIn (some "vread_native") ReadAt.file)
          (client.readOne maxBytes) s requests) := by
  rw [vreadWithLimit, runsFrom_onOpenFiles, extend_zero]
  rfl

theorem vreadIntoWithLimit_eq (requests : List (ReadAt AutoFile)) (maxBytes : Nat) :
    client.vreadIntoWithLimit s requests maxBytes =
      guarded (client.checkReads maxBytes 0 0 requests) s
        (eachRun (together ReadAt.file) (closedIn (some "vread_into_native") ReadAt.file)
          (client.readIntoOne maxBytes) s requests) := by
  rw [vreadIntoWithLimit, runsFrom_onOpenFiles, extend_zero]
  rfl

theorem writeVector_incomplete (requests : List (WriteAt AutoFile)) :
    client.writeVector s requests false =
      guarded (client.checkWrites false 0 requests) s
        (eachRun (together WriteAt.file) (closedIn none WriteAt.file)
          (client.writeOne false) s requests) := by
  change guarded _ s (runsFrom (fun backend => onOpenFiles WriteAt.file (fun _ error => error)
    (client.vwrite backend)) (·.file.route) projectWrite (fun _ => none) 0 [] s requests) = _
  rw [runsFrom_onOpenFiles, extend_zero]
  rfl

theorem writeVector_complete (requests : List (WriteAt AutoFile)) :
    client.writeVector s requests true =
      guarded (client.checkWrites true 0 requests) s
        (inTurn (client.writeOne true) s requests) := by
  change guarded _ s (runsFrom (fun backend => (client.vwriteAll backend).run) (·.file.route)
    projectWrite (fun _ => none) 0 [] s requests) = _
  rw [runsFrom_start]
  rfl

end OpenFiles

end Client

/-- A vector that does nothing but note its items. -/
def noting (result : VfResult R) : OrderedVector (List Unit) ι R where
  run := inTurn fun log _ => (() :: log, result)
  one log _ := (() :: log, result)
  inOrder _ _ := rfl

/-- A client all of whose writes fail with ENOSPC. -/
def fullDisk : Client (List Unit) where
  owner := 0
  currentIdentity := none
  openFlagsToLibc := .ok
  vopen _ := noting (.ok ⟨0, [], false⟩)
  vread _ _ := noting (.ok ⟨0, [], true⟩)
  vreadInto _ _ := noting (.ok ⟨0, 0, true⟩)
  vwrite _ := noting (.error (.errno (some 0) 28))
  vwriteAll _ := noting (.error (.errno (some 0) 28))
  vclose _ := noting (.ok ())
  readFile _ log _ := (log, .ok [])
  readFiles _ := ⟨_, limited fun log _ => (log, .ok []), fun _ _ => rfl⟩
  readFiles_one _ := rfl

end Vnfs.Auto.Dispatch
