import Vnfs.Nfs.Namespace
import Vnfs.PathIo

/-!
`open_path_batch`: the phased fallback opens every file of a vector that is named
by a path. It looks all of them up, opens them in one batch and truncates those
that ask for it in another. The batches see sub-vectors, so the index in a batch's
error has to be taken back to the caller's vector.

The remote calls are parameters over a state of their own. What the batches return
is recorded with the result: the files that were opened, and the CLOSEs of the
cleanup with their answer. A CLOSE batch that fails left an open file behind.
-/

namespace Vnfs.Nfs

open List

def errIsdir : Nat := 21

/-- `NF4LNK`. -/
def nf4lnk : Nat := 5

structure PathBatchCalls (σ : Type) where
  serverVfPath : σ → FileOperand → VfResult Bytes
  resolvePath : σ → Bytes → σ × VfResult NfsFh
  lookupGetattrMany : σ → List (NfsFh × Bytes) → σ × RpcResult (List (Except Status (NfsFh × Nat)))
  followTargetPath : σ → Bytes → σ × VfResult Bytes
  lookupGetattr : σ → NfsFh → Bytes → σ × RpcResult (NfsFh × Nat)
  openManyPath : σ → List OpenOp → σ × RpcResult (List (NfsFh × Stateid))
  setattrMany : σ → List SetattrOp → σ × RpcResult Unit
  closeManyPath : σ → List CloseOp → σ × RpcResult Unit
  insertOpenFile : σ → NfsFh × Stateid → σ × VfResult Int
  /-- A batch that succeeds opened all its items. -/
  openManyPath_length : ∀ s ops results, (openManyPath s ops).2 = .ok results →
    results.length = ops.length

/-- A path operand to look up: its place in the vector, the directory and the name. -/
structure PathLookup where
  orig : Nat
  dir : NfsFh
  name : Bytes

section

variable {σ : Type} (calls : PathBatchCalls σ)

/-- The loop over the operands. `cache` has the directories resolved so far. -/
def collectLookups (s : σ) (cache : Bytes → Option NfsFh) (i : Nat) :
    List FileOperand → σ × VfResult (List PathLookup)
  | [] => (s, .ok [])
  | .fd _ :: rest => collectLookups s cache (i + 1) rest
  | .cwd :: _ => (s, .error (.errno (some i) errIsdir))
  | .saved :: _ => (s, .error (.errno (some i) errNoent))
  | file :: rest =>
    match calls.serverVfPath s file with
    | .error e => (s, .error (e.withIndex i))
    | .ok full =>
      match splitPathBytes full with
      | none => (s, .error (.errno (some i) errNoent))
      | some (dir, name) =>
        let resolved : σ × VfResult NfsFh := match cache dir with
          | some fh => (s, .ok fh)
          | none => calls.resolvePath s dir
        match resolved with
        | (s, .error e) => (s, .error (e.withIndex i))
        | (s, .ok fh) =>
          match collectLookups s (Function.update cache dir (some fh)) (i + 1) rest with
          | (s, .error e) => (s, .error e)
          | (s, .ok lookups) => (s, .ok (⟨i, fh, name⟩ :: lookups))

variable (files : List FileOperand) (creation : List Bool) (access : UInt32)
  (s : σ) (truncate : List Bool)

/-- A symlink is followed to the file to open. -/
def planSymlink (orig : Nat) : σ × VfResult OpenOp :=
  match calls.serverVfPath s ((files[orig]?).getD .cwd) with
  | .error e => (s, .error e)
  | .ok full =>
    match calls.followTargetPath s full with
    | (s, .error e) => (s, .error (e.withIndex orig))
    | (s, .ok full) =>
      match splitPathBytes full with
      | none => (s, .error (.errno (some orig) errNoent))
      | some (dir, name) =>
        match calls.resolvePath s dir with
        | (s, .error e) => (s, .error (e.withIndex orig))
        | (s, .ok dirfh) =>
          match calls.lookupGetattr s dirfh name with
          | (s, .ok _) => (s, .ok ⟨dirfh, name, access, .noCreate⟩)
          | (s, .error e) =>
            if e.status = Status.noent then
              if (creation[orig]?).getD false then
                (s, .ok ⟨dirfh, name, access, .guarded⟩)
              else (s, .error (.errno (some orig) errNoent))
            else (s, .error (errorFromRpc e (some orig)))

def planOpen (lookup : PathLookup) (result : Except Status (NfsFh × Nat)) :
    σ × VfResult OpenOp :=
  match result with
  | .ok (_, ftype) =>
    if ftype = nf4lnk then planSymlink calls files creation access s lookup.orig
    else (s, .ok ⟨lookup.dir, lookup.name, access, .noCreate⟩)
  | .error status =>
    if status = Status.noent then
      if (creation[lookup.orig]?).getD false then
        (s, .ok ⟨lookup.dir, lookup.name, access, .guarded⟩)
      else (s, .error (.errno (some lookup.orig) errNoent))
    else (s, .error (.nfs (some lookup.orig) status.toNat))

def planOpens (s : σ) :
    List (PathLookup × Except Status (NfsFh × Nat)) → σ × VfResult (List (Nat × OpenOp))
  | [] => (s, .ok [])
  | (lookup, result) :: rest =>
    match planOpen calls files creation access s lookup result with
    | (s, .error e) => (s, .error e)
    | (s, .ok op) =>
      match planOpens s rest with
      | (s, .error e) => (s, .error e)
      | (s, .ok opens) => (s, .ok ((lookup.orig, op) :: opens))

def planBatch : σ × VfResult (List (Nat × OpenOp)) :=
  match collectLookups calls s (fun _ => none) 0 files with
  | (s, .error e) => (s, .error e)
  | (s, .ok lookups) =>
    if lookups.isEmpty then (s, .ok [])
    else
      match calls.lookupGetattrMany s (lookups.map fun l => (l.dir, l.name)) with
      | (s, .error e) => (s, .error (errorFromRpc e none))
      | (s, .ok results) => planOpens calls files creation access s (lookups.zip results)

abbrev Closing := Option (List CloseOp × RpcResult Unit)

/-- `truncate_path_opens` with `prepare_path_opens`. -/
def truncatePathOpens (opened : List (NfsFh × Stateid)) (setattrOps : List SetattrOp)
    (subset : List Nat) : σ × VfResult Unit × Closing :=
  match calls.setattrMany s setattrOps with
  | (s, .ok ()) => (s, .ok (), none)
  | (s, .error e) =>
    let error := (errorFromRpcIndexed e).mapIndex fun relative =>
      (subset[relative]?).getD relative
    if opened.isEmpty then (s, .error error, none)
    else
      let closes := opened.map fun file => ⟨file.1, file.2⟩
      let (s, closed) := calls.closeManyPath s closes
      (s, .error error, some (closes, closed))

/-- The descriptors of the opened files, at their places in the vector. -/
def insertOpened (s : σ) (tmp : List (Option Int)) :
    List (Nat × (NfsFh × Stateid)) → σ × VfResult (List (Option Int))
  | [] => (s, .ok tmp)
  | (orig, file) :: rest =>
    match calls.insertOpenFile s file with
    | (s, .error e) => (s, .error e)
    | (s, .ok fd) => insertOpened s (tmp.set orig (some fd)) rest

structure OpenBatchDone (σ : Type) where
  state : σ
  result : VfResult (List (Option Int))
  opened : List (NfsFh × Stateid)
  closing : Closing

def truncates (orig : Nat) : Bool := (truncate[orig]?).getD false

/-- The SETATTRs of the files that ask for truncation. -/
def setattrOpsOf (subset : List Nat) (results : List (NfsFh × Stateid)) :
    List SetattrOp :=
  ((subset.zip results).filter fun file => truncates truncate file.1).map fun file =>
    ⟨file.2.1, {size := some 0}⟩

def openPathBatch (forWrite : Bool) (truncate : List Bool) (s : σ) : OpenBatchDone σ :=
  let access := if forWrite then shareAccessBoth else shareAccessRead
  match planBatch calls files creation access s with
  | (s, .error e) => ⟨s, .error e, [], none⟩
  | (s, .ok opens) =>
    if opens.isEmpty then ⟨s, .ok (replicate files.length none), [], none⟩
    else
      let subset := opens.map Prod.fst
      match calls.openManyPath s (opens.map Prod.snd) with
      | (s, .error e) =>
        ⟨s, .error ((errorFromRpcIndexed e).mapIndex fun relative =>
          (subset[relative]?).getD relative), [], none⟩
      | (s, .ok results) =>
        let setattrOps := setattrOpsOf truncate subset results
        let (s, truncated, closing) :=
          if setattrOps.isEmpty then (s, .ok (), none)
          else truncatePathOpens calls s results setattrOps subset
        match truncated with
        | .error e => ⟨s, .error e, results, closing⟩
        | .ok () =>
          let (s, result) := insertOpened calls s (replicate files.length none)
            (subset.zip results)
          ⟨s, result, results, closing⟩

end

section Selection

variable {α : Type} {p : α → Bool}

theorem filter_position {l : List α} {r : Nat} {y : α} (h : (l.filter p)[r]? = some y) :
    ∃ q, r ≤ q ∧ l[q]? = some y := by
  induction l generalizing r with
  | nil => simp at h
  | cons x l ih =>
    by_cases hx : p x
    · rw [filter_cons_of_pos hx] at h
      cases r with
      | zero => exact ⟨0, Nat.le_refl _, h⟩
      | succ r =>
        obtain ⟨q, hq, hy⟩ := ih h
        exact ⟨q + 1, by omega, hy⟩
    · rw [filter_cons_of_neg hx] at h
      obtain ⟨q, hq, hy⟩ := ih h
      exact ⟨q + 1, by omega, hy⟩

/-- A position means the same in a list of distinct elements and in a selection
from it iff everything up to there is selected. -/
theorem filter_getElem?_eq_iff {l : List α} (hd : l.Nodup) {r : Nat}
    (hr : r < (l.filter p).length) :
    (l.filter p)[r]? = l[r]? ↔ ∀ x ∈ l.take (r + 1), p x = true := by
  induction l generalizing r with
  | nil => cases hr
  | cons x l ih =>
    obtain ⟨hn, hd⟩ := nodup_cons.mp hd
    by_cases hx : p x
    · rw [filter_cons_of_pos hx] at hr ⊢
      cases r with
      | zero => simp [hx]
      | succ r =>
        have hlt : r < (l.filter p).length := by simpa using hr
        rw [getElem?_cons_succ, getElem?_cons_succ, ih hd hlt]
        simp [hx]
    rw [filter_cons_of_neg hx] at hr ⊢
    refine iff_of_false (fun heq => ?_) (fun ha => hx (ha x (by simp)))
    -- the selected element comes from further behind
    obtain ⟨q, hq, hy⟩ := filter_position (getElem?_eq_getElem hr)
    rw [getElem?_eq_getElem hr] at heq
    cases r with
    | zero =>
      rw [heq] at hy
      exact hn (mem_of_getElem? hy)
    | succ r =>
      rw [getElem?_cons_succ, ← hy] at heq
      have hlt := (List.getElem?_eq_some_iff.mp hy).1
      have hs := (getElem?_inj hlt hd).mp heq
      omega

theorem zip_fst_sublist {β : Type} (l : List α) (l' : List β) :
    ((l.zip l').map Prod.fst).Sublist l := by
  induction l generalizing l' with
  | nil => simp
  | cons x l ih =>
    cases l' with
    | nil => simp
    | cons y l' => simpa using (ih l').cons_cons x

end Selection

section

variable {σ : Type} {calls : PathBatchCalls σ} {files : List FileOperand} {creation : List Bool}
  {access : UInt32} {s s' : σ} {opens : List (Nat × OpenOp)} {subset : List Nat}
  {results : List (NfsFh × Stateid)} {error : RpcError}

theorem collectLookups_sorted {cache : Bytes → Option NfsFh} {i : Nat} {files : List FileOperand}
    {lookups : List PathLookup} (h : collectLookups calls s cache i files = (s', .ok lookups)) :
    (lookups.map PathLookup.orig).Pairwise (· < ·) ∧ ∀ lookup ∈ lookups, i ≤ lookup.orig := by
  induction files generalizing s s' cache i lookups with
  | nil =>
    cases h
    exact ⟨.nil, by simp⟩
  | cons file rest ih =>
    unfold collectLookups at h
    split at h
    · rename_i heq
      cases heq
    · rename_i heq
      cases heq
      obtain ⟨hs, hl⟩ := ih h
      exact ⟨hs, fun lookup hm => Nat.le_of_succ_le (hl lookup hm)⟩
    · cases h
    · cases h
    rename_i heq
    cases heq
    split at h
    · cases h
    split at h
    · cases h
    dsimp only at h
    split at h
    · cases h
    split at h
    · cases h
    rename_i hr
    cases h
    obtain ⟨hs, hl⟩ := ih hr
    refine ⟨pairwise_cons.mpr ⟨?_, hs⟩, ?_⟩
    · intro orig ho
      obtain ⟨lookup, hm, rfl⟩ := mem_map.mp ho
      exact hl lookup hm
    intro lookup hm
    rcases mem_cons.mp hm with rfl | hla
    · exact Nat.le_refl _
    · exact Nat.le_of_succ_le (hl lookup hla)

theorem planOpens_origs {pairs : List (PathLookup × Except Status (NfsFh × Nat))}
    (h : planOpens calls files creation access s pairs = (s', .ok opens)) :
    opens.map Prod.fst = pairs.map fun pair => pair.1.orig := by
  induction pairs generalizing s s' opens with
  | nil =>
    cases h
    rfl
  | cons pair rest ih =>
    rw [planOpens] at h
    split at h
    · cases h
    split at h
    · cases h
    · rename_i hr
      cases h
      simp [ih hr]

theorem planBatch_nodup (h : planBatch calls files creation access s = (s', .ok opens)) :
    (opens.map Prod.fst).Nodup := by
  unfold planBatch at h
  split at h
  · cases h
  rename_i lookups hl
  split at h
  · cases h
    simp
  split at h
  · cases h
  rename_i results hr
  rw [planOpens_origs h]
  have hs := (zip_fst_sublist lookups results).map PathLookup.orig
  rw [map_map] at hs
  refine hs.nodup ?_
  exact (collectLookups_sorted hl).1.imp fun hlt => Nat.ne_of_lt hlt

theorem setattrOpsOf_length (truncate : List Bool) (hl : results.length = subset.length) :
    (setattrOpsOf truncate subset results).length =
      (subset.filter (truncates truncate)).length := by
  have hf : (subset.zip results).map Prod.fst = subset := map_fst_zip (Nat.le_of_eq hl.symm)
  conv_rhs => rw [← hf, filter_map, length_map]
  simp [setattrOpsOf, Function.comp_def]

/-- The closes of all opened files, as the cleanup asks for them. -/
def closesOf (opened : List (NfsFh × Stateid)) : List CloseOp :=
  opened.map fun file => ⟨file.1, file.2⟩

/-- The cleanup asked to close every opened file and was told that it did. -/
def OpenBatchDone.AllClosed (done : OpenBatchDone σ) : Prop :=
  ∃ closes, done.closing = some (closes, .ok ()) ∧
    ∀ file ∈ done.opened, (⟨file.1, file.2⟩ : CloseOp) ∈ closes

theorem mapIndex_subset (hs : error.isTransport = false) (hlt : error.opIndex < subset.length) :
    ((errorFromRpcIndexed error).mapIndex fun relative =>
      (subset[relative]?).getD relative).index = subset[error.opIndex]? := by
  unfold errorFromRpcIndexed errorFromRpc
  simp only [hs, Bool.false_eq_true, if_false]
  split <;> simp [VfError.mapIndex, VfError.nfs, VfError.withMessage, hlt]

theorem openPathBatch_truncate_error {forWrite : Bool} {truncate : List Bool} {s₁ s₂ s₃ : σ}
    (hpl : planBatch calls files creation
      (if forWrite then shareAccessBoth else shareAccessRead) s = (s₁, .ok opens))
    (hopen : calls.openManyPath s₁ (opens.map Prod.snd) = (s₂, .ok results))
    (hse : calls.setattrMany s₂ (setattrOpsOf truncate (opens.map Prod.fst) results) =
      (s₃, .error error))
    (hp : error.opIndex < ((opens.map Prod.fst).filter (truncates truncate)).length) :
    openPathBatch calls files creation forWrite truncate s =
      ⟨(calls.closeManyPath s₃ (closesOf results)).1,
        .error ((errorFromRpcIndexed error).mapIndex fun relative =>
          ((opens.map Prod.fst)[relative]?).getD relative), results,
        some (closesOf results, (calls.closeManyPath s₃ (closesOf results)).2)⟩ := by
  have hl : results.length = (opens.map Prod.fst).length := by
    have hr := calls.openManyPath_length s₁ (opens.map Prod.snd) results (by rw [hopen])
    rw [hr, length_map, length_map]
  have hs : (setattrOpsOf truncate (opens.map Prod.fst) results).isEmpty = false := by
    refine isEmpty_eq_false_iff.mpr (ne_nil_of_length_pos ?_)
    rw [setattrOpsOf_length truncate hl]
    exact Nat.lt_of_le_of_lt (Nat.zero_le _) hp
  have ho : opens.isEmpty = false := by
    cases opens with
    | nil => simp at hp
    | cons first rest => rfl
  have hr : results.isEmpty = false := by
    cases results with
    | nil =>
      cases opens with
      | nil => simp at hp
      | cons first rest => simp at hl
    | cons first rest => rfl
  unfold openPathBatch
  simp only [hpl, ho, hopen, hs, truncatePathOpens, hse, hr, Bool.false_eq_true, if_false, closesOf]

/-- The error of a truncation that failed names the file it failed for, and every
file is closed, iff every file opened in front of it asks for truncation as well
and the cleanup succeeds: the batch's index counts the truncated files, but it is
looked up among all opened ones. -/
theorem openPathBatch_truncation_attributed {forWrite : Bool} {truncate : List Bool}
    {s s₁ s₂ s₃ : σ} {opens : List (Nat × OpenOp)} {results : List (NfsFh × Stateid)}
    {error : RpcError}
    (hplan : planBatch calls files creation
      (if forWrite then shareAccessBoth else shareAccessRead) s = (s₁, .ok opens))
    (hopen : calls.openManyPath s₁ (opens.map Prod.snd) = (s₂, .ok results))
    (hsetattr : calls.setattrMany s₂ (setattrOpsOf truncate (opens.map Prod.fst) results) =
      (s₃, .error error))
    (hstatus : error.isTransport = false)
    (hposition : error.opIndex < ((opens.map Prod.fst).filter (truncates truncate)).length) :
    (∃ returned, (openPathBatch calls files creation forWrite truncate s).result =
        .error returned ∧
      returned.index = ((opens.map Prod.fst).filter (truncates truncate))[error.opIndex]?) ∧
      (openPathBatch calls files creation forWrite truncate s).AllClosed ↔
    (∀ orig ∈ (opens.map Prod.fst).take (error.opIndex + 1), truncates truncate orig = true) ∧
      (calls.closeManyPath s₃ (closesOf results)).2 = .ok () := by
  rw [openPathBatch_truncate_error hplan hopen hsetattr hposition]
  have hlt : error.opIndex < (opens.map Prod.fst).length :=
    Nat.lt_of_lt_of_le hposition (length_filter_le _ _)
  have hindex := mapIndex_subset hstatus hlt
  rw [← filter_getElem?_eq_iff (planBatch_nodup hplan) hposition]
  refine and_congr ⟨?_, fun heq => ⟨_, rfl, hindex.trans heq.symm⟩⟩ ⟨?_, fun hclosed => ?_⟩
  · rintro ⟨returned, hreturned, heq⟩
    obtain rfl := Except.error.inj hreturned
    exact heq.symm.trans hindex
  · rintro ⟨closes, hclosing, -⟩
    exact congrArg Prod.snd (Option.some.inj hclosing)
  · refine ⟨closesOf results, by rw [hclosed], fun file hfile => ?_⟩
    exact mem_map_of_mem hfile

end

/-- A server with every file in one directory that refuses the first truncation. -/
def refusingCalls : PathBatchCalls Unit where
  serverVfPath _ file := match file with
    | .path _ path => .ok path
    | _ => .error (.errno none errNoent)
  resolvePath s _ := (s, .ok ⟨[1]⟩)
  lookupGetattrMany s ops := (s, .ok (ops.map fun op => .ok (⟨op.2⟩, 1)))
  followTargetPath s path := (s, .ok path)
  lookupGetattr s _ name := (s, .ok (⟨name⟩, 1))
  openManyPath s ops := (s, .ok (ops.map fun op => (⟨op.name⟩, anonymousStateid)))
  setattrMany s _ := (s, .error (.op 0 Status.inval))
  closeManyPath s _ := (s, .ok ())
  insertOpenFile s _ := (s, .ok 3)
  openManyPath_length s ops results h := by
    cases h
    exact length_map _

def twoFiles : List FileOperand := [.path .abs [47, 97], .path .abs [47, 98]]

/-- Only the second file asks for truncation, and the error names the first. -/
theorem openPathBatch_second_truncated :
    let done := openPathBatch refusingCalls twoFiles [false, false] true [false, true] ()
    done.result = .error (.nfs (some 0) Status.inval.toNat) ∧
      (setattrOpsOf [false, true] [0, 1] done.opened).map SetattrOp.fh = [⟨[98]⟩] := by
  decide

theorem openPathBatch_truncation_attributed_both :
    let done := openPathBatch refusingCalls twoFiles [false, false] true [true, true] ()
    (∃ returned, done.result = .error returned ∧ returned.index = some 0) ∧ done.AllClosed :=
  (@openPathBatch_truncation_attributed Unit refusingCalls twoFiles [false, false] true
    [true, true] () () () () [(0, ⟨⟨[1]⟩, [97], shareAccessBoth, .noCreate⟩),
      (1, ⟨⟨[1]⟩, [98], shareAccessBoth, .noCreate⟩)]
    [(⟨[97]⟩, anonymousStateid), (⟨[98]⟩, anonymousStateid)] (.op 0 Status.inval)
    rfl rfl rfl rfl (by decide)).mpr ⟨by decide, rfl⟩

end Vnfs.Nfs
