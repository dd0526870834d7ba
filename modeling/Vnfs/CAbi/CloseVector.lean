import Vnfs.Sync.StreamCohorts

/-!
`vfsi_openv` and `vfsi_closev`: opening and closing arrays of files of the C interface. The C
table and the table of the backend are separate. After a failed close the C table drops the
descriptors in front of the index of the error, as if these had been closed. That is so for an
error of a CLOSE, but not for one of the backend's checks, behind which nothing has been closed.

The backend gives every file a handle of its own. What is said of one call is then said of every
sequence of calls: while no call drops a descriptor too early, every open handle has one.
-/

namespace Vnfs.CAbi

open Option
open List hiding min

/-- The descriptors of C with their handles, which handles the backend holds open, and where C
looks for a descriptor next. -/
structure Tables where
  files : Int → Option Int
  openFiles : Int → Bool
  nextFd : Int

/-- A filesystem handle that was just created. -/
def Tables.initial : Tables := ⟨fun _ => none, fun _ => false, 1⟩

def i32Max : Nat := 2147483647

def remove (table : Int → Option Int) (fds : List Int) : Int → Option Int := fun fd =>
  if fd ∈ fds then none else table fd

def forget (openFiles : Int → Bool) (handles : List Int) : Int → Bool := fun handle =>
  openFiles handle && !handles.contains handle

/-- The checks of both backends: every handle has to be open. -/
def firstUnknown (openFiles : Int → Bool) (handles : List Int) : Option Nat :=
  handles.findIdx? fun handle => !openFiles handle

/-- What the CLOSEs of a call came to: each one on its own, or the whole batch. -/
inductive Closes where
  | smb (results : Nat → Option VfError)
  | nfs (result : Option RpcError)

def firstError (results : Nat → Option VfError) (count : Nat) : Option VfError :=
  (List.range count).findSome? fun index => (results index).map (·.withIndex index)

/-- The handles whose CLOSE went through. -/
def closed (results : Nat → Option VfError) (handles : List Int) : List Int :=
  (handles.zipIdx.filter fun item => (results item.2).isNone).map Prod.fst

def vcloseImpl (closes : Closes) (openFiles : Int → Bool) (handles : List Int) :
    Option VfError × (Int → Bool) :=
  match firstUnknown openFiles handles with
  | some index => (some (.errno (some index) VfError.errEbadf), openFiles)
  | none =>
    match closes with
    | .smb results =>
      (firstError results handles.length, forget openFiles (closed results handles))
    | .nfs none => (none, forget openFiles handles)
    | .nfs (some error) =>
      (some (errorFromRpcIndexed error),
        if error.isTransport then openFiles else forget openFiles (handles.take error.opIndex))

def confirmedClosePrefix (error : VfError) (count : Nat) : Nat :=
  if error.isTransport then 0 else min (error.index.getD 0) count

def closev (closes : Closes) (tables : Tables) (fds : List Int) : Tables :=
  match fds.mapM tables.files with
  | none => tables
  | some handles =>
    match vcloseImpl closes tables.openFiles handles with
    | (none, openFiles) => ⟨remove tables.files fds, openFiles, tables.nextFd⟩
    | (some error, openFiles) =>
      ⟨remove tables.files (fds.take (confirmedClosePrefix error fds.length)), openFiles,
        tables.nextFd⟩

/-- The first vacant descriptor from `nextFd` on, in so many tries. -/
def insertCFile (handle : Int) : Nat → Tables → Option (Int × Tables)
  | 0, _ => none
  | tries + 1, tables =>
    let fd := tables.nextFd
    -- `checked_add(1).unwrap_or(1)`
    let nextFd := if fd = i32Max then 1 else fd + 1
    match tables.files fd with
    | none => some (fd, ⟨Function.update tables.files fd (some handle), tables.openFiles, nextFd⟩)
    | some _ => insertCFile handle tries {tables with nextFd := nextFd}

/-- The registration of opened files: the descriptors given, and whether each file got one. -/
def register : List Int → Tables → List Int × Tables × Bool
  | [], tables => ([], tables, true)
  | handle :: handles, tables =>
    match insertCFile handle i32Max tables with
    | none => ([], tables, false)
    | some (fd, tables) =>
      let (fds, tables, complete) := register handles tables
      (fd :: fds, tables, complete)

def opening (tables : Tables) (handles : List Int) : Tables :=
  {tables with openFiles := fun handle => handles.contains handle || tables.openFiles handle}

/-- `vfsi_openv` of files that the backend has opened with these handles. If C has no descriptor
left for one of them, all are closed again as far as that goes. -/
def openv (closes : Closes) (tables : Tables) (handles : List Int) : Tables :=
  match register handles (opening tables handles) with
  | (_, tables, true) => tables
  | (fds, tables, false) =>
    ⟨remove tables.files fds, (vcloseImpl closes tables.openFiles handles).2, tables.nextFd⟩

/-- No descriptor is dropped whose handle the backend still holds open. -/
def Kept (before after : Tables) : Prop :=
  ∀ fd handle, before.files fd = some handle → after.files fd = none →
    after.openFiles handle = false

section Prefix

variable {table : Int → Option Int} {fds handles : List Int}

theorem mapM_getElem (h : fds.mapM table = some handles) {i : Nat} {fd : Int}
    (hfd : fds[i]? = some fd) : ∃ handle, handles[i]? = some handle ∧ table fd = some handle := by
  induction fds generalizing handles i with
  | nil => cases hfd
  | cons first fds ih =>
    rw [mapM_cons] at h
    obtain ⟨handle, hh, h⟩ := bind_eq_some_iff.mp h
    obtain ⟨rest, hr, h⟩ := bind_eq_some_iff.mp h
    cases h
    cases i with
    | zero =>
      cases hfd
      exact ⟨handle, rfl, hh⟩
    | succ i => exact ih hr hfd

/-- The descriptors in front of an index are safe to drop if their handles are closed. -/
theorem kept_take {openFiles after : Int → Bool} {nextFd : Int} {count : Nat}
    (h : fds.mapM table = some handles)
    (hc : ∀ i handle, i < count → handles[i]? = some handle → after handle = false) :
    Kept ⟨table, openFiles, nextFd⟩ ⟨remove table (fds.take count), after, nextFd⟩ := by
  intro fd handle hb ha
  dsimp only [remove] at hb ha
  split at ha
  · rename_i hm
    obtain ⟨i, hi⟩ := mem_iff_getElem?.mp hm
    rw [getElem?_take] at hi
    split at hi
    · rename_i hlt
      obtain ⟨held, hh, ht⟩ := mapM_getElem h hi
      obtain rfl := some.inj (hb.symm.trans ht)
      exact hc i _ hlt hh
    · cases hi
  · rw [hb] at ha
    cases ha

theorem forget_eq_false {openFiles : Int → Bool} {handle : Int} (h : handle ∈ handles) :
    forget openFiles handles handle = false := by
  simp [forget, h]

theorem mem_closed {results : Nat → Option VfError} {i : Nat} {handle : Int}
    (hi : handles[i]? = some handle) (hok : results i = none) :
    handle ∈ closed results handles := by
  refine mem_map.mpr ⟨(handle, i), mem_filter.mpr ⟨?_, by simp [hok]⟩, rfl⟩
  exact mem_zipIdx_iff_getElem?.mpr (by simpa using hi)

/-- Behind an error everything in front of its index was closed. -/
theorem closed_before_firstError {results : Nat → Option VfError} {error : VfError} {count : Nat}
    (h : firstError results count = some error) :
    ∃ index, error.index = some index ∧ ∀ i < index, results i = none := by
  unfold firstError at h
  obtain ⟨before, index, after, hr, hin, hb⟩ := findSome?_eq_some_iff.mp h
  obtain ⟨cause, -, rfl⟩ := map_eq_some_iff.mp hin
  have hg : ∀ i, i < count → (before ++ index :: after)[i]? = some i := fun i hi => by
    rw [← hr, getElem?_range hi]
  have hl : before.length < count := by
    have := congrArg List.length hr
    simp only [length_range, length_append, length_cons] at this
    omega
  obtain rfl : index = before.length := by
    have := hg before.length hl
    simpa using this
  refine ⟨before.length, rfl, fun i hi => ?_⟩
  have hi' := hg i (by omega)
  rw [getElem?_append_left hi] at hi'
  simpa using hb i (mem_of_getElem? hi')

end Prefix

theorem isTransport_errorFromRpcIndexed {error : RpcError} (h : error.isTransport = true) :
    (errorFromRpcIndexed error).isTransport = true := by
  simp [errorFromRpcIndexed, h, errorFromRpc, VfError.transportWithKind, VfError.withMessage,
    VfError.isTransport]

theorem index_errorFromRpcIndexed {error : RpcError} (h : error.isTransport = false) :
    (errorFromRpcIndexed error).index = some error.opIndex := by
  simp only [errorFromRpcIndexed, h, errorFromRpc, Bool.false_eq_true, if_false]
  split <;> rfl

theorem confirmedClosePrefix_le {error : VfError} {index : Nat} (h : error.index = some index)
    (count : Nat) : confirmedClosePrefix error count ≤ index := by
  unfold confirmedClosePrefix
  split
  · exact Nat.zero_le _
  · rw [h]
    exact Nat.min_le_left _ _

theorem kept_of_checked {closes : Closes} {tables : Tables} {fds handles : List Int}
    (hm : fds.mapM tables.files = some handles)
    (hc : firstUnknown tables.openFiles handles = none) :
    Kept tables (closev closes tables fds) := by
  have hl : ∀ i handle, handles[i]? = some handle → i < handles.length :=
    fun i handle h => (List.getElem?_eq_some_iff.mp h).1
  unfold closev vcloseImpl
  rw [hm]
  dsimp only
  rw [hc]
  dsimp only
  cases closes with
  | smb results =>
    cases hf : firstError results handles.length with
    | none =>
      have ha := findSome?_eq_none_iff.mp hf
      dsimp only
      rw [hf, ← take_length (l := fds)]
      refine kept_take hm fun i handle _ hh => forget_eq_false (mem_closed hh ?_)
      simpa using ha i (mem_range.mpr (hl i handle hh))
    | some error =>
      obtain ⟨index, hin, hb⟩ := closed_before_firstError hf
      dsimp only
      rw [hf]
      exact kept_take hm fun i handle hi hh => forget_eq_false
        (mem_closed hh (hb i (hi.trans_le (confirmedClosePrefix_le hin _))))
  | nfs result =>
    cases result with
    | none =>
      dsimp only
      rw [← take_length (l := fds)]
      exact kept_take hm fun i handle _ hh => forget_eq_false (mem_of_getElem? hh)
    | some error =>
      dsimp only
      cases ht : error.isTransport with
      | true =>
        rw [confirmedClosePrefix, if_pos (isTransport_errorFromRpcIndexed ht)]
        exact kept_take hm fun i _ hi => by omega
      | false =>
        refine kept_take hm fun i handle hi hh => forget_eq_false ?_
        have hlt := hi.trans_le (confirmedClosePrefix_le (index_errorFromRpcIndexed ht) _)
        exact mem_iff_getElem?.mpr ⟨i, by rw [getElem?_take, if_pos hlt, hh]⟩

/-- A call drops no descriptor whose handle stays open exactly if the backend's checks find
nothing, or find it at the first descriptor. -/
theorem closev_kept_iff (closes : Closes) (tables : Tables) (fds : List Int) :
    Kept tables (closev closes tables fds) ↔
      ∀ handles index, fds.mapM tables.files = some handles →
        firstUnknown tables.openFiles handles = some index → index = 0 := by
  cases hmap : fds.mapM tables.files with
  | none =>
    refine iff_of_true ?_ (fun _ _ h => nomatch h)
    intro fd handle hbefore hafter
    rw [closev, hmap, hbefore] at hafter
    cases hafter
  | some handles =>
    cases hcheck : firstUnknown tables.openFiles handles with
    | none =>
      refine iff_of_true (kept_of_checked hmap hcheck) fun _ _ hhandles h => ?_
      obtain rfl := some.inj hhandles
      rw [hcheck] at h
      cases h
    | some index =>
      have hrun : closev closes tables fds =
          ⟨remove tables.files (fds.take (min index fds.length)), tables.openFiles,
            tables.nextFd⟩ := by
        simp [closev, hmap, vcloseImpl, hcheck, confirmedClosePrefix, VfError.errno,
          VfError.isTransport]
      rw [hrun]
      constructor
      · intro hkept _ _ hhandles h
        obtain rfl := some.inj hhandles
        obtain rfl := some.inj (hcheck.symm.trans h)
        by_contra hpos
        obtain ⟨hlt, -, hopen⟩ := findIdx?_eq_some_iff_getElem.mp hcheck
        have hfirst := hopen 0 (by omega)
        cases fds with
        | nil =>
          cases hmap
          exact absurd hlt (Nat.not_lt_zero _)
        | cons fd fds =>
          obtain ⟨handle, hhandle, htable⟩ := mapM_getElem hmap (i := 0) rfl
          have hdropped : fd ∈ (fd :: fds).take (min index (fd :: fds).length) := by
            refine mem_iff_getElem?.mpr ⟨0, ?_⟩
            rw [getElem?_take, if_pos (by simp; omega)]
            rfl
          have hclosed : tables.openFiles handle = false :=
            hkept fd handle htable (if_pos hdropped)
          rw [getElem?_eq_getElem (by omega)] at hhandle
          rw [some.inj hhandle] at hfirst
          simp [hclosed] at hfirst
      · intro h
        obtain rfl := h handles index rfl hcheck
        exact kept_take hmap fun i _ hi => by omega

section Runs

namespace Tables

variable (tables : Tables)

/-- Every open handle has a descriptor. -/
def Named : Prop := ∀ handle, tables.openFiles handle = true → ∃ fd, tables.files fd = some handle

/-- No handle has two descriptors. -/
def OneName : Prop :=
  ∀ fd fd' handle, tables.files fd = some handle → tables.files fd' = some handle → fd = fd'

end Tables

inductive Call where
  | openv (handles : List Int) (closes : Closes)
  | closev (fds : List Int) (closes : Closes)

def Tables.call (tables : Tables) : Call → Tables
  | .openv handles closes => CAbi.openv closes tables handles
  | .closev fds closes => CAbi.closev closes tables fds

/-- The backend opens files with handles that are not in use. -/
def Fresh (tables : Tables) : Call → Prop
  | .openv handles _ => handles.Nodup ∧
      ∀ handle ∈ handles, tables.openFiles handle = false ∧ ∀ fd, tables.files fd ≠ some handle
  | .closev _ _ => True

/-- The checks of a close find nothing or find it at the first descriptor. An open finds a
descriptor for each of its files, or closes all of them. -/
def Clean (tables : Tables) : Call → Prop
  | .openv handles closes => (register handles (opening tables handles)).2.2 = true ∨
      ∀ handle ∈ handles,
        (vcloseImpl closes (opening tables handles).openFiles handles).2 handle = false
  | .closev fds _ => ∀ handles index, fds.mapM tables.files = some handles →
      firstUnknown tables.openFiles handles = some index → index = 0

/-- A call drops no descriptor of a handle that stays open, and leaves none unreachable. -/
def Reaches (tables : Tables) (call : Call) : Prop :=
  Kept tables (tables.call call) ∧ (tables.call call).Named

/-- At every call of a sequence, in the tables it finds. -/
def Throughout (P : Tables → Call → Prop) : Tables → List Call → Prop
  | _, [] => True
  | tables, call :: calls => P tables call ∧ Throughout P (tables.call call) calls

variable {tables next : Tables} {handles fds : List Int} {complete : Bool}

theorem insertCFile_spec {handle fd : Int} {tries : Nat}
    (h : insertCFile handle tries tables = some (fd, next)) :
    tables.files fd = none ∧ next.files = Function.update tables.files fd (some handle) ∧
      next.openFiles = tables.openFiles := by
  induction tries generalizing tables with
  | zero => cases h
  | succ tries ih =>
    rw [insertCFile] at h
    split at h
    · rename_i hvacant
      cases h
      exact ⟨hvacant, rfl, rfl⟩
    · have hlater := ih h
      exact hlater

/-- What a registration does to the table of C. -/
structure Registered (tables : Tables) (handles fds : List Int) (next : Tables)
    (complete : Bool) : Prop where
  oneName : next.OneName
  openFiles_eq : next.openFiles = tables.openFiles
  kept : ∀ fd handle, tables.files fd = some handle → next.files fd = some handle
  added : ∀ fd handle, next.files fd = some handle →
    tables.files fd = some handle ∨ fd ∈ fds ∧ handle ∈ handles
  vacant : ∀ fd ∈ fds, tables.files fd = none
  named : complete = true → ∀ handle ∈ handles, ∃ fd, next.files fd = some handle

theorem register_registered (hone : tables.OneName) (hnodup : handles.Nodup)
    (hfresh : ∀ handle ∈ handles, ∀ fd, tables.files fd ≠ some handle)
    (h : register handles tables = (fds, next, complete)) :
    Registered tables handles fds next complete := by
  induction handles generalizing tables fds with
  | nil =>
    cases h
    exact ⟨hone, rfl, fun _ _ hold => hold, fun _ _ hold => .inl hold, by simp, by simp⟩
  | cons handle handles ih =>
    rw [register] at h
    split at h
    · cases h
      exact ⟨hone, rfl, fun _ _ hold => hold, fun _ _ hold => .inl hold, by simp, by simp⟩
    rename_i fd inserted hinsert
    obtain ⟨hvacant, hfiles, hopen⟩ := insertCFile_spec hinsert
    obtain ⟨hnew, hnodup⟩ := nodup_cons.mp hnodup
    -- the table behind the first file: its descriptor, and the old ones
    have hat (fd' held : Int) : inserted.files fd' = some held ↔
        fd' = fd ∧ held = handle ∨ fd' ≠ fd ∧ tables.files fd' = some held := by
      rw [hfiles, Function.update_apply]
      split <;> simp_all [eq_comm]
    have hinserted : inserted.OneName := by
      intro a b held ha hb
      rcases (hat a held).mp ha with ⟨hafd, haheld⟩ | ⟨-, ha⟩ <;>
        rcases (hat b held).mp hb with ⟨hbfd, hbheld⟩ | ⟨-, hb⟩
      · exact hafd.trans hbfd.symm
      · exact absurd hb (haheld ▸ hfresh handle mem_cons_self b)
      · exact absurd ha (hbheld ▸ hfresh handle mem_cons_self a)
      · exact hone a b held ha hb
    rcases hrest : register handles inserted with ⟨fds', last, complete'⟩
    rw [hrest] at h
    cases h
    have hdone := ih hinserted hnodup (fun held hheld fd' hname => by
      rcases (hat fd' held).mp hname with ⟨-, rfl⟩ | ⟨-, hname⟩
      · exact hnew hheld
      · exact hfresh held (mem_cons_of_mem _ hheld) fd' hname) hrest
    have hold (fd' held : Int) (hname : tables.files fd' = some held) :
        inserted.files fd' = some held := by
      refine (hat fd' held).mpr (.inr ⟨?_, hname⟩)
      rintro rfl
      rw [hvacant] at hname
      cases hname
    refine ⟨hdone.oneName, hdone.openFiles_eq.trans hopen,
      fun fd' held hname => hdone.kept fd' held (hold fd' held hname), ?_, ?_, ?_⟩
    · intro fd' held hname
      rcases hdone.added fd' held hname with hname | ⟨hfd, hheld⟩
      · rcases (hat fd' held).mp hname with ⟨rfl, rfl⟩ | ⟨-, hname⟩
        · exact .inr ⟨mem_cons_self, mem_cons_self⟩
        · exact .inl hname
      · exact .inr ⟨mem_cons_of_mem _ hfd, mem_cons_of_mem _ hheld⟩
    · intro fd' hfd
      rcases mem_cons.mp hfd with rfl | hfd
      · exact hvacant
      · by_contra hname
        obtain ⟨held, hname⟩ := Option.ne_none_iff_exists'.mp hname
        have hnone := hdone.vacant fd' hfd
        rw [hold fd' held hname] at hnone
        cases hnone
    · intro hcomplete held hheld
      rcases mem_cons.mp hheld with rfl | hheld
      · exact ⟨fd, hdone.kept fd held ((hat fd held).mpr (.inl ⟨rfl, rfl⟩))⟩
      · exact hdone.named hcomplete held hheld

/-- To take back a registration leaves the table it began with. -/
theorem Registered.remove_eq (h : Registered tables handles fds next complete) :
    remove next.files fds = tables.files := by
  funext fd
  unfold remove
  split
  · rename_i hfd
    exact (h.vacant fd hfd).symm
  · rename_i hfd
    cases hname : next.files fd with
    | some handle =>
      rcases h.added fd handle hname with hold | ⟨hnew, -⟩
      · exact hold.symm
      · exact absurd hnew hfd
    | none =>
      cases hold : tables.files fd with
      | none => rfl
      | some handle =>
        rw [h.kept fd handle hold] at hname
        cases hname

/-- Closing closes, and opens nothing. -/
theorem vcloseImpl_open {closes : Closes} {openFiles : Int → Bool} {handle : Int}
    (h : (vcloseImpl closes openFiles handles).2 handle = true) : openFiles handle = true := by
  have hforget (closed : List Int) (hleft : forget openFiles closed handle = true) :
      openFiles handle = true := (Bool.and_eq_true_iff.mp hleft).1
  unfold vcloseImpl at h
  split at h
  · exact h
  split at h
  · exact hforget _ h
  · exact hforget _ h
  · dsimp only at h
    split at h
    · exact h
    · exact hforget _ h

theorem closev_openFiles {closes : Closes} {handle : Int}
    (h : (closev closes tables fds).openFiles handle = true) :
    tables.openFiles handle = true := by
  unfold closev at h
  split at h
  · exact h
  rename_i handles _
  have hclose (hleft : (vcloseImpl closes tables.openFiles handles).2 handle = true) :
      tables.openFiles handle = true := vcloseImpl_open hleft
  split at h <;> rename_i hrun <;> rw [hrun] at hclose <;> exact hclose h

theorem closev_files {closes : Closes} {fd handle : Int}
    (h : (closev closes tables fds).files fd = some handle) : tables.files fd = some handle := by
  have hremove (dropped : List Int) (hleft : remove tables.files dropped fd = some handle) :
      tables.files fd = some handle := by
    unfold remove at hleft
    split at hleft
    · cases hleft
    · exact hleft
  unfold closev at h
  split at h
  · exact h
  split at h
  · exact hremove _ h
  · exact hremove _ h

/-- A close leaves a handle without a descriptor exactly if it drops one too early. -/
theorem closev_named_iff (hnamed : tables.Named) (hone : tables.OneName) {closes : Closes} :
    (closev closes tables fds).Named ↔ Kept tables (closev closes tables fds) := by
  constructor
  · intro hafter fd handle hname hdropped
    by_contra hopen
    obtain ⟨fd', hname'⟩ := hafter handle (Bool.not_eq_false _ ▸ hopen)
    obtain rfl := hone fd fd' handle hname (closev_files hname')
    rw [hdropped] at hname'
    cases hname'
  · intro hkept handle hopen
    obtain ⟨fd, hname⟩ := hnamed handle (closev_openFiles hopen)
    cases hleft : (closev closes tables fds).files fd with
    | none =>
      rw [hkept fd handle hname hleft] at hopen
      cases hopen
    | some held =>
      obtain rfl := some.inj (hname.symm.trans (closev_files hleft))
      exact ⟨fd, hleft⟩

/-- What an open does, by whether every file got its descriptor. -/
theorem openv_cases {closes : Closes} (hone : tables.OneName)
    (hfresh : Fresh tables (.openv handles closes)) :
    (register handles (opening tables handles)).2.2 = true ∧
        (∃ fds, Registered (opening tables handles) handles fds (openv closes tables handles)
          true) ∨
      (register handles (opening tables handles)).2.2 = false ∧
        (openv closes tables handles).files = tables.files ∧
        (openv closes tables handles).openFiles =
          (vcloseImpl closes (opening tables handles).openFiles handles).2 := by
  rcases hrun : register handles (opening tables handles) with ⟨fds, next, complete⟩
  have hdone : Registered (opening tables handles) handles fds next complete :=
    register_registered hone hfresh.1 (fun handle hheld => (hfresh.2 handle hheld).2) hrun
  unfold openv
  rw [hrun]
  cases complete with
  | true => exact .inl ⟨rfl, fds, hdone⟩
  | false =>
    refine .inr ⟨rfl, hdone.remove_eq, ?_⟩
    dsimp only
    rw [hdone.openFiles_eq]

theorem openv_reaches_iff {closes : Closes} (hnamed : tables.Named) (hone : tables.OneName)
    (hfresh : Fresh tables (.openv handles closes)) :
    Reaches tables (.openv handles closes) ↔ Clean tables (.openv handles closes) := by
  have hopening (handle : Int) : (opening tables handles).openFiles handle = true ↔
      handle ∈ handles ∨ tables.openFiles handle = true := by
    simp [opening]
  unfold Reaches Tables.call Clean
  dsimp only
  rcases openv_cases hone hfresh with ⟨hcomplete, fds, hdone⟩ | ⟨hcomplete, hfiles, hopen⟩
  · refine iff_of_true ⟨fun fd handle hname hdropped => ?_, fun handle hheld => ?_⟩
      (.inl hcomplete)
    · rw [hdone.kept fd handle hname] at hdropped
      cases hdropped
    · rw [hdone.openFiles_eq] at hheld
      rcases (hopening handle).mp hheld with hnew | hold
      · exact hdone.named rfl handle hnew
      · obtain ⟨fd, hname⟩ := hnamed handle hold
        exact ⟨fd, hdone.kept fd handle hname⟩
  · have hkept : Kept tables (openv closes tables handles) := by
      intro fd handle hname hdropped
      rw [hfiles, hname] at hdropped
      cases hdropped
    simp only [hkept, true_and, hcomplete, Bool.false_eq_true, false_or]
    unfold Tables.Named
    rw [hfiles, hopen]
    constructor
    · intro hafter handle hheld
      by_contra hleft
      obtain ⟨fd, hname⟩ := hafter handle (Bool.not_eq_false _ ▸ hleft)
      exact (hfresh.2 handle hheld).2 fd hname
    · intro hclosed handle hleft
      rcases (hopening handle).mp (vcloseImpl_open hleft) with hnew | hold
      · rw [hclosed handle hnew] at hleft
        cases hleft
      · exact hnamed handle hold

theorem reaches_iff {call : Call} (hnamed : tables.Named) (hone : tables.OneName)
    (hfresh : Fresh tables call) : Reaches tables call ↔ Clean tables call := by
  cases call with
  | openv handles closes => exact openv_reaches_iff hnamed hone hfresh
  | closev fds closes =>
    unfold Reaches Tables.call
    rw [closev_named_iff hnamed hone, and_self]
    exact closev_kept_iff closes tables fds

theorem call_oneName {call : Call} (hone : tables.OneName) (hfresh : Fresh tables call) :
    (tables.call call).OneName := by
  cases call with
  | closev fds closes =>
    intro fd fd' handle hname hname'
    exact hone fd fd' handle (closev_files hname) (closev_files hname')
  | openv handles closes =>
    unfold Tables.call
    dsimp only
    rcases openv_cases hone hfresh with ⟨-, fds, hdone⟩ | ⟨-, hfiles, -⟩
    · exact hdone.oneName
    · unfold Tables.OneName
      rw [hfiles]
      exact hone

/-- The calls of a sequence from tables in which every open handle has one descriptor. -/
theorem throughout_reaches_iff {calls : List Call} (hnamed : tables.Named)
    (hone : tables.OneName) (hfresh : Throughout Fresh tables calls) :
    Throughout Reaches tables calls ↔ Throughout Clean tables calls := by
  induction calls generalizing tables with
  | nil => exact Iff.rfl
  | cons call calls ih =>
    obtain ⟨hfirst, hrest⟩ := hfresh
    have hstep := reaches_iff hnamed hone hfirst
    refine ⟨fun ⟨hreaches, hlater⟩ => ?_, fun ⟨hclean, hlater⟩ => ?_⟩
    · exact ⟨hstep.mp hreaches, (ih hreaches.2 (call_oneName hone hfirst) hrest).mp hlater⟩
    · have hreaches := hstep.mpr hclean
      exact ⟨hreaches, (ih hreaches.2 (call_oneName hone hfirst) hrest).mpr hlater⟩

/-- Over every sequence of opens and closes, and whatever becomes of the CLOSEs: no descriptor is
dropped while its handle is open and every open handle keeps one, exactly if every close finds
nothing in its checks or finds it at its first descriptor and every open has a descriptor for
each of its files or closes them. -/
theorem openv_closev_reach_iff {calls : List Call} (hfresh : Throughout Fresh .initial calls) :
    Throughout Reaches .initial calls ↔ Throughout Clean .initial calls := by
  refine throughout_reaches_iff ?_ ?_ hfresh
  · intro handle hopen
    cases hopen
  · intro fd fd' handle hname
    cases hname

end Runs

/-- Three files are opened. The first two are closed together; only the CLOSE of the second
goes through, and C keeps both. To close the third one together with the second drops the
third, which is still open. -/
theorem closev_drops_open :
    let calls := [.openv [10, 11, 12] (.nfs none),
      .closev [1, 2] (.smb fun i => if i = 0 then some (.errno none 5) else none),
      .closev [3, 2] (.smb fun _ => none)]
    Throughout Fresh .initial calls ∧ ¬Throughout Reaches .initial calls := by
  intro calls
  refine ⟨⟨⟨by decide, fun _ _ => ⟨rfl, fun _ => by simp [Tables.initial]⟩⟩, trivial, trivial,
    trivial⟩, fun ⟨_, _, ⟨hkept, _⟩, _⟩ => ?_⟩
  have hclosed := hkept 3 12 (by decide +kernel) (by decide +kernel)
  revert hclosed
  decide +kernel

/-- Two files are opened, closed one after the other, and the second CLOSE is refused. -/
theorem openv_closev_reach_refused :
    let calls := [.openv [10, 11] (.nfs none), .closev [1] (.smb fun _ => none),
      .closev [2] (.smb fun _ => some (.errno none 5))]
    Throughout Fresh .initial calls ∧ Throughout Reaches .initial calls := by
  intro calls
  have hfresh : Throughout Fresh .initial calls :=
    ⟨⟨by decide, fun _ _ => ⟨rfl, fun _ => by simp [Tables.initial]⟩⟩, trivial, trivial, trivial⟩
  have hclean {tables : Tables} {fds : List Int} (handles : List Int) {closes : Closes}
      (hmap : fds.mapM tables.files = some handles)
      (hcheck : firstUnknown tables.openFiles handles = none) :
      Clean tables (.closev fds closes) := by
    intro handles' index hmap' hunknown
    obtain rfl := some.inj (hmap.symm.trans hmap')
    rw [hcheck] at hunknown
    cases hunknown
  refine ⟨hfresh, (openv_closev_reach_iff hfresh).mpr ⟨.inl (by decide +kernel), ?_, ?_, trivial⟩⟩
  · exact hclean [10] (by decide +kernel) (by decide +kernel)
  · exact hclean [11] (by decide +kernel) (by decide +kernel)

end Vnfs.CAbi
