import Vnfs.OpenVectorFilled
import Vnfs.Lib.Registration
import Vnfs.Nfs.OpenOutcomes

/-!
The descriptors of `vopen_outcomes_impl`. Each merged call and each scalar open
registers its files under new numbers, so the outcomes of the rounds compose: every
file the server confirmed has its outcome, at the place of its item.
-/

namespace Vnfs.Nfs.OpenOutcomes

open Registration List OpenvState

/-! ## A run of the merged engine -/

theorem openvStep_length {σ : Type} {wire : Wire σ} {calls : OpenvCalls σ}
    {maxArgBytes : Nat} {ops : List PathOpenOp} {st last : OpenvState σ} {exit : OpenvExit}
    (h : openvStep wire calls maxArgBytes ops st = .inr (last, exit)) :
    last.opened.length = st.opened.length := by
  unfold openvStep openvReply at h
  dsimp only at h
  repeat' split at h
  all_goals cases h
  all_goals first
    | rfl
    | exact length_recordOpens ..

namespace OpenvRun

variable {τ : Type} {ops : List PathOpenOp} (run : OpenvRun τ ops) {failed : Option (Nat × Status)}

theorem done_ok {opened : List (Option OpenedPath)} (h : run.done.result = .ok (opened, failed)) :
    run.exit = .returned failed ∧ opened = run.last.opened := by
  unfold done leave at h
  cases he : run.exit with
  | returned failed' =>
    rw [he] at h
    obtain ⟨rfl, rfl⟩ := Prod.mk.inj (Except.ok.inj h)
    exact ⟨rfl, rfl⟩
  | handedOn error =>
    rw [he] at h
    cases h
  | cleaned error =>
    rw [he] at h
    dsimp only at h
    repeat' split at h
    all_goals cases h

theorem done_error {error : RpcError} (h : run.done.result = .error error)
    (failed : Option (Nat × Status)) : run.exit ≠ .returned failed := by
  intro he
  unfold done leave at h
  rw [he] at h
  cases h

theorem returned_done (h : run.exit = .returned failed) :
    run.done.closed = [] ∧ run.done.deferred = [] := by
  unfold done leave
  rw [h]
  exact ⟨rfl, rfl⟩

/-- The slots that are returned are those of the confirmed files, up to the item that
failed. -/
theorem returned_slots (he : run.exit = .returned failed) : run.last.opened.length = ops.length ∧
    (∀ i path, run.last.opened[i]? = some (some path) ↔ (i, path) ∈ run.last.confirmed) ∧
    ∃ bound, FirstUnfilled ops bound failed ∧
      ∀ i, (∃ path, (i, path) ∈ run.last.confirmed) ↔ i < bound := by
  have hr := run.reach.running run.limit
  obtain ⟨_, hturn⟩ := run.reach.turn run.limit
  have hkp : OpenvKeeps ops (openvStep run.wire run.calls run.maxArgBytes ops run.st) :=
    openvStep_keeps hr
  have hfi : OpenvFills ops (openvStep run.wire run.calls run.maxArgBytes ops run.st) :=
    openvStep_fills hr hturn
  rw [run.leaves, he] at hkp hfi
  obtain ⟨bound, hf, hfirst⟩ := hfi
  refine ⟨(openvStep_length run.leaves).trans hr.length_eq, ?_, bound, hfirst, ?_⟩
  · intro i path
    exact ⟨hf.slots i path, hkp (i, path)⟩
  · intro i
    refine ⟨?_, hf.filled i⟩
    rintro ⟨path, hfile⟩
    exact hf.below _ hfile

/-- The run loses files, by the state before its last round and the replies to that. -/
def Drops : Prop := run.st.Drops run.wire run.maxArgBytes ops

theorem not_drops_of_returned (h : run.exit = .returned failed) : ¬ run.Drops := by
  unfold Drops
  rw [← (openvStep_leaves run.leaves).drops_iff, h]
  exact id

/-- What a run that ends with an error had confirmed is closed or put off, unless the
run drops it. -/
theorem released_iff (h : ∀ failed, run.exit ≠ .returned failed) :
    (∀ file ∈ run.last.confirmed, file ∈ run.done.closed ++ run.done.deferred) ↔
      ¬ run.Drops := by
  have hkp : OpenvKeeps ops (openvStep run.wire run.calls run.maxArgBytes ops run.st) :=
    openvStep_keeps (run.reach.running run.limit)
  unfold Drops
  rw [← (openvStep_leaves run.leaves).drops_iff]
  rw [run.leaves] at hkp
  unfold done leave
  cases he : run.exit with
  | returned failed => exact absurd he (h failed)
  | handedOn error =>
    rw [OpenvExit.Drops, not_not]
    constructor
    · intro hr
      exact eq_nil_iff_forall_not_mem.mpr fun file hf => by
        cases hr file hf
    · intro hn file hf
      rw [hn] at hf
      cases hf
  | cleaned error =>
    rw [he] at hkp
    refine iff_of_true (fun file hf => ?_) id
    have hh : file ∈ heldOpens run.last.opened := mem_heldOpens.mpr (hkp file hf)
    dsimp only
    split
    · rename_i hem
      rw [List.isEmpty_iff.mp hem] at hh
      cases hh
    · split
      · exact mem_append_left _ hh
      · exact mem_append_right _ hh

end OpenvRun

/-! ## What a call has confirmed and released -/

namespace OpenCall

variable {σ τ : Type} (call : OpenCall σ τ)

def confirmed : List (Nat × OpenedPath) :=
  call.scalar ++ call.runs.flatMap fun run =>
    run.2.2.last.confirmed.map fun file => (run.1 + file.1, file.2)

/-- The CLOSE of the file was acknowledged, or the file is put off: by `close_impl`, or
by the merged call that opened it. -/
def Released (file : Nat × OpenedPath) : Prop :=
  file ∈ call.closed ∨ file ∈ call.deferred ∨
    ∃ run ∈ call.runs, ∃ part ∈ run.2.2.done.closed ++ run.2.2.done.deferred,
      file = (run.1 + part.1, part.2)

/-- The files with the state their descriptor starts with. -/
def Entries (items : List OpenItem) (i : Nat) (opened : NfsOpenState) : Prop :=
  ∃ item path, items[i]? = some item ∧ (i, path) ∈ call.confirmed ∧
    opened = openedState path item.flags

end OpenCall

/-- The error of an item that was refused: by the merged call that tried it, or by the scalar
path where that call found a link. -/
def OpenCall.Refused {σ τ : Type} (calls : OpenCalls σ τ) (items : List OpenItem)
    (call : OpenCall σ τ) (i : Nat) (error : VfError) : Prop :=
  (∃ run ∈ call.runs, ∃ k status, run.2.2.exit = .returned (some (k, status)) ∧
    i = run.1 + k ∧ error = errorFromRpc (.op k status) (some i)) ∨
  ∃ item nfs nfs' refusal, items[i]? = some item ∧
    calls.openPath nfs item = (nfs', .error refusal) ∧ error = refusal.mapIndex fun _ => i

/-- The table has no number left. -/
def TableFull (error : VfError) : Prop := error.detail = .status (.errno emfile)

section Calls

variable {σ τ : Type} {calls : OpenCalls σ τ} {call call' : OpenCall σ τ}

/-- The log is as before, but for the files without a descriptor. -/
structure SameLog (call call' : OpenCall σ τ) : Prop where
  runs : call'.runs = call.runs
  scalar : call'.scalar = call.scalar
  closed : call'.closed = call.closed
  deferred : call'.deferred = call.deferred

theorem vacantFd_some {openFiles : Int → Option NfsOpenState} {tries : Nat} {next fd after : Int}
    (h : vacantFd openFiles tries next = (some fd, after)) : openFiles fd = none := by
  induction tries generalizing next with
  | zero => cases h
  | succ tries ih =>
    unfold vacantFd at h
    generalize (if next + 1 ≤ i32Max then next + 1 else 1) = candidate at h
    dsimp only at h
    split at h
    · rename_i hv
      obtain ⟨hfd, -⟩ := Prod.mk.inj h
      obtain rfl := Option.some.inj hfd
      exact Option.isNone_iff_eq_none.mp hv
    · exact ih h

variable {opened : NfsOpenState} {error : VfError} {start : Nat} {failed : Option (Nat × Status)}
  {index : Nat} {ops : List PathOpenOp} {run : OpenvRun τ ops} {item : OpenItem}
  {file : Nat × OpenedPath}

theorem insertOpenFile_ok {fd : Int} (h : insertOpenFile call opened = (call', .ok fd)) :
    call.openFiles fd = none ∧ call'.openFiles = Function.update call.openFiles fd (some opened) ∧
      SameLog call call' := by
  unfold insertOpenFile at h
  split at h
  · rename_i hv
    obtain ⟨rfl, hfd⟩ := Prod.mk.inj h
    obtain rfl := Except.ok.inj hfd
    exact ⟨vacantFd_some hv, rfl, rfl, rfl, rfl, rfl⟩
  · cases (Prod.mk.inj h).2

theorem insertOpenFile_error (h : insertOpenFile call opened = (call', .error error)) :
    TableFull error ∧ call'.openFiles = call.openFiles ∧ SameLog call call' := by
  unfold insertOpenFile at h
  split at h
  · cases (Prod.mk.inj h).2
  · obtain ⟨rfl, he⟩ := Prod.mk.inj h
    obtain rfl := Except.error.inj he
    exact ⟨rfl, rfl, rfl, rfl, rfl, rfl⟩

/-- The files of some slots, with the state their descriptor starts with. -/
def SlotEntries (slots : List (Option OpenedPath × UInt32)) (i : Nat) (opened : NfsOpenState) :
    Prop :=
  ∃ path flags, slots[i]? = some (some path, flags) ∧ opened = openedState path flags

/-- Slots that are filled from the front are registered up to the first empty one. -/
theorem registerOpens_registered {slots : List (Option OpenedPath × UInt32)}
    {results : List (VfResult Int)} (hfi : ∀ i j opened, i < j → SlotEntries slots j opened →
      ∃ opened', SlotEntries slots i opened')
    (h : registerOpens calls start failed index slots call = (call', results)) :
    Registered TableFull call.openFiles call'.openFiles (SlotEntries slots) results ∧
      results.length ≤ slots.length ∧ SameLog call call' := by
  induction slots generalizing index call results with
  | nil =>
    obtain ⟨rfl, rfl⟩ := Prod.mk.inj h
    refine ⟨(Registered.nil _).congr fun i opened => ?_, Nat.le_refl _, rfl, rfl, rfl, rfl⟩
    simp [SlotEntries]
  | cons slot rest ih =>
    obtain ⟨file, flags⟩ := slot
    cases file with
    | none =>
      obtain ⟨rfl, rfl⟩ := Prod.mk.inj h
      have hn : ∀ i opened, ¬ SlotEntries ((none, flags) :: rest) i opened := by
        intro i opened he
        obtain ⟨path, flags', hs, -⟩ : ∃ path flags',
            ((none, flags) :: rest)[0]? = some (some path, flags') ∧ True := by
          cases i with
          | zero =>
            obtain ⟨path, flags', hs, -⟩ := he
            exact ⟨path, flags', hs, trivial⟩
          | succ i =>
            obtain ⟨_, path, flags', hs, -⟩ := hfi 0 _ opened (Nat.succ_pos i) he
            exact ⟨path, flags', hs, trivial⟩
        cases hs
      refine ⟨?_, ?_, rfl, rfl, rfl, rfl⟩
      · split
        · exact Registered.error _ _ fun i opened he => absurd he (hn i opened)
        · exact (Registered.nil _).congr fun i opened => (iff_of_false id (hn i opened))
      · split <;> simp
    | some file =>
      unfold registerOpens at h
      split at h
      · rename_i mid fd hin
        obtain ⟨hv, hu, hl⟩ := insertOpenFile_ok hin
        generalize hre : registerOpens calls start failed (index + 1) rest mid = next at h
        obtain ⟨rfl, rfl⟩ := Prod.mk.inj h
        obtain ⟨hr, hle, hl'⟩ := ih (by
          intro i j opened hlt he
          obtain ⟨opened', path, flags', hs, heq⟩ := hfi (i + 1) (j + 1) opened (by omega) he
          exact ⟨opened', path, flags', hs, heq⟩) hre
        rw [hu] at hr
        refine ⟨?_, by simpa using hle, hl'.runs.trans hl.runs,
          hl'.scalar.trans hl.scalar, hl'.closed.trans hl.closed,
          hl'.deferred.trans hl.deferred⟩
        have ho : ∀ (i : Nat) (e : VfError), [(.ok fd : VfResult Int)][i]? ≠ some (.error e) := by
          intro i e hi
          cases i <;> simp at hi
        refine ((Registered.ok hv (openedState file flags)).append ho hr).congr fun i opened => ?_
        cases i with
        | zero => simp [SlotEntries]
        | succ i => simp [SlotEntries]
      rename_i mid error hin
      obtain ⟨hf, hsa, hl⟩ := insertOpenFile_error hin
      obtain ⟨rfl, rfl⟩ := Prod.mk.inj h
      refine ⟨?_, by simp, hl.runs, hl.scalar, hl.closed, hl.deferred⟩
      rw [hsa]
      exact Registered.error _ _ fun _ _ _ => hf

/-- Where the outcomes stop, and what the error there is. -/
theorem registerOpens_stops {slots : List (Option OpenedPath × UInt32)}
    {results : List (VfResult Int)}
    (h : registerOpens calls start failed index slots call = (call', results)) :
    (results.length < slots.length → (∃ error, results.getLast? = some (.error error)) ∨
      failed = none ∧ ∃ flags, slots[results.length]? = some (none, flags)) ∧
    ∀ (i : Nat) (error : VfError), results[i]? = some (.error error) → TableFull error ∨
      (∃ flags, slots[i]? = some (none, flags)) ∧
      (∀ j < i, ∃ path flags, slots[j]? = some (some path, flags)) ∧
      ∃ k status, failed = some (k, status) ∧
        error = errorFromRpc (.op (index + i) status) (some (index + i)) := by
  induction slots generalizing index call results with
  | nil =>
    obtain ⟨-, rfl⟩ := Prod.mk.inj h
    simp
  | cons slot rest ih =>
    obtain ⟨file, flags⟩ := slot
    cases file with
    | none =>
      obtain ⟨-, rfl⟩ := Prod.mk.inj h
      cases failed with
      | none => simp
      | some known =>
        refine ⟨fun _ => .inl ⟨_, rfl⟩, ?_⟩
        intro i error hi
        obtain ⟨rfl, rfl⟩ := Registered.single_error_getElem hi
        exact .inr ⟨⟨flags, rfl⟩, (fun j hj => by omega), known.1, known.2, rfl, rfl⟩
    | some file =>
      unfold registerOpens at h
      split at h
      · rename_i mid fd hin
        generalize hre : registerOpens calls start failed (index + 1) rest mid = next at h
        obtain ⟨rfl, rfl⟩ := Prod.mk.inj h
        obtain ⟨hstop, herror⟩ := ih hre
        refine ⟨?_, ?_⟩
        · intro hlt
          rw [length_cons, length_cons] at hlt
          rcases hstop (by omega) with ⟨error, hlast⟩ | ⟨hnone, hslot⟩
          · refine .inl ⟨error, ?_⟩
            rw [getLast?_cons, hlast]
            rfl
          · exact .inr ⟨hnone, hslot⟩
        · intro i error hi
          cases i with
          | zero => cases hi
          | succ i =>
            refine (herror i error hi).imp_right ?_
            rintro ⟨hslot, hbefore, k, status, hfailed, heq⟩
            refine ⟨hslot, ?_, k, status, hfailed, ?_⟩
            · intro j hj
              cases j with
              | zero => exact ⟨file, flags, rfl⟩
              | succ j => exact hbefore j (by omega)
            · rwa [Nat.add_right_comm] at heq
      · rename_i mid error hin
        obtain ⟨-, rfl⟩ := Prod.mk.inj h
        refine ⟨fun _ => .inl ⟨_, rfl⟩, ?_⟩
        intro i error' hi
        obtain ⟨-, rfl⟩ := Registered.single_error_getElem hi
        exact .inl (insertOpenFile_error hin).1

/-- The files of a merged call, numbered from its first item. -/
def RunEntries {ops : List PathOpenOp} (run : OpenvRun τ ops) (items : List OpenItem) (i : Nat)
    (opened : NfsOpenState) : Prop :=
  ∃ item path, items[i]? = some item ∧ (i, path) ∈ run.last.confirmed ∧
    opened = openedState path item.flags

theorem slotEntries_iff {items : List OpenItem} (he : run.exit = .returned failed) (i : Nat)
    (opened : NfsOpenState) :
    SlotEntries (run.last.opened.zip (items.map OpenItem.flags)) i opened ↔
      RunEntries run items i opened := by
  obtain ⟨-, hs, -⟩ := run.returned_slots he
  constructor
  · rintro ⟨path, flags, hsl, rfl⟩
    obtain ⟨ho, hf⟩ := getElem?_zip_eq_some.mp hsl
    rw [getElem?_map] at hf
    obtain ⟨item, hi, rfl⟩ := Option.map_eq_some_iff.mp hf
    exact ⟨item, path, hi, (hs i path).mp ho, rfl⟩
  rintro ⟨item, path, hi, hfi, rfl⟩
  refine ⟨path, item.flags, getElem?_zip_eq_some.mpr ⟨(hs i path).mpr hfi, ?_⟩, rfl⟩
  rw [getElem?_map, hi]
  rfl

theorem openvMerged_ok {items : List OpenItem} {results : List (VfResult Int)}
    (h : openvMerged calls call start items = (call', .ok results)) :
    ∃ (ops : List PathOpenOp) (run : OpenvRun τ ops), (∃ failed, run.exit = .returned failed) ∧
      call'.runs = call.runs ++ [(start, ⟨ops, run⟩)] ∧ call'.scalar = call.scalar ∧
      call'.closed = call.closed ∧ call'.deferred = call.deferred ∧
      Registered TableFull call.openFiles call'.openFiles (RunEntries run items) results ∧
      results.length ≤ items.length ∧ (∀ file ∈ run.last.confirmed, file.1 < items.length) ∧
      (results.length < items.length → ∃ error, results.getLast? = some (.error error)) ∧
      ∀ (i : Nat) (error : VfError), results[i]? = some (.error error) → TableFull error ∨
        ∃ status, run.exit = .returned (some (i, status)) ∧
          error = errorFromRpc (.op i status) (some i) := by
  unfold openvMerged at h
  split at h
  · cases (Prod.mk.inj h).2
  rename_i nfs run hopenv
  dsimp only at h
  split at h
  · cases (Prod.mk.inj h).2
  rename_i opened failed hd
  obtain ⟨he, rfl⟩ := run.done_ok hd
  have hen : ∀ i opened, _ ↔ RunEntries run items i opened := slotEntries_iff he
  obtain ⟨hs, hopen, bound, hfirst, hbelow⟩ := run.returned_slots he
  rw [length_mapIdx] at hs
  generalize hr : registerOpens calls start failed 0
    (run.last.opened.zip (items.map OpenItem.flags)) {call with
      nfs := nfs, runs := call.runs ++ [(start, ⟨_, run⟩)]} = next at h
  obtain ⟨rfl, ho⟩ := Prod.mk.inj h
  obtain rfl := Except.ok.inj ho
  have hlength : (run.last.opened.zip (items.map OpenItem.flags)).length = items.length := by
    rw [length_zip, length_map, hs, Nat.min_self]
  -- A slot is filled exactly if its item comes before the one that failed.
  have hfilled {i : Nat} {path : OpenedPath} {flags : UInt32}
      (hslot : (run.last.opened.zip (items.map OpenItem.flags))[i]? = some (some path, flags)) :
      i < bound :=
    (hbelow i).mp ⟨path, (hopen i path).mp (getElem?_zip_eq_some.mp hslot).1⟩
  have hvacant {i : Nat} {flags : UInt32}
      (hslot : (run.last.opened.zip (items.map OpenItem.flags))[i]? = some (none, flags)) :
      bound ≤ i := by
    by_contra hlt
    obtain ⟨path, hfile⟩ := (hbelow i).mpr (Nat.lt_of_not_le hlt)
    cases (getElem?_zip_eq_some.mp hslot).1.symm.trans ((hopen i path).mpr hfile)
  obtain ⟨hre, hle, hl⟩ := registerOpens_registered (by
    intro i j state hlt hent
    obtain ⟨item, path, hi, hf, -⟩ := (hen j state).mp hent
    obtain ⟨path', hf'⟩ := (hbelow i).mpr (Nat.lt_trans hlt ((hbelow j).mp ⟨path, hf⟩))
    have hj := (List.getElem?_eq_some_iff.mp hi).1
    exact ⟨_, (hen i _).mpr ⟨_, path', getElem?_eq_getElem (by omega), hf',
      rfl⟩⟩) hr
  obtain ⟨hstops, herror⟩ := registerOpens_stops hr
  refine ⟨_, run, ⟨failed, he⟩, hl.runs, hl.scalar, hl.closed, hl.deferred, hre.congr hen, ?_, ?_,
    ?_, ?_⟩
  · exact hlength ▸ hle
  · intro file hf
    have hlt := (List.getElem?_eq_some_iff.mp ((hopen file.1 file.2).mpr hf)).1
    rwa [hs] at hlt
  · intro hlt
    rcases hstops (hlength ▸ hlt) with hlast | ⟨rfl, flags, hslot⟩
    · exact hlast
    -- Without a failure every slot is filled.
    rcases hfirst with ⟨hall, -⟩ | ⟨-, status, hfailed⟩
    · have := hvacant hslot
      rw [length_mapIdx] at hall
      omega
    · cases hfailed
  · intro i error hi
    refine (herror i error hi).imp_right ?_
    rintro ⟨⟨flags, hslot⟩, hbefore, k, status, rfl, heq⟩
    rcases hfirst with ⟨-, hno⟩ | ⟨-, status', hfailed⟩
    · cases hno
    obtain ⟨rfl, rfl⟩ := Prod.mk.inj (Option.some.inj hfailed)
    obtain rfl : i = k := by
      refine Nat.le_antisymm ?_ (hvacant hslot)
      by_contra hlt
      obtain ⟨path, flags', hslot'⟩ := hbefore k (Nat.lt_of_not_le hlt)
      exact absurd (hfilled hslot') (Nat.lt_irrefl _)
    rw [Nat.zero_add] at heq
    exact ⟨status, he, heq⟩

theorem openvMerged_error {items : List OpenItem}
    (h : openvMerged calls call start items = (call', .error error)) :
    call'.openFiles = call.openFiles ∧ call'.scalar = call.scalar ∧
      call'.closed = call.closed ∧ call'.deferred = call.deferred ∧
      (call'.runs = call.runs ∨ ∃ (ops : List PathOpenOp) (run : OpenvRun τ ops),
        (∀ failed, run.exit ≠ .returned failed) ∧
        call'.runs = call.runs ++ [(start, ⟨ops, run⟩)]) := by
  unfold openvMerged at h
  split at h
  · obtain ⟨rfl, -⟩ := Prod.mk.inj h
    exact ⟨rfl, rfl, rfl, rfl, .inl rfl⟩
  rename_i nfs run ho
  split at h
  · rename_i rpcError hd
    obtain ⟨rfl, -⟩ := Prod.mk.inj h
    exact ⟨rfl, rfl, rfl, rfl, .inr ⟨_, run, run.done_error hd, rfl⟩⟩
  · cases (Prod.mk.inj h).2

theorem openRawImpl_ok {fd : Int} (h : openRawImpl calls call index item = (call', .ok fd)) :
    ∃ file, call.openFiles fd = none ∧
      call'.openFiles = Function.update call.openFiles fd (some (openedState file item.flags)) ∧
      call'.scalar = call.scalar ++ [(index, file)] ∧ call'.runs = call.runs ∧
      call'.closed = call.closed ∧ call'.deferred = call.deferred := by
  unfold openRawImpl at h
  split at h
  · cases (Prod.mk.inj h).2
  rename_i nfs file ho
  dsimp only at h
  split at h
  · rename_i mid fd' hi
    obtain ⟨rfl, hfd⟩ := Prod.mk.inj h
    obtain rfl := Except.ok.inj hfd
    obtain ⟨hv, hu, hl⟩ := insertOpenFile_ok hi
    exact ⟨file, hv, hu, hl.scalar, hl.runs, hl.closed, hl.deferred⟩
  · cases (Prod.mk.inj h).2

theorem openRawImpl_error (h : openRawImpl calls call index item = (call', .error error)) :
    call'.openFiles = call.openFiles ∧ call'.runs = call.runs ∧
      (call'.scalar = call.scalar ∧ (∃ nfs, calls.openPath call.nfs item = (nfs, .error error)) ∨
        TableFull error ∧ ∃ file, call'.scalar = call.scalar ++ [(index, file)]) := by
  unfold openRawImpl at h
  split at h
  · rename_i nfs refusal hopen
    obtain ⟨rfl, heq⟩ := Prod.mk.inj h
    obtain rfl := Except.error.inj heq
    exact ⟨rfl, rfl, .inl ⟨rfl, nfs, hopen⟩⟩
  rename_i nfs file ho
  dsimp only at h
  split at h
  · cases (Prod.mk.inj h).2
  rename_i mid error' hi
  obtain ⟨rfl, he⟩ := Prod.mk.inj h
  obtain rfl := Except.error.inj he
  obtain ⟨hf, hs, hl⟩ := insertOpenFile_error hi
  exact ⟨hs, hl.runs, .inr ⟨hf, file, hl.scalar⟩⟩

/-! ## The rounds -/

theorem mem_confirmed : file ∈ call.confirmed ↔ file ∈ call.scalar ∨
      ∃ run ∈ call.runs, ∃ part ∈ run.2.2.last.confirmed, (run.1 + part.1, part.2) = file := by
  simp only [OpenCall.confirmed, mem_append, mem_flatMap, mem_map]

theorem mem_confirmed_run (hr : call'.runs = call.runs ++ [(start, ⟨ops, run⟩)])
    (hs : call'.scalar = call.scalar) :
    file ∈ call'.confirmed ↔ file ∈ call.confirmed ∨
      ∃ part ∈ run.last.confirmed, (start + part.1, part.2) = file := by
  rw [mem_confirmed, mem_confirmed, hr, hs]
  constructor
  · rintro (hold | ⟨other, hm, part, hp, heq⟩)
    · exact .inl (.inl hold)
    rcases mem_append.mp hm with hold | hn
    · exact .inl (.inr ⟨other, hold, part, hp, heq⟩)
    · obtain rfl := mem_singleton.mp hn
      exact .inr ⟨part, hp, heq⟩
  rintro ((hold | ⟨other, hm, hp⟩) | ⟨part, hp, heq⟩)
  · exact .inl hold
  · exact .inr ⟨other, mem_append_left _ hm, hp⟩
  · exact .inr ⟨_, mem_append_right _ (mem_singleton.mpr rfl), part, hp, heq⟩

theorem mem_confirmed_scalar {added : Nat × OpenedPath} (hr : call'.runs = call.runs)
    (hs : call'.scalar = call.scalar ++ [added]) :
    file ∈ call'.confirmed ↔ file ∈ call.confirmed ∨ file = added := by
  rw [mem_confirmed, mem_confirmed, hr, hs, mem_append, mem_singleton]
  exact or_right_comm

/-- Between two rounds: the outcomes so far have their descriptors, and nothing was
closed. -/
structure Going (fs : OpenFs σ) (items : List OpenItem) (call : OpenCall σ τ)
    (results : List (VfResult Int)) : Prop where
  registered : Registered TableFull fs.openFiles call.openFiles (call.Entries items) results
  length_le : results.length ≤ items.length
  inside : ∀ file ∈ call.confirmed, file.1 < items.length
  returned : ∀ run ∈ call.runs, ∃ failed, run.2.2.exit = .returned failed
  clean : call.closed ++ call.deferred = []

variable {fs : OpenFs σ} {items : List OpenItem} {results suffix : List (VfResult Int)}

theorem Going.dropLast (h : Going fs items call results)
    (hl : results.getLast? = some (.error error)) (hf : ¬ TableFull error) :
    Going fs items call results.dropLast where
  registered := h.registered.dropLast hl hf
  length_le := by
    have := h.length_le
    rw [length_dropLast]
    omega
  inside := h.inside
  returned := h.returned
  clean := h.clean

theorem entries_scalar_iff {file : OpenedPath} (hr : call'.runs = call.runs)
    (hs : call'.scalar = call.scalar ++ [(index, file)]) (hi : items[index]? = some item)
    (i : Nat) (opened : NfsOpenState) :
    (call.Entries items i opened ∨
      index ≤ i ∧ i - index = 0 ∧ opened = openedState file item.flags) ↔
      call'.Entries items i opened := by
  constructor
  · rintro (⟨item', path, hi', hf, rfl⟩ | ⟨hge, hz, rfl⟩)
    · exact ⟨item', path, hi', (mem_confirmed_scalar hr hs).mpr (.inl hf), rfl⟩
    · obtain rfl : i = index := by omega
      exact ⟨item, file, hi, (mem_confirmed_scalar hr hs).mpr (.inr rfl), rfl⟩
  rintro ⟨item', path, hi', hf, rfl⟩
  rcases (mem_confirmed_scalar hr hs).mp hf with hold | hn
  · exact .inl ⟨item', path, hi', hold, rfl⟩
  · obtain ⟨rfl, rfl⟩ := Prod.mk.inj hn
    obtain rfl := Option.some.inj (hi.symm.trans hi')
    exact .inr ⟨Nat.le_refl _, Nat.sub_self _, rfl⟩

theorem Going.scalar (h : Going fs items call results)
    (hok : ∀ (i : Nat) (e : VfError), results[i]? ≠ some (.error e))
    (hi : items[results.length]? = some item) {fd : Int}
    (hra : openRawImpl calls call results.length item = (call', .ok fd)) :
    Going fs items call' (results ++ [.ok fd]) := by
  obtain ⟨file, hv, hu, hs, hr, hc, hd⟩ := openRawImpl_ok hra
  have hlt := (List.getElem?_eq_some_iff.mp hi).1
  have ho : Registered TableFull call.openFiles call'.openFiles
      (fun i opened => i = 0 ∧ opened = openedState file item.flags) [.ok fd] :=
    hu ▸ Registered.ok hv (openedState file item.flags)
  refine ⟨(h.registered.append hok ho).congr (entries_scalar_iff hr hs hi), ?_, ?_, ?_, ?_⟩
  · simp
    omega
  · intro file' hf
    rcases (mem_confirmed_scalar hr hs).mp hf with hold | rfl
    · exact h.inside file' hold
    · exact hlt
  · rw [hr]
    exact h.returned
  · rw [hc, hd]
    exact h.clean

/-- A merged call opens items behind the ones that have their outcome. -/
theorem Going.merged (h : Going fs items call results)
    (hok : ∀ (i : Nat) (e : VfError), results[i]? ≠ some (.error e))
    (hmr : openvMerged calls call results.length (items.drop results.length) = (call', .ok suffix))
    {g : VfError → VfError} (hg : ∀ e, TableFull e → TableFull (g e)) :
    Going fs items call' (results ++ suffix.map (Except.mapError g)) := by
  obtain ⟨ops, run, he, hr, hs, hc, hd, hre, hl, hin, -⟩ := openvMerged_ok hmr
  have hle := h.length_le
  rw [length_drop] at hl hin
  refine ⟨(h.registered.append hok (hre.mapError hg)).congr fun i opened => ?_, ?_, ?_, ?_, ?_⟩
  · constructor
    · rintro (⟨item, path, hi, hf, rfl⟩ | ⟨hge, item, path, hi, hf, rfl⟩)
      · exact ⟨item, path, hi, (mem_confirmed_run hr hs).mpr (.inl hf), rfl⟩
      · rw [getElem?_drop, Nat.add_sub_cancel' hge] at hi
        refine ⟨item, path, hi, (mem_confirmed_run hr hs).mpr (.inr ⟨_, hf, ?_⟩), rfl⟩
        rw [Nat.add_sub_cancel' hge]
    rintro ⟨item, path, hi, hf, rfl⟩
    rcases (mem_confirmed_run hr hs).mp hf with hold | ⟨part, hp, heq⟩
    · exact .inl ⟨item, path, hi, hold, rfl⟩
    obtain ⟨rfl, rfl⟩ := Prod.mk.inj heq
    refine .inr ⟨Nat.le_add_right .., item, part.2, ?_, ?_, rfl⟩
    · rw [getElem?_drop, Nat.add_sub_cancel_left, hi]
    · rw [Nat.add_sub_cancel_left]
      exact hp
  · rw [length_append, length_map]
    omega
  · intro file hf
    rcases (mem_confirmed_run hr hs).mp hf with hold | ⟨part, hp, rfl⟩
    · exact h.inside file hold
    · have := hin part hp
      omega
  · intro other hm
    rw [hr] at hm
    rcases mem_append.mp hm with hold | hn
    · exact h.returned other hold
    · obtain rfl := mem_singleton.mp hn
      exact he
  · rw [hc, hd]
    exact h.clean

variable (calls) in
/-- The outcomes reach the end of the vector or the item that failed, whose outcome says
why. -/
structure Settled (items : List OpenItem) (call : OpenCall σ τ) (results : List (VfResult Int)) :
    Prop where
  complete : results.length < items.length → ∃ error, results.getLast? = some (.error error)
  refused : ∀ (i : Nat) (error : VfError), results[i]? = some (.error error) →
    TableFull error ∨ call.Refused calls items i error

theorem errorFromRpc_mapIndex (k : Nat) (status : Status) (f : Nat → Nat) :
    (errorFromRpc (.op k status) (some k)).mapIndex f =
      errorFromRpc (.op k status) (some (f k)) := by
  unfold errorFromRpc
  split
  · rfl
  split <;> rfl

theorem Settled.merged
    (hok : ∀ (i : Nat) (e : VfError), results[i]? ≠ some (.error e))
    (hle : results.length ≤ items.length)
    (hmr : openvMerged calls call results.length (items.drop results.length) =
      (call', .ok suffix)) :
    Settled calls items call'
      (results ++ suffix.map (Except.mapError (VfError.mapIndex · (results.length + ·)))) := by
  obtain ⟨ops, run, -, hruns, -, -, -, -, -, -, hcomplete, hrefused⟩ := openvMerged_ok hmr
  refine ⟨?_, ?_⟩
  · intro hlt
    rw [length_append, length_map] at hlt
    obtain ⟨error, hlast⟩ := hcomplete (by rw [length_drop]; omega)
    refine ⟨error.mapIndex (results.length + ·), ?_⟩
    rw [getLast?_append, getLast?_map, hlast]
    rfl
  · intro i error hi
    rcases Nat.lt_or_ge i results.length with hlt | hge
    · rw [getElem?_append_left hlt] at hi
      exact absurd hi (hok i error)
    rw [getElem?_append_right hge, getElem?_map] at hi
    obtain ⟨outcome, hout, heq⟩ := Option.map_eq_some_iff.mp hi
    cases outcome with
    | ok fd => cases heq
    | error refusal =>
      obtain rfl := Except.error.inj heq
      refine (hrefused _ refusal hout).imp id ?_
      rintro ⟨status, hexit, rfl⟩
      have hplace : results.length + (i - results.length) = i := Nat.add_sub_cancel' hge
      refine .inl ⟨(results.length, ⟨ops, run⟩), ?_, i - results.length, status, hexit,
        hplace.symm, ?_⟩
      · rw [hruns]
        simp
      · refine (errorFromRpc_mapIndex ..).trans ?_
        rw [hplace]

end Calls

end Vnfs.Nfs.OpenOutcomes
