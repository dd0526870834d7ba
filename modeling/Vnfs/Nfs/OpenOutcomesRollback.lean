import Vnfs.Nfs.OpenOutcomesRegistered

/-!
How `vopen_outcomes_impl` ends. With outcomes, every file that was opened has its
descriptor. With an error, the descriptors of the rounds before are closed again, so
the table is as it was; what the failed merged call had confirmed itself is closed or
put off unless that call handed its error on directly.
-/

namespace Vnfs.Nfs.OpenOutcomes

open Registration List Function

section Calls

variable {σ τ : Type} {calls : OpenCalls σ τ} {call call' : OpenCall σ τ}

/-! ## Closing again -/

variable (calls) in
theorem closeImpl_spec (call : OpenCall σ τ) (item : Nat) (fd : Int) :
    let call' := (closeImpl calls call item fd).1
    call'.runs = call.runs ∧ call'.scalar = call.scalar ∧
      call'.openFiles = update call.openFiles fd none ∧
      (∀ opened, call.openFiles fd = some opened →
        (item, opened.fh, opened.stateid) ∈ call'.closed ++ call'.deferred) ∧
      (∀ file ∈ call'.closed ++ call'.deferred,
        file ∈ call.closed ++ call.deferred ∨ file.1 = item) ∧
      ∀ file ∈ call.closed ++ call.deferred, file ∈ call'.closed ++ call'.deferred := by
  unfold closeImpl
  cases ho : call.openFiles fd with
  | none =>
    refine ⟨rfl, rfl, ?_, (fun opened h => by cases h), fun file hf => .inl hf, fun file hf => hf⟩
    have hs := update_eq_self fd call.openFiles
    rw [ho] at hs
    exact hs.symm
  | some opened =>
    dsimp only
    split
    · refine ⟨rfl, rfl, rfl, ?_, ?_, ?_⟩
      · rintro _ ⟨⟩
        simp
      · intro file hf
        simp only [mem_append, mem_singleton] at hf ⊢
        rcases hf with (hold | rfl) | hold
        · exact .inl (.inl hold)
        · exact .inr rfl
        · exact .inl (.inr hold)
      · intro file hf
        simp only [mem_append] at hf ⊢
        exact hf.imp_left Or.inl
    refine ⟨rfl, rfl, rfl, ?_, ?_, ?_⟩
    · rintro _ ⟨⟩
      simp
    · intro file hf
      simp only [mem_append, mem_singleton] at hf ⊢
      rcases hf with hold | hold | rfl
      · exact .inl (.inl hold)
      · exact .inl (.inr hold)
      · exact .inr rfl
    · intro file hf
      simp only [mem_append] at hf ⊢
      exact hf.imp_right Or.inl

/-- The descriptors of some outcomes are gone, and their files closed or put off. -/
structure ClosedFrom (item : Nat) (results : List (VfResult Int)) (call call' : OpenCall σ τ) :
    Prop where
  runs : call'.runs = call.runs
  scalar : call'.scalar = call.scalar
  gone : ∀ (i : Nat) (fd : Int), results[i]? = some (.ok fd) → call'.openFiles fd = none
  others : ∀ fd, (∀ i : Nat, results[i]? ≠ some (.ok fd)) → call'.openFiles fd = call.openFiles fd
  released : ∀ (i : Nat) (fd : Int) (opened : NfsOpenState), results[i]? = some (.ok fd) →
    call.openFiles fd = some opened →
    (item + i, opened.fh, opened.stateid) ∈ call'.closed ++ call'.deferred
  only : ∀ file ∈ call'.closed ++ call'.deferred,
    file ∈ call.closed ++ call.deferred ∨ file.1 < item + results.length
  keeps : ∀ file ∈ call.closed ++ call.deferred, file ∈ call'.closed ++ call'.deferred

theorem closeResults_closed {results : List (VfResult Int)} (item : Nat) (call : OpenCall σ τ)
    (hd : ∀ (i j : Nat) (fd : Int), results[i]? = some (.ok fd) →
      results[j]? = some (.ok fd) → i = j) :
    ClosedFrom item results call (closeResults calls item results call) := by
  induction results generalizing item call with
  | nil =>
    exact ⟨rfl, rfl, (fun i fd h => by simp at h), (fun _ _ => rfl),
      (fun i fd o h => by simp at h), (fun file hf => .inl hf), fun file hf => hf⟩
  | cons result rest ih =>
    have hta : ∀ (i j : Nat) (fd : Int), rest[i]? = some (.ok fd) →
        rest[j]? = some (.ok fd) → i = j := by
      intro i j fd hi hj
      have := hd (i + 1) (j + 1) fd hi hj
      omega
    cases result with
    | error e =>
      have h := ih (item + 1) call hta
      refine ⟨h.runs, h.scalar, ?_, ?_, ?_, ?_, h.keeps⟩
      · intro i fd hi
        cases i with
        | zero => cases hi
        | succ i => exact h.gone i fd hi
      · intro fd hn
        exact h.others fd fun i hi => hn (i + 1) hi
      · intro i fd opened hi ho
        cases i with
        | zero => cases hi
        | succ i =>
          have := h.released i fd opened hi ho
          rwa [Nat.add_assoc, Nat.add_comm 1 i] at this
      intro file hf
      refine (h.only file hf).imp_right fun hlt => ?_
      rw [length_cons]
      omega
    | ok first =>
      obtain ⟨hr, hs, ht, hre, hon, hkp⟩ := closeImpl_spec calls call item first
      have h := ih (item + 1) (closeImpl calls call item first).1 hta
      have hfs : ∀ i : Nat, rest[i]? ≠ some (.ok first) := by
        intro i hi
        have := hd 0 (i + 1) first rfl hi
        omega
      refine ⟨h.runs.trans hr, h.scalar.trans hs, ?_, ?_, ?_, ?_, ?_⟩
      · intro i fd hi
        cases i with
        | zero =>
          obtain rfl := Except.ok.inj (Option.some.inj hi)
          refine (h.others first hfs).trans ?_
          rw [ht, update_self]
        | succ i => exact h.gone i fd hi
      · intro fd hn
        refine (h.others fd fun i hi => hn (i + 1) hi).trans ?_
        rw [ht, update_of_ne]
        rintro rfl
        exact hn 0 rfl
      · intro i fd opened hi ho
        cases i with
        | zero =>
          obtain rfl := Except.ok.inj (Option.some.inj hi)
          exact h.keeps _ (hre opened ho)
        | succ i =>
          have hne : fd ≠ first := by
            rintro rfl
            exact hfs i hi
          have := h.released i fd opened hi (by rw [ht, update_of_ne hne, ho])
          rwa [Nat.add_assoc, Nat.add_comm 1 i] at this
      · intro file hf
        rw [length_cons]
        rcases h.only file hf with hm | hlt
        · exact (hon file hm).imp_right fun heq => by omega
        · exact .inr (by omega)
      · intro file hf
        exact h.keeps file (hkp file hf)

/-! ## The ends of a call -/

variable {fs : OpenFs σ} {items : List OpenItem} {results : List (VfResult Int)}
  {mid after : OpenCall σ τ} {error : VfError} {st : Outcomes σ τ}

/-- The files of the outcomes are closed or put off with their descriptors. -/
theorem Going.closed_all (h : Going fs items call results)
    (hok : ∀ (i : Nat) (e : VfError), results[i]? ≠ some (.error e))
    (ht : mid.openFiles = call.openFiles) (hcl : ClosedFrom 0 results mid after) :
    ∀ file ∈ call.confirmed, file ∈ after.closed ++ after.deferred := by
  intro file hf
  have hi := getElem?_eq_getElem (h.inside file hf)
  rcases h.registered.covers file.1 _ ⟨_, file.2, hi, hf, rfl⟩ with
    ⟨fd, hre, ho⟩ | ⟨k, -, e, hk, -⟩
  · have hr := hcl.released file.1 fd _ hre ((congrFun ht fd).trans ho)
    rw [Nat.zero_add] at hr
    exact hr
  · exact absurd hk (hok k e)

theorem Going.table_restored (h : Going fs items call results) (ht : mid.openFiles = call.openFiles)
    (hcl : ClosedFrom 0 results mid after) : after.openFiles = fs.openFiles := by
  funext fd
  by_cases hex : ∃ i : Nat, results[i]? = some (.ok fd)
  · obtain ⟨i, hi⟩ := hex
    rw [hcl.gone i fd hi, (h.registered.fresh i fd hi).1]
  · rw [not_exists] at hex
    rw [hcl.others fd hex, ht, h.registered.others fd hex]

theorem released_of_mem {file : Nat × OpenedPath} (h : file ∈ call.closed ++ call.deferred) :
    call.Released file := by
  rcases mem_append.mp h with hc | hd
  · exact .inl hc
  · exact .inr (.inl hd)

/-- A merged call that fails as a whole: the table is as it was, and every confirmed
file is released unless that call lost its own. -/
theorem Going.rolledBack (h : Going fs items call results)
    (hok : ∀ (i : Nat) (e : VfError), results[i]? ≠ some (.error e)) {rest : List OpenItem}
    (hmr : openvMerged calls call results.length rest = (mid, .error error)) :
    let after := closeResults calls 0 results mid
    after.openFiles = fs.openFiles ∧ ((∀ file ∈ after.confirmed, after.Released file) ↔
        ∀ run ∈ after.runs, ¬ run.2.2.Drops) := by
  intro after
  obtain ⟨ht, hsc, hc, hd, hru⟩ := openvMerged_error hmr
  have hcl : ClosedFrom 0 results mid after := closeResults_closed 0 mid h.registered.distinct
  have hold := h.closed_all hok ht hcl
  have hre : ∀ run ∈ call.runs, ¬ run.2.2.Drops := by
    intro run hr
    obtain ⟨failed, hfa⟩ := h.returned run hr
    exact run.2.2.not_drops_of_returned hfa
  refine ⟨h.table_restored ht hcl, ?_⟩
  rcases hru with hs | ⟨ops, run, hno, had⟩
  · refine iff_of_true ?_ ?_
    · intro file hf
      apply released_of_mem
      apply hold
      rw [mem_confirmed, hcl.runs, hcl.scalar, hs, hsc] at hf
      exact mem_confirmed.mpr hf
    · intro run hr
      rw [hcl.runs, hs] at hr
      exact hre run hr
  have ha : after.runs = call.runs ++ [(results.length, ⟨ops, run⟩)] := hcl.runs.trans had
  have hfs : ∀ file, file ∈ after.confirmed ↔ _ := fun file =>
    mem_confirmed_run ha (hcl.scalar.trans hsc)
  constructor
  · intro hal other ho
    rw [ha] at ho
    rcases mem_append.mp ho with hear | hne
    · exact hre other hear
    obtain rfl := mem_singleton.mp hne
    refine (run.released_iff hno).mp fun file hf => ?_
    -- Closing the outcomes only concerns earlier items, and earlier runs released nothing.
    have hl : (results.length + file.1, file.2) ∉ after.closed ++ after.deferred := by
      intro hm
      rcases hcl.only _ hm with hb | hlt
      · rw [hc, hd, h.clean] at hb
        cases hb
      · dsimp only at hlt
        omega
    rcases hal _ ((hfs _).mpr (.inr ⟨file, hf, rfl⟩)) with
      hin | hin | ⟨other, ho, part, hp, heq⟩
    · exact absurd (mem_append_left _ hin) hl
    · exact absurd (mem_append_right _ hin) hl
    rw [ha] at ho
    rcases mem_append.mp ho with hear | hne
    · obtain ⟨failed, hfa⟩ := h.returned other hear
      obtain ⟨hn, hn'⟩ := other.2.2.returned_done hfa
      rw [hn, hn'] at hp
      cases hp
    obtain rfl := mem_singleton.mp hne
    obtain ⟨hi, hpa⟩ := Prod.mk.inj heq
    have hs : file = part := Prod.ext (Nat.add_left_cancel hi) hpa
    rwa [hs]
  intro hn file hf
  rcases (hfs file).mp hf with hear | ⟨part, hp, rfl⟩
  · exact released_of_mem (hold file hear)
  have hm : (results.length, (⟨ops, run⟩ : (ops : List PathOpenOp) × OpenvRun τ ops)) ∈
      after.runs := by
    rw [ha]
    exact mem_append_right _ (mem_singleton.mpr rfl)
  exact .inr (.inr ⟨_, hm, part, (run.released_iff hno).mpr (hn _ hm) part hp, rfl⟩)

theorem Going.scalar_failed (h : Going fs items call results)
    (hok : ∀ (i : Nat) (e : VfError), results[i]? ≠ some (.error e)) {item : OpenItem}
    (hi : items[results.length]? = some item)
    (hra : openRawImpl calls call results.length item = (call', .error error)) {outcome : VfError}
    (hd : outcome.detail = error.detail) :
    Registered TableFull fs.openFiles call'.openFiles (call'.Entries items)
      (results ++ [.error outcome]) := by
  obtain ⟨ht, hr, ⟨hs, -⟩ | ⟨hfu, file, hs⟩⟩ := openRawImpl_error hra
  · have hn : Registered TableFull call.openFiles call'.openFiles (fun _ _ => False)
        [(.error outcome : VfResult Int)] :=
      ht ▸ Registered.error _ _ fun _ _ hf => hf.elim
    refine (h.registered.append hok hn).congr fun i opened => ?_
    simp [OpenCall.Entries, OpenCall.confirmed, hr, hs]
  have hl : Registered TableFull call.openFiles call'.openFiles
      (fun i opened => i = 0 ∧ opened = openedState file item.flags)
      [(.error outcome : VfResult Int)] :=
    ht ▸ Registered.error _ _ fun _ _ _ => hd.trans hfu
  refine (h.registered.append hok hl).congr fun i opened => ?_
  exact entries_scalar_iff hr hs hi i opened

variable (calls) in
def Ended (fs : OpenFs σ) (items : List OpenItem)
    (out : OpenCall σ τ × VfResult (List (VfResult Int))) : Prop :=
  match out.2 with
  | .ok results => results.length ≤ items.length ∧ Settled calls items out.1 results ∧
      Registered TableFull fs.openFiles out.1.openFiles (out.1.Entries items) results
  | .error _ => out.1.openFiles = fs.openFiles ∧
      ((∀ file ∈ out.1.confirmed, out.1.Released file) ↔ ∀ run ∈ out.1.runs, ¬ run.2.2.Drops)

theorem length_dropLast_of_getLast {last : VfResult Int}
    (hl : results.getLast? = some last) : results.dropLast.length = results.length - 1 ∧
      0 < results.length := by
  refine ⟨length_dropLast, length_pos_iff.mpr ?_⟩
  rintro rfl
  cases hl

theorem append_ok (hok : ∀ (i : Nat) (e : VfError), results[i]? ≠ some (.error e))
    (fd : Int) (i : Nat) (e : VfError) :
    (results ++ [(.ok fd : VfResult Int)])[i]? ≠ some (.error e) := by
  intro hi
  rcases mem_append.mp (mem_of_getElem? hi) with hold | hn
  · obtain ⟨j, hj⟩ := mem_iff_getElem?.mp hold
    exact hok j e hj
  · cases mem_singleton.mp hn

theorem not_tableFull_of_isSymlink (h : isSymlink error = true) : ¬ TableFull error := by
  intro hf
  rw [isSymlink, decide_eq_true_eq, show error.detail = _ from hf] at h
  cases h

/-- A scalar open that fails leaves the error of its item. -/
theorem Settled.scalar_failed (hok : ∀ (i : Nat) (e : VfError), results[i]? ≠ some (.error e))
    {item : OpenItem} (hi : items[results.length]? = some item)
    (hra : openRawImpl calls call results.length item = (call', .error error)) :
    Settled calls items call'
      (results ++ [.error (error.mapIndex fun _ => results.length)]) := by
  refine ⟨fun _ => ⟨error.mapIndex fun _ => results.length, by simp⟩, ?_⟩
  intro i outcome hplace
  rcases Nat.lt_or_ge i results.length with hlt | hge
  · rw [getElem?_append_left hlt] at hplace
    exact absurd hplace (hok i outcome)
  rw [getElem?_append_right hge] at hplace
  obtain ⟨hzero, rfl⟩ := Registered.single_error_getElem hplace
  obtain rfl : i = results.length := by omega
  obtain ⟨-, -, ⟨-, nfs, hopen⟩ | ⟨hfull, -⟩⟩ := openRawImpl_error hra
  · exact .inr (.inr ⟨item, call.nfs, nfs, error, hi, hopen, rfl⟩)
  · exact .inl hfull

theorem Going.round {next : Outcomes σ τ} (h : Going fs items st.1 st.2)
    (hstep : symlinkStep calls items st = .inl next) :
    Going fs items next.1 next.2 ∧ Settled calls items next.1 next.2 := by
  obtain ⟨error, item, call, fd, call', suffix, hl, hi, hr, -, hsy, hm, rfl⟩ :=
    symlinkStep_inl calls hstep
  obtain ⟨hle, hp⟩ := length_dropLast_of_getLast hl
  rw [← hle] at hi hr
  have hfr := h.dropLast hl (not_tableFull_of_isSymlink hsy)
  have hs := hfr.scalar h.registered.dropLast_ok hi hr
  have hst : (st.2.dropLast ++ [(.ok fd : VfResult Int)]).length = st.2.length := by
    rw [length_append, hle, length_singleton]
    omega
  have hok := append_ok h.registered.dropLast_ok fd
  rw [← hst] at hm ⊢
  exact ⟨hs.merged hok hm fun e hf => hf, Settled.merged hok hs.length_le hm⟩

theorem Going.exit {out : OpenCall σ τ × VfResult (List (VfResult Int))}
    (h : Going fs items st.1 st.2) (hsettled : Settled calls items st.1 st.2)
    (hst : symlinkStep calls items st = .inr out) : Ended calls fs items out := by
  have hs : Ended calls fs items (st.1, .ok st.2) := ⟨h.length_le, hsettled, h.registered⟩
  unfold symlinkStep at hst
  split at hst
  · rename_i error hl
    obtain ⟨hlen, hp⟩ := length_dropLast_of_getLast hl
    have hle := h.length_le
    dsimp only at hst
    rw [← hlen] at hst
    split at hst
    · obtain rfl := Sum.inr.inj hst
      exact hs
    rename_i item hi
    split at hst
    · obtain rfl := Sum.inr.inj hst
      exact hs
    rename_i hsy
    simp only [Bool.or_eq_true, Bool.not_eq_true', not_or, Bool.not_eq_false] at hsy
    have hfr := h.dropLast hl (not_tableFull_of_isSymlink hsy.1)
    have hok := h.registered.dropLast_ok
    split at hst
    · rename_i call' error' hr
      obtain rfl := Sum.inr.inj hst
      refine ⟨?_, Settled.scalar_failed hok hi hr, hfr.scalar_failed hok hi hr rfl⟩
      rw [length_append, length_singleton]
      omega
    rename_i call' fd hr
    have hsc := hfr.scalar hok hi hr
    split at hst
    · rename_i hall
      obtain rfl := Sum.inr.inj hst
      refine ⟨hsc.length_le, ⟨?_, ?_⟩, hsc.registered⟩
      · exact fun hlt => absurd hlt (Nat.not_lt.mpr hall)
      · exact fun i e hi => absurd hi (append_ok hok fd i e)
    split at hst
    · cases hst
    · rename_i mid error' hm
      obtain rfl := Sum.inr.inj hst
      exact hsc.rolledBack (append_ok hok fd) hm
  · obtain rfl := Sum.inr.inj hst
    exact hs

end Calls

/-- Two files that are opened in two compounds, as `openvStep` sends them. -/
def pairOps : List PathOpenOp :=
  [⟨[97], 1, .noCreate, some 0, false, [0]⟩, ⟨[98], 1, .noCreate, some 0, false, [1]⟩]

theorem pairOps_handedOn : ∃ (st last : OpenvState Nat) (error : RpcError),
    OpenvReachable openingWire smoothCalls 4096 pairOps (narrowRemote 1) st ∧
      openvStep openingWire smoothCalls 4096 pairOps st = .inr (last, .handedOn error) ∧
      last.confirmed = [(0, ⟨[7]⟩, specialStateid)] := by
  obtain ⟨st, last, exit, hreach, hstep, hends⟩ := openvStep_second openingWire smoothCalls 4096
    pairOps (narrowRemote 1) (fun out => out.2.isHandedOn &&
      decide (out.1.confirmed = [(0, ⟨[7]⟩, specialStateid)])) (by decide +kernel)
  rw [Bool.and_eq_true, decide_eq_true_eq] at hends
  cases exit with
  | returned failed => exact absurd hends.1 Bool.false_ne_true
  | cleaned error => exact absurd hends.1 Bool.false_ne_true
  | handedOn error => exact ⟨st, last, error, hreach, hstep, hends.2⟩

/-- A session whose connection is that of the run; a call with other operations finds
closes of an earlier call that it cannot drain. -/
def pairCalls (run : OpenvRun Nat pairOps) : OpenCalls Unit Nat where
  serverPath path := path
  ownerName _ index := [index.toUInt8]
  drain _ deferred := ((), deferred, .ok ())
  openv _ ops := ((), if h : pairOps = ops then .ok (h ▸ run) else .error (.op 0 Status.io))
  openPath _ _ := ((), .error (.errno (some 0) VfError.errIo))
  close _ _ := ((), .ok ())
  closeUnregisteredMany _ _ := ()

def emptyFs : OpenFs Unit := ⟨(), fun _ => none, 0, [], false⟩

/-- A server that answers some compounds, and then has no file that is asked for. -/
def missingWire : Wire Nat := fun left request =>
  match left with
  | 0 =>
    let reached := request.takeWhile fun arg => arg.opNum ≠ .openFile
    (0, .ok ⟨.noent, reached.map (fun arg => ⟨arg.opNum, Status.ok, .none, false⟩) ++
      [⟨.openFile, .noent, .none, false⟩], false⟩)
  | left + 1 => openingWire (left + 1) request

theorem pairOps_returned : ∃ st last : OpenvState Nat,
    OpenvReachable missingWire smoothCalls 4096 pairOps (narrowRemote 1) st ∧
      openvStep missingWire smoothCalls 4096 pairOps st =
        .inr (last, .returned (some (1, .noent))) ∧
      last.opened = [some (⟨[7]⟩, specialStateid), none] := by
  obtain ⟨st, last, exit, hreach, hstep, hends⟩ := openvStep_second missingWire smoothCalls 4096
    pairOps (narrowRemote 1) (fun out => decide (out.2.outcome = some (some (1, .noent)) ∧
      out.1.opened = [some (⟨[7]⟩, specialStateid), none])) (by decide +kernel)
  obtain ⟨houtcome, hopened⟩ := of_decide_eq_true hends
  cases exit with
  | handedOn error => cases houtcome
  | cleaned error => cases houtcome
  | returned failed =>
    obtain rfl := Option.some.inj houtcome
    exact ⟨st, last, hreach, hstep, hopened⟩

end Vnfs.Nfs.OpenOutcomes
