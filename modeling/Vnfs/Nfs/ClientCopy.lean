import Vnfs.Nfs.ServerCopy

/-!
Copying on the client. Each round of the loop reads a piece of what is left of the
extent and writes it behind what is already there, so that the destination always has
a front part of the extent; the loop ends when that is all of it.
-/

namespace Vnfs.Nfs.Copy

open ByteFile
open List hiding min

variable {P F : Type} [DecidableEq F] {server : CopyServer} {identity : P → F}

omit [DecidableEq F] in
theorem call_world {w w' : CopyWorld F} {result : VfResult Unit}
    (h : w.call server = (w', result)) : w' = {w with calls := w.calls + 1} :=
  (Prod.mk.inj h).1.symm

theorem writeAllAt_copies (file : F) (offset : Nat) (data : Bytes) (w : CopyWorld F) :
    (writeAllAt server file offset data w).1.copies = w.copies := by
  induction hl : data.length using Nat.strongRecOn generalizing offset data w with
  | ind length ih =>
    rw [writeAllAt]
    split
    · rfl
    rename_i hd
    cases hc : w.call server with
    | mk w' result =>
      obtain rfl := call_world hc
      cases result with
      | error error => rfl
      | ok =>
        dsimp only
        split
        · rfl
        rw [ih _ _ _ _ _ rfl]
        rw [← hl, length_drop]
        have : data ≠ [] := by simpa using hd
        omega

variable {data : Bytes} {w w' : CopyWorld F} {length : Option Nat} {copied count : Nat}
  {base store : F → Bytes} {destination : F} {start fuel size : Nat}

theorem writeAllAt_ok {file : F} {offset : Nat}
    (h : writeAllAt server file offset data w = (w', .ok ())) :
    w'.store = writeTo w.store file offset data := by
  induction hle : data.length using Nat.strongRecOn generalizing offset data w with
  | ind length ih =>
    rw [writeAllAt] at h
    split at h
    · rename_i hd
      obtain ⟨rfl, -⟩ := Prod.mk.inj h
      rw [List.isEmpty_iff.mp hd, writeTo_nil]
    rename_i hd
    cases hc : w.call server with
    | mk next result =>
      obtain rfl := call_world hc
      rw [hc] at h
      cases result with
      | error error => cases h
      | ok =>
        dsimp only at h
        split at h
        · cases h
        have hne : data ≠ [] := by simpa using hd
        have hl : (data.drop (server.served w.calls)).length < length := by
          rw [← hle, length_drop]
          omega
        rw [ih _ hl h rfl]
        have ht : (data.take (server.served w.calls)).length = server.served w.calls := by
          rw [length_take]
          omega
        nth_rewrite 2 [← ht]
        rw [writeTo_writeTo, take_append_drop]

theorem copyExtentData_copies (source destination : F) (length : Option Nat)
    (fuel so doff copied : Nat) (w : CopyWorld F) :
    (copyExtentData server source destination length fuel so doff copied w).1.copies =
      w.copies := by
  induction fuel generalizing so doff copied w with
  | zero => rfl
  | succ fuel ih =>
    rw [copyExtentData]
    split
    · rfl
    cases hca : w.call server with
    | mk next result =>
      obtain rfl := call_world hca
      cases result with
      | error error => rfl
      | ok =>
        dsimp only
        split
        · rfl
        split
        · rfl
        split
        · rfl
        split
        · rename_i hwr
          have hc := congrArg (·.1.copies) hwr
          exact hc.symm.trans (writeAllAt_copies _ _ _ _)
        rename_i hwr
        have hc := congrArg (·.1.copies) hwr
        have hs := hc.symm.trans (writeAllAt_copies _ _ _ _)
        split
        · split
          · exact hs
          · exact (ih _ _ _ _).trans hs
        · exact hs

/-- What the loop has done when it has copied so many bytes of an extent. -/
structure Writing (base : F → Bytes) (destination : F) (start : Nat) (extent : Bytes)
    (copied : Nat) (store : F → Bytes) : Prop where
  within : copied ≤ extent.length
  store : store = writeTo base destination start (extent.take copied)

/-- The extent of a length, or the rest of the file. -/
def limited (length : Option Nat) (data : Bytes) : Bytes :=
  match length with
  | some length => data.take length
  | none => data

theorem limited_length_le (length : Option Nat) (data : Bytes) :
    (limited length data).length ≤ data.length := by
  cases length with
  | none => exact Nat.le_refl _
  | some length =>
    rw [limited, length_take]
    exact Nat.min_le_right _ _

/-- A piece of the file behind what was copied is a piece of the extent, as long as it
keeps to the length. -/
theorem limited_piece (hcp : copied ≤ (limited length data).length)
    (hc : ∀ l, length = some l → copied + count ≤ l) (hle : count ≤ data.length - copied) :
    copied + count ≤ (limited length data).length ∧
      (limited length data).take copied ++ (data.drop copied).take count =
        (limited length data).take (copied + count) := by
  cases length with
  | none =>
    simp only [limited] at *
    exact ⟨by omega, take_add.symm⟩
  | some l =>
    have hl := hc l rfl
    simp only [limited, length_take, take_take] at *
    refine ⟨by omega, ?_⟩
    rw [Nat.min_eq_left (by omega), Nat.min_eq_left hl, take_add]

theorem Writing.step (h : Writing base destination start (limited length data) copied store)
    (hc : ∀ l, length = some l → copied + count ≤ l) (hl : count ≤ data.length - copied) :
    Writing base destination start (limited length data) (copied + count)
      (writeTo store destination (start + copied) ((data.drop copied).take count)) := by
  obtain ⟨hin, hpc⟩ := limited_piece h.within hc hl
  refine ⟨hin, ?_⟩
  have hfr : ((limited length data).take copied).length = copied := by
    rw [length_take, Nat.min_eq_left h.within]
  have hj := writeTo_writeTo base destination start ((limited length data).take copied)
    ((data.drop copied).take count)
  rw [hfr] at hj
  rw [h.store, ← hpc, ← hj]

theorem Writing.whole {extent : Bytes} (h : Writing base destination start extent copied store)
    (ha : extent.length ≤ copied) :
    store = writeTo base destination start extent ∧ copied = extent.length := by
  refine ⟨?_, Nat.le_antisymm h.within ha⟩
  rw [h.store, take_of_length_le ha]

theorem copyExtentData_ok {source : F} (hne : source ≠ destination) {origin : Nat}
    (hw : Writing base destination start (limited length ((base source).drop origin)) copied
      w.store)
    (h : copyExtentData server source destination length fuel (origin + copied) (start + copied)
      copied w = (w', some (.ok size))) :
    w'.store = writeTo base destination start (limited length ((base source).drop origin)) ∧
      size = start + (limited length ((base source).drop origin)).length := by
  induction fuel generalizing copied w with
  | zero => cases h
  | succ fuel ih =>
    set data := (base source).drop origin with hd
    have hsr : (w.store source).drop (origin + copied) = data.drop copied := by
      rw [hw.store, writeTo_of_ne _ hne, hd, drop_drop]
    have hsi : (w.store source).length - origin = data.length := by
      rw [hw.store, writeTo_of_ne _ hne, hd, length_drop]
    rw [copyExtentData] at h
    rw [hsr] at h
    set chunk := (data.drop copied).take (server.served w.calls) with hch
    have hpc : chunk = (data.drop copied).take chunk.length := by
      rw [hch, length_take, take_eq_take_iff]
      simp
    have hleft : chunk.length ≤ data.length - copied := by
      rw [hch, length_take, length_drop]
      exact Nat.min_le_right _ _
    -- At the end of the file nothing of the extent is left behind the chunk.
    have hen : (w.store source).length ≤ origin + copied + chunk.length →
        (limited length data).length ≤ copied + chunk.length := by
      intro hle
      have := limited_length_le length data
      omega
    split at h
    · rename_i hr
      obtain ⟨rfl, hok⟩ := Prod.mk.inj h
      obtain rfl : start + copied = size := by simpa using hok
      have ha : (limited length data).length ≤ copied := by
        obtain ⟨l, rfl, hl⟩ := (Option.any_eq_true _ _).mp hr
        have hle : l ≤ copied := by simpa using hl
        rw [limited, length_take]
        omega
      obtain ⟨hst, hc⟩ := hw.whole ha
      exact ⟨hst, by rw [← hc]⟩
    rename_i hn
    have hcn : chunk.length ≤ min ((length.map (· - copied)).getD u64Max) (2 ^ 20) →
        ∀ l, length = some l → copied + chunk.length ≤ l := by
      rintro hle l rfl
      simp at hle hn
      omega
    cases hca : w.call server with
    | mk next result =>
      obtain rfl := call_world hca
      rw [hca] at h
      cases result with
      | error error => cases h
      | ok =>
        dsimp only at h
        split at h
        · cases h
        rename_i hf
        have hs := hw.step (hcn (Nat.le_of_not_lt hf)) hleft
        rw [← hpc] at hs
        split at h
        · rename_i hem
          have hni : chunk = [] := List.isEmpty_iff.mp hem
          split at h
          · rename_i he
            obtain ⟨rfl, hok⟩ := Prod.mk.inj h
            obtain rfl : start + copied = size := by simpa using hok
            have hle := hen (by simpa using (Bool.and_eq_true_iff.mp he).1)
            rw [hni, length_nil, Nat.add_zero] at hle
            obtain ⟨hst, hc⟩ := hw.whole hle
            exact ⟨hst, by rw [← hc]⟩
          · cases h
        split at h
        · cases h
        rename_i doff' hdo
        obtain rfl := checkedAdd_eq_some hdo
        split at h
        · cases h
        rename_i written hwr
        rw [← writeAllAt_ok hwr] at hs
        split at h
        · rename_i so' copied' hso hc'
          obtain rfl := checkedAdd_eq_some hso
          obtain rfl := checkedAdd_eq_some hc'
          split at h
          · rename_i he
            obtain ⟨rfl, hok⟩ := Prod.mk.inj h
            obtain rfl : start + copied + chunk.length = size := by simpa using hok
            have hle := hen (by simpa using (Bool.and_eq_true_iff.mp he).1)
            obtain ⟨hst, hlen⟩ := hs.whole hle
            exact ⟨hst, by rw [← hlen, Nat.add_assoc]⟩
          · rw [Nat.add_assoc, Nat.add_assoc] at h
            exact ih hs h
        · cases h

/-- What a step leaves of the world: the contents of files and the COPY requests. -/
def CopyWorld.Same (w w' : CopyWorld F) : Prop := w'.store = w.store ∧ w'.copies = w.copies

omit [DecidableEq F] in
theorem call_same {w w' : CopyWorld F} {result : VfResult Unit}
    (h : w.call server = (w', result)) : w.Same w' := by
  obtain rfl := call_world h
  exact ⟨rfl, rfl⟩

omit [DecidableEq F] in
theorem CopyWorld.Same.trans {w w' w'' : CopyWorld F} (h : w.Same w') (h' : w'.Same w'') :
    w.Same w'' :=
  ⟨h'.1.trans h.1, h'.2.trans h.2⟩

theorem createAll_same (pairs : List (Nat × ExtentPair P)) (w : CopyWorld F) :
    w.Same (pairs.foldl (fun w pair => w.create (identity pair.2.dstPath)) w) := by
  induction pairs generalizing w with
  | nil => exact ⟨rfl, rfl⟩
  | cons pair pairs ih => exact CopyWorld.Same.trans ⟨rfl, rfl⟩ (ih _)

theorem openBatch_same {pairs : List (Nat × ExtentPair P)} {result : VfResult Unit}
    (h : openBatch server identity pairs w = (w', result)) : w.Same w' := by
  unfold openBatch at h
  split at h
  · rename_i hc
    obtain ⟨rfl, -⟩ := Prod.mk.inj h
    exact call_same hc
  rename_i hc
  split at h
  · obtain ⟨rfl, -⟩ := Prod.mk.inj h
    exact call_same hc
  split at h
  · rename_i hc'
    obtain ⟨rfl, -⟩ := Prod.mk.inj h
    exact (call_same hc).trans (call_same hc')
  · rename_i hc'
    obtain ⟨rfl, -⟩ := Prod.mk.inj h
    exact ((call_same hc).trans (call_same hc')).trans (createAll_same _ _)

theorem finishExtent_copies (destination : F) (size : Nat) (w : CopyWorld F) :
    (finishExtent server destination size w).1.copies = w.copies := by
  unfold finishExtent
  split
  · rename_i hc
    exact (call_same hc).2
  · rename_i hc
    exact (call_same hc).2

theorem finishExtent_ok (h : finishExtent server destination size w = (w', .ok ())) :
    w'.store = Function.update w.store destination (truncate (w.store destination) size) := by
  unfold finishExtent at h
  split at h
  · cases h
  · rename_i hc
    obtain rfl := call_world hc
    exact (call_same h).1

omit [DecidableEq F] in
variable (identity) in
theorem ExtentPair.extent_eq (pair : ExtentPair P) (store : F → Bytes) :
    pair.extent identity store =
      limited pair.length ((store (identity pair.srcPath)).drop pair.srcOffset) := by
  unfold ExtentPair.extent limited
  cases pair.length <;> rfl

variable (server identity) in
theorem copyExtent_copies (fuel : Nat) (pair : ExtentPair P) (w : CopyWorld F) :
    (copyExtent server identity fuel pair w).1.copies = w.copies := by
  unfold copyExtent
  split
  · rename_i ho
    exact (openBatch_same ho).2
  rename_i opened ho
  have hopd := (openBatch_same ho).2
  split
  · exact hopd
  split
  · rename_i hd
    have hc := congrArg (·.1.copies) hd
    exact (hc.symm.trans (copyExtentData_copies _ _ _ _ _ _ _ _)).trans hopd
  · rename_i hd
    have hc := congrArg (·.1.copies) hd
    exact (hc.symm.trans (copyExtentData_copies _ _ _ _ _ _ _ _)).trans hopd
  rename_i hd
  have hc := congrArg (·.1.copies) hd
  exact (finishExtent_copies _ _ _).trans
    ((hc.symm.trans (copyExtentData_copies _ _ _ _ _ _ _ _)).trans hopd)

/-- A copy on the client, where source and destination are different objects. -/
theorem copyExtent_ok {pair : ExtentPair P} (hne : identity pair.srcPath ≠ identity pair.dstPath)
    (h : copyExtent server identity fuel pair w = (w', some (.ok ()))) :
    w'.store = pair.copied identity w.store := by
  unfold copyExtent at h
  split at h
  · cases h
  rename_i opened ho
  have hopd := (openBatch_same ho).1
  have hl : copyLength identity pair opened = .ok pair.length := if_neg fun hs => hne hs.1
  rw [hl] at h
  dsimp only at h
  split at h
  · cases h
  · cases h
  rename_i copied size hd
  have hst : Writing w.store (identity pair.dstPath) pair.dstOffset
      (limited pair.length ((w.store (identity pair.srcPath)).drop pair.srcOffset)) 0
      opened.store := by
    refine ⟨Nat.zero_le _, ?_⟩
    rw [take_zero, writeTo_nil, hopd]
  obtain ⟨hsto, rfl⟩ := copyExtentData_ok hne hst hd
  obtain ⟨hw, hr⟩ := Prod.mk.inj h
  have hf : finishExtent server (identity pair.dstPath) _ copied = (w', .ok ()) :=
    Prod.ext hw (Option.some.inj hr)
  rw [finishExtent_ok hf, hsto, ExtentPair.copied, ExtentPair.extent_eq, writeTo_same]
  rw [writeTo, Function.update_idem]

variable (server identity) in
theorem vcopyDataImpl_copies (fuel index : Nat) (pairs : List (ExtentPair P)) (w : CopyWorld F) :
    (vcopyDataImpl server identity fuel index pairs w).1.copies = w.copies := by
  induction pairs generalizing index w with
  | nil => rfl
  | cons pair rest ih =>
    have ho := copyExtent_copies server identity fuel pair w
    rw [vcopyDataImpl]
    split
    · rename_i hp
      rwa [hp] at ho
    · rename_i hp
      rwa [hp] at ho
    · rename_i hp
      rw [hp] at ho
      exact (ih _ _).trans ho

theorem vcopyDataImpl_ok {index : Nat} {pairs : List (ExtentPair P)}
    (hne : ∀ pair ∈ pairs, identity pair.srcPath ≠ identity pair.dstPath)
    (h : vcopyDataImpl server identity fuel index pairs w = (w', some (.ok ()))) :
    w'.store = copiedInTurn identity w.store pairs := by
  induction pairs generalizing index w with
  | nil =>
    obtain ⟨rfl, -⟩ := Prod.mk.inj h
    rfl
  | cons pair rest ih =>
    rw [vcopyDataImpl] at h
    split at h
    · cases h
    · cases h
    rename_i next hpa
    have ho := copyExtent_ok (hne pair mem_cons_self) hpa
    rw [ih (fun p hp => hne p (mem_cons_of_mem _ hp)) h, ho]
    rfl

end Vnfs.Nfs.Copy
