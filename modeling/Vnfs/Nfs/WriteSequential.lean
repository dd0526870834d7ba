import Vnfs.Lib.ByteFile
import Vnfs.Nfs.WriteWave

/-!
What writes through descriptors mean: the descriptor table and the contents of
the files, and one complete write after another. A session keeps a store honest
if a size is the size the store has and an acknowledged WRITE is in it, to the
number of bytes acknowledged. The checks before any I/O are then a description of
the requests in the state they start from.
-/

namespace Vnfs.Nfs

open ByteFile List Function

@[ext]
structure FileState where
  openFiles : Int → Option NfsOpenState
  files : NfsFh → Bytes

namespace FileState

variable (s : FileState) (opened : NfsOpenState)

def position : VfOffset → Nat
  | .pos offset => offset
  | .cur => opened.curOffset
  | .eof => (s.files opened.fh).length

/-- Where a write through an open descriptor begins. -/
def place (offset : VfOffset) : Nat :=
  if opened.append then (s.files opened.fh).length else s.position opened offset

/-- The table after a write of `length` bytes from `start` on. -/
def moved (openFiles : Int → Option NfsOpenState) (fd : Int) (offset : VfOffset)
    (start length : Nat) : Int → Option NfsOpenState :=
  if offset = .cur then advanceOffset openFiles fd (start + length) else openFiles

/-- One complete write through a descriptor, and where it went. -/
def writeFd (fd : Int) (offset : VfOffset) (data : Bytes) :
    Option (FileState × Nat) :=
  (s.openFiles fd).map fun opened =>
    let start := s.place opened offset
    (⟨moved s.openFiles fd offset start data.length, writeTo s.files opened.fh start data⟩, start)

/-- Complete writes one at a time, with the operand, offset and count of each. -/
def writeInOrder (s : FileState) :
    List WriteRequest → Option (FileState × List (FileOperand × Nat × Nat))
  | [] => some (s, [])
  | request :: rest => do
      let fd ← fdOf request.file
      let (s, start) ← s.writeFd fd request.offset request.data
      let (s, told) ← writeInOrder s rest
      some (s, (request.file, start, request.data.length) :: told)

end FileState

/-- Two tables of the same open files; only cursors may differ. -/
def SameOpens (openFiles other : Int → Option NfsOpenState) : Prop :=
  ∀ fd, (openFiles fd).map (fun opened => {opened with curOffset := 0}) =
    (other fd).map fun opened => {opened with curOffset := 0}

theorem SameOpens.refl (openFiles : Int → Option NfsOpenState) : SameOpens openFiles openFiles :=
  fun _ => rfl

theorem SameOpens.trans {a b c : Int → Option NfsOpenState} (h : SameOpens a b)
    (h' : SameOpens b c) : SameOpens a c :=
  fun fd => (h fd).trans (h' fd)

theorem SameOpens.advanceOffset (openFiles : Int → Option NfsOpenState) (fd : Int) (offset : Nat) :
    SameOpens openFiles (advanceOffset openFiles fd offset) := by
  intro other
  unfold Nfs.advanceOffset
  by_cases heq : other = fd
  · rw [heq, update_self, Option.map_map]
    rfl
  · rw [update_of_ne heq]

variable {openFiles other : Int → Option NfsOpenState}

theorem SameOpens.some (h : SameOpens openFiles other) {fd : Int} {opened : NfsOpenState}
    (hopen : openFiles fd = some opened) :
    ∃ cursor, other fd = some {opened with curOffset := cursor} := by
  have hfd := h fd
  rw [hopen] at hfd
  cases ho : other fd with
  | none => simp [ho] at hfd
  | some open' =>
    rw [ho] at hfd
    obtain ⟨fh, stateid, cursor, append⟩ := open'
    obtain ⟨fh', stateid', cursor', append'⟩ := opened
    simp only [Option.map_some, Option.some.injEq, NfsOpenState.mk.injEq] at hfd
    obtain ⟨rfl, rfl, -, rfl⟩ := hfd
    exact ⟨cursor, rfl⟩

theorem SameOpens.set (h : SameOpens openFiles other) (fd : Int) (cursor : Nat) :
    ((openFiles fd).map fun opened => {opened with curOffset := cursor}) =
      (other fd).map fun opened => {opened with curOffset := cursor} := by
  have hs := congrArg (Option.map fun opened : NfsOpenState => {opened with curOffset := cursor})
    (h fd)
  rwa [Option.map_map, Option.map_map] at hs

namespace WriteSession

variable {σ : Type}

/-- The part of the server's contract that a vector of writes relies on. -/
structure Honest (session : WriteSession σ) (files : σ → NfsFh → Bytes) : Prop where
  fileSize : ∀ st fh size st', session.fileSize st fh = (.ok size, st') →
    size = (files st fh).length ∧ files st' = files st
  writev : ∀ st ops results st', session.writev st ops = (.ok results, st') →
    results.length = ops.length →
    (∀ pair ∈ ops.zip results, pair.2.1 ≤ pair.1.data.length) →
    files st' = (ops.zip results).foldl (fun files pair =>
      writeTo files pair.1.fh pair.1.offset (pair.1.data.take pair.2.1)) (files st)

variable {session : WriteSession σ} {files : σ → NfsFh → Bytes}

def view (files : σ → NfsFh → Bytes) (fs : NfsFs σ) : FileState := ⟨fs.openFiles, files fs.nfs⟩

variable {fs fs' : NfsFs σ} {fd : Int} {offset : VfOffset} {start : Nat} {opened : NfsOpenState}
  {seenHandles : List NfsFh} {index : Nat}

theorem Honest.resolveOffset_ok (h : session.Honest files) (ho : fs.openFiles fd = some opened)
    (hr : session.resolveOffset fs fd offset = (.ok start, fs')) :
    start = (view files fs).position opened offset ∧ view files fs' = view files fs := by
  cases offset with
  | pos p =>
    cases hr
    exact ⟨rfl, rfl⟩
  | cur =>
    simp only [resolveOffset, ho] at hr
    cases hr
    exact ⟨rfl, rfl⟩
  | eof =>
    simp only [resolveOffset, ho, Prod.mk.injEq] at hr
    obtain ⟨hs, rfl⟩ := hr
    obtain ⟨hl, hsa⟩ := h.fileSize _ _ _ _ (Prod.ext hs rfl)
    exact ⟨hl, by simp only [view, hsa]⟩

/-- The offset asked for is the place of the write, and asking changes nothing. -/
theorem Honest.writeOffset_ok (h : session.Honest files) (hopen : fs.openFiles fd = some opened)
    (ho : session.writeOffset fs fd offset = (.ok start, fs')) :
    start = (view files fs).place opened offset ∧ view files fs' = view files fs := by
  unfold writeOffset at ho
  split at ho
  · cases ho
  rename_i position middle hr
  obtain ⟨hp, hv⟩ := h.resolveOffset_ok hopen hr
  have hm : middle.openFiles fd = some opened := by
    rw [show middle.openFiles = fs.openFiles from congrArg FileState.openFiles hv, hopen]
  have hfs : files middle.nfs = files fs.nfs := congrArg FileState.files hv
  rw [hm, Option.filter_some] at ho
  unfold FileState.place
  split at ho
  · rename_i state hs
    obtain ⟨ha, rfl⟩ : opened.append = true ∧ opened = state := by simpa using hs
    simp only [Prod.mk.injEq] at ho
    obtain ⟨hsi, rfl⟩ := ho
    obtain ⟨hl, hsa⟩ := h.fileSize _ _ _ _ (Prod.ext hsi rfl)
    rw [if_pos ha, hl, hfs]
    refine ⟨rfl, ?_⟩
    rw [← hv]
    simp only [view, hsa]
  rename_i hs
  have ha : ¬ opened.append = true := by simpa using hs
  cases ho
  rw [if_neg ha]
  exact ⟨hp, hv⟩

/-- An item says what its request asks for in the state `s`. -/
structure Describes (s : FileState) (request : WriteRequest) (item : BatchItem) : Prop where
  file : item.file = request.file
  fd : fdOf request.file = some item.fd
  offset : item.offset = request.offset
  data : item.data = request.data
  described : ∃ opened, s.openFiles item.fd = some opened ∧ opened.fh = item.fh ∧
    item.initial = s.place opened item.offset ∧
    (item.positional = true → opened.append = false ∧ item.offset = .pos item.initial)

theorem Honest.validateWrite_ok (h : session.Honest files) {request : WriteRequest}
    {item : BatchItem} (hok : session.validateWrite fs seenHandles index request = (.ok item, fs'))
    :
    Describes (view files fs) request item ∧ item.predecessor = seenHandles.contains item.fh ∧
      view files fs' = view files fs := by
  unfold validateWrite at hok
  split at hok
  · cases hok
  rename_i fd hfd
  split at hok
  · cases hok
  rename_i start middle hof
  split at hok
  · cases hok
  · cases hok
  rename_i stop opened hs hopd
  have ho : fs.openFiles fd = some opened := by
    have hk := session.writeOffset_openFiles fs fd request.offset
    rw [hof] at hk
    rw [← hk, hopd]
  obtain ⟨hpl, hv⟩ := h.writeOffset_ok ho hof
  cases hok
  refine ⟨⟨rfl, hfd, rfl, rfl, opened, ho, rfl, hpl, ?_⟩, rfl, hv⟩
  intro hp
  split at hp
  · rename_i position hpo
    have ha : opened.append = false := by simpa using hp
    refine ⟨ha, ?_⟩
    rw [hpl, hpo]
    simp [FileState.place, FileState.position, ha]
  · cases hp

theorem Honest.validateWrites_ok (h : session.Honest files) {requests : List WriteRequest}
    {items : List BatchItem}
    (hok : session.validateWrites fs seenHandles index requests = (.ok items, fs')) :
    Forall₂ (Describes (view files fs)) requests items ∧
      (∀ item ∈ items, item.predecessor = false → item.fh ∉ seenHandles) ∧
      (items.Pairwise fun earlier later => later.predecessor = false → earlier.fh ≠ later.fh) ∧
      view files fs' = view files fs := by
  induction requests generalizing fs seenHandles index items with
  | nil =>
    cases hok
    exact ⟨.nil, by simp, .nil, rfl⟩
  | cons request rest ih =>
    unfold validateWrites at hok
    split at hok
    · cases hok
    rename_i item middle hi
    obtain ⟨hd, hp, hv⟩ := h.validateWrite_ok hi
    cases hr : session.validateWrites middle (item.fh :: seenHandles) (index + 1) rest with
    | mk outcome last =>
      rw [hr] at hok
      cases outcome with
      | error error => cases hok
      | ok others =>
        cases hok
        obtain ⟨hot, hs, hpw, hl⟩ := ih hr
        rw [hv] at hot
        refine ⟨.cons hd hot, ?_, ?_, hl.trans hv⟩
        · intro other ho hn
          rcases mem_cons.mp ho with rfl | hm
          · rw [hp] at hn
            simpa using hn
          · have := hs other hm hn
            exact fun hin => this (mem_cons_of_mem _ hin)
        · refine pairwise_cons.mpr ⟨?_, hpw⟩
          intro other ho hn heq
          exact hs other ho hn (heq ▸ mem_cons_self ..)

end WriteSession

namespace FileState

variable (s : FileState) (items : List BatchItem) (item : BatchItem)

def placeItem : Nat :=
  ((s.openFiles item.fd).map fun opened => s.place opened item.offset).getD 0

def performItem : FileState :=
  ⟨moved s.openFiles item.fd item.offset (s.placeItem item) item.data.length,
    writeTo s.files item.fh (s.placeItem item) item.data⟩

theorem files_performItem (fh : NfsFh) : (s.performItem item).files fh =
      if item.fh = fh then pwrite (s.files fh) (s.placeItem item) item.data else s.files fh := by
  unfold performItem
  dsimp only
  split
  · rename_i hfh
    rw [← hfh, writeTo_same]
  · rename_i hfh
    rw [writeTo_of_ne _ fun h => hfh h.symm]

theorem openFiles_performItem (fd : Int) : (s.performItem item).openFiles fd =
      if item.fd = fd ∧ item.offset = .cur then (s.openFiles fd).map fun opened =>
        {opened with curOffset := s.placeItem item + item.data.length}
      else s.openFiles fd := by
  unfold performItem moved
  dsimp only
  split
  · rename_i hc
    by_cases hfd : fd = item.fd
    · rw [if_pos ⟨hfd.symm, hc⟩, hfd, advanceOffset, update_self]
    · rw [if_neg fun h => hfd h.1.symm, advanceOffset, update_of_ne hfd]
  · rename_i hc
    rw [if_neg fun h => hc h.2]

def inOrder (count : Nat) : FileState :=
  (items.take count).foldl performItem s

theorem inOrder_succ (i : Fin items.length) :
    s.inOrder items (i + 1) = (s.inOrder items i).performItem (items.get i) := by
  unfold inOrder
  rw [take_succ_eq_append_getElem i.isLt, foldl_append]
  rfl

theorem sameOpens_performItem : SameOpens s.openFiles (s.performItem item).openFiles := by
  unfold performItem moved
  split
  · exact SameOpens.advanceOffset s.openFiles _ _
  · exact SameOpens.refl _

theorem sameOpens_inOrder (count : Nat) :
    SameOpens s.openFiles (s.inOrder items count).openFiles := by
  unfold inOrder
  induction items.take count generalizing s with
  | nil => exact SameOpens.refl _
  | cons item rest ih => exact (s.sameOpens_performItem item).trans (ih _)

/-- Where an item's write begins in input order. -/
def placeInOrder (index : Fin items.length) : Nat :=
  (s.inOrder items index).placeItem (items.get index)

theorem placeItem_congr {s s' : FileState} {item : BatchItem} {opened : NfsOpenState}
    (ho : s.openFiles item.fd = some opened) (hfh : opened.fh = item.fh)
    (hopn : s'.openFiles item.fd = s.openFiles item.fd)
    (hfs : s'.files item.fh = s.files item.fh) : s'.placeItem item = s.placeItem item := by
  simp only [placeItem, hopn, ho, Option.map_some, Option.getD_some, place]
  rw [hfh, hfs]
  congr 1
  cases item.offset with
  | pos offset => rfl
  | cur => rfl
  | eof => simp only [position, hfh, hfs]

theorem files_inOrder_of_ne {items : List BatchItem} {fh : NfsFh} {count : Nat}
    (hc : count ≤ items.length)
    (hfh : ∀ index : Fin items.length, index.val < count → (items.get index).fh ≠ fh) :
    (s.inOrder items count).files fh = s.files fh := by
  induction count with
  | zero => rfl
  | succ count ih =>
    rw [s.inOrder_succ items ⟨count, hc⟩]
    have hne := hfh ⟨count, hc⟩ (Nat.lt_succ_self _)
    rw [files_performItem, if_neg hne]
    exact ih (by omega) fun index hi => hfh index (by omega)

/-- A cursor is where the last `Cur` write through it ended. -/
theorem openFiles_inOrder (fd : Int) (count : Nat) (hcn : count ≤ items.length) :
    ((∀ index : Fin items.length, index.val < count → (items.get index).fd = fd →
        (items.get index).offset ≠ .cur) ∧
      (s.inOrder items count).openFiles fd = s.openFiles fd) ∨
    ∃ last : Fin items.length, last.val < count ∧ (items.get last).fd = fd ∧
      (items.get last).offset = .cur ∧
      (∀ index : Fin items.length, index.val < count → (items.get index).fd = fd →
        (items.get index).offset = .cur → index ≤ last) ∧
      (s.inOrder items count).openFiles fd = (s.openFiles fd).map fun opened =>
        {opened with curOffset := s.placeInOrder items last + (items.get last).data.length} := by
  induction count with
  | zero => exact .inl ⟨fun index hi => absurd hi (Nat.not_lt_zero _), rfl⟩
  | succ count ih =>
    have hs := s.inOrder_succ items ⟨count, hcn⟩
    by_cases hl : (items.get ⟨count, hcn⟩).fd = fd ∧ (items.get ⟨count, hcn⟩).offset = .cur
    · right
      refine ⟨⟨count, hcn⟩, Nat.lt_succ_self _, hl.1, hl.2, ?_, ?_⟩
      · intro index hi _ _
        exact Nat.le_of_lt_succ hi
      · rw [hs, openFiles_performItem, if_pos hl, (s.sameOpens_inOrder items count).set]
        rfl
    have hk : (s.inOrder items (count + 1)).openFiles fd =
        (s.inOrder items count).openFiles fd := by
      rw [hs, openFiles_performItem, if_neg hl]
    rcases ih (by omega) with ⟨hn, ho⟩ | ⟨last, hlt, hfd, hc, hm, ho⟩
    · left
      refine ⟨?_, hk.trans ho⟩
      intro index hi hfd hc
      rcases Nat.lt_succ_iff_lt_or_eq.mp hi with hlt | heq
      · exact hn index hlt hfd hc
      · obtain rfl : index = ⟨count, hcn⟩ := Fin.ext heq
        exact hl ⟨hfd, hc⟩
    right
    refine ⟨last, by omega, hfd, hc, ?_, hk.trans ho⟩
    intro index hi hfd' hc'
    rcases Nat.lt_succ_iff_lt_or_eq.mp hi with hlt' | heq
    · exact hm index hlt' hfd' hc'
    · obtain rfl : index = ⟨count, hcn⟩ := Fin.ext heq
      exact absurd ⟨hfd', hc'⟩ hl

/-- Writing described requests in order is performing the items in order. -/
theorem writeInOrder_items {s₀ s : FileState} {requests : List WriteRequest}
    {items : List BatchItem} (h : Forall₂ (WriteSession.Describes s₀) requests items)
    (hopn : SameOpens s₀.openFiles s.openFiles) :
    s.writeInOrder requests = some (s.inOrder items items.length,
      (finRange items.length).map fun i => ((items.get i).file,
        s.placeInOrder items i, (items.get i).data.length)) := by
  induction h generalizing s with
  | nil => rfl
  | @cons request item rest others hi hre ih =>
    obtain ⟨opened₀, ho₀, hfh, -⟩ := hi.described
    obtain ⟨cursor, ho⟩ := hopn.some ho₀
    have hp : s.placeItem item = s.place {opened₀ with curOffset := cursor} item.offset := by
      simp only [placeItem, ho, Option.map_some, Option.getD_some]
    have hon : s.writeFd item.fd request.offset request.data =
        some (s.performItem item, s.placeItem item) := by
      simp only [writeFd, ho, Option.map_some, performItem, hp, ← hi.offset, ← hi.data, ← hfh]
    have hot := ih (hopn.trans (s.sameOpens_performItem item))
    simp only [writeInOrder, hi.fd, hon, hot, Option.bind_eq_bind, Option.bind_some]
    have hr : finRange (item :: others).length =
        0 :: (finRange others.length).map Fin.succ := finRange_succ
    rw [hr, map_cons, map_map, ← hi.file, ← hi.data]
    rfl

end FileState

end Vnfs.Nfs
