import Vnfs.Lib.Reorder
import Vnfs.Sync.WriteAll

/-!
`vwrite_all_native` has the effect of complete writes in input order. What is
known of the backend is that a successful call wrote the acknowledged bytes of
each of its requests, in some order, and that references it returns for one
object are equal.

The proof follows the acknowledged pieces. A piece is sent only when every
request ordered before its own is complete; so two pieces out of input order
belong to requests that do not conflict, and commute.
-/

namespace Vnfs.Sync

open Reorder DependencyGraph ByteFile

open List hiding min
open ByteFile (writeTo appendTo)

variable {σ ρ κ : Type} [DecidableEq κ]

/-- `count` bytes of a request, written to the object of its file. -/
def applyWrite (object : FileOperand → κ) (files : κ → Bytes) (write : WriteRequest)
    (count : Nat) : κ → Bytes :=
  match write.offset with
  | .pos offset => writeTo files (object write.file) offset (write.data.take count)
  | .eof => appendTo files (object write.file) (write.data.take count)
  | .cur => files

/-- The contract of a backend whose files in a state are `files`. -/
structure Backend.Applies (backend : Backend σ ρ) (object : FileOperand → κ)
    (files : σ → κ → Bytes) : Prop where
  /-- A successful call writes what it acknowledges, in any order. -/
  vwriteImpl : ∀ st writes results st', backend.vwriteImpl st writes = (.ok results, st') →
    (∀ write ∈ writes, write.offset ≠ .cur) → results.length = writes.length →
    (∀ pair ∈ writes.zip results, pair.2.bytesWritten ≤ pair.1.data.length) →
    ∃ order : List (WriteRequest × WriteResult), order.Perm (writes.zip results) ∧
      files st' = order.foldl
        (fun files pair => applyWrite object files pair.1 pair.2.bytesWritten) (files st)
  /-- Asking for identities writes nothing. -/
  prepareObjectRefs : ∀ st operands, files (backend.prepareObjectRefs st operands).2 = files st
  /-- One object, one reference. -/
  openObjectRef : ∀ st file file' r r', backend.openObjectRef st file = .ok (some r) →
    backend.openObjectRef st file' = .ok (some r') → object file = object file' → r = r'

def writeWhole (object : FileOperand → κ) (files : κ → Bytes) (request : FsWrite) : κ → Bytes :=
  applyWrite object files (FsClient.nativeOf request) request.data.length

namespace FsClient

variable (object : FileOperand → κ) {requests : List FsWrite}

def target (request : FsWrite) : κ := object (request.file.file.getD .cwd)

/-- Every request is positional, as the checks before any I/O require. -/
def Positional (requests : List FsWrite) : Prop :=
  ∀ request ∈ requests, ∃ offset, request.offset = .pos offset

/-- The absolute offset of a positional request. -/
def position (request : FsWrite) : Nat :=
  match request.offset with
  | .pos offset => offset
  | _ => 0

variable (requests) in
def act (files : κ → Bytes) (piece : Piece requests.length) : κ → Bytes :=
  applyWrite object files (nativeOf (remainder (requests.get piece.index) piece.start))
    piece.result.bytesWritten

omit [DecidableEq κ] in
theorem position_spec {request : FsWrite} (h : ∃ offset, request.offset = .pos offset) :
    request.offset = .pos (position request) := by
  obtain ⟨offset, ho⟩ := h
  simp [position, ho]

variable {request : FsWrite}

theorem applyWrite_remainder (hp : ∃ offset, request.offset = .pos offset) (files : κ → Bytes)
    (start count : Nat) :
    applyWrite object files (nativeOf (remainder request start)) count =
      if request.file.append then
        appendTo files (target object request) ((request.data.drop start).take count)
      else writeTo files (target object request) (position request + start)
        ((request.data.drop start).take count) := by
  have ho := position_spec hp
  cases ha : request.file.append with
  | true => simp [applyWrite, nativeOf, remainder, target, ha]
  | false => simp [applyWrite, nativeOf, remainder, target, ha, ho]

theorem applyWrite_nativeOf (hp : ∃ offset, request.offset = .pos offset) (files : κ → Bytes)
    (count : Nat) :
    applyWrite object files (nativeOf request) count =
      if request.file.append then
        appendTo files (target object request) (request.data.take count)
      else writeTo files (target object request) (position request) (request.data.take count) := by
  have ho := position_spec hp
  cases ha : request.file.append with
  | true => simp [applyWrite, nativeOf, target, ha]
  | false => simp [applyWrite, nativeOf, target, ha, ho]

/-- A piece behind the first `start` bytes extends what they wrote. -/
theorem applyWrite_extend (hp : ∃ offset, request.offset = .pos offset) (files : κ → Bytes)
    {start count : Nat} (hst : start ≤ request.data.length) :
    applyWrite object (applyWrite object files (nativeOf request) start)
        (nativeOf (remainder request start)) count =
      applyWrite object files (nativeOf request) (start + count) := by
  rw [applyWrite_remainder object hp, applyWrite_nativeOf object hp,
    applyWrite_nativeOf object hp, take_add]
  split
  · exact appendTo_appendTo ..
  have hl : (request.data.take start).length = start := by
    rw [length_take]
    omega
  have hwr := writeTo_writeTo files (target object request) (position request)
    (request.data.take start) ((request.data.drop start).take count)
  rwa [hl] at hwr

theorem applyWrite_comm_of_ne {write write' : WriteRequest}
    (h : object write.file ≠ object write'.file) (files : κ → Bytes) (count count' : Nat) :
    applyWrite object (applyWrite object files write count) write' count' =
      applyWrite object (applyWrite object files write' count') write count := by
  have hc : ∀ offset offset', writeTo (writeTo files (object write.file) offset
      (write.data.take count)) (object write'.file) offset' (write'.data.take count') =
      writeTo (writeTo files (object write'.file) offset' (write'.data.take count'))
        (object write.file) offset (write.data.take count) :=
    fun _ _ => writeTo_comm files fun heq => absurd heq h
  unfold applyWrite
  cases write.offset <;> cases write'.offset <;>
    simp only [appendTo, writeTo_of_ne _ h, writeTo_of_ne _ (Ne.symm h), hc]

/-- Two requests that can be written in either order. -/
def Apart (request request' : FsWrite) : Prop :=
  target object request ≠ target object request' ∨
    (request.file.append = false ∧ request'.file.append = false ∧
      (position request + request.data.length ≤ position request' ∨
        position request' + request'.data.length ≤ position request))

omit [DecidableEq κ] in
theorem Apart.symm {request request' : FsWrite} (h : Apart object request request') :
    Apart object request' request := by
  rcases h with ht | ⟨ha, ha', hd⟩
  · exact .inl (Ne.symm ht)
  · exact .inr ⟨ha', ha, hd.symm⟩

omit [DecidableEq κ] in
theorem length_piece_le (data : Bytes) (start count : Nat) : (data.drop start).take count = [] ∨
      start + ((data.drop start).take count).length ≤ data.length := by
  rw [← length_eq_zero_iff, length_take, length_drop]
  omega

theorem act_comm (hp : Positional requests) {piece piece' : Piece requests.length}
    (h : Apart object (requests.get piece.index) (requests.get piece'.index)) :
    Reorder.Commutes (act object requests) piece piece' := by
  intro files
  have hr := hp _ (get_mem requests piece.index)
  have hr' := hp _ (get_mem requests piece'.index)
  rcases h with ht | ⟨ha, ha', hd⟩
  · have hfs : object (nativeOf (remainder (requests.get piece.index) piece.start)).file ≠
        object (nativeOf (remainder (requests.get piece'.index) piece'.start)).file := ht
    exact applyWrite_comm_of_ne object hfs files _ _
  unfold act
  simp only [applyWrite_remainder object hr, applyWrite_remainder object hr',
    ha, ha', Bool.false_eq_true, if_false]
  apply writeTo_comm
  intro _
  have hpc := length_piece_le (requests.get piece.index).data piece.start piece.result.bytesWritten
  have hpc' := length_piece_le (requests.get piece'.index).data piece'.start
    piece'.result.bytesWritten
  rcases hpc with he | hpc
  · exact .inr (.inr (.inl he))
  · rcases hpc' with he' | hpc'
    · exact .inr (.inr (.inr he'))
    · omega

/-- A graph that orders every two requests that must not be exchanged. -/
structure Plan (whole : DependencyGraph (Fin requests.length)) : Prop where
  edge : ∀ i j, whole.Edge i j → i < j ∧ (requests.get i).data ≠ [] ∧ (requests.get j).data ≠ []
  ordered : ∀ i j, i < j → (requests.get i).data ≠ [] → (requests.get j).data ≠ [] →
    ¬ Apart object (requests.get i) (requests.get j) → whole.Before i j

/-- Every byte of the request is acknowledged. -/
def Complete (st : WaveState σ requests.length) (i : Fin requests.length) : Prop :=
  st.totals i = (requests.get i).data.length

def piecesOf {n : Nat} (st : WaveState σ n) (i : Fin n) : List (Piece n) :=
  st.history.filter fun piece => piece.index = i

/-- The state between two pieces of a wave, of which `rest` is still to come. -/
structure Midway (whole : DependencyGraph (Fin requests.length)) (rest : List (Fin requests.length))
    (st : WaveState σ requests.length) : Prop where
  totals_le : ∀ i, st.totals i ≤ (requests.get i).data.length
  left : whole.LeftOf (Complete st) st.graph
  nodup : (st.nextWaveIndices ++ rest).Nodup
  ready_iff : ∀ j, j ∈ st.nextWaveIndices ++ rest ↔ ¬ Complete st j ∧ st.graph.remaining j = 0
  started : ∀ i j, whole.Edge i j → 0 < st.totals j → Complete st i
  pieces : ∀ i files, perform (act object requests) files (piecesOf st i) =
    applyWrite object files (nativeOf (requests.get i)) (st.totals i)
  serial : st.history.Pairwise fun piece later =>
    later.index < piece.index → Reorder.Commutes (act object requests) piece later
  acknowledged : ∀ i, ((piecesOf st i).map fun piece => piece.result.bytesWritten).sum = st.totals i
  stable : ∀ i, st.stable i = (piecesOf st i).all fun piece => piece.result.stable
  begun : ∀ piece ∈ st.history, 0 < st.totals piece.index

section

variable {object} {whole : DependencyGraph (Fin requests.length)}
  {rest : List (Fin requests.length)} {index : Fin requests.length} {result : FsWriteResult}
  {st st' : WaveState σ requests.length}

theorem Settled.totals_self (h : Settled st index result st') :
    st'.totals index = st.totals index + result.bytesWritten := by
  rw [h.totals, Function.update_self]

variable {i j : Fin requests.length} {client : FsClient σ ρ} {files : σ → κ → Bytes}
  {initial : κ → Bytes} {raws : List WriteResult} {backend : σ}

theorem Settled.totals_of_ne (h : Settled st index result st') (hi : i ≠ index) :
    st'.totals i = st.totals i := by
  rw [h.totals, Function.update_of_ne hi]

theorem Settled.piecesOf_eq (h : Settled st index result st') (i : Fin requests.length) :
    piecesOf st' i = if i = index then
      piecesOf st i ++ [⟨index, st.totals index, result⟩] else
      piecesOf st i := by
  unfold piecesOf
  rw [h.history, filter_append]
  by_cases hi : i = index
  · simp [hi]
  · have hne : ¬ index = i := fun heq => hi heq.symm
    simp [hi, hne]

/-- A request still to come in this wave waits for nobody. -/
theorem Midway.ready (h : Midway object whole (index :: rest) st) :
    ¬ Complete st index ∧ st.graph.remaining index = 0 :=
  (h.ready_iff index).mp (by simp)

theorem Midway.ancestor_complete (h : Midway object whole rest st) (hp : Plan object whole)
    (hbe : whole.Before i j) (hne : i ≠ j) (hj : 0 < st.totals j ∨ st.graph.remaining j = 0) :
    Complete st i := by
  have hs : ∀ i j, whole.Edge i j → Complete st j → 0 < st.totals j ∨ st.graph.remaining j = 0 := by
    intro i j he hf
    have hd := length_pos_iff.mpr (hp.edge i j he).2.2
    rw [← hf] at hd
    exact .inl hd
  have hdo : ∀ i j, whole.Edge i j → 0 < st.totals j ∨ st.graph.remaining j = 0 →
      Complete st i := by
    rintro i j he (hb | hr)
    · exact h.started i j he hb
    · exact (h.left.ready_iff j).mp hr i he
  exact hbe.ancestor_done hs hdo hne hj

/-- Settling a piece completes its request or leaves it incomplete; no other
request is affected. -/
theorem Settled.complete_iff (h : Settled st index result st')
    (hr : ¬ Complete st index) (i : Fin requests.length) :
    Complete st' i ↔ Complete st i ∨ (i = index ∧ Complete st' index) := by
  by_cases hi : i = index
  · subst hi
    simp [hr]
  · unfold Complete
    rw [h.totals_of_ne hi]
    simp [hi]

theorem Midway.settled_ready (h : Midway object whole (index :: rest) st)
    (hpl : Plan object whole) (hse : Settled st index result st') :
    whole.LeftOf (Complete st') st'.graph ∧ (st'.nextWaveIndices ++ rest).Nodup ∧
    ∀ j, j ∈ st'.nextWaveIndices ++ rest ↔ ¬ Complete st' j ∧ st'.graph.remaining j = 0 := by
  obtain ⟨hno, hz⟩ := h.ready
  have hf := hse.complete_iff hno
  have hmv : (st.nextWaveIndices ++ index :: rest).Perm
      (index :: (st.nextWaveIndices ++ rest)) := perm_middle
  have hnd := nodup_cons.mp (hmv.nodup_iff.mp h.nodup)
  have hif : ∀ j, j = index ∨ j ∈ st.nextWaveIndices ++ rest ↔
      ¬ Complete st j ∧ st.graph.remaining j = 0 := by
    intro j
    rw [← h.ready_iff j, hmv.mem_iff, mem_cons]
  rcases hse.next with ⟨hd, hg⟩ | ⟨hs, hg, hne⟩
  · -- The request is complete: its successors are released.
    have hi : Complete st' index := hd
    obtain ⟨hl, released, hre, hreleased_nodup, hm⟩ := h.left.complete index st.nextWaveIndices
    rw [← hg] at hl hre hm
    have hp : (fun i => Complete st i ∨ i = index) = Complete st' := by
      funext i
      simp [hf i, hi]
    rw [hp] at hl
    simp only at hre hm
    -- A released request was waiting for `index`, so it is not complete.
    have hw : ∀ j ∈ released, ¬ Complete st' j ∧ st.graph.remaining j ≠ 0 := by
      intro j hj
      have hr := ((hm j).mp hj).1
      refine ⟨?_, hr⟩
      intro hj'
      rcases (hf j).mp hj' with hold | ⟨rfl, -⟩
      · apply hr
        rw [h.left.ready_iff]
        intro i he
        have hda := length_pos_iff.mpr (hpl.edge i j he).2.2
        exact h.started i j he (by rwa [← hold] at hda)
      · exact hr hz
    have hfr : ∀ j ∈ released, j ∉ st.nextWaveIndices ++ rest := by
      intro j hj hold
      exact (hw j hj).2 ((hif j).mp (.inr hold)).2
    have hpe : (st'.nextWaveIndices ++ rest).Perm (released ++ (st.nextWaveIndices ++ rest)) := by
      rw [hre, append_assoc]
      exact perm_append_comm_assoc ..
    refine ⟨hl, ?_, ?_⟩
    · rw [hpe.nodup_iff, nodup_append]
      refine ⟨hreleased_nodup, hnd.2, ?_⟩
      rintro j hj _ hold rfl
      exact hfr j hj hold
    intro j
    have hmo : st.graph.remaining j = 0 → st'.graph.remaining j = 0 := by
      rw [h.left.ready_iff, hl.ready_iff]
      intro hd i he
      exact (hf i).mpr (.inl (hd i he))
    rw [hpe.mem_iff, mem_append]
    constructor
    · rintro (hj | hold)
      · exact ⟨(hw j hj).1, ((hm j).mp hj).2⟩
      obtain ⟨hn, hrd⟩ := (hif j).mp (.inr hold)
      refine ⟨?_, hmo hrd⟩
      rw [hf]
      rintro (hd | ⟨rfl, -⟩)
      · exact hn hd
      · exact hnd.1 hold
    rintro ⟨hn, hrd⟩
    by_cases hr : st.graph.remaining j = 0
    · have hold : ¬ Complete st j := fun hold => hn ((hf j).mpr (.inl hold))
      rcases (hif j).mpr ⟨hold, hr⟩ with rfl | hj
      · exact absurd hi hn
      · exact .inr hj
    · exact .inl ((hm j).mpr ⟨hr, hrd⟩)
  -- A short write: the request goes into the next wave.
  have hi : ¬ Complete st' index := hs
  have hp : Complete st = Complete st' := by
    funext i
    simp [hf i, hi]
  rw [hne, hg, ← hp]
  have hpe : (st.nextWaveIndices ++ [index] ++ rest).Perm
      (st.nextWaveIndices ++ index :: rest) := by
    rw [append_assoc]
    rfl
  refine ⟨h.left, hpe.nodup_iff.mpr h.nodup, ?_⟩
  intro j
  rw [hpe.mem_iff]
  exact h.ready_iff j

theorem Midway.settled (h : Midway object whole (index :: rest) st) (hpl : Plan object whole)
    (hpo : Positional requests) (hse : Settled st index result st')
    (hfi : result.bytesWritten ≤ (requests.get index).data.length - st.totals index) :
    Midway object whole rest st' := by
  obtain ⟨hn, hz⟩ := h.ready
  have hf := hse.complete_iff hn
  have hp := hse.progress
  have hs := hse.totals_self
  have hle := h.totals_le index
  obtain ⟨hl, hnd, hr⟩ := h.settled_ready hpl hse
  refine ⟨?_, hl, hnd, hr, ?_, ?_, ?_, ?_, ?_, ?_⟩
  · intro i
    by_cases hi : i = index
    · subst hi
      omega
    · rw [hse.totals_of_ne hi]
      exact h.totals_le i
  · intro i j he hj
    apply (hf i).mpr
    left
    by_cases hj' : j = index
    · subst hj'
      exact (h.left.ready_iff j).mp hz i he
    · rw [hse.totals_of_ne hj'] at hj
      exact h.started i j he hj
  · intro i files
    rw [hse.piecesOf_eq]
    by_cases hi : i = index
    · subst hi
      rw [if_pos rfl, perform_append, h.pieces, hs]
      exact applyWrite_extend object (hpo _ (get_mem ..)) files hle
    · rw [if_neg hi, hse.totals_of_ne hi]
      exact h.pieces i files
  · rw [hse.history]
    refine pairwise_append.mpr ⟨h.serial, pairwise_singleton .., ?_⟩
    intro piece hpc later hla hlt
    rw [mem_singleton.mp hla] at hlt ⊢
    -- Were the two in conflict, `index` would be complete before `piece` was sent.
    apply act_comm object hpo
    by_contra hc
    have hb := h.begun piece hpc
    have hd : (requests.get index).data ≠ [] := by
      rw [← length_pos_iff]
      omega
    have hd' : (requests.get piece.index).data ≠ [] := by
      have := h.totals_le piece.index
      rw [← length_pos_iff]
      omega
    have hbe := hpl.ordered index piece.index hlt hd hd' (fun hap => hc hap.symm)
    exact hn (h.ancestor_complete hpl hbe (ne_of_lt hlt) (.inl hb))
  · intro i
    rw [hse.piecesOf_eq]
    by_cases hi : i = index
    · subst hi
      simp [h.acknowledged i, hs]
    · rw [if_neg hi, hse.totals_of_ne hi]
      exact h.acknowledged i
  · intro i
    rw [hse.piecesOf_eq, hse.stable]
    by_cases hi : i = index
    · subst hi
      simp [h.stable i]
    · rw [if_neg hi, Function.update_of_ne hi]
      exact h.stable i
  intro piece hpc
  rw [hse.history] at hpc
  by_cases hi : piece.index = index
  · rw [hi, hs]
    omega
  rw [hse.totals_of_ne hi]
  rcases mem_append.mp hpc with hold | hne
  · exact h.begun piece hold
  · rw [mem_singleton.mp hne] at hi
    exact absurd rfl hi

theorem Midway.settleAll {pairs : List (Fin requests.length × FsWriteResult)}
    (h : Midway object whole (pairs.map Prod.fst) st) (hp : Plan object whole)
    (hpo : Positional requests) (hse : settleAll requests pairs st = .ok st') (hfi : ∀ pair ∈ pairs,
      pair.2.bytesWritten ≤ (requests.get pair.1).data.length - st.totals pair.1) :
    Midway object whole [] st' ∧ st'.backend = st.backend ∧
      st'.history = st.history ++ pairs.map fun pair => ⟨pair.1, st.totals pair.1, pair.2⟩ := by
  induction pairs generalizing st with
  | nil =>
    obtain rfl := Except.ok.inj hse
    exact ⟨h, rfl, by simp⟩
  | cons pair rest ih =>
    obtain ⟨middle, hf, hr⟩ := settleAll_cons_ok hse
    -- The rest of the wave is other requests, whose totals have not moved.
    have ho : ∀ later ∈ rest, middle.totals later.1 = st.totals later.1 := by
      intro later hl
      apply hf.totals_of_ne
      rintro hs
      have hnd := (nodup_append.mp h.nodup).2.1
      rw [map_cons, nodup_cons] at hnd
      exact hnd.1 (hs ▸ mem_map_of_mem hl)
    have hm := h.settled hp hpo hf (hfi pair mem_cons_self)
    obtain ⟨hd, hb, hh⟩ := ih hm hr (by
      intro later hl
      rw [ho later hl]
      exact hfi later (mem_cons_of_mem _ hl))
    refine ⟨hd, hb.trans hf.backend, ?_⟩
    rw [hh, hf.history, append_assoc]
    congr 1
    rw [map_cons, singleton_append]
    congr 1
    apply map_congr_left
    intro later hl
    rw [ho later hl]

theorem Midway.data_ne_nil (h : Midway object whole rest st) (hi : ¬ Complete st i) :
    (requests.get i).data ≠ [] := by
  have hle := h.totals_le i
  unfold Complete at hi
  rw [← length_pos_iff]
  omega

/-- Two requests of one wave can be written in either order. -/
theorem Midway.wave_apart (h : Midway object whole rest st) (hp : Plan object whole) (hi : i ∈ rest)
    (hj : j ∈ rest) (hne : i ≠ j) : Apart object (requests.get i) (requests.get j) := by
  have ho : ∀ {i j : Fin requests.length}, i ∈ rest → j ∈ rest → i < j →
      Apart object (requests.get i) (requests.get j) := by
    intro i j hi hj hlt
    obtain ⟨hn, -⟩ := (h.ready_iff i).mp (mem_append_right _ hi)
    obtain ⟨hn', hready'⟩ := (h.ready_iff j).mp (mem_append_right _ hj)
    by_contra hc
    have hb := hp.ordered i j hlt (h.data_ne_nil hn) (h.data_ne_nil hn') hc
    exact hn (h.ancestor_complete hp hb (ne_of_lt hlt) (.inr hready'))
  rcases lt_or_gt_of_ne hne with hlt | hgt
  · exact ho hi hj hlt
  · exact (ho hj hi hgt).symm

/-- The invariant of the wave loop; `initial` are the files before the call. -/
structure Between (object : FileOperand → κ) (files : σ → κ → Bytes)
    (whole : DependencyGraph (Fin requests.length)) (initial : κ → Bytes)
    (st : WaveState σ requests.length) : Prop where
  midway : Midway object whole st.waveIndices {st with nextWaveIndices := []}
  files_eq : files st.backend = perform (act object requests) initial st.history

variable {settled : WaveState σ requests.length}

theorem Round.files_eq (ha : client.backend.Applies object files) (hpl : Plan object whole)
    (hpo : Positional requests) (h : Between object files whole initial st)
    (hr : Round client st raws backend settled) :
    files backend = perform (act object requests) (files st.backend)
      ((st.waveIndices.zip (raws.map writeResult)).map
        fun pair => ⟨pair.1, st.totals pair.1, pair.2⟩) := by
  have ho : ∀ write ∈ sent requests st, write.offset ≠ .cur := by
    intro write hwr
    obtain ⟨index, -, rfl⟩ := mem_map.mp hwr
    obtain ⟨offset, hof⟩ := hpo _ (get_mem requests index)
    simp only [nativeOf, remainder, hof]
    split <;> simp
  have hl : raws.length = (sent requests st).length := by
    rw [hr.length_eq, sent, length_map]
  obtain ⟨order, hp, hfs⟩ := ha.vwriteImpl _ _ _ _ hr.call ho hl hr.fits
  have hc : ∀ x ∈ order, ∀ y ∈ order, ∀ files : κ → Bytes,
      applyWrite object (applyWrite object files x.1 x.2.bytesWritten) y.1 y.2.bytesWritten =
      applyWrite object (applyWrite object files y.1 y.2.bytesWritten) x.1 x.2.bytesWritten := by
    intro x hx y hy files
    obtain ⟨k, hk⟩ := mem_iff_getElem?.mp (hp.mem_iff.mp hx)
    obtain ⟨k', hk'⟩ := mem_iff_getElem?.mp (hp.mem_iff.mp hy)
    by_cases hs : k = k'
    · subst hs
      rw [Option.some.inj (hk.symm.trans hk')]
    obtain ⟨hwr, -⟩ := getElem?_zip_eq_some.mp hk
    obtain ⟨hwr', -⟩ := getElem?_zip_eq_some.mp hk'
    simp only [sent, getElem?_map, Option.map_eq_some_iff] at hwr hwr'
    obtain ⟨i, hi, hxi⟩ := hwr
    obtain ⟨j, hj, hyj⟩ := hwr'
    have hne : i ≠ j := by
      rintro rfl
      have hnd := (nodup_append.mp h.midway.nodup).2.1
      have hlt := (List.getElem?_eq_some_iff.mp hi).1
      exact hs ((getElem?_inj hlt hnd).mp (hi.trans hj.symm))
    have hap := h.midway.wave_apart hpl (mem_of_getElem? hi) (mem_of_getElem? hj) hne
    have hpc : Reorder.Commutes (act object requests) ⟨i, st.totals i, writeResult x.2⟩
        ⟨j, st.totals j, writeResult y.2⟩ := act_comm object hpo hap
    rw [← hxi, ← hyj]
    exact hpc files
  rw [hfs, hp.foldl_eq' hc, sent, zip_map_left, zip_map_right, map_map,
    perform, foldl_map, foldl_map]
  rfl

theorem Between.round (ha : client.backend.Applies object files) (hpl : Plan object whole)
    (hpo : Positional requests) (h : Between object files whole initial st)
    (hrn : Round client st raws backend settled) :
    Between object files whole initial {settled with
      waveIndices := settled.nextWaveIndices.insertionSort (· ≤ ·), nextWaveIndices := []} := by
  have hi : (st.waveIndices.zip (raws.map writeResult)).map Prod.fst = st.waveIndices :=
    map_fst_zip (by rw [length_map, hrn.length_eq])
  have hst : Midway object whole ((st.waveIndices.zip (raws.map writeResult)).map Prod.fst)
      {st with backend, nextWaveIndices := []} := by
    have hm := h.midway
    rw [hi]
    exact ⟨hm.totals_le, hm.left, hm.nodup, hm.ready_iff, hm.started,
      hm.pieces, hm.serial, hm.acknowledged, hm.stable, hm.begun⟩
  obtain ⟨hd, hb, hh⟩ := hst.settleAll hpl hpo hrn.settle fun pair hp => hrn.written_le hp
  have hs := perm_insertionSort (· ≤ ·) settled.nextWaveIndices
  have hnd : settled.nextWaveIndices.Nodup := by simpa using hd.nodup
  refine ⟨⟨hd.totals_le, hd.left, ?_, ?_, hd.started, hd.pieces, hd.serial,
    hd.acknowledged, hd.stable, hd.begun⟩, ?_⟩
  · exact hs.nodup_iff.mpr hnd
  · intro j
    have hr := hd.ready_iff j
    rw [append_nil] at hr
    rw [← hs.mem_iff] at hr
    exact hr
  · change files settled.backend = perform _ initial settled.history
    rw [hb, hh, perform_append, ← h.files_eq]
    exact hrn.files_eq ha hpl hpo h

theorem Between.complete (h : Between object files whole initial st) (hpl : Plan object whole)
    (hem : st.waveIndices = []) (i : Fin requests.length) : Complete st i := by
  have hm := h.midway
  have hr : ∀ j, (requests.get j).data ≠ [] → (∀ i, whole.Edge i j → Complete st i) →
      Complete st j := by
    intro j _ hp
    by_contra hn
    have hme := (hm.ready_iff j).mpr ⟨hn, (hm.left.ready_iff j).mpr hp⟩
    rw [hem] at hme
    cases hme
  by_cases hd : (requests.get i).data = []
  · have hle := hm.totals_le i
    rw [hd] at hle
    unfold Complete
    rw [hd]
    exact Nat.le_zero.mp hle
  · exact done_of_ready_done (fun i j he => ⟨(hpl.edge i j he).1, (hpl.edge i j he).2.1⟩) hr i hd

/-- Pieces of complete requests add up to complete writes in input order. -/
theorem Between.files_sequential (h : Between object files whole initial st)
    (hfu : ∀ i : Fin requests.length, Complete st i) :
    files st.backend = requests.foldl (writeWhole object) initial := by
  have hs := h.midway.serial
  rw [h.files_eq, perform_by_key (act object requests) (fun piece => piece.index.val)
    hs (fun piece _ => piece.index.isLt)]
  have hrn : List.range requests.length = (finRange requests.length).map Fin.val := by
    apply ext_getElem <;> simp
  have hr : (finRange requests.length).map requests.get = requests := by
    apply ext_getElem <;> simp
  rw [hrn, foldl_map]
  calc (finRange requests.length).foldl (fun files i => perform (act object requests)
          files (st.history.filter fun piece => piece.index.val = i.val)) initial
      = (finRange requests.length).foldl
          (fun files i => writeWhole object files (requests.get i)) initial := by
        apply foldl_ext
        intro files i _
        have hf : (st.history.filter fun piece => piece.index.val = i.val) = piecesOf st i := by
          apply filter_congr
          intro piece _
          simp [Fin.ext_iff]
        have hp := h.midway.pieces i files
        rw [hf]
        refine hp.trans ?_
        rw [hfu i]
        rfl
    _ = requests.foldl (writeWhole object) initial := by
        rw [← foldl_map (f := requests.get) (g := writeWhole object), hr]

end

section

variable {object} {client : FsClient σ ρ}

omit [DecidableEq κ] in
theorem prepareWrite_ok {index : Nat} {request : FsWrite} {offset : Nat}
    (h : client.prepareWrite index request = .ok offset) :
    request.offset = .pos (position request) ∧
      (request.file.append = false → offset = position request) := by
  unfold prepareWrite at h
  cases hown : client.validateOwner request.file index with
  | error e => simp [hown, bind, Except.bind] at h
  | ok _ =>
    cases hr : request.file.raw with
    | error e => simp [hown, hr, bind, Except.bind, Except.mapError] at h
    | ok raw =>
      simp only [hown, hr, bind, Except.bind, Except.mapError] at h
      cases ho : request.offset with
      | pos o =>
        simp only [ho] at h
        split at h
        · rename_i ha
          exact ⟨by simp [position, ho], by simp [ha.1]⟩
        split at h
        · obtain rfl := Except.ok.inj h
          exact ⟨by simp [position, ho], by simp [position, ho]⟩
        · cases h
      | cur => simp [ho] at h
      | eof => simp [ho] at h

omit [DecidableEq κ] in
theorem mem_nonEmpty {i : Fin requests.length} :
    i ∈ nonEmpty requests ↔ (requests.get i).data ≠ [] := by
  simp [nonEmpty]

omit [DecidableEq κ] in
theorem nonEmpty_increasing : (nonEmpty requests).Pairwise (· < ·) :=
  (pairwise_lt_finRange _).filter _

omit [DecidableEq κ] in
theorem nonEmpty_inOrder (offsets : Fin requests.length → Nat) :
    Grouping.InOrder ((nonEmpty requests).map (rangeOf requests offsets)) := by
  constructor
  · exact pairwise_map.mpr nonEmpty_increasing
  intro range hr
  obtain ⟨i, hi, rfl⟩ := mem_map.mp hr
  have hd := length_pos_iff.mpr (mem_nonEmpty.mp hi)
  simp only [rangeOf]
  omega

variable [DecidableEq ρ]
  {st : σ} {offsets : Fin requests.length → Nat} {final : Grouping ρ (Fin requests.length)}
  {files : σ → κ → Bytes} {st' : σ}

omit [DecidableEq κ] in
/-- The groups after the loop, with the reference each request got. -/
theorem groupRequests_ok {seen : List (WriteRange (Fin requests.length) × Option ρ)}
    {indices : List (Fin requests.length)} {groups : Grouping ρ (Fin requests.length)}
    (h : client.groupRequests requests st offsets (seen.map Prod.fst) indices groups = .ok final)
    (hg : groups.Groups seen)
    (hor : Grouping.InOrder (seen.map Prod.fst ++ indices.map (rangeOf requests offsets)))
    (hre : ∀ entry ∈ seen, ∃ raw, (requests.get entry.1.index).file.file = some raw ∧
      client.backend.openObjectRef st raw = .ok entry.2) :
    ∃ all : List (WriteRange (Fin requests.length) × Option ρ), final.Groups all ∧
      all.map Prod.fst = seen.map Prod.fst ++ indices.map (rangeOf requests offsets) ∧
      ∀ entry ∈ all, ∃ raw, (requests.get entry.1.index).file.file = some raw ∧
        client.backend.openObjectRef st raw = .ok entry.2 := by
  induction indices generalizing seen groups with
  | nil =>
    obtain rfl := Except.ok.inj h
    exact ⟨seen, hg, by simp, hre⟩
  | cons index indices ih =>
    unfold groupRequests at h
    cases hr : (requests.get index).file.file with
    | none =>
      simp only [OpenFile.raw, hr, bind, Except.bind] at h
      cases h
    | some raw =>
      cases ho : client.backend.openObjectRef st raw with
      | error e =>
        simp only [OpenFile.raw, hr, ho, bind, Except.bind, Except.mapError] at h
        cases h
      | ok reference =>
        simp only [OpenFile.raw, hr, ho, bind, Except.bind, Except.mapError] at h
        have hm : (seen ++ [(rangeOf requests offsets index, reference)]).map Prod.fst =
            seen.map Prod.fst ++ [rangeOf requests offsets index] := by
          simp
        rw [map_cons, append_cons] at hor ⊢
        rw [← hm] at h hor ⊢
        apply ih h _ hor
        · intro entry he
          rcases mem_append.mp he with hold | hn
          · exact hre entry hold
          · rw [mem_singleton.mp hn]
            exact ⟨raw, hr, ho⟩
        · rw [hm] at hor
          exact hg.add hor.init

/-- The references decide: requests that must not be exchanged are joined. -/
theorem plan_of_groups (happlies : client.backend.Applies object files)
    (hof : ∀ i, (requests.get i).file.append = false → offsets i = position (requests.get i))
    {all : List (WriteRange (Fin requests.length) × Option ρ)} (hg : final.Groups all)
    (hal : all.map Prod.fst = (nonEmpty requests).map (rangeOf requests offsets))
    (hrefs : ∀ entry ∈ all, ∃ raw, (requests.get entry.1.index).file.file = some raw ∧
      client.backend.openObjectRef st raw = .ok entry.2) : Plan object final.schedule.graph := by
  have hid : (all.map Prod.fst).map WriteRange.index = nonEmpty requests := by
    rw [hal, map_map]
    exact map_id _
  have hov := hg.scheduled
  constructor
  · intro i j hed
    obtain ⟨hlt, hi, hj⟩ := hov.edge i j hed
    rw [hid, mem_nonEmpty] at hi hj
    exact ⟨hlt, hi, hj⟩
  intro i j hlt hi hj hap
  have he : ∀ k, (requests.get k).data ≠ [] →
      ∃ entry ∈ all, entry.1 = rangeOf requests offsets k := by
    intro k hk
    have hm : rangeOf requests offsets k ∈ all.map Prod.fst := by
      rw [hal]
      exact mem_map_of_mem (mem_nonEmpty.mpr hk)
    obtain ⟨entry, he, hrn⟩ := mem_map.mp hm
    exact ⟨entry, he, hrn⟩
  obtain ⟨earlier, hear, hrn⟩ := he i hi
  obtain ⟨later, hl, hrn'⟩ := he j hj
  have hor : Grouping.InOrder (all.map Prod.fst) := by
    rw [hal]
    exact nonEmpty_inOrder offsets
  have hb := hg.before hor hear hl
  obtain ⟨raw, hra, hre⟩ := hrefs earlier hear
  obtain ⟨raw', hra', hre'⟩ := hrefs later hl
  simp only [hrn, hrn', rangeOf] at hb hra hra'
  simp only [Apart, not_or, not_and, not_not, Nat.not_le] at hap
  obtain ⟨ht, ho⟩ := hap
  apply hb hlt
  · intro r r' hr hr'
    rw [hr] at hre
    rw [hr'] at hre'
    apply happlies.openObjectRef st raw raw' r r' hre hre'
    simpa only [target, hra, hra', Option.getD_some] using ht
  simp only [WriteRange.Conflicts]
  cases ha : (requests.get i).file.append with
  | true => exact .inl rfl
  | false =>
    cases ha' : (requests.get j).file.append with
    | true => exact .inr (.inl rfl)
    | false =>
      have hby := ho ha ha'
      rw [hof i ha, hof j ha']
      exact .inr (.inr ⟨by omega, by omega⟩)

/-- What planning leaves: a graph that orders what must be ordered, the requests
without dependencies, and the files as they were. -/
theorem planWrites_ok (hap : client.backend.Applies object files)
    (hof : ∀ i, (requests.get i).file.append = false → offsets i = position (requests.get i))
    {schedule : Schedule (Fin requests.length)}
    (h : client.planWrites requests st offsets = (.ok schedule, st')) :
    Plan object schedule.graph ∧ schedule.graph.Counted ∧ files st' = files st ∧
      schedule.waveIndices =
        (nonEmpty requests).filter fun j => schedule.graph.remaining j = 0 := by
  unfold planWrites at h
  dsimp only at h
  split at h
  · rename_i hf
    cases h
    refine ⟨⟨by simp [DependencyGraph.Edge, empty], ?_⟩, counted_empty, rfl, by simp [empty]⟩
    intro i j hlt hi hj
    rw [← mem_nonEmpty] at hi hj
    obtain ⟨a, ha, hai⟩ := mem_iff_getElem.mp hi
    obtain ⟨b, hb, hbj⟩ := mem_iff_getElem.mp hj
    obtain rfl : a = b := by omega
    exact absurd (hai.symm.trans hbj) (ne_of_lt hlt)
  split at h
  · cases h
  split at h
  · cases h
  rename_i prepared hp
  have hfs := hap.prepareObjectRefs st
    ((nonEmpty requests).filterMap fun index => (requests.get index).file.file)
  rw [hp] at hfs
  cases hg : client.groupRequests requests prepared offsets [] (nonEmpty requests) .empty with
  | error e => simp [hg, Except.map] at h
  | ok final =>
    simp only [hg, Except.map, Prod.mk.injEq, Except.ok.injEq] at h
    obtain ⟨rfl, rfl⟩ := h
    obtain ⟨all, hgr, hal, hr⟩ := groupRequests_ok hg
      Grouping.groups_empty (nonEmpty_inOrder offsets) (by simp)
    rw [map_nil, nil_append] at hal
    have ho := hgr.scheduled
    refine ⟨plan_of_groups hap hof hgr hal hr, ho.counted, hfs, ?_⟩
    rw [ho.wave_eq, hal, map_map]
    congr 1
    exact map_id _

theorem startWaves_ok (ha : client.backend.Applies object files)
    {initial : WaveState σ requests.length}
    (h : client.startWaves requests st = (.ok initial, st')) :
    Positional requests ∧ Plan object initial.graph ∧
      Between object files initial.graph (files st) initial ∧ initial.totals = fun _ => 0 := by
  unfold startWaves at h
  split at h
  · cases h
  rename_i offsets hpr
  have hi := (Loop.forEach_ok hpr).2
  have hp : ∀ i : Fin requests.length, (requests.get i).offset =
      .pos (position (requests.get i)) ∧ ((requests.get i).file.append = false →
        offsets.getD i 0 = position (requests.get i)) := by
    intro i
    obtain ⟨offset, ho, hwr⟩ := hi i (requests.get i) (by simp)
    have hok := prepareWrite_ok hwr
    simp only [getD_eq_getElem?_getD, ho, Option.getD_some]
    exact hok
  have hpo : Positional requests := by
    intro request hr
    obtain ⟨i, rfl⟩ := mem_iff_get.mp hr
    exact ⟨_, (hp i).1⟩
  dsimp only at h
  split at h
  · cases h
  rename_i schedule planned hpl
  cases h
  obtain ⟨hg, hc, hfs, hw⟩ := planWrites_ok ha (fun i => (hp i).2) hpl
  refine ⟨hpo, hg, ⟨⟨fun i => Nat.zero_le _, ⟨hc, ?_⟩, ?_, ?_, ?_, ?_, .nil, ?_, ?_,
    by simp⟩, hfs⟩, rfl⟩
  · intro i j
    constructor
    · intro he
      have hd := length_pos_iff.mpr (hg.edge i j he).2.1
      exact ⟨he, Nat.ne_of_lt hd⟩
    · exact fun he => he.1
  · rw [hw]
    exact (nonEmpty_increasing.imp fun hlt => ne_of_lt hlt).filter _
  · intro j
    rw [hw, nil_append, mem_filter, mem_nonEmpty]
    simp only [Complete, decide_eq_true_eq]
    rw [← length_pos_iff, Nat.pos_iff_ne_zero, ne_comm]
  · intro i j _ hj
    exact absurd hj (Nat.lt_irrefl 0)
  · intro i files
    rw [applyWrite_nativeOf object (hpo _ (get_mem requests i))]
    simp [piecesOf, appendTo]
  · simp [piecesOf]
  · simp [piecesOf]

/-- The waves leave the files of the complete writes in input order, and every
request acknowledged in full. -/
theorem runWrites_ok (ha : client.backend.Applies object files)
    {final : WaveState σ requests.length} (h : client.runWrites requests st = (.ok final, st')) :
    files st' = requests.foldl (writeWhole object) (files st) ∧ ∀ i, Complete final i ∧
      ((piecesOf final i).map fun piece => piece.result.bytesWritten).sum = final.totals i ∧
      final.stable i = (piecesOf final i).all fun piece => piece.result.stable := by
  unfold runWrites at h
  split at h
  · cases h
  rename_i initial started hstart
  obtain ⟨hpo, hp, hb, -⟩ := startWaves_ok ha hstart
  have hex := Loop.run_invariant (client.waveBody requests)
    (P := Between object files initial.graph (files st))
    (Q := fun r => r.1 = .ok () → Between object files initial.graph (files st) r.2 ∧
      r.2.waveIndices = [])
    (fun st st' hst hs => by
      obtain ⟨raws, backend, settled, hr, rfl⟩ := waveStep_inl hs
      exact hst.round ha hp hpo hr)
    (fun st r hst hs hok => by
      obtain ⟨outcome, last⟩ := r
      obtain rfl := hok
      obtain ⟨he, rfl⟩ := waveStep_inr_ok hs
      exact ⟨hst, he⟩) hb
  generalize Loop.run (client.waveBody requests) initial = exit at h hex
  obtain ⟨outcome, last⟩ := exit
  cases outcome with
  | error e => simp [Except.map] at h
  | ok u =>
    obtain ⟨rfl, rfl⟩ := h
    obtain ⟨hl, he⟩ := hex rfl
    have hf := fun i => hl.complete hp he i
    refine ⟨hl.files_sequential hf, ?_⟩
    intro i
    exact ⟨hf i, hl.midway.acknowledged i, hl.midway.stable i⟩

/-- For every batch, every assignment of references and every backend that keeps
its contract: on success the files are those of the complete writes one after
another in input order, and every result counts all bytes of its request and is
stable if all its pieces were. There are at most as many waves as bytes. -/
theorem vwriteAllNative_sequential (client : FsClient σ ρ) (object : FileOperand → κ)
    (files : σ → κ → Bytes) (happlies : client.backend.Applies object files)
    (requests : List FsWrite) (st : σ) :
    (∀ results st', client.vwriteAllNative requests st = (.ok results, st') →
      files st' = requests.foldl (writeWhole object) (files st) ∧
      ∃ final, client.runWrites requests st = (.ok final, st') ∧
        results.length = requests.length ∧
        ∀ i : Fin requests.length, ∃ result, results[i.val]? = some result ∧
          result.bytesWritten = (requests.get i).data.length ∧
          ((piecesOf final i).map fun piece => piece.result.bytesWritten).sum =
            (requests.get i).data.length ∧
          result.stable = (piecesOf final i).all fun piece => piece.result.stable) ∧
    ∀ initial st', client.startWaves requests st = (.ok initial, st') →
      Loop.rounds (client.waveBody requests) initial ≤
        ∑ i, (requests.get i).data.length := by
  constructor
  · intro results st' h
    unfold vwriteAllNative at h
    cases hrun : client.runWrites requests st with
    | mk outcome last =>
      rw [hrun] at h
      cases outcome with
      | error e => simp [Except.map] at h
      | ok final =>
        obtain ⟨rfl, rfl⟩ := h
        obtain ⟨hfiles, hitems⟩ := runWrites_ok happlies hrun
        refine ⟨hfiles, final, rfl, by simp [results], ?_⟩
        intro i
        obtain ⟨hcomplete, hsum, hstable⟩ := hitems i
        exact ⟨⟨final.offsets i, final.totals i, final.stable i⟩, by simp [results], hcomplete,
          hsum.trans hcomplete, hstable⟩
  intro initial st' h
  obtain ⟨-, -, -, htotals⟩ := startWaves_ok happlies h
  have hrounds := Loop.rounds_le_variant (client.waveBody requests) initial
  have hvariant : (client.waveBody requests).variant initial =
      ∑ i, (requests.get i).data.length := by
    change outstanding requests initial = _
    simp only [outstanding, htotals, Nat.sub_zero]
  rwa [hvariant] at hrounds

/-- A backend of one file that knows no identities, takes one byte of each
request and starts with the last. -/
private def oneByteBackend : Backend (Unit → Bytes) Unit where
  isPoisoned _ := false
  prepareObjectRefs st _ := (.ok (), st)
  openObjectRef _ _ := .ok none
  vwriteImpl st writes :=
    let results := writes.map fun write : WriteRequest =>
      (⟨write.file, match write.offset with | .pos offset => offset | _ => 0,
        min 1 write.data.length, true⟩ : WriteResult)
    (.ok results, (writes.zip results).reverse.foldl
      (fun files pair => applyWrite (fun _ => ()) files pair.1 pair.2.bytesWritten) st)

theorem oneByteBackend_applies : oneByteBackend.Applies (fun _ => ()) (fun files => files) where
  vwriteImpl st writes results st' h _ _ _ := by
    cases h
    exact ⟨_, reverse_perm _, rfl⟩
  prepareObjectRefs _ _ := rfl
  openObjectRef _ _ _ _ _ h := by cases h

private def overlapping : List FsWrite :=
  [⟨⟨0, some (.fd 3), false, []⟩, .pos 0, [97, 98]⟩,
    ⟨⟨0, some (.fd 4), false, []⟩, .pos 1, [99, 100]⟩]

theorem vwriteAllNative_sequential_overlapping :
    ∃ results st', FsClient.vwriteAllNative ⟨0, oneByteBackend⟩ overlapping (fun _ => []) =
      (.ok results, st') ∧ results = [⟨0, 2, true⟩, ⟨1, 2, true⟩] ∧ st' () = [97, 99, 100] := by
  have hresults : (FsClient.vwriteAllNative ⟨0, oneByteBackend⟩ overlapping fun _ => []).1 =
      .ok [⟨0, 2, true⟩, ⟨1, 2, true⟩] := by
    apply vwriteAllNative_of_runFor _ _ _ 5
    decide
  have hrun : FsClient.vwriteAllNative ⟨0, oneByteBackend⟩ overlapping (fun _ => []) =
      (.ok [⟨0, 2, true⟩, ⟨1, 2, true⟩],
        (FsClient.vwriteAllNative ⟨0, oneByteBackend⟩ overlapping fun _ => []).2) :=
    Prod.ext hresults rfl
  refine ⟨_, _, hrun, rfl, ?_⟩
  rw [((vwriteAllNative_sequential ⟨0, oneByteBackend⟩ (fun _ => ()) (fun files => files)
    oneByteBackend_applies overlapping fun _ => []).1 _ _ hrun).1]
  decide

end

end FsClient

end Vnfs.Sync
