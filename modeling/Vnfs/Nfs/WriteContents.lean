import Vnfs.Lib.Reorder
import Vnfs.Nfs.WriteBatch
import Vnfs.Nfs.WriteSequential

/-!
What the files hold while a vector of writes is under way: request after request
and chunk after chunk, the part of each chunk that the server has acknowledged.
A chunk that grows out of turn is one more write, if nothing behind it on the
same file shares bytes with it.
-/

namespace Vnfs.Nfs

open ByteFile
open List hiding max min

section Chunks

variable (per : Nat) (item : BatchItem)

theorem chunkData_length (chunk : Nat) :
    (chunkData per item chunk).length = min per (item.data.length - chunk * per) := by
  simp [chunkData]

theorem chunkCount_mul (hp : 0 < per) : item.data.length ≤ chunkCount per item * per := by
  unfold chunkCount
  have hd := Nat.div_add_mod (max item.data.length 1 + per - 1) per
  have hm := Nat.mod_lt (max item.data.length 1 + per - 1) hp
  rw [Nat.mul_comm] at hd
  omega

/-- The chunks up to `count` make up the beginning of the data. -/
theorem pwrite_chunks (offset count : Nat) (file : Bytes) : (List.range count).foldl
        (fun file chunk => pwrite file (offset + chunk * per) (chunkData per item chunk)) file =
      pwrite file offset (item.data.take (count * per)) := by
  induction count with
  | zero => simp
  | succ count ih =>
    rw [range_succ, foldl_append, ih, foldl_cons, foldl_nil, Nat.succ_mul, take_add, pwrite_append]
    unfold chunkData
    rcases Nat.le_total (count * per) item.data.length with hle | hle
    · rw [length_take, Nat.min_eq_left hle]
    · rw [drop_eq_nil_of_le hle, take_nil, pwrite_nil, pwrite_nil]

theorem sum_chunkData_length (count : Nat) :
    ∑ chunk ∈ Finset.range count, (chunkData per item chunk).length =
      min (count * per) item.data.length := by
  induction count with
  | zero => simp
  | succ count ih =>
    rw [Finset.sum_range_succ, ih, chunkData_length, Nat.succ_mul]
    omega

end Chunks

namespace WriteSession

variable {σ : Type} {session : WriteSession σ} {items : List BatchItem}

variable (session items) in
def cells : List (Fin items.length × Nat) :=
  (finRange items.length).flatMap fun index =>
    (List.range (chunkCount session.perOpBytes (items.get index))).map fun chunk => (index, chunk)

variable {wire : Fin items.length × Nat}

theorem mem_cells :
    wire ∈ cells session items ↔ wire.2 < chunkCount session.perOpBytes (items.get wire.1) := by
  obtain ⟨index, chunk⟩ := wire
  simp [cells]

variable (session items) in
theorem cells_pairwise : (cells session items).Pairwise fun wire later =>
    wire.1 < later.1 ∨ wire.1 = later.1 ∧ wire.2 < later.2 := by
  unfold cells
  rw [pairwise_flatMap]
  refine ⟨?_, ?_⟩
  · intro index _
    rw [pairwise_map]
    exact pairwise_lt_range.imp fun h => .inr ⟨rfl, h⟩
  refine pairwise_lt_finRange _ |>.imp ?_
  intro index later hlt wire hw wire' hw'
  obtain ⟨chunk, -, rfl⟩ := mem_map.mp hw
  obtain ⟨chunk', -, rfl⟩ := mem_map.mp hw'
  exact .inl hlt

/-- A wire operation splits the others into those before and behind it. -/
theorem cells_split (hw : wire.2 < chunkCount session.perOpBytes (items.get wire.1)) :
    ∃ front back, cells session items = front ++ wire :: back ∧ (∀ other ∈ front, other ≠ wire) ∧
      ∀ other ∈ back, wire.1 < other.1 ∨ wire.1 = other.1 ∧ wire.2 < other.2 := by
  obtain ⟨front, back, hc⟩ := append_of_mem (mem_cells.mpr hw)
  have hpw := cells_pairwise session items
  rw [hc, pairwise_append, pairwise_cons] at hpw
  obtain ⟨-, ⟨hb, -⟩, hfr⟩ := hpw
  refine ⟨front, back, hc, ?_, hb⟩
  rintro other ho rfl
  have := hfr other ho other (by simp)
  omega

variable (session) in
def writeCell (st : BatchWaves σ items.length) (fh : NfsFh) (file : Bytes)
    (wire : Fin items.length × Nat) : Bytes :=
  if (items.get wire.1).fh = fh then
    pwrite file (st.offsets wire.1 + wire.2 * session.perOpBytes)
      ((chunkData session.perOpBytes (items.get wire.1) wire.2).take (st.progress wire))
  else file

variable (session) in
/-- The file with everything acknowledged so far, in input order. -/
def contents (files : NfsFh → Bytes) (st : BatchWaves σ items.length) (fh : NfsFh) : Bytes :=
  Reorder.perform (writeCell session st fh) (files fh) (cells session items)

section Contents

variable {files : NfsFh → Bytes} {st st' : BatchWaves σ items.length} {fh : NfsFh}

/-- The bytes of a piece of a wire operation lie inside the chunk and the request. -/
theorem piece_within (per : Nat) (item : BatchItem) (chunk skipped count : Nat) :
    ((chunkData per item chunk).drop skipped).take count = [] ∨
      (0 < (((chunkData per item chunk).drop skipped).take count).length ∧
        skipped + (((chunkData per item chunk).drop skipped).take count).length ≤ per ∧
        chunk * per + skipped + (((chunkData per item chunk).drop skipped).take count).length ≤
          item.data.length) := by
  have hl : (((chunkData per item chunk).drop skipped).take count).length =
      min count (min per (item.data.length - chunk * per) - skipped) := by
    simp only [length_take, length_drop, chunkData_length]
  rcases Nat.eq_zero_or_pos (((chunkData per item chunk).drop skipped).take count).length with
    hz | hp
  · exact .inl (length_eq_zero_iff.mp hz)
  · right
    omega

/-- Requests behind `index` on its file of which something is acknowledged have
no bytes in common with it. -/
def Clear (st : BatchWaves σ items.length) (index : Fin items.length) : Prop :=
  ∀ later, index < later → (items.get later).fh = (items.get index).fh →
    (∃ chunk, 0 < st.progress (later, chunk)) →
    WriteWaveAccess.Apart (rangeOf items st index) (rangeOf items st later)

variable {wire : Fin items.length × Nat} {count : Nat} {index : Fin items.length}

/-- A piece of one request commutes with what is acknowledged behind it. -/
theorem writeCell_comm {later : Fin items.length × Nat} (hcl : Clear st wire.1)
    (hl : wire.1 < later.1 ∨ wire.1 = later.1 ∧ wire.2 < later.2)
    (hfh : (items.get wire.1).fh = fh) (skipped count : Nat) (file : Bytes) :
    writeCell session st fh (pwrite file
        (st.offsets wire.1 + wire.2 * session.perOpBytes + skipped)
        (((chunkData session.perOpBytes (items.get wire.1) wire.2).drop skipped).take count))
        later =
      pwrite (writeCell session st fh file later)
        (st.offsets wire.1 + wire.2 * session.perOpBytes + skipped)
        (((chunkData session.perOpBytes (items.get wire.1) wire.2).drop skipped).take count) := by
  unfold writeCell
  split
  · rename_i hs
    apply pwrite_comm
    have hpc := piece_within session.perOpBytes (items.get wire.1) wire.2 skipped count
    have ho := piece_within session.perOpBytes (items.get later.1) later.2 0 (st.progress later)
    rw [drop_zero] at ho
    rcases hpc with he | ⟨hp, hc, hr⟩
    · exact .inr (.inr (.inl he))
    rcases ho with he | ⟨hp', -, hr'⟩
    · exact .inr (.inr (.inr he))
    rcases hl with hi | ⟨hi, hn⟩
    · rcases Nat.eq_zero_or_pos (st.progress later) with hz | hp
      · right; right; right
        rw [hz, take_zero]
      have hap := hcl later.1 hi (hs.trans hfh.symm) ⟨later.2, hp⟩
      unfold WriteWaveAccess.Apart rangeOf at hap
      omega
    left
    have hn : (wire.2 + 1) * session.perOpBytes ≤ later.2 * session.perOpBytes :=
      Nat.mul_le_mul_right _ hn
    rw [Nat.succ_mul] at hn
    rw [hi]
    rw [hi] at hc
    omega
  · rfl

/-- One more acknowledged piece of a wire operation is one more write. -/
theorem contents_grow (hw : wire.2 < chunkCount session.perOpBytes (items.get wire.1))
    (hcl : Clear st wire.1) (hbn : st.progress wire ≤ session.chunkLength items wire)
    (hof : st'.offsets = st.offsets)
    (hp : st'.progress = Function.update st.progress wire (st.progress wire + count)) :
    contents session files st' = writeTo (contents session files st) (items.get wire.1).fh
      (st.offsets wire.1 + wire.2 * session.perOpBytes + st.progress wire)
      (((chunkData session.perOpBytes (items.get wire.1) wire.2).drop
        (st.progress wire)).take count) := by
  have ho : ∀ fh other, other ≠ wire → ∀ file,
      writeCell session st' fh file other = writeCell session st fh file other := by
    intro fh other hne file
    simp only [writeCell, hof, hp, Function.update_of_ne hne]
  obtain ⟨front, back, hc, hfr, hb⟩ := cells_split hw
  have hbe : ∀ other ∈ back, other ≠ wire := by
    rintro other hm rfl
    have := hb other hm
    omega
  funext fh
  unfold contents
  rw [hc]
  by_cases hfh : fh = (items.get wire.1).fh
  · rw [hfh, writeTo_same]
    apply Reorder.perform_extend (fun file => pwrite file
      (st.offsets wire.1 + wire.2 * session.perOpBytes + st.progress wire)
      (((chunkData session.perOpBytes (items.get wire.1) wire.2).drop
        (st.progress wire)).take count))
    · intro file
      have hl : ((chunkData session.perOpBytes (items.get wire.1) wire.2).take
          (st.progress wire)).length = st.progress wire := by
        rw [length_take]
        exact Nat.min_eq_left hbn
      simp only [writeCell, if_true, hof, hp, Function.update_self]
      rw [take_add, pwrite_append, hl]
    · exact fun other hm => ho _ other (hfr other hm)
    · exact fun other hm => ho _ other (hbe other hm)
    · exact fun other hm => writeCell_comm hcl (hb other hm) rfl _ _
  rw [writeTo_of_ne _ hfh]
  have hs : ∀ file, writeCell session st' fh file wire = writeCell session st fh file wire := by
    intro file
    unfold writeCell
    rw [if_neg fun h => hfh h.symm, if_neg fun h => hfh h.symm]
  apply Reorder.perform_extend id
  · exact hs
  · exact fun other hm => ho _ other (hfr other hm)
  · exact fun other hm => ho _ other (hbe other hm)
  · exact fun _ _ _ => rfl

private def writeRequest (session : WriteSession σ) (st : BatchWaves σ items.length) (fh : NfsFh)
    (file : Bytes) (index : Fin items.length) : Bytes :=
  (List.range (chunkCount session.perOpBytes (items.get index))).foldl
    (fun file chunk => writeCell session st fh file (index, chunk)) file

theorem contents_eq_foldl : contents session files st fh =
    (finRange items.length).foldl (writeRequest session st fh) (files fh) := by
  unfold contents cells Reorder.perform writeRequest
  rw [foldl_flatMap]
  simp only [foldl_map]

theorem writeRequest_of_ne (hfh : (items.get index).fh ≠ fh) (file : Bytes) :
    writeRequest session st fh file index = file := by
  unfold writeRequest
  induction List.range _ with
  | nil => rfl
  | cons chunk rest ih =>
    simp only [writeCell, hfh, if_false] at ih ⊢
    exact ih

theorem writeRequest_of_none (hn : ∀ chunk, st.progress (index, chunk) = 0) (file : Bytes) :
    writeRequest session st fh file index = file := by
  unfold writeRequest
  induction List.range _ with
  | nil => rfl
  | cons chunk rest ih =>
    simp only [writeCell, hn, take_zero, pwrite_nil, ite_self] at ih ⊢
    exact ih

theorem writeRequest_of_all (hfh : (items.get index).fh = fh)
    (ha : ∀ chunk, chunk < chunkCount session.perOpBytes (items.get index) →
      st.progress (index, chunk) = session.chunkLength items (index, chunk)) (file : Bytes) :
    writeRequest session st fh file index =
      pwrite file (st.offsets index) (items.get index).data := by
  have hwh : (items.get index).data.take
      (chunkCount session.perOpBytes (items.get index) * session.perOpBytes) =
        (items.get index).data :=
    take_of_length_le (chunkCount_mul _ _ session.perOpBytes_pos)
  have hc := pwrite_chunks session.perOpBytes (items.get index) (st.offsets index)
    (chunkCount session.perOpBytes (items.get index)) file
  rw [hwh] at hc
  rw [← hc]
  apply foldl_ext
  intro file chunk hch
  rw [writeCell, if_pos hfh, ha chunk (mem_range.mp hch), chunkLength, take_length]

/-- If a file's requests before `count` are acknowledged in full, at their
places, and of the others nothing is, then it holds what the first `count`
requests write. -/
theorem contents_settled {s : FileState} (hc : count ≤ items.length)
    (hb : ∀ index : Fin items.length, index.val < count → (items.get index).fh = fh →
      st.offsets index = s.placeInOrder items index ∧
      ∀ chunk, chunk < chunkCount session.perOpBytes (items.get index) →
        st.progress (index, chunk) = session.chunkLength items (index, chunk))
    (hbe : ∀ index : Fin items.length, count ≤ index.val → (items.get index).fh = fh →
      ∀ chunk, st.progress (index, chunk) = 0) :
    contents session s.files st fh = (s.inOrder items count).files fh := by
  have hr : ∀ file, ((finRange items.length).drop count).foldl
      (writeRequest session st fh) file = file := by
    intro file
    apply foldlRecOn (motive := fun result => result = file)
    · rfl
    rintro _ rfl index hi
    obtain ⟨k, hk, rfl⟩ := mem_iff_getElem.mp hi
    by_cases hfh : (items.get ((finRange items.length).drop count)[k]).fh = fh
    · apply writeRequest_of_none
      apply hbe _ _ hfh
      simp
    · exact writeRequest_of_ne hfh _
  have hf : ∀ m, m ≤ count → ((finRange items.length).take m).foldl
      (writeRequest session st fh) (s.files fh) = (s.inOrder items m).files fh := by
    intro m hm
    induction m with
    | zero => simp [FileState.inOrder]
    | succ m ih =>
      have hlt : m < items.length := by omega
      have hg : (finRange items.length)[m]? = some ⟨m, hlt⟩ := by simp [hlt]
      rw [take_add_one, hg, Option.toList_some, foldl_append, ih (by omega), foldl_cons, foldl_nil]
      have hs := s.inOrder_succ items ⟨m, hlt⟩
      rw [hs, FileState.files_performItem]
      split
      · rename_i hfh
        obtain ⟨ho, ha⟩ := hb ⟨m, hlt⟩ (by simpa using hm) hfh
        rw [writeRequest_of_all hfh ha, ho]
        rfl
      · rename_i hfh
        exact writeRequest_of_ne hfh _
  rw [contents_eq_foldl, ← take_append_drop count (finRange items.length), foldl_append, hr]
  exact hf count (Nat.le_refl _)

end Contents

end WriteSession

end Vnfs.Nfs
