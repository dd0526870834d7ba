import Mathlib

/-!
The contents of a regular file as a list, and positional writes on it. A write
behind the end fills the gap with zeros; a write of nothing changes nothing, not
even the length. Reading past the end gives zero, so that a file is its length
together with a total function from positions to bytes, and an equation between
files is two small ones.
-/

namespace Vnfs.ByteFile

open List hiding max

variable {α : Type*} [Zero α] (file : List α) (offset : Nat) (data : List α)

/-- The byte at `i`, zero past the end. -/
def byte (i : Nat) : α := file.getD i 0

/-- Overwrite `file` with `data` from `offset` on. -/
def pwrite : List α :=
  if data.isEmpty then file
  else file.take offset ++ replicate (offset - file.length) 0 ++ data ++
    file.drop (offset + data.length)

/-- Set the length: cut, or fill with zeros. -/
def truncate (size : Nat) : List α :=
  file.take size ++ replicate (size - file.length) 0

theorem ext_byte {file other : List α} (hl : file.length = other.length)
    (hb : ∀ i, byte file i = byte other i) : file = other := by
  apply ext_getElem hl
  intro i hi hi'
  simpa [byte, hi, hi'] using hb i

@[simp] theorem pwrite_nil : pwrite file offset [] = file := by
  simp [pwrite]

theorem length_pwrite {data : List α} (h : data ≠ []) :
    (pwrite file offset data).length = max file.length (offset + data.length) := by
  simp only [pwrite, List.isEmpty_iff, h, if_false, length_append, length_take,
    length_replicate, length_drop]
  omega

theorem byte_pwrite (i : Nat) : byte (pwrite file offset data) i =
      if offset ≤ i ∧ i < offset + data.length then byte data (i - offset) else byte file i := by
  by_cases hd : data = []
  · subst hd
    have : ¬ (offset ≤ i ∧ i < offset + ([] : List α).length) := by
      rw [length_nil]
      omega
    rw [pwrite_nil, if_neg this]
  have hhe : (file.take offset ++ replicate (offset - file.length) (0 : α)).length = offset := by
    simp only [length_append, length_take, length_replicate]
    omega
  simp only [byte, pwrite, List.isEmpty_iff, hd, if_false, getD_eq_getElem?_getD]
  rcases Nat.lt_or_ge i offset with hl | hl
  · have : ¬ (offset ≤ i ∧ i < offset + data.length) := by omega
    rw [if_neg this, append_assoc, getElem?_append_left (by omega)]
    rcases Nat.lt_or_ge i file.length with hin | hin
    · rw [getElem?_append_left (by rw [length_take]; omega), getElem?_take_of_lt hl]
    · rw [getElem?_append_right (by rw [length_take]; omega),
        getElem?_replicate, getElem?_eq_none hin]
      split <;> rfl
  rw [append_assoc, getElem?_append_right (by omega), hhe]
  rcases Nat.lt_or_ge i (offset + data.length) with hh | hh
  · rw [if_pos ⟨hl, hh⟩, getElem?_append_left (by omega)]
  have : ¬ (offset ≤ i ∧ i < offset + data.length) := by omega
  rw [if_neg this, getElem?_append_right (by omega), getElem?_drop]
  congr 2
  omega

theorem pwrite_append (front back : List α) : pwrite file offset (front ++ back) =
      pwrite (pwrite file offset front) (offset + front.length) back := by
  by_cases hfr : front = []
  · simp [hfr]
  by_cases hb : back = []
  · simp [hb]
  apply ext_byte
  · rw [length_pwrite _ _ hb, length_pwrite _ _ hfr, length_pwrite _ _ (by simp [hfr]),
      length_append]
    omega
  intro i
  simp only [byte_pwrite, length_append]
  split
  · rename_i hin
    split
    · rename_i hl
      simp only [byte, getD_eq_getElem?_getD]
      rw [getElem?_append_right (by omega), Nat.sub_sub]
    · rw [if_pos (by omega)]
      simp only [byte, getD_eq_getElem?_getD]
      rw [getElem?_append_left (by omega)]
  · rw [if_neg (by omega), if_neg (by omega)]

theorem pwrite_comm {offset offset' : Nat} {data data' : List α}
    (h : offset + data.length ≤ offset' ∨ offset' + data'.length ≤ offset ∨ data = [] ∨ data' = [])
    :
    pwrite (pwrite file offset data) offset' data' =
      pwrite (pwrite file offset' data') offset data := by
  by_cases hd : data = []
  · simp [hd]
  by_cases hd' : data' = []
  · simp [hd']
  apply ext_byte
  · rw [length_pwrite _ _ hd', length_pwrite _ _ hd, length_pwrite _ _ hd, length_pwrite _ _ hd']
    omega
  intro i
  have hdi : offset + data.length ≤ offset' ∨ offset' + data'.length ≤ offset := by
    simpa [hd, hd'] using h
  simp only [byte_pwrite]
  split <;> split <;> first | rfl | omega

theorem pwrite_length : pwrite file file.length data = file ++ data := by
  by_cases hd : data = []
  · simp [hd]
  · simp [pwrite, hd]

section Store

variable {κ : Type*} [DecidableEq κ]
  (store : κ → List α) (key : κ) (offset : Nat) (data front back : List α)

/-- A write to one of the files of a store. -/
def writeTo : κ → List α :=
  Function.update store key (pwrite (store key) offset data)

/-- A write at the end of one of the files of a store. -/
def appendTo : κ → List α :=
  writeTo store key (store key).length data

@[simp] theorem writeTo_same :
    writeTo store key offset data key = pwrite (store key) offset data := by
  simp [writeTo]

@[simp] theorem writeTo_of_ne {key other : κ} (h : other ≠ key) (offset : Nat) (data : List α) :
    writeTo store key offset data other = store other := by
  simp [writeTo, h]

@[simp] theorem writeTo_nil : writeTo store key offset [] = store := by
  simp [writeTo]

theorem writeTo_writeTo :
    writeTo (writeTo store key offset front) key (offset + front.length) back =
      writeTo store key offset (front ++ back) := by
  simp [writeTo, pwrite_append]

open Function

theorem appendTo_appendTo :
    appendTo (appendTo store key front) key back = appendTo store key (front ++ back) := by
  simp only [appendTo, writeTo, pwrite_length, update_self, update_idem, append_assoc]

theorem writeTo_comm {key key' : κ} {offset offset' : Nat} {data data' : List α}
    (h : key = key' → offset + data.length ≤ offset' ∨ offset' + data'.length ≤ offset ∨
      data = [] ∨ data' = []) :
    writeTo (writeTo store key offset data) key' offset' data' =
      writeTo (writeTo store key' offset' data') key offset data := by
  by_cases hk : key = key'
  · subst hk
    simp only [writeTo, update_self, update_idem, pwrite_comm _ (h rfl)]
  · have hk' : ¬ key' = key := fun heq => hk heq.symm
    simp only [writeTo, update_of_ne hk', update_of_ne hk]
    exact update_comm hk _ _ _

end Store

end Vnfs.ByteFile
