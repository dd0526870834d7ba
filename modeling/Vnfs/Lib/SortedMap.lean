import Mathlib

/-!
Ordered maps: entries sorted by key, each key once. What a caller needs to know
about an operation is which entries it leaves, and which entry a search in a
range of keys returns.
-/

namespace Vnfs

open List hiding le_of_lt lt_trans not_lt

/-- A finite map whose entries are kept in increasing order of their keys. -/
structure SortedMap (κ β : Type*) [LinearOrder κ] where
  entries : List (κ × β)
  sorted : entries.Pairwise fun earlier later => earlier.1 < later.1

namespace SortedMap

variable {κ β : Type*} [LinearOrder κ]

def empty : SortedMap κ β := ⟨[], .nil⟩

def insertEntry (key : κ) (value : β) : List (κ × β) → List (κ × β)
  | [] => [(key, value)]
  | entry :: rest =>
    if key < entry.1 then (key, value) :: entry :: rest
    else if key = entry.1 then (key, value) :: rest
    else entry :: insertEntry key value rest

variable {key : κ} {value : β} {entries : List (κ × β)} {x y : κ × β} {low high : κ}

theorem mem_insertEntry (hs : entries.Pairwise fun earlier later => earlier.1 < later.1) :
    x ∈ insertEntry key value entries ↔ x = (key, value) ∨ x ∈ entries ∧ x.1 ≠ key := by
  induction entries with
  | nil => simp [insertEntry]
  | cons entry rest ih =>
    obtain ⟨hh, ht⟩ := pairwise_cons.mp hs
    unfold insertEntry
    split
    · rename_i hlt
      have hne : ∀ y ∈ entry :: rest, y.1 ≠ key := by
        intro y hy
        rcases mem_cons.mp hy with rfl | hy
        · exact ne_of_gt hlt
        · exact ne_of_gt (hlt.trans (hh y hy))
      simp only [mem_cons]
      constructor
      · rintro (hx | hx)
        · exact .inl hx
        · exact .inr ⟨hx, hne x (mem_cons.mpr hx)⟩
      · rintro (hx | ⟨hx, -⟩)
        · exact .inl hx
        · exact .inr hx
    split
    · rename_i hn heq
      have hne : ∀ y ∈ rest, y.1 ≠ key := fun y hy => heq ▸ ne_of_gt (hh y hy)
      simp only [mem_cons]
      constructor
      · rintro (hx | hx)
        · exact .inl hx
        · exact .inr ⟨.inr hx, hne x hx⟩
      rintro (hx | ⟨rfl | hx, hk⟩)
      · exact .inl hx
      · exact absurd heq.symm hk
      · exact .inr hx
    rename_i hn hne
    simp only [mem_cons, ih ht]
    constructor
    · rintro (rfl | hx | ⟨hx, hk⟩)
      · exact .inr ⟨.inl rfl, fun h => hne h.symm⟩
      · exact .inl hx
      · exact .inr ⟨.inr hx, hk⟩
    rintro (hx | ⟨hx | hx, hk⟩)
    · exact .inr (.inl hx)
    · exact .inl hx
    · exact .inr (.inr ⟨hx, hk⟩)

theorem sorted_insertEntry (hs : entries.Pairwise fun earlier later => earlier.1 < later.1) :
    (insertEntry key value entries).Pairwise fun earlier later => earlier.1 < later.1 := by
  induction entries with
  | nil => simp [insertEntry]
  | cons entry rest ih =>
    obtain ⟨hh, ht⟩ := pairwise_cons.mp hs
    unfold insertEntry
    split
    · rename_i hlt
      refine pairwise_cons.mpr ⟨?_, hs⟩
      intro y hy
      rcases mem_cons.mp hy with rfl | hy
      · exact hlt
      · exact hlt.trans (hh y hy)
    split
    · rename_i heq
      exact pairwise_cons.mpr ⟨fun y hy => heq ▸ hh y hy, ht⟩
    rename_i hn hne
    refine pairwise_cons.mpr ⟨?_, ih ht⟩
    intro y hy
    rcases (mem_insertEntry ht).mp hy with rfl | ⟨hy, -⟩
    · exact lt_of_le_of_ne (not_lt.mp hn) (fun h => hne h.symm)
    · exact hh y hy

def insert (map : SortedMap κ β) (key : κ) (value : β) : SortedMap κ β :=
  ⟨insertEntry key value map.entries, sorted_insertEntry map.sorted⟩

def get (map : SortedMap κ β) (key : κ) : Option β :=
  (map.entries.find? fun entry => entry.1 = key).map Prod.snd

def remove (map : SortedMap κ β) (key : κ) : SortedMap κ β :=
  ⟨map.entries.filter fun entry => entry.1 ≠ key, map.sorted.filter _⟩

/-- The entry with the greatest key up to `key`. -/
def lastLE (map : SortedMap κ β) (key : κ) : Option (κ × β) :=
  (map.entries.filter fun entry => entry.1 ≤ key).getLast?

/-- The entry with the greatest key before `key`. -/
def lastLT (map : SortedMap κ β) (key : κ) : Option (κ × β) :=
  (map.entries.filter fun entry => entry.1 < key).getLast?

/-- The entry with the least key in `low..high`. -/
def firstIn (map : SortedMap κ β) (low high : κ) : Option (κ × β) :=
  map.entries.find? fun entry => low ≤ entry.1 ∧ entry.1 < high

variable {map : SortedMap κ β}

@[simp] theorem mem_empty : x ∈ (empty : SortedMap κ β).entries ↔ False := by
  simp [empty]

@[simp] theorem mem_insert :
    x ∈ (map.insert key value).entries ↔ x = (key, value) ∨ x ∈ map.entries ∧ x.1 ≠ key :=
  mem_insertEntry map.sorted

@[simp] theorem mem_remove : x ∈ (map.remove key).entries ↔ x ∈ map.entries ∧ x.1 ≠ key := by
  simp [remove]

theorem entries_unique (hs : entries.Pairwise fun earlier later => earlier.1 < later.1)
    (hx : x ∈ entries) (hy : y ∈ entries) (hk : x.1 = y.1) : x = y := by
  induction entries with
  | nil => cases hx
  | cons entry rest ih =>
    obtain ⟨hh, ht⟩ := pairwise_cons.mp hs
    rcases mem_cons.mp hx with hxh | hxr
    · rcases mem_cons.mp hy with hyh | hyr
      · rw [hxh, hyh]
      · exact absurd hk (ne_of_lt (hxh ▸ hh y hyr))
    · rcases mem_cons.mp hy with hyh | hyr
      · exact absurd hk (ne_of_gt (hyh ▸ hh x hxr))
      · exact ih ht hxr hyr

theorem entry_unique (hx : x ∈ map.entries) (hy : y ∈ map.entries) (hk : x.1 = y.1) : x = y :=
  entries_unique map.sorted hx hy hk

theorem getLast?_filter_some {p : κ × β → Bool} (h : (map.entries.filter p).getLast? = some x) :
    x ∈ map.entries ∧ p x = true ∧ ∀ y ∈ map.entries, p y = true → y.1 ≤ x.1 := by
  obtain ⟨init, hi⟩ := getLast?_eq_some_iff.mp h
  have hx : x ∈ map.entries.filter p := by simp [hi]
  obtain ⟨hm, hp⟩ := mem_filter.mp hx
  have hs := map.sorted.filter p
  rw [hi, pairwise_append] at hs
  refine ⟨hm, hp, ?_⟩
  intro y hy hyp
  have hf : y ∈ init ++ [x] := by
    rw [← hi]
    exact mem_filter.mpr ⟨hy, hyp⟩
  rcases mem_append.mp hf with hfr | hl
  · exact le_of_lt (hs.2.2 y hfr x (by simp))
  · rw [mem_singleton.mp hl]

theorem lastLE_eq_some (h : map.lastLE key = some x) :
    x ∈ map.entries ∧ x.1 ≤ key ∧ ∀ y ∈ map.entries, y.1 ≤ key → y.1 ≤ x.1 := by
  simpa using getLast?_filter_some h

theorem lastLE_eq_none (h : map.lastLE key = none) : ∀ y ∈ map.entries, key < y.1 := by
  intro y hy
  have hn := getLast?_eq_none_iff.mp h
  have hno := filter_eq_nil_iff.mp hn y hy
  simpa using hno

theorem lastLT_eq_some (h : map.lastLT key = some x) :
    x ∈ map.entries ∧ x.1 < key ∧ ∀ y ∈ map.entries, y.1 < key → y.1 ≤ x.1 := by
  simpa using getLast?_filter_some h

theorem lastLT_eq_none (h : map.lastLT key = none) : ∀ y ∈ map.entries, key ≤ y.1 := by
  intro y hy
  have hn := getLast?_eq_none_iff.mp h
  have hno := filter_eq_nil_iff.mp hn y hy
  simpa using hno

theorem firstIn_eq_some (h : map.firstIn low high = some x) :
    x ∈ map.entries ∧ low ≤ x.1 ∧ x.1 < high :=
  ⟨mem_of_find?_eq_some h, by simpa using find?_some h⟩

theorem firstIn_eq_none (h : map.firstIn low high = none) :
    ∀ y ∈ map.entries, low ≤ y.1 → high ≤ y.1 := by
  intro y hy hl
  have hn := find?_eq_none.mp h y hy
  simpa [hl] using hn

end SortedMap

end Vnfs
