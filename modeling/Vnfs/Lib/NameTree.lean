import Mathlib

/-!
A tree of named objects. Directories hold entries and know their parent; whatever
has no entries is not a directory. A walk goes down by names, a climb up by
parents. In a well-formed tree a climb undoes a walk, so no walk from the root
meets a directory twice, and a change to an entry of the directory where a walk
ends leaves the walk alone.
-/

namespace Vnfs

open Function List Option

structure NameTree (κ ν : Type*) where
  root : κ
  entries : κ → Option (List (ν × κ))
  parent : κ → Option κ

namespace NameTree

variable {κ ν : Type*} (t : NameTree κ ν)

def isDir (d : κ) : Bool := (t.entries d).isSome

/-- No names in it; also true of what is not a directory. -/
def isBare (d : κ) : Bool := (t.entries d).all isEmpty

def climb : Nat → κ → Option κ
  | 0, d => some d
  | count + 1, d => (t.parent d).bind fun p => climb count p

theorem climb_add (count more : Nat) (d : κ) :
    t.climb (count + more) d = (t.climb count d).bind (t.climb more) := by
  induction count generalizing d with
  | zero => rw [Nat.zero_add]; rfl
  | succ count ih =>
    rw [Nat.succ_add]
    simp only [climb]
    cases t.parent d with
    | none => rfl
    | some p => exact ih p

variable [DecidableEq ν]

def child (d : κ) (name : ν) : Option κ := (t.entries d).bind fun entries => entries.lookup name

/-- The object at the end of a path that begins at `d`. -/
def walk (d : κ) : List ν → Option κ
  | [] => some d
  | name :: rest => (t.child d name).bind fun c => walk c rest

/-- The object at a path from the root. -/
def resolve (path : List ν) : Option κ := t.walk t.root path

/-- Directories have one name, under their parent; the root has no parent. -/
structure WellFormed : Prop where
  parent_child : ∀ d name c, t.child d name = some c → t.isDir c = true → t.parent c = some d
  parent_root : t.parent t.root = none
  name_unique : ∀ d name name' c, t.child d name = some c → t.child d name' = some c →
    t.isDir c = true → name = name'

variable {t} {d c : κ} {name : ν} {path : List ν} {count : Nat}

theorem isDir_of_child (h : t.child d name = some c) : t.isDir d = true := by
  unfold child at h
  unfold isDir
  cases he : t.entries d with
  | none => rw [he] at h; cases h
  | some entries => rfl

theorem isBare_child (h : t.isBare d = true) (name : ν) : t.child d name = none := by
  unfold child
  cases he : t.entries d with
  | none => rfl
  | some entries =>
    rw [isBare, he] at h
    obtain rfl : entries = [] := by simpa using h
    rfl

theorem walk_append (d : κ) (path rest : List ν) :
    t.walk d (path ++ rest) = (t.walk d path).bind fun c => t.walk c rest := by
  induction path generalizing d with
  | nil => rfl
  | cons name path ih =>
    simp only [cons_append, walk]
    cases t.child d name with
    | none => rfl
    | some c => exact ih c

theorem resolve_concat (h : t.resolve (path ++ [name]) = some c) :
    ∃ d, t.resolve path = some d ∧ t.child d name = some c := by
  unfold resolve at h ⊢
  rw [walk_append] at h
  cases hw : t.walk t.root path with
  | none => rw [hw] at h; cases h
  | some d =>
    rw [hw] at h
    refine ⟨d, rfl, ?_⟩
    simpa [walk] using h

theorem resolve_take (h : t.resolve path = some c) (count : Nat) :
    ∃ d, t.resolve (path.take count) = some d ∧ t.walk d (path.drop count) = some c := by
  unfold resolve at h ⊢
  rw [← take_append_drop count path, walk_append] at h
  cases hw : t.walk t.root (path.take count) with
  | none => rw [hw] at h; cases h
  | some d =>
    rw [hw] at h
    exact ⟨d, rfl, h⟩

theorem WellFormed.climb_resolve (h : t.WellFormed) (hd : t.resolve path = some d)
    (hdi : t.isDir d = true) (hc : count ≤ path.length) :
    t.climb count d = t.resolve (path.take (path.length - count)) := by
  induction count generalizing path d with
  | zero => simp [climb, hd]
  | succ count ih =>
    rcases eq_nil_or_concat path with rfl | ⟨front, name, rfl⟩
    · cases hc
    rw [concat_eq_append] at hd hc ⊢
    obtain ⟨p, hp, hch⟩ := resolve_concat hd
    have hl : (front ++ [name]).length = front.length + 1 := by simp
    have hfr : count ≤ front.length := by omega
    simp only [climb, h.parent_child p name d hch hdi, bind_some]
    rw [ih hp (isDir_of_child hch) hfr, hl, Nat.succ_sub_succ]
    rw [take_append_of_le_length (by omega)]

/-- A walk from the root does not meet its end on the way. -/
theorem WellFormed.resolve_take_ne (h : t.WellFormed) (hd : t.resolve path = some d)
    (hdi : t.isDir d = true) (hc : count < path.length) : t.resolve (path.take count) ≠ some d := by
  intro hm
  have ht := h.climb_resolve hd hdi (Nat.le_refl _)
  have hl : (path.take count).length = count := by
    rw [length_take]
    omega
  have ht' := h.climb_resolve hm hdi (Nat.le_refl _)
  rw [hl, Nat.sub_self, take_zero] at ht'
  obtain ⟨more, hmo⟩ : ∃ more, path.length = count + (more + 1) :=
    ⟨path.length - count - 1, by omega⟩
  rw [hmo, climb_add, ht'] at ht
  simp [resolve, walk, climb, h.parent_root] at ht

/-- A walk is the same in a tree that has the same entries on its way. -/
theorem resolve_of_child_eq {t' : NameTree κ ν} (hr : t'.root = t.root)
    (hd : t.resolve path = some d) (hs : ∀ (count : Nat) (hcn : count < path.length) x,
      t.resolve (path.take count) = some x →
      ∀ c, t.child x path[count] = some c → t'.child x path[count] = some c) :
    t'.resolve path = some d := by
  have hp : ∀ count, count ≤ path.length →
      ∃ x, t.resolve (path.take count) = some x ∧ t'.resolve (path.take count) = some x := by
    intro count hcn
    induction count with
    | zero => exact ⟨t.root, rfl, by simp [resolve, walk, hr]⟩
    | succ count ih =>
      obtain ⟨x, hx, hx'⟩ := ih (by omega)
      obtain ⟨c, hc, -⟩ := resolve_take hd (count + 1)
      rw [take_succ_eq_append_getElem (by omega)] at hc ⊢
      obtain ⟨y, hy, hch⟩ := resolve_concat hc
      obtain rfl : x = y := some.inj (hx.symm.trans hy)
      refine ⟨c, hc, ?_⟩
      unfold resolve at hx' ⊢
      rw [walk_append, hx']
      simp [walk, hs count (by omega) x hx c hch]
  obtain ⟨x, hx, hx'⟩ := hp path.length (Nat.le_refl _)
  rw [take_length] at hx hx'
  rw [hx', ← hx, hd]

section Change

variable [DecidableEq κ]

def unlink (t : NameTree κ ν) (d : κ) (name : ν) : NameTree κ ν where
  root := t.root
  entries := update t.entries d
    ((t.entries d).map fun entries => entries.filter fun entry => entry.1 ≠ name)
  parent := t.parent

def link (t : NameTree κ ν) (d : κ) (name : ν) (c : κ) : NameTree κ ν where
  root := t.root
  entries := update t.entries d
    ((t.entries d).map fun entries => (name, c) :: entries.filter fun entry => entry.1 ≠ name)
  parent := t.parent

/-- Take `c` from one name to another. -/
def move (t : NameTree κ ν) (d : κ) (name : ν) (d' : κ) (name' : ν) (c : κ) : NameTree κ ν where
  root := t.root
  entries := ((t.unlink d name).link d' name' c).entries
  parent := if t.isDir c then update t.parent c (some d') else t.parent

variable {d d' c : κ} {name name' : ν}

omit [DecidableEq κ] in
theorem lookup_filter (entries : List (ν × κ)) (name name' : ν) :
    (entries.filter fun entry => entry.1 ≠ name).lookup name' =
      if name' = name then none else entries.lookup name' := by
  induction entries with
  | nil => simp
  | cons entry rest ih =>
    obtain ⟨other, c⟩ := entry
    by_cases heq : name' = other
    · subst heq
      by_cases hk : name' = name
      · simp [hk] at ih ⊢
        exact ih
      · simp [hk]
    have hb : (name' == other) = false := beq_false_of_ne heq
    rw [lookup_cons, hb, ← ih]
    by_cases hk : other = name
    · simp [hk]
    · simp [hk, lookup_cons, hb]

@[simp] theorem isDir_unlink (x : κ) : (t.unlink d name).isDir x = t.isDir x := by
  unfold isDir unlink
  by_cases hx : x = d
  · subst hx
    simp
  · simp [hx]

@[simp] theorem isDir_link (x : κ) : (t.link d name c).isDir x = t.isDir x := by
  unfold isDir link
  by_cases hx : x = d
  · subst hx
    simp
  · simp [hx]

@[simp] theorem isDir_move (x : κ) : (t.move d name d' name' c).isDir x = t.isDir x := by
  have hl : ((t.unlink d name).link d' name' c).isDir x = (t.unlink d name).isDir x := isDir_link x
  rw [isDir_unlink] at hl
  exact hl

theorem child_unlink (x : κ) (y : ν) :
    (t.unlink d name).child x y = if x = d ∧ y = name then none else t.child x y := by
  unfold child unlink
  by_cases hx : x = d
  · subst hx
    simp only [update_self, true_and]
    cases t.entries x with
    | none => simp
    | some entries =>
      exact lookup_filter entries name y
  · simp [hx]

theorem child_link (hd : t.isDir d = true) (x : κ) (y : ν) :
    (t.link d name c).child x y = if x = d ∧ y = name then some c else t.child x y := by
  unfold child link
  by_cases hx : x = d
  · subst hx
    simp only [update_self, true_and]
    obtain ⟨entries, he⟩ := isSome_iff_exists.mp hd
    simp only [he, map_some, bind_some, lookup_cons, lookup_filter]
    by_cases hy : y = name
    · subst hy
      simp
    · simp [beq_false_of_ne hy, hy]
  · simp [hx]

theorem child_move (hd' : t.isDir d' = true) (x : κ) (y : ν) :
    (t.move d name d' name' c).child x y =
      if x = d' ∧ y = name' then some c else if x = d ∧ y = name then none else t.child x y := by
  have hd : (t.unlink d name).isDir d' = true := by rw [isDir_unlink, hd']
  have hl : ((t.unlink d name).link d' name' c).child x y =
      if x = d' ∧ y = name' then some c else (t.unlink d name).child x y :=
    child_link hd x y
  rw [child_unlink] at hl
  exact hl

theorem WellFormed.unlink (h : t.WellFormed) : (t.unlink d name).WellFormed := by
  have hk : ∀ x y z, (t.unlink d name).child x y = some z → t.child x y = some z := by
    intro x y z hch
    rw [child_unlink] at hch
    split at hch
    · cases hch
    · exact hch
  refine ⟨?_, h.parent_root, ?_⟩
  · intro x y z hch hd
    rw [isDir_unlink] at hd
    exact h.parent_child x y z (hk x y z hch) hd
  · intro x y y' z hch hch' hd
    rw [isDir_unlink] at hd
    exact h.name_unique x y y' z (hk x y z hch) (hk x y' z hch') hd

theorem WellFormed.link (h : t.WellFormed) (hd : t.isDir d = true) (hc : t.isDir c = false) :
    (t.link d name c).WellFormed := by
  have hk : ∀ x y z, (t.link d name c).child x y = some z → t.isDir z = true →
      t.child x y = some z := by
    intro x y z hch hdi
    rw [child_link hd] at hch
    split at hch
    · obtain rfl := some.inj hch
      rw [hc] at hdi
      cases hdi
    · exact hch
  refine ⟨?_, h.parent_root, ?_⟩
  · intro x y z hch hdi
    rw [isDir_link] at hdi
    exact h.parent_child x y z (hk x y z hch hdi) hdi
  · intro x y y' z hch hch' hdi
    rw [isDir_link] at hdi
    exact h.name_unique x y y' z (hk x y z hch hdi) (hk x y' z hch' hdi) hdi

theorem WellFormed.move (h : t.WellFormed) (hd' : t.isDir d' = true)
    (hc : t.child d name = some c) : (t.move d name d' name' c).WellFormed := by
  -- Entries of other directories than `c` stay; `c` has the new name only.
  have hca : ∀ x y z, (t.move d name d' name' c).child x y = some z → t.isDir z = true →
      (x = d' ∧ y = name' ∧ z = c) ∨ (z ≠ c ∧ t.child x y = some z) := by
    intro x y z hch hd
    rw [child_move hd'] at hch
    split at hch
    · rename_i hn
      exact .inl ⟨hn.1, hn.2, (some.inj hch).symm⟩
    split at hch
    · cases hch
    rename_i hold
    refine .inr ⟨?_, hch⟩
    rintro rfl
    have hx : x = d := some.inj
      ((h.parent_child x y z hch hd).symm.trans (h.parent_child d name z hc hd))
    subst hx
    exact hold ⟨rfl, h.name_unique x y name z hch hc hd⟩
  have hp : ∀ z, z ≠ c → (t.move d name d' name' c).parent z = t.parent z := by
    intro z hz
    unfold NameTree.move
    split
    · exact update_of_ne hz ..
    · rfl
  refine ⟨?_, ?_, ?_⟩
  · intro x y z hch hd
    rw [isDir_move] at hd
    rcases hca x y z hch hd with ⟨rfl, -, rfl⟩ | ⟨hne, hold⟩
    · unfold NameTree.move
      dsimp only
      rw [if_pos hd, update_self]
    · rw [hp z hne]
      exact h.parent_child x y z hold hd
  · change (if t.isDir c then update t.parent c (some d') else t.parent) t.root = none
    split
    · rename_i hd
      have hne : t.root ≠ c := by
        rintro rfl
        have := h.parent_child d name _ hc hd
        rw [h.parent_root] at this
        cases this
      rw [update_of_ne hne]
      exact h.parent_root
    · exact h.parent_root
  intro x y y' z hch hch' hd
  rw [isDir_move] at hd
  rcases hca x y z hch hd with ⟨-, rfl, rfl⟩ | ⟨hne, hold⟩
  · rcases hca x y' z hch' hd with ⟨-, rfl, -⟩ | ⟨hne', -⟩
    · rfl
    · exact absurd rfl hne'
  · rcases hca x y' z hch' hd with ⟨-, -, rfl⟩ | ⟨-, hold'⟩
    · exact absurd rfl hne
    · exact h.name_unique x y y' z hold hold' hd

variable {path : List ν}

/-- Taking a name away from the directory at the end of a path leaves the path. -/
theorem WellFormed.resolve_unlink (h : t.WellFormed) (hd : t.resolve path = some d)
    (hdi : t.isDir d = true) : (t.unlink d name).resolve path = some d := by
  refine resolve_of_child_eq ?_ hd ?_
  · rfl
  intro count hc x hx c hch
  have hne : x ≠ d := by
    rintro rfl
    exact h.resolve_take_ne hd hdi hc hx
  rw [child_unlink, if_neg fun heq => hne heq.1]
  exact hch

theorem resolve_link {x : κ} (hx : t.resolve path = some x) (hd : t.isDir d = true)
    (hf : t.child d name = none) : (t.link d name c).resolve path = some x := by
  refine resolve_of_child_eq ?_ hx ?_
  · rfl
  intro count hc y hy z hch
  rw [child_link hd, if_neg]
  · exact hch
  · rintro ⟨rfl, heq⟩
    rw [heq, hf] at hch
    cases hch

/-- Moving an entry of the directory at the end of a path leaves the path, if
what it replaces holds nothing. -/
theorem WellFormed.resolve_move (h : t.WellFormed) (hd : t.resolve path = some d)
    (hc : t.child d name = some c) (hd' : t.isDir d' = true)
    (hb : ∀ x, t.child d' name' = some x → t.isBare x = true) :
    (t.move d name d' name' c).resolve path = some d := by
  have hdi := isDir_of_child hc
  refine resolve_of_child_eq ?_ hd ?_
  · rfl
  intro count hcn x hx z hch
  have hne : x ≠ d := by
    rintro rfl
    exact h.resolve_take_ne hd hdi hcn hx
  rw [child_move hd', if_neg, if_neg fun heq => hne heq.1]
  · exact hch
  -- The entry replaced would be a directory on the path, with the rest of the path in it.
  rintro ⟨rfl, hn⟩
  rw [hn] at hch
  have he := isBare_child (hb z hch)
  have hz : t.resolve (path.take (count + 1)) = some z := by
    unfold resolve at hx ⊢
    rw [take_succ_eq_append_getElem hcn, walk_append, hx]
    simp [walk, hn, hch]
  rcases Nat.lt_or_ge (count + 1) path.length with hlt | hge
  · obtain ⟨z', hz', hw⟩ := resolve_take hd (count + 1)
    obtain rfl : z = z' := some.inj (hz.symm.trans hz')
    rw [drop_eq_getElem_cons hlt] at hw
    simp [walk, he] at hw
  rw [take_of_length_le hge, hd] at hz
  obtain rfl := some.inj hz
  rw [he] at hc
  cases hc

end Change

section Table

variable [DecidableEq κ]

/-- The tree of a table of directories and a table of their parents. -/
def ofTable (root : κ) (table : List (κ × List (ν × κ))) (parents : List (κ × κ)) :
    NameTree κ ν where
  root := root
  entries d := table.lookup d
  parent d := parents.lookup d

variable {root : κ} {table : List (κ × List (ν × κ))} {parents : List (κ × κ)}

theorem ofTable_child {d c : κ} {name : ν} (h : (ofTable root table parents).child d name = some c)
    :
    ∃ dir ∈ table, dir.1 = d ∧ (name, c) ∈ dir.2 := by
  obtain ⟨entries, he, hn⟩ := bind_eq_some_iff.mp h
  obtain ⟨front, back, hs, -⟩ := lookup_eq_some_iff.mp he
  obtain ⟨before, behind, hen, -⟩ := lookup_eq_some_iff.mp hn
  refine ⟨(d, entries), ?_, rfl, ?_⟩
  · rw [hs]
    simp
  · rw [hen]
    simp

theorem ofTable_wellFormed
    (hp : ∀ dir ∈ table, ∀ entry ∈ dir.2, (table.lookup entry.2).isSome = true →
      parents.lookup entry.2 = some dir.1) (hr : parents.lookup root = none)
    (hn : ∀ dir ∈ table, ∀ entry ∈ dir.2, ∀ dir' ∈ table, ∀ entry' ∈ dir'.2,
      dir.1 = dir'.1 → entry.2 = entry'.2 → (table.lookup entry.2).isSome = true →
        entry.1 = entry'.1) :
    (ofTable root table parents).WellFormed where
  parent_child d name c hch hdi := by
    obtain ⟨dir, hm, rfl, he⟩ := ofTable_child hch
    exact hp dir hm _ he hdi
  parent_root := hr
  name_unique d name name' c hch hch' hdi := by
    obtain ⟨dir, hm, rfl, he⟩ := ofTable_child hch
    obtain ⟨dir', hm', hd, he'⟩ := ofTable_child hch'
    exact hn dir hm _ he dir' hm' _ he' hd.symm rfl hdi

end Table

end NameTree

end Vnfs
