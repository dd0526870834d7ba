import Vnfs.Core

/-!
Copying a tree inside one file system. The traversal keeps a stack of directories;
it lists one page by page, queues its files for vectors of at most 32 copies, makes
its directories at the destination and puts them on the stack. The destination may
be an ancestor of the source: output then lands inside the tree that is copied.

Paths are absolute lists of names. The native operations are parameters with
contracts; attribute masks, modes and the seeds of child directories are left out.
-/

namespace Vnfs.Sync

open Function List Option

inductive Node where
  | dir
  | file (contents : Bytes)
  | symlink (target : Bytes)
  deriving DecidableEq, Repr

/-- What stands at each path. -/
abbrev Tree (N : Type) := List N → Option Node

/-- The native operations of the traversal. -/
structure CopyBackend (N : Type) where
  /-- A page of a directory: the tree as it is, the directory, and for a cursor the
  tree in which the listing began and the names it has brought. The flag says
  whether there is a next page. -/
  page : Tree N → List N → Tree N → List N → VfResult (List N × Bool)
  copyFiles : Tree N → List (List N × List N) → VfResult (Tree N)
  ensureDir : Tree N → List N → VfResult (Tree N)
  readlinkRaw : Tree N → List N → VfResult Bytes
  symlinkRaw : Tree N → Bytes → List N → VfResult (Tree N)

/-- The variables of the traversal of one directory. -/
structure CopyState (N : Type) where
  tree : Tree N
  directories : List (List N × List N)
  copies : List (List N × List N)

variable {N : Type} (backend : CopyBackend N) (mapError : VfError → VfError) (symlinks : Bool)

def CopyState.flush (s : CopyState N) : VfResult (CopyState N) :=
  if s.copies.isEmpty then .ok s
  else
    match backend.copyFiles s.tree s.copies with
    | .error error => .error (mapError error)
    | .ok tree => .ok {s with tree := tree, copies := []}

def CopyState.pushCopy (s : CopyState N) (pair : List N × List N) : VfResult (CopyState N) :=
  let s := {s with copies := s.copies ++ [pair]}
  if s.copies.length = 32 then s.flush backend mapError else .ok s

/-- One entry of a page, with what the page says it is. -/
def copyEntry (source destination : List N) (s : CopyState N) (entry : N × Option Node) :
    VfResult (CopyState N) :=
  let sourceChild := source ++ [entry.1]
  let destinationChild := destination ++ [entry.1]
  match entry.2, symlinks with
  | some .dir, _ => do
      let s ← s.flush backend mapError
      match backend.ensureDir s.tree destinationChild with
      | .error error => .error (mapError error)
      | .ok tree =>
        .ok {s with tree := tree,
                    directories := s.directories ++ [(sourceChild, destinationChild)]}
  | some (.symlink _), true => do
      let s ← s.flush backend mapError
      match backend.readlinkRaw s.tree sourceChild with
      | .error error => .error (mapError error)
      | .ok target =>
        match backend.symlinkRaw s.tree target destinationChild with
        | .error error => .error (mapError error)
        | .ok tree => .ok {s with tree := tree}
  | _, _ => s.pushCopy backend mapError (sourceChild, destinationChild)

def copyEntries (source destination : List N) :
    CopyState N → List (N × Option Node) → VfResult (CopyState N)
  | s, [] => .ok s
  | s, entry :: rest =>
    match copyEntry backend mapError symlinks source destination s entry with
    | .error error => .error error
    | .ok s => copyEntries source destination s rest

/-- The entries of one page, and the copies that are left over. -/
def copyPage (source destination : List N) (s : CopyState N) (names : List N) :
    VfResult (CopyState N) :=
  match copyEntries backend mapError symlinks source destination s
      (names.map fun name => (name, s.tree (source ++ [name]))) with
  | .error error => .error error
  | .ok s => s.flush backend mapError

/-- The pages of one directory. Nothing if the fuel does not suffice. -/
def copyPages (source destination : List N) (start : Tree N) :
    Nat → List N → CopyState N → Option (VfResult (CopyState N))
  | 0, _, _ => none
  | fuel + 1, seen, s =>
    match backend.page s.tree source start seen with
    | .error error => some (.error (mapError error))
    | .ok (names, more) =>
      if 256 < names.length ∨ (names.isEmpty ∧ more) then
        some (.error (mapError (.invalidReply none "invalid tree-copy page progress")))
      else
        match copyPage backend mapError symlinks source destination s names with
        | .error error => some (.error error)
        | .ok s => if more then copyPages source destination start fuel (seen ++ names) s
            else some (.ok s)

/-- The stack of directories, its top first. -/
def copyPending : Nat → List (List N × List N) → Tree N → Option (VfResult (Tree N))
  | _, [], tree => some (.ok tree)
  | 0, _ :: _, _ => none
  | fuel + 1, (source, destination) :: pending, tree =>
    match copyPages backend mapError symlinks source destination tree fuel []
        ⟨tree, [], []⟩ with
    | none => none
    | some (.error error) => some (.error error)
    | some (.ok s) => copyPending fuel (s.directories ++ pending) s.tree

/-- `copy_tree_batches_with_pages`. -/
def copyTreeBatchesWithPages [DecidableEq N] (fuel : Nat) (source destination : List N)
    (tree : Tree N) : Option (VfResult (Tree N)) :=
  if source <+: destination then
    some (.error (mapError (.fromKind (some 0) .invalidInput)))
  else
    match backend.ensureDir tree destination with
    | .error error => some (.error (mapError error))
    | .ok tree => copyPending backend mapError symlinks fuel [(source, destination)] tree

/-! ### What the native operations keep to -/

/-- The copy of one file: all of its contents, in the place of a file or of nothing. -/
def copyOne [DecidableEq N] (tree : Tree N) (pair : List N × List N) : Option (Tree N) :=
  match tree pair.1, tree pair.2 with
  | some (.file _), some .dir => none
  | some (.file contents), _ => some (update tree pair.2 (some (.file contents)))
  | _, _ => none

/-- No symbolic links: only files and directories. -/
def Tree.Plain (tree : Tree N) : Prop := ∀ path target, tree path ≠ some (.symlink target)

/-- A path has something only if its parent is a directory. -/
def Tree.WellFormed (tree : Tree N) : Prop :=
  ∀ path name, tree (path ++ [name]) ≠ none → tree path = some .dir

/-- The contracts of the native operations, on trees of files and directories. -/
structure CopyBackend.Faithful [DecidableEq N] (backend : CopyBackend N) : Prop where
  /-- The last page completes what was there when the listing began, and still is. -/
  page_complete : ∀ tree dir start seen names,
    backend.page tree dir start seen = .ok (names, false) →
      ∀ name, start (dir ++ [name]) ≠ none → tree (dir ++ [name]) ≠ none → name ∈ seen ++ names
  /-- The vector copies its files one after another. -/
  copyFiles_ok : ∀ tree pairs tree', tree.Plain → backend.copyFiles tree pairs = .ok tree' →
    pairs.foldlM copyOne tree = some tree'
  /-- Only missing directories are made. -/
  ensureDir_ok : ∀ tree path tree', backend.ensureDir tree path = .ok tree' →
    ∀ other, tree' other = tree other ∨ tree other = none ∧ tree' other = some .dir

/-! ### What the traversal keeps -/

section Kept

variable (S D : List N) (tree₀ : Tree N)

/-- The contents that may come to stand at a path of the source: those it had, and
those of the path that is copied there. -/
inductive Reaches : List N → Bytes → Prop
  | origin {u : List N} {contents : Bytes} (h : tree₀ (S ++ u) = some (.file contents)) :
      Reaches u contents
  | written {u v : List N} {contents : Bytes} (h : D ++ v = S ++ u)
      (hv : Reaches v contents) : Reaches u contents

/-- The tree during the traversal: nothing of the initial tree changes its type, and
a file of the source has contents that may come to stand there. -/
structure Kept (tree : Tree N) : Prop where
  plain : tree.Plain
  dirs : ∀ path, tree₀ path = some .dir → tree path = some .dir
  files : ∀ path contents, tree₀ path = some (.file contents) →
    ∃ contents, tree path = some (.file contents)
  sources : ∀ u contents, tree (S ++ u) = some (.file contents) → Reaches S D tree₀ u contents

/-- The file is copied with its initial contents. -/
def CopiedTo (tree : Tree N) (t : List N) : Prop :=
  ∃ contents, tree₀ (S ++ t) = some (.file contents) ∧ tree (D ++ t) = some (.file contents)

/-- One tree comes after another in the traversal. -/
structure Follows (tree tree' : Tree N) : Prop where
  kept : Kept S D tree₀ tree'
  copied : ∀ t, CopiedTo S D tree₀ tree t → CopiedTo S D tree₀ tree' t

def PairsOf (pairs : List (List N × List N)) : Prop :=
  ∀ pair ∈ pairs, ∃ t, pair = (S ++ t, D ++ t)

variable {S D tree₀} {tree tree' tree'' : Tree N}

theorem Kept.follows (h : Kept S D tree₀ tree) : Follows S D tree₀ tree tree := ⟨h, fun _ ht => ht⟩

theorem Follows.trans (h : Follows S D tree₀ tree tree') (h' : Follows S D tree₀ tree' tree'') :
    Follows S D tree₀ tree tree'' :=
  ⟨h'.kept, fun t ht => h'.copied t (h.copied t ht)⟩

/-- The file is copied, queued, or below a directory that is still to be listed. -/
def Covered (S D : List N) (tree₀ : Tree N) (tree : Tree N)
    (copies directories : List (List N × List N)) (t : List N) : Prop :=
  CopiedTo S D tree₀ tree t ∨ (S ++ t, D ++ t) ∈ copies ∨
    ∃ d r, t = d ++ r ∧ r ≠ [] ∧ (S ++ d, D ++ d) ∈ directories

theorem Covered.copiedTo {t : List N} (h : Covered S D tree₀ tree [] [] t) :
    CopiedTo S D tree₀ tree t := by
  obtain hd | hqd | ⟨d, r, -, -, hm⟩ := h
  · exact hd
  · cases hqd
  · cases hm

/-- The state of the traversal of one directory. -/
structure CopyState.Sound (S D : List N) (tree₀ : Tree N) (s : CopyState N) : Prop where
  kept : Kept S D tree₀ s.tree
  copies : PairsOf S D s.copies
  directories : PairsOf S D s.directories

/-- One state comes after another: no file of the source is lost on the way. -/
structure CopyState.Onward (S D : List N) (tree₀ : Tree N) (s s' : CopyState N) : Prop where
  sound : s'.Sound S D tree₀
  covered : ∀ t contents, tree₀ (S ++ t) = some (.file contents) →
    Covered S D tree₀ s.tree s.copies s.directories t →
      Covered S D tree₀ s'.tree s'.copies s'.directories t

theorem CopyState.Sound.onward {s : CopyState N} (h : s.Sound S D tree₀) : s.Onward S D tree₀ s :=
  ⟨h, fun _ _ _ ht => ht⟩

theorem CopyState.Onward.trans {s s' s'' : CopyState N} (h : s.Onward S D tree₀ s')
    (h' : s'.Onward S D tree₀ s'') : s.Onward S D tree₀ s'' :=
  ⟨h'.sound, fun t contents ho ht =>
    h'.covered t contents ho (h.covered t contents ho ht)⟩

variable [DecidableEq N] {backend}

theorem follows_ensureDir (hb : backend.Faithful) (hk : Kept S D tree₀ tree) {path : List N}
    (h : backend.ensureDir tree path = .ok tree') : Follows S D tree₀ tree tree' := by
  have ho := hb.ensureDir_ok tree path tree' h
  have hf : ∀ path contents, tree' path = some (.file contents) →
      tree path = some (.file contents) := by
    intro path contents hp
    obtain hs | ⟨-, hd⟩ := ho path
    · rw [← hs, hp]
    · rw [hd] at hp
      cases hp
  have hso : ∀ path node, tree path = some node → tree' path = some node := by
    intro path node hp
    obtain hs | ⟨hn, -⟩ := ho path
    · rw [hs, hp]
    · rw [hp] at hn
      cases hn
  refine ⟨⟨?_, ?_, ?_, ?_⟩, ?_⟩
  · intro path target hp
    obtain hs | ⟨-, hd⟩ := ho path
    · exact hk.plain path target (hs ▸ hp)
    · rw [hd] at hp
      cases hp
  · intro path hp
    exact hso path _ (hk.dirs path hp)
  · intro path contents hp
    obtain ⟨contents', hfn⟩ := hk.files path contents hp
    exact ⟨contents', hso path _ hfn⟩
  · intro u contents hu
    exact hk.sources u contents (hf _ _ hu)
  · rintro t ⟨contents, hor, ht⟩
    exact ⟨contents, hor, hso _ _ ht⟩

/-- The copies that can come to stand at a file of the source are of equal contents. -/
def Alike (S D : List N) (tree₀ : Tree N) : Prop :=
  ∀ u contents contents', tree₀ (S ++ u) = some (.file contents) →
    Reaches S D tree₀ u contents' → contents' = contents

theorem copyOne_eq {pair : List N × List N} (h : copyOne tree pair = some tree') :
    ∃ contents, tree pair.1 = some (.file contents) ∧ tree pair.2 ≠ some .dir ∧
      tree' = update tree pair.2 (some (.file contents)) := by
  unfold copyOne at h
  split at h
  · cases h
  · rename_i contents hs hd
    exact ⟨contents, hs, hd, (some.inj h).symm⟩
  · cases h

theorem follows_copyOne (halike : Alike S D tree₀) (hk : Kept S D tree₀ tree) {t : List N}
    (h : copyOne tree (S ++ t, D ++ t) = some tree') :
    Follows S D tree₀ tree tree' ∧
      ∀ contents, tree₀ (S ++ t) = some (.file contents) → CopiedTo S D tree₀ tree' t := by
  obtain ⟨contents, hs, hds, rfl⟩ := copyOne_eq h
  have hr := hk.sources t contents hs
  have hn : ∀ contents', tree₀ (S ++ t) = some (.file contents') →
      CopiedTo S D tree₀ (update tree (D ++ t) (some (.file contents))) t := by
    intro contents' ho
    obtain rfl := halike t contents' contents ho hr
    exact ⟨contents, ho, update_self _ _ _⟩
  refine ⟨⟨⟨?_, ?_, ?_, ?_⟩, ?_⟩, hn⟩
  · intro path target
    by_cases hp : path = D ++ t
    · rw [hp, update_self]
      simp
    · rw [update_of_ne hp]
      exact hk.plain path target
  · intro path hd
    have hne : path ≠ D ++ t := by
      rintro rfl
      exact hds (hk.dirs _ hd)
    rw [update_of_ne hne]
    exact hk.dirs path hd
  · intro path contents' hf
    by_cases hp : path = D ++ t
    · exact ⟨contents, by rw [hp, update_self]⟩
    · rw [update_of_ne hp]
      exact hk.files path contents' hf
  · intro u contents' hu
    by_cases hp : S ++ u = D ++ t
    · rw [hp, update_self] at hu
      cases hu
      exact .written hp.symm hr
    · rw [update_of_ne hp] at hu
      exact hk.sources u contents' hu
  rintro v ⟨contents', ho, hv⟩
  by_cases hp : D ++ v = D ++ t
  · obtain rfl := append_cancel_left hp
    exact hn contents' ho
  · exact ⟨contents', ho, by rw [update_of_ne hp, hv]⟩

theorem follows_copies (halike : Alike S D tree₀) {pairs : List (List N × List N)}
    (hpr : PairsOf S D pairs) (hk : Kept S D tree₀ tree)
    (h : pairs.foldlM copyOne tree = some tree') :
    Follows S D tree₀ tree tree' ∧ ∀ t contents, (S ++ t, D ++ t) ∈ pairs →
      tree₀ (S ++ t) = some (.file contents) → CopiedTo S D tree₀ tree' t := by
  induction pairs generalizing tree with
  | nil =>
    obtain rfl : tree = tree' := some.inj h
    exact ⟨hk.follows, by simp⟩
  | cons pair pairs ih =>
    obtain ⟨t, rfl⟩ := hpr pair mem_cons_self
    obtain ⟨next, hon, hr⟩ := bind_eq_some_iff.mp h
    obtain ⟨hf, hc⟩ := follows_copyOne halike hk hon
    obtain ⟨hf', hc'⟩ := ih (fun pair hp => hpr pair (mem_cons_of_mem _ hp)) hf.kept hr
    refine ⟨hf.trans hf', ?_⟩
    intro v contents hv ho
    rcases mem_cons.mp hv with heq | hm
    · obtain rfl := append_cancel_left (Prod.mk.inj heq).1
      exact hf'.copied v (hc contents ho)
    · exact hc' v contents hm ho

variable (hb : backend.Faithful) (halike : Alike S D tree₀)
include hb halike

theorem flush_onward {s s' : CopyState N} (hs : s.Sound S D tree₀)
    (h : s.flush backend mapError = .ok s') :
    s.Onward S D tree₀ s' ∧ s'.copies = [] ∧ s'.directories = s.directories := by
  unfold CopyState.flush at h
  split at h
  · rename_i he
    obtain rfl := Except.ok.inj h
    exact ⟨hs.onward, List.isEmpty_iff.mp he, rfl⟩
  split at h
  · cases h
  rename_i tree hc
  obtain rfl := Except.ok.inj h
  obtain ⟨hf, hcp⟩ := follows_copies halike hs.copies hs.kept
    (hb.copyFiles_ok _ _ _ hs.kept.plain hc)
  refine ⟨⟨⟨hf.kept, by simp [PairsOf], hs.directories⟩, ?_⟩, rfl, rfl⟩
  rintro t contents ho (hd | hqd | hbe)
  · exact .inl (hf.copied t hd)
  · exact .inl (hcp t contents hqd ho)
  · exact .inr (.inr hbe)

theorem pushCopy_onward {s s' : CopyState N} (hs : s.Sound S D tree₀) {t : List N}
    (h : s.pushCopy backend mapError (S ++ t, D ++ t) = .ok s') :
    s.Onward S D tree₀ s' ∧ ∀ contents, tree₀ (S ++ t) = some (.file contents) →
      Covered S D tree₀ s'.tree s'.copies s'.directories t := by
  set queued : CopyState N := {s with copies := s.copies ++ [(S ++ t, D ++ t)]} with hqd
  have hpr : PairsOf S D queued.copies := by
    intro pair hp
    rcases mem_append.mp hp with hold | hn
    · exact hs.copies pair hold
    · exact ⟨t, mem_singleton.mp hn⟩
  have ho : s.Onward S D tree₀ queued := by
    refine ⟨⟨hs.kept, hpr, hs.directories⟩, ?_⟩
    rintro v contents - (hd | hold | hbe)
    · exact .inl hd
    · exact .inr (.inl (mem_append_left _ hold))
    · exact .inr (.inr hbe)
  have hc : Covered S D tree₀ queued.tree queued.copies queued.directories t :=
    .inr (.inl (by simp [hqd]))
  unfold CopyState.pushCopy at h
  dsimp only at h
  split at h
  · obtain ⟨hf, -, -⟩ := flush_onward mapError hb halike ho.sound h
    exact ⟨ho.trans hf, fun contents hor =>
      hf.covered t contents hor hc⟩
  · obtain rfl := Except.ok.inj h
    exact ⟨ho, fun _ _ => hc⟩

/-- An entry as its page describes it, for the files of the source at and below it. -/
structure EntryOf (S : List N) (tree₀ : Tree N) (d : List N) (entry : N × Option Node) : Prop where
  plain : ∀ target, entry.2 ≠ some (.symlink target)
  file : ∀ contents, tree₀ (S ++ (d ++ [entry.1])) = some (.file contents) →
    ∃ contents, entry.2 = some (.file contents)
  dir : ∀ r contents, r ≠ [] → tree₀ (S ++ (d ++ entry.1 :: r)) = some (.file contents) →
    entry.2 = some .dir

theorem copyEntry_onward {s s' : CopyState N} (hs : s.Sound S D tree₀) {d : List N}
    {entry : N × Option Node} (hen : EntryOf S tree₀ d entry)
    (h : copyEntry backend mapError symlinks (S ++ d) (D ++ d) s entry = .ok s') :
    s.Onward S D tree₀ s' ∧ ∀ r contents, tree₀ (S ++ (d ++ entry.1 :: r)) = some (.file contents) →
        Covered S D tree₀ s'.tree s'.copies s'.directories (d ++ entry.1 :: r) := by
  obtain ⟨name, node⟩ := entry
  have hS : S ++ d ++ [name] = S ++ (d ++ [name]) := append_assoc _ _ _
  have hD : D ++ d ++ [name] = D ++ (d ++ [name]) := append_assoc _ _ _
  unfold copyEntry at h
  dsimp only at h
  rw [hS, hD] at h
  split at h
  · cases hf : s.flush backend mapError with
    | error error =>
      rw [hf] at h
      cases h
    | ok flushed =>
      rw [hf] at h
      dsimp only [bind, Except.bind] at h
      obtain ⟨ho, hcp, hd⟩ := flush_onward mapError hb halike hs hf
      split at h
      · cases h
      rename_i tree he
      obtain rfl := Except.ok.inj h
      have hfo := follows_ensureDir hb ho.sound.kept he
      refine ⟨ho.trans ⟨⟨hfo.kept, ho.sound.copies, ?_⟩, ?_⟩, ?_⟩
      · intro pair hp
        rcases mem_append.mp hp with hold | hne
        · exact ho.sound.directories pair hold
        · exact ⟨d ++ [name], mem_singleton.mp hne⟩
      · rintro t contents - (hdo | hqd | ⟨d', r, ht, hr, hm⟩)
        · exact .inl (hfo.copied t hdo)
        · exact .inr (.inl hqd)
        · exact .inr (.inr ⟨d', r, ht, hr, mem_append_left _ hm⟩)
      intro r contents hor
      by_cases hr : r = []
      · subst hr
        obtain ⟨_, hfi⟩ := hen.file contents hor
        cases hfi
      · exact .inr (.inr ⟨d ++ [name], r, by simp, hr, by simp⟩)
  · exact absurd rfl (hen.plain _)
  rename_i hn hno
  obtain ⟨ho, hc⟩ := pushCopy_onward mapError hb halike hs h
  refine ⟨ho, ?_⟩
  intro r contents hor
  cases r with
  | nil => exact hc contents hor
  | cons m r =>
    exact absurd (hen.dir (m :: r) contents (by simp) hor) hn

theorem copyEntries_onward {d : List N} {entries : List (N × Option Node)}
    (hen : ∀ entry ∈ entries, EntryOf S tree₀ d entry) {s s' : CopyState N} (hs : s.Sound S D tree₀)
    (h : copyEntries backend mapError symlinks (S ++ d) (D ++ d) s entries = .ok s') :
    s.Onward S D tree₀ s' ∧ ∀ entry ∈ entries, ∀ r contents,
      tree₀ (S ++ (d ++ entry.1 :: r)) = some (.file contents) →
        Covered S D tree₀ s'.tree s'.copies s'.directories (d ++ entry.1 :: r) := by
  induction entries generalizing s with
  | nil =>
    obtain rfl := Except.ok.inj h
    exact ⟨hs.onward, by simp⟩
  | cons entry entries ih =>
    rw [copyEntries] at h
    split at h
    · cases h
    rename_i next hon
    obtain ⟨ho, hc⟩ := copyEntry_onward mapError symlinks hb halike hs (hen entry mem_cons_self) hon
    obtain ⟨ho', hc'⟩ := ih (fun e he => hen e (mem_cons_of_mem _ he)) ho.sound h
    refine ⟨ho.trans ho', ?_⟩
    intro e he r contents hor
    rcases mem_cons.mp he with rfl | hm
    · exact ho'.covered _ contents hor (hc r contents hor)
    · exact hc' e hm r contents hor

omit [DecidableEq N] hb halike in
theorem Tree.WellFormed.ancestor (hwf : tree₀.WellFormed) {path r : List N} (hr : r ≠ [])
    (h : tree₀ (path ++ r) ≠ none) : tree₀ path = some .dir := by
  induction r using reverseRecOn with
  | nil => exact absurd rfl hr
  | append_singleton r name ih =>
    have hp : tree₀ (path ++ r) = some .dir := by
      apply hwf _ name
      rwa [append_assoc]
    by_cases hn : r = []
    · rwa [hn, append_nil] at hp
    · exact ih hn (by simp [hp])

omit [DecidableEq N] hb halike in
theorem Kept.entryOf (hwf : tree₀.WellFormed) (hk : Kept S D tree₀ tree) (d : List N)
    (name : N) : EntryOf S tree₀ d (name, tree (S ++ d ++ [name])) := by
  have hS : S ++ d ++ [name] = S ++ (d ++ [name]) := append_assoc _ _ _
  refine ⟨fun target => hk.plain _ target, ?_, ?_⟩
  · intro contents ho
    rw [hS]
    exact hk.files _ contents ho
  intro r contents hr ho
  apply hk.dirs
  apply hwf.ancestor hr
  simp [ho]

omit [DecidableEq N] hb halike in
theorem Kept.child_ne_none (hwf : tree₀.WellFormed) (hk : Kept S D tree₀ tree) {d r : List N}
    {name : N} {contents : Bytes} (h : tree₀ (S ++ (d ++ name :: r)) = some (.file contents)) :
    tree (S ++ d ++ [name]) ≠ none := by
  have he := hk.entryOf hwf d name
  by_cases hr : r = []
  · subst hr
    obtain ⟨contents', hf⟩ := he.file contents h
    dsimp only at hf
    rw [hf]
    exact some_ne_none _
  have hd := he.dir r contents hr h
  dsimp only at hd
  rw [hd]
  exact some_ne_none _

variable (hwf : tree₀.WellFormed)
include hwf

theorem copyPage_onward {d names : List N} {s s' : CopyState N} (hs : s.Sound S D tree₀)
    (h : copyPage backend mapError symlinks (S ++ d) (D ++ d) s names = .ok s') :
    s.Onward S D tree₀ s' ∧ s'.copies = [] ∧ ∀ name ∈ names, ∀ r contents,
      tree₀ (S ++ (d ++ name :: r)) = some (.file contents) →
        Covered S D tree₀ s'.tree s'.copies s'.directories (d ++ name :: r) := by
  unfold copyPage at h
  split at h
  · cases h
  rename_i listed hl
  have he : ∀ entry ∈ names.map fun name => (name, s.tree (S ++ d ++ [name])),
      EntryOf S tree₀ d entry := by
    intro entry hen
    obtain ⟨name, -, rfl⟩ := mem_map.mp hen
    exact hs.kept.entryOf hwf d name
  obtain ⟨ho, hc⟩ := copyEntries_onward mapError symlinks hb halike he hs hl
  obtain ⟨hf, hem, -⟩ := flush_onward mapError hb halike ho.sound h
  refine ⟨ho.trans hf, hem, ?_⟩
  intro name hn r contents hor
  apply hf.covered _ contents hor
  exact hc _ (mem_map_of_mem hn) r contents hor

theorem copyPages_onward {d : List N} {start : Tree N} {fuel : Nat} {seen : List N}
    {s s' : CopyState N} (hs : s.Sound S D tree₀)
    (hse : ∀ name ∈ seen, ∀ r contents, tree₀ (S ++ (d ++ name :: r)) = some (.file contents) →
        Covered S D tree₀ s.tree s.copies s.directories (d ++ name :: r))
    (h : copyPages backend mapError symlinks (S ++ d) (D ++ d) start fuel seen s = some (.ok s')) :
    s.Onward S D tree₀ s' ∧ s'.copies = [] ∧ ∀ name r contents, start (S ++ d ++ [name]) ≠ none →
      tree₀ (S ++ (d ++ name :: r)) = some (.file contents) →
        Covered S D tree₀ s'.tree s'.copies s'.directories (d ++ name :: r) := by
  induction fuel generalizing seen s with
  | zero => cases h
  | succ fuel ih =>
    rw [copyPages] at h
    split at h
    · cases h
    rename_i names more hp
    split at h
    · cases h
    split at h
    · cases h
    rename_i next hn
    obtain ⟨ho, he, hc⟩ := copyPage_onward mapError symlinks hb halike hwf hs hn
    have ha : ∀ name ∈ seen ++ names, ∀ r contents,
        tree₀ (S ++ (d ++ name :: r)) = some (.file contents) →
          Covered S D tree₀ next.tree next.copies next.directories (d ++ name :: r) := by
      intro name hna r contents hor
      rcases mem_append.mp hna with hold | hne
      · exact ho.covered _ contents hor (hse name hold r contents hor)
      · exact hc name hne r contents hor
    cases more with
    | true =>
      obtain ⟨ho', he', hc'⟩ := ih ho.sound ha h
      exact ⟨ho.trans ho', he', hc'⟩
    | false =>
      obtain rfl : next = s' := by simpa using h
      refine ⟨ho, he, ?_⟩
      intro name r contents hst hor
      apply ha name _ r contents hor
      exact hb.page_complete _ _ _ _ _ hp name hst (hs.kept.child_ne_none hwf hor)

theorem copyPending_copied {fuel : Nat} {pending : List (List N × List N)}
    (hpe : PairsOf S D pending) (hk : Kept S D tree₀ tree)
    (ha : ∀ t contents, t ≠ [] → tree₀ (S ++ t) = some (.file contents) →
      Covered S D tree₀ tree [] pending t)
    (h : copyPending backend mapError symlinks fuel pending tree = some (.ok tree')) :
    ∀ t contents, t ≠ [] → tree₀ (S ++ t) = some (.file contents) → CopiedTo S D tree₀ tree' t := by
  induction fuel generalizing pending tree with
  | zero =>
    cases pending with
    | nil =>
      obtain rfl : tree = tree' := by simpa [copyPending] using h
      exact fun t contents ht ho => (ha t contents ht ho).copiedTo
    | cons pair pending => cases h
  | succ fuel ih =>
    cases pending with
    | nil =>
      obtain rfl : tree = tree' := by simpa [copyPending] using h
      exact fun t contents ht ho => (ha t contents ht ho).copiedTo
    | cons pair pending =>
      obtain ⟨d, rfl⟩ := hpe pair mem_cons_self
      rw [copyPending] at h
      split at h
      · cases h
      · cases h
      rename_i s hp
      have hst : (⟨tree, [], []⟩ : CopyState N).Sound S D tree₀ :=
        ⟨hk, by simp [PairsOf], by simp [PairsOf]⟩
      obtain ⟨hon, he, hc⟩ := copyPages_onward mapError symlinks hb halike hwf hst (by simp) hp
      refine ih ?_ hon.sound.kept ?_ h
      · intro pair hpa
        rcases mem_append.mp hpa with hn | hold
        · exact hon.sound.directories pair hn
        · exact hpe pair (mem_cons_of_mem _ hold)
      intro t contents ht ho
      -- What the listing covers stays so with the rest of the stack below it.
      have hl : Covered S D tree₀ s.tree s.copies s.directories t →
          Covered S D tree₀ s.tree [] (s.directories ++ pending) t := by
        rintro (hd | hqd | ⟨d', r, heq, hr, hm⟩)
        · exact .inl hd
        · rw [he] at hqd
          cases hqd
        · exact .inr (.inr ⟨d', r, heq, hr, mem_append_left _ hm⟩)
      obtain hd | hqd | ⟨d', r, rfl, hr, hm⟩ := ha t contents ht ho
      · exact hl (hon.covered t contents ho (.inl hd))
      · cases hqd
      rcases mem_cons.mp hm with heq | hold
      · obtain rfl := append_cancel_left (Prod.mk.inj heq).1
        obtain ⟨name, r, rfl⟩ := exists_cons_of_ne_nil hr
        apply hl
        apply hc name r contents _ ho
        exact hk.child_ne_none hwf ho
      · exact .inr (.inr ⟨d', r, rfl, hr, mem_append_right _ hold⟩)

end Kept

section Main

variable [DecidableEq N] {backend} {source destination : List N} {tree tree' : Tree N}

omit [DecidableEq N] in
theorem Reaches.repeated {p u : List N} {contents : Bytes} (hp : source = destination ++ p)
    (h : Reaches source destination tree u contents) :
    ∃ k, tree (source ++ ((replicate k p).flatten ++ u)) = some (.file contents) := by
  induction h with
  | origin h => exact ⟨0, h⟩
  | @written u v contents heq _ ih =>
    obtain ⟨k, hk⟩ := ih
    obtain rfl : v = p ++ u := by
      rw [hp, append_assoc] at heq
      exact append_cancel_left heq
    refine ⟨k + 1, ?_⟩
    rw [replicate_succ', flatten_append, flatten_singleton, append_assoc]
    exact hk

omit [DecidableEq N] in
theorem alike_of_repeated (hbe : ¬ source <+: destination)
    (hs : ∀ p, source = destination ++ p → ∀ k u contents contents',
      tree (source ++ u) = some (.file contents) →
      tree (source ++ ((replicate k p).flatten ++ u)) = some (.file contents') →
        contents' = contents) : Alike source destination tree := by
  intro u contents contents' ho hr
  cases hr with
  | origin h =>
    rw [ho] at h
    cases h
    rfl
  | @written _ v _ heq hv =>
    obtain ⟨p, hp, -⟩ | ⟨p, hp, -⟩ := append_eq_append_iff.mp heq
    · obtain ⟨k, hk⟩ := Reaches.repeated hp (.written heq hv)
      exact hs p hp k u contents contents' ho hk
    · exact absurd ⟨p, hp.symm⟩ hbe

/-- A tree of files and directories is copied as it was, into any destination that is
accepted, if the files whose copies can come to stand at one path of the source do
not differ. For a destination that is no ancestor of the source there are none. -/
theorem copyTreeBatchesWithPages_copied (hb : backend.Faithful) (mapError : VfError → VfError)
    (symlinks : Bool) (fuel : Nat) (hplain : tree.Plain) (hwf : tree.WellFormed)
    (hsame : ∀ p, source = destination ++ p → ∀ k u contents contents',
      tree (source ++ u) = some (.file contents) →
      tree (source ++ ((replicate k p).flatten ++ u)) = some (.file contents') →
        contents' = contents)
    (h : copyTreeBatchesWithPages backend mapError symlinks fuel source destination tree =
      some (.ok tree')) :
    ∀ s contents, s ≠ [] → tree (source ++ s) = some (.file contents) →
      tree' (destination ++ s) = some (.file contents) := by
  unfold copyTreeBatchesWithPages at h
  split at h
  · cases h
  rename_i hbelow
  have halike := alike_of_repeated hbelow hsame
  have hstart : Kept source destination tree tree :=
    ⟨hplain, fun _ h => h, fun _ contents h => ⟨contents, h⟩, fun _ _ h => .origin h⟩
  split at h
  · cases h
  rename_i made hensure
  have hkept := (follows_ensureDir hb hstart hensure).kept
  have hpending : PairsOf source destination [(source, destination)] := by
    intro pair hpair
    rw [mem_singleton.mp hpair]
    exact ⟨[], by simp⟩
  have hall : ∀ t contents, t ≠ [] → tree (source ++ t) = some (.file contents) →
      Covered source destination tree made [] [(source, destination)] t :=
    fun t _ ht _ => .inr (.inr ⟨[], t, rfl, ht, by simp⟩)
  intro s contents hs horigin
  obtain ⟨contents', horigin', hcopied⟩ := copyPending_copied mapError symlinks hb halike hwf
    hpending hkept hall h s contents hs horigin
  rw [horigin] at horigin'
  cases horigin'
  exact hcopied

end Main

/-! ### A source that its own copy overwrites -/

/-- A backend that lists each directory in one page and in a fixed order. -/
def listingBackend [DecidableEq N] (order : List N) : CopyBackend N where
  page tree dir _ _ := .ok (order.filter fun name => (tree (dir ++ [name])).isSome, false)
  copyFiles tree pairs :=
    match pairs.foldlM copyOne tree with
    | some tree => .ok tree
    | none => .error (.errno (some 0) VfError.errIo)
  ensureDir tree path :=
    match tree path with
    | none => .ok (update tree path (some .dir))
    | some .dir => .ok tree
    | some _ => .error (.errno (some 0) VfError.errIo)
  readlinkRaw _ _ := .error (.fromKind (some 0) .unsupported)
  symlinkRaw _ _ _ := .error (.fromKind (some 0) .unsupported)

theorem listingBackend_faithful [DecidableEq N] {order : List N} (hor : ∀ name, name ∈ order) :
    (listingBackend order).Faithful where
  page_complete tree dir start seen names h name _ hna := by
    obtain ⟨rfl, -⟩ := Prod.mk.inj (Except.ok.inj h)
    apply mem_append_right
    simp [hor, isSome_iff_ne_none, hna]
  copyFiles_ok tree pairs tree' _ h := by
    dsimp only [listingBackend] at h
    split at h
    · rename_i hf
      rw [hf, Except.ok.inj h]
    · cases h
  ensureDir_ok tree path tree' h other := by
    dsimp only [listingBackend] at h
    split at h
    · rename_i hn
      obtain rfl := Except.ok.inj h
      by_cases ho : other = path
      · subst ho
        exact .inr ⟨hn, update_self _ _ _⟩
      · exact .inl (update_of_ne ho _ _)
    · exact .inl (congrFun (Except.ok.inj h).symm other)
    · cases h

variable (nested outer contents : Bytes)

def Tree.leaf : Tree N
  | [] => some (.file contents)
  | _ :: _ => none

def Tree.below (children : N → Option (Tree N)) : Tree N
  | [] => some .dir
  | name :: rest => (children name).bind fun tree => tree rest

theorem Tree.leaf_wellFormed : (Tree.leaf contents : Tree N).WellFormed := by
  intro path name h
  cases path <;> exact absurd rfl h

variable {children : N → Option (Tree N)} {all : List Bytes} {tree : Tree N} {name : N}

theorem Tree.below_wellFormed (h : ∀ name tree, children name = some tree → tree.WellFormed) :
    (Tree.below children).WellFormed := by
  intro path name hp
  cases path with
  | nil => rfl
  | cons first path =>
    cases hf : children first with
    | none => simp [Tree.below, hf] at hp
    | some tree =>
      simp only [Tree.below, cons_append, hf, bind_some] at hp ⊢
      exact h first tree hf path name hp

/-- Everything in the tree is a directory or a file of these contents. -/
def Tree.FilesAre (contents : List Bytes) (tree : Tree N) : Prop :=
  ∀ path node, tree path = some node → node = .dir ∨ ∃ c ∈ contents, node = .file c

theorem Tree.leaf_filesAre {contents : Bytes} (h : contents ∈ all) :
    (Tree.leaf contents : Tree N).FilesAre all := by
  intro path node hp
  cases path with
  | nil => exact .inr ⟨contents, h, (some.inj hp).symm⟩
  | cons => cases hp

theorem Tree.below_filesAre (h : ∀ name tree, children name = some tree → tree.FilesAre all) :
    (Tree.below children).FilesAre all := by
  intro path node hp
  cases path with
  | nil => exact .inl (some.inj hp).symm
  | cons first path =>
    obtain ⟨tree, hf, hn⟩ := bind_eq_some_iff.mp hp
    exact h first tree hf path node hn

theorem Tree.FilesAre.plain (h : tree.FilesAre all) : tree.Plain := by
  intro path target hp
  obtain hd | ⟨c, -, hf⟩ := h path _ hp
  · cases hd
  · cases hf

def Tree.only [DecidableEq N] (name : N) (tree : Tree N) : Tree N :=
  .below fun other => if other = name then some tree else none

/-- The source `0` with the files `0/1/2` and `1/2`. -/
def nestedTree : Tree (Fin 3) :=
  .only 0 (.below fun name =>
    if name = 0 then some (.only 1 (.only 2 (.leaf nested)))
    else if name = 1 then some (.only 2 (.leaf outer))
    else none)

theorem Tree.only_wellFormed [DecidableEq N] (h : tree.WellFormed) :
    (Tree.only name tree).WellFormed := by
  apply Tree.below_wellFormed
  intro other found hf
  split at hf
  · rwa [← some.inj hf]
  · cases hf

theorem Tree.only_filesAre [DecidableEq N] (h : tree.FilesAre all) :
    (Tree.only name tree).FilesAre all := by
  apply Tree.below_filesAre
  intro other found hf
  split at hf
  · rwa [← some.inj hf]
  · cases hf

theorem nestedTree_wellFormed : (nestedTree nested outer).WellFormed := by
  apply Tree.only_wellFormed
  apply Tree.below_wellFormed
  intro name tree h
  split at h
  · rw [← some.inj h]
    exact Tree.only_wellFormed (Tree.only_wellFormed (Tree.leaf_wellFormed nested))
  split at h
  · rw [← some.inj h]
    exact Tree.only_wellFormed (Tree.leaf_wellFormed outer)
  · cases h

theorem nestedTree_filesAre : (nestedTree nested outer).FilesAre [nested, outer] := by
  apply Tree.only_filesAre
  apply Tree.below_filesAre
  intro name tree h
  split at h
  · rw [← some.inj h]
    exact Tree.only_filesAre (Tree.only_filesAre (Tree.leaf_filesAre (by simp)))
  split at h
  · rw [← some.inj h]
    exact Tree.only_filesAre (Tree.leaf_filesAre (by simp))
  · cases h

/-- The copy of `0` into its parent: the copy of `0/1/2` overwrites `1/2` of the
source before that is copied. -/
theorem copyTreeBatchesWithPages_overwritten :
    (listingBackend [0, 1, 2] : CopyBackend (Fin 3)).Faithful ∧
      (nestedTree [2] [1]).WellFormed ∧ (nestedTree [2] [1]).Plain ∧
      nestedTree [2] [1] ([0] ++ [1, 2]) = some (.file [1]) ∧
      ((copyTreeBatchesWithPages (listingBackend [0, 1, 2]) id false 8 [0] []
        (nestedTree [2] [1])).bind Except.toOption).bind (· ([] ++ [1, 2])) =
          some (.file [2]) :=
  ⟨listingBackend_faithful (by decide), nestedTree_wellFormed _ _,
    (nestedTree_filesAre _ _).plain, rfl, by decide⟩

/-- Where both files are equal the copy is right. -/
theorem copyTreeBatchesWithPages_copied_equal :
    ∃ tree', copyTreeBatchesWithPages (listingBackend [0, 1, 2]) id false 8 [0] []
        (nestedTree [1] [1]) = some (.ok tree') ∧ tree' ([] ++ [1, 2]) = some (.file [1]) := by
  have hsome : ((copyTreeBatchesWithPages (listingBackend [0, 1, 2]) id false 8 [0] []
      (nestedTree [1] [1])).bind Except.toOption).isSome = true := by decide
  obtain ⟨tree', hbind⟩ := isSome_iff_exists.mp hsome
  obtain ⟨result, hrun, hresult⟩ := bind_eq_some_iff.mp hbind
  obtain ⟨error⟩ | ⟨tree⟩ := result
  · cases hresult
  obtain rfl := some.inj hresult
  refine ⟨tree, hrun, ?_⟩
  apply copyTreeBatchesWithPages_copied (listingBackend_faithful (by decide)) id false 8
    (nestedTree_filesAre _ _).plain (nestedTree_wellFormed _ _) _ hrun [1, 2] [1] (by simp) rfl
  intro p _ k u contents contents' hu hrepeated
  have hsame : ∀ path c, nestedTree [1] [1] path = some (.file c) → c = [1] := by
    intro path c hpath
    obtain hdir | ⟨c', hmem, hfile⟩ := nestedTree_filesAre [1] [1] path _ hpath
    · cases hdir
    · cases hfile
      simpa using hmem
  rw [hsame _ _ hu, hsame _ _ hrepeated]

end Vnfs.Sync
