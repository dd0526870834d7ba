import Vnfs.Lib.Reorder

/-!
The vectors of the SMB client that change names: renames, removals and new directories.
Their items go out concurrently if no operand is a path to, or below, another one, as
far as a client can tell that knows only the ASCII part of the server's case folding.
The server may refuse a request for any reason it finds at the operands, below them or
on the way to them; links, which would lead it elsewhere, are not modelled.
-/

namespace Vnfs.Smb

open Reorder List

/-- A component of a path: text, or bytes that `to_str` refuses. -/
inductive OsName where
  | text (chars : List Char)
  | raw (bytes : List UInt8)
  deriving DecidableEq

def OsName.toStr : OsName → Option (List Char)
  | text chars => some chars
  | raw _ => none

/-- A normalised absolute path, by its components behind the root. -/
abbrev Path := List OsName

def isAscii (s : List Char) : Bool := s.all fun c => c.toNat < 128

def eqIgnoreAsciiCase (s t : List Char) : Bool := s.map Char.toLower == t.map Char.toLower

def asciiPathIsPrefix : Path → Path → Bool
  | [], _ => true
  | _ :: _, [] => false
  | component :: path, otherComponent :: other =>
    match component.toStr, otherComponent.toStr with
    | some s, some t => eqIgnoreAsciiCase s t && asciiPathIsPrefix path other
    | _, _ => false

def pairwiseApart : List Path → Bool
  | [] => true
  | path :: rest =>
    !(rest.any fun other => asciiPathIsPrefix path other || asciiPathIsPrefix other path) &&
      pairwiseApart rest

def pathsAreIndependent (paths : List Path) : Bool :=
  if paths.any fun path => !path.all fun component => component.toStr.any isAscii then false
  else pairwiseApart paths

/-- The name an object is found under: letters of either case are the same. -/
def OsName.fold : OsName → OsName
  | text chars => text (chars.map Char.toLower)
  | raw bytes => raw bytes

def key (path : Path) : Path := path.map OsName.fold

def Apart (path other : Path) : Prop := ¬key path <+: key other ∧ ¬key other <+: key path

theorem asciiPathIsPrefix_of_key {path other : Path}
    (hp : ∀ component ∈ path, component.toStr.isSome) (h : key path <+: key other) :
    asciiPathIsPrefix path other = true := by
  induction path generalizing other with
  | nil => rfl
  | cons component path ih =>
    cases other with
    | nil => exact absurd (prefix_nil.mp h) (by simp [key])
    | cons otherComponent other =>
      obtain ⟨hh, ht⟩ := cons_prefix_cons.mp h
      have hr := ih (fun c hc => hp c (mem_cons_of_mem _ hc)) ht
      cases component <;> cases otherComponent <;>
        simp_all [OsName.fold, OsName.toStr, asciiPathIsPrefix, eqIgnoreAsciiCase]

theorem apart_of_pairwiseApart {paths : List Path}
    (hps : ∀ path ∈ paths, ∀ component ∈ path, component.toStr.isSome)
    (h : pairwiseApart paths = true) : paths.Pairwise Apart := by
  induction paths with
  | nil => exact List.Pairwise.nil
  | cons path rest ih =>
    simp only [pairwiseApart, Bool.and_eq_true, Bool.not_eq_true', any_eq_false,
      Bool.or_eq_true, not_or] at h
    refine pairwise_cons.mpr ⟨fun other ho => ?_, ih (fun p hp => hps p (mem_cons_of_mem _ hp)) h.2⟩
    have hpa := hps path mem_cons_self
    have hot := hps other (mem_cons_of_mem _ ho)
    exact ⟨fun hk => (h.1 other ho).1 (asciiPathIsPrefix_of_key hpa hk),
      fun hk => (h.1 other ho).2 (asciiPathIsPrefix_of_key hot hk)⟩

theorem apart_of_independent {paths : List Path} (h : pathsAreIndependent paths = true) :
    paths.Pairwise Apart := by
  unfold pathsAreIndependent at h
  split at h
  · exact absurd h Bool.false_ne_true
  · rename_i ha
    simp only [any_eq_true, Bool.not_eq_true', not_exists, not_and, Bool.not_eq_false,
      all_eq_true] at ha
    refine apart_of_pairwiseApart (fun path hp component hm => ?_) h
    have han := ha path hp component hm
    cases hs : component.toStr with
    | none => simp [hs] at han
    | some chars => rfl

inductive Node where
  | directory
  | file (contents : List UInt8)

/-- An object, under its name as it was spelled. -/
structure Entry where
  name : OsName
  node : Node

/-- A tree without links, by the folded paths of its objects. -/
abbrev Tree := Path → Option Entry

inductive Request where
  | rename (source destination : Path)
  | remove (path : Path)
  | mkdir (path : Path)

namespace Request

def paths : Request → List Path
  | rename source destination => [source, destination]
  | remove path => [path]
  | mkdir path => [path]

/-- The objects a request may change: its operands, and what is below them. -/
def Touches (request : Request) (k : Path) : Prop := ∃ path ∈ request.paths, key path <+: k

/-- The objects its outcome depends on: also the directories on the way. -/
def Sees (request : Request) (k : Path) : Prop :=
  ∃ path ∈ request.paths, key path <+: k ∨ k <+: key path

instance (request : Request) (k : Path) : Decidable (request.Touches k) :=
  inferInstanceAs (Decidable (∃ path ∈ request.paths, key path <+: k))

instance (request : Request) (k : Path) : Decidable (request.Sees k) :=
  inferInstanceAs (Decidable (∃ path ∈ request.paths, key path <+: k ∨ k <+: key path))

def seen (request : Request) (tree : Tree) : Tree := fun k =>
  if request.Sees k then tree k else none

def lastName (path : Path) : OsName := path.getLast?.getD (.text [])

/-- What a granted request leaves at a place it touches. -/
def after : Request → Tree → Path → Option Entry
  | rename source destination, tree, k =>
    if k = key destination then
      (tree (key source)).map fun entry => { entry with name := lastName destination }
    else if key destination <+: k then tree (key source ++ k.drop destination.length)
    else none
  | remove path, tree, k => if k = key path then none else tree k
  | mkdir path, tree, k => if k = key path then some ⟨lastName path, .directory⟩ else tree k

def apply (request : Request) (tree : Tree) : Tree := fun k =>
  if request.Touches k then request.after tree k else tree k

variable {request other : Request} {tree tree' : Tree} {k : Path}

theorem sees_of_touches (h : request.Touches k) : request.Sees k := by
  obtain ⟨path, hm, hk⟩ := h
  exact ⟨path, hm, Or.inl hk⟩

theorem seen_congr (h : ∀ k, request.Sees k → tree k = tree' k) :
    request.seen tree = request.seen tree' := by
  funext k
  unfold seen
  split
  · rename_i hk
    exact h k hk
  · rfl

/-- Where it touches the tree, a request takes what it leaves from there. -/
theorem after_congr (h : ∀ k, request.Touches k → tree k = tree' k) (hk : request.Touches k) :
    request.after tree k = request.after tree' k := by
  cases request with
  | rename source destination =>
    have hs : ∀ rest, tree (key source ++ rest) = tree' (key source ++ rest) := fun rest =>
      h _ ⟨source, by simp [paths], prefix_append _ _⟩
    have hr := hs []
    rw [append_nil] at hr
    simp only [after, hs, hr]
  | remove path => simp only [after, h k hk]
  | mkdir path => simp only [after, h k hk]

/-- What one of two requests with operands apart changes, the other does not see. -/
theorem not_sees_of_touches (h : ∀ path ∈ request.paths, ∀ path' ∈ other.paths, Apart path path')
    (hk : request.Touches k) : ¬other.Sees k := by
  rintro ⟨path', hpa', hs⟩
  obtain ⟨path, hpa, hu⟩ := hk
  obtain ⟨hl, hrt⟩ := h path hpa path' hpa'
  rcases hs with hb | ha
  · rcases prefix_or_prefix_of_prefix hu hb with hp | hp
    · exact hl hp
    · exact hrt hp
  · exact hl (hu.trans ha)

end Request

section Ordinary

inductive NtStatus where
  | objectPathNotFound
  | objectNameNotFound
  | objectNameCollision
  | directoryNotEmpty

variable (tree : Tree) (path : Path)

/-- Every component before the last one is a directory. -/
def Reaches : Prop := ∀ k, k <+: key path → k ≠ key path → ∃ name, tree k = some ⟨name, .directory⟩

def Bare : Prop := ∀ k, key path <+: k → k ≠ key path → tree k = none

open Classical in
/-- The checks of an ordinary server, before it does a request. -/
noncomputable def ordinary : Request → Tree → Option NtStatus
  | .rename source destination, tree =>
    if ¬Reaches tree source ∨ ¬Reaches tree destination then some .objectPathNotFound
    else if (tree (key source)).isNone then some .objectNameNotFound
    else if (tree (key destination)).isSome then some .objectNameCollision
    else none
  | .remove path, tree =>
    if ¬Reaches tree path then some .objectPathNotFound
    else if (tree (key path)).isNone then some .objectNameNotFound
    else if ¬Bare tree path then some .directoryNotEmpty
    else none
  | .mkdir path, tree =>
    if ¬Reaches tree path then some .objectPathNotFound
    else if (tree (key path)).isSome then some .objectNameCollision
    else none

variable {tree path} {request : Request}

theorem reaches_seen (h : path ∈ request.paths) :
    Reaches (request.seen tree) path = Reaches tree path := by
  refine propext (forall₂_congr fun k hk => ?_)
  rw [show request.seen tree k = tree k from if_pos ⟨path, h, Or.inr hk⟩]

theorem bare_seen (h : path ∈ request.paths) : Bare (request.seen tree) path = Bare tree path := by
  refine propext (forall₂_congr fun k hk => ?_)
  rw [show request.seen tree k = tree k from if_pos ⟨path, h, Or.inl hk⟩]

theorem seen_key (h : path ∈ request.paths) : request.seen tree (key path) = tree (key path) :=
  if_pos ⟨path, h, Or.inl (prefix_refl _)⟩

theorem ordinary_seen (request : Request) (tree : Tree) :
    ordinary request (request.seen tree) = ordinary request tree := by
  cases request with
  | rename source destination =>
    have hs : source ∈ (Request.rename source destination).paths := by simp [Request.paths]
    have hd : destination ∈ (Request.rename source destination).paths := by simp [Request.paths]
    rw [ordinary, ordinary, reaches_seen hs, reaches_seen hd, seen_key hs, seen_key hd]
  | remove path =>
    have hp : path ∈ (Request.remove path).paths := mem_singleton_self path
    rw [ordinary, ordinary, reaches_seen hp, seen_key hp, bare_seen hp]
  | mkdir path =>
    have hp : path ∈ (Request.mkdir path).paths := mem_singleton_self path
    rw [ordinary, ordinary, reaches_seen hp, seen_key hp]

end Ordinary

variable {ε : Type} (answer : Request → Tree → Option ε)

/-- The server refuses a request or does it, by what it sees of the tree. -/
def serve (request : Request) (tree : Tree) : Except ε Unit × Tree :=
  match answer request (request.seen tree) with
  | some error => (.error error, tree)
  | none => (.ok (), request.apply tree)

def step (st : Tree × (Nat → Option (Except ε Unit))) (job : Request × Nat) :
    Tree × (Nat → Option (Except ε Unit)) :=
  let (outcome, tree) := serve answer job.1 st.1
  (tree, Function.update st.2 job.2 (some outcome))

/-- `join_all` of the jobs, which the server executes in the order given. -/
def joinAll (tree : Tree) (jobs : List (Request × Nat)) :
    Tree × (Nat → Option (Except ε Unit)) :=
  perform (step answer) (tree, fun _ => none) jobs

def firstError (results : Nat → Option (Except ε Unit)) :
    List (Request × Nat) → Except (ε × Nat) Unit
  | [] => .ok ()
  | (_, index) :: jobs =>
    match results index with
    | some (.error error) => .error (error, index)
    | _ => firstError results jobs

def ordered (tree : Tree) : List (Request × Nat) → Except (ε × Nat) Unit × Tree
  | [] => (.ok (), tree)
  | (request, index) :: jobs =>
    match serve answer request tree with
    | (.error error, tree) => (.error (error, index), tree)
    | (.ok (), tree) => ordered tree jobs

inductive Batch where
  | vrename (pairs : List (Path × Path))
  | vremove (files : List Path)
  | vmkdir (dirs : List Path)

def Batch.requests : Batch → List Request
  | vrename pairs => pairs.map fun pair => .rename pair.1 pair.2
  | vremove files => files.map .remove
  | vmkdir dirs => dirs.map .mkdir

def Batch.paths (batch : Batch) : List Path := batch.requests.flatMap Request.paths

def Batch.jobs (batch : Batch) : List (Request × Nat) := batch.requests.zipIdx

/-- The common part of `vrename_impl`, `vremove_impl` and `vmkdir_impl`. -/
def dispatch (isDfs : Bool) (schedule : List (Request × Nat)) (tree : Tree) (batch : Batch) :
    Except (ε × Nat) Unit × Tree :=
  if batch.requests.length > 1 && !isDfs && pathsAreIndependent batch.paths then
    let (tree, results) := joinAll answer tree schedule
    (firstError results batch.jobs, tree)
  else ordered answer tree batch.jobs

theorem serve_footprint (request : Request) :
    Footprint (serve answer request) request.Sees request.Touches where
  frame tree k hk := by
    unfold serve
    split
    · rfl
    · exact if_neg hk
  outcome tree tree' h := by
    unfold serve
    rw [Request.seen_congr h]
    split <;> rfl
  effect tree tree' h k hk := by
    unfold serve
    rw [Request.seen_congr h]
    split
    · exact h k (Request.sees_of_touches hk)
    · simp only [Request.apply, if_pos hk]
      exact Request.after_congr (fun k hk => h k (Request.sees_of_touches hk)) hk

theorem step_commutes {job job' : Request × Nat} (hne : job.2 ≠ job'.2)
    (h : ∀ path ∈ job.1.paths, ∀ path' ∈ job'.1.paths, Apart path path') :
    Commutes (step answer) job job' := by
  intro st
  have ha := serve_footprint answer job.1
  have hb := serve_footprint answer job'.1
  have hab : ∀ k, job.1.Touches k → ¬job'.1.Sees k := fun k => Request.not_sees_of_touches h
  have hba : ∀ k, job'.1.Touches k → ¬job.1.Sees k := fun k =>
    Request.not_sees_of_touches fun path hp path' hp' => (h path' hp' path hp).symm
  have ht := ha.comm hb hab hba (fun k => Request.sees_of_touches) st.1
  simp only [step, ht, ha.outcome_after hb hab, hb.outcome_after ha hba, Function.update_comm hne]

theorem jobs_apart {batch : Batch} (h : pathsAreIndependent batch.paths = true)
    {job job' : Request × Nat} (hj : job ∈ batch.jobs) (hj' : job' ∈ batch.jobs)
    (hne : job ≠ job') :
    job.2 ≠ job'.2 ∧ ∀ path ∈ job.1.paths, ∀ path' ∈ job'.1.paths, Apart path path' := by
  have hg := pairwise_iff_getElem.mp (pairwise_flatMap.mp (apart_of_independent h)).2
  obtain ⟨hi, hr⟩ := mem_zipIdx' hj
  obtain ⟨hi', hr'⟩ := mem_zipIdx' hj'
  have hid : job.2 ≠ job'.2 := fun heq => hne (Prod.ext (by rw [hr, hr']; simp only [heq]) heq)
  refine ⟨hid, ?_⟩
  rw [hr, hr']
  rcases Nat.lt_or_gt_of_ne hid with hlt | hlt
  · exact hg _ _ hi hi' hlt
  · intro path hp path' hp'
    exact (hg _ _ hi' hi hlt path' hp' path hp).symm

/-- A batch the test accepts may be executed in any order: the tree and the outcome of every
request are those of the input order, and so is what the caller is told. -/
theorem dispatch_any_order (tree : Tree) (batch : Batch) (schedule : List (Request × Nat))
    (hind : pathsAreIndependent batch.paths = true) (hschedule : schedule.Perm batch.jobs) :
    joinAll answer tree schedule = joinAll answer tree batch.jobs ∧
      ∀ isDfs, dispatch answer isDfs schedule tree batch =
        dispatch answer isDfs batch.jobs tree batch := by
  have hjoin : joinAll answer tree schedule = joinAll answer tree batch.jobs := by
    refine perform_perm _ hschedule (fun job hjob job' hjob' hne => ?_) _
    obtain ⟨hindex, hpaths⟩ :=
      jobs_apart hind (hschedule.mem_iff.mp hjob) (hschedule.mem_iff.mp hjob') hne
    exact step_commutes answer hindex hpaths
  refine ⟨hjoin, fun isDfs => ?_⟩
  rw [dispatch, dispatch, hjoin]

/-- A directory with two files. -/
def twoFiles : Tree := fun k =>
  if k = [] ∨ k = [.text ['a']] then some ⟨Request.lastName k, .directory⟩
  else if k = [.text ['a'], .text ['b']] ∨ k = [.text ['a'], .text ['c']] then
    some ⟨Request.lastName k, .file []⟩
  else none

/-- A file of a directory at the root is removed. -/
theorem serve_remove (tree : Tree) (path : Path) {dir name : OsName}
    (hkey : key path = [dir, name]) (hroot : ∃ name, tree [] = some ⟨name, .directory⟩)
    (hdir : ∃ name, tree [dir] = some ⟨name, .directory⟩) (hfound : tree [dir, name] ≠ none)
    (hbelow : ∀ k, 2 < k.length → tree k = none) :
    serve ordinary (.remove path) tree = (.ok (), Request.apply (.remove path) tree) := by
  have hreaches : Reaches tree path := by
    intro k hfront hne
    rw [hkey] at hfront hne
    have hmem := (mem_inits k _).mpr hfront
    simp only [inits, map_cons, map_nil, mem_cons, not_mem_nil, or_false] at hmem
    rcases hmem with rfl | rfl | rfl
    · exact hroot
    · exact hdir
    · exact absurd rfl hne
  have hbare : Bare tree path := by
    intro k hfront hne
    rw [hkey] at hfront hne
    apply hbelow
    have hle := hfront.length_le
    rcases Nat.lt_or_eq_of_le hle with hlt | heq
    · exact hlt
    · exact absurd (hfront.eq_of_length heq).symm hne
  have hgranted : ordinary (.remove path) tree = none := by
    rw [ordinary, if_neg (not_not_intro hreaches),
      if_neg (by rwa [hkey, Option.isNone_iff_eq_none]), if_neg (not_not_intro hbare)]
  rw [serve, ordinary_seen, hgranted]

/-- The two removals of a directory's files, spelled differently, both go through in
either order. -/
theorem dispatch_any_order_swapped :
    let batch : Batch := .vremove [[.text ['a'], .text ['b']], [.text ['A'], .text ['c']]]
    pathsAreIndependent batch.paths = true ∧
      joinAll ordinary twoFiles batch.jobs.reverse = joinAll ordinary twoFiles batch.jobs ∧
      ∀ index < 2, (joinAll ordinary twoFiles batch.jobs).2 index = some (.ok ()) := by
  intro batch
  refine ⟨by decide, (dispatch_any_order ordinary _ _ _ (by decide) (reverse_perm _)).1, ?_⟩
  have hbelow : ∀ k, 2 < k.length → twoFiles k = none := by
    intro k hlong
    unfold twoFiles
    rw [if_neg (by rintro (rfl | rfl) <;> simp at hlong),
      if_neg (by rintro (rfl | rfl) <;> simp at hlong)]
  have hfirst := serve_remove twoFiles [.text ['a'], .text ['b']] rfl ⟨_, rfl⟩ ⟨_, rfl⟩
    (by decide +kernel) hbelow
  have hbelow' : ∀ k, 2 < k.length →
      Request.apply (.remove [.text ['a'], .text ['b']]) twoFiles k = none := by
    intro k hlong
    simp only [Request.apply, Request.after, hbelow k hlong, ite_self]
  have hsecond := serve_remove _ [.text ['A'], .text ['c']] rfl ⟨_, rfl⟩ ⟨_, rfl⟩
    (by decide +kernel) hbelow'
  intro index hindex
  have hjoin : (joinAll ordinary twoFiles batch.jobs).2 =
      Function.update (Function.update (fun _ => none) 0 (some (.ok ()))) 1 (some (.ok ())) := by
    simp only [batch, joinAll, Batch.jobs, Batch.requests, map_cons, map_nil, zipIdx_cons,
      zipIdx_nil, perform_cons, perform_nil, step, hfirst, hsecond]
  rw [hjoin]
  interval_cases index <;> rfl

end Vnfs.Smb
