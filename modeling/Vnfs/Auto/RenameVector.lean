import Vnfs.Core
import Vnfs.Lib.FirstFailure
import Vnfs.Lib.Loop

/-!
`vrename` of one connection. The pairs are first renamed in compounds whose walks follow
no link; from the pair where those stop on, the directories of all pairs are resolved, and
then the pairs are renamed between them. A directory that an earlier pair makes, moves or
replaces is resolved too early.

The limits of a compound and lost connections are left out, and so is the context of an
error.
-/

namespace Vnfs.Auto

open List FirstFailure Option

/-- A path by its names. -/
abbrev HostPath := List Bytes

structure RenameOp (δ : Type) where
  srcdir : δ
  oldname : Bytes
  dstdir : δ
  newname : Bytes

/-- What a connection does to a namespace in the state `σ`, with handles in `δ`. -/
structure Connection (σ δ : Type) where
  /-- A walk of LOOKUPs from the root. -/
  lookups : σ → HostPath → Except Nat δ
  /-- `resolve_path`, which follows links. -/
  resolvePath : σ → HostPath → VfResult δ
  renameAt : σ → RenameOp δ → VfResult σ
  /-- A rename succeeds in directories only: a walk that ends at a link is no use. -/
  plain : ∀ {s t : σ} {dir dir' : HostPath} {op : RenameOp δ}, lookups s dir = .ok op.srcdir →
    lookups s dir' = .ok op.dstdir → renameAt s op = .ok t →
    resolvePath s dir = .ok op.srcdir ∧ resolvePath s dir' = .ok op.dstdir

/-- `split_path_bytes`, which rejects the root. -/
def split (path : HostPath) : Option (HostPath × Bytes) :=
  path.getLast?.map fun name => (path.dropLast, name)

theorem split_eq_some {path dir : HostPath} {name : Bytes} :
    split path = some (dir, name) ↔ path = dir ++ [name] := by
  unfold split
  rcases path.eq_nil_or_concat with rfl | ⟨front, last, rfl⟩
  · simp
  · simp [concat_eq_append, and_comm]

variable {σ τ δ : Type}

/-- Items in order up to the first failure, which has its index. -/
def inOrder (single : σ → τ → VfResult σ) (index : Nat) (s : σ) : List τ → σ × Option VfError
  | [] => (s, none)
  | item :: rest =>
    match single s item with
    | .error error => (s, some (error.withIndex index))
    | .ok s => inOrder single (index + 1) s rest

namespace Connection

variable (connection : Connection σ δ) (s : σ)

/-- A pair in the compounds. A failure is that of the item, but the walks of a pair whose
target is rejected belong to none: the call ends with their error. -/
def compounded (pair : HostPath × HostPath) : Except (Option VfError) σ :=
  match split pair.1, split pair.2 with
  | none, _ => .error none
  | some (dir, _), none =>
    match connection.lookups s dir with
    | .error status => .error (some (.nfs none status))
    | .ok _ => .error none
  | some (dir, name), some (dir', name') =>
    match connection.lookups s dir, connection.lookups s dir' with
    | .ok srcdir, .ok dstdir =>
      (connection.renameAt s ⟨srcdir, name, dstdir, name'⟩).mapError fun _ => none
    | _, _ => .error none

/-- The pair that failed, if the compounds do not end with an error. -/
def renamevPathCompound (s : σ) : List (HostPath × HostPath) → σ × VfResult (Option Nat)
  | [] => (s, .ok none)
  | pair :: rest =>
    match connection.compounded s pair with
    | .error none => (s, .ok (some 0))
    | .error (some error) => (s, .error error)
    | .ok s =>
      let done := renamevPathCompound s rest
      (done.1, done.2.map (Option.map (· + 1)))

def renameOp (index : Nat) (pair : HostPath × HostPath) : VfResult (RenameOp δ) :=
  match split pair.1, split pair.2 with
  | some (dir, name), some (dir', name') => do
    let srcdir ← (connection.resolvePath s dir).mapError (·.withIndex index)
    let dstdir ← (connection.resolvePath s dir').mapError (·.withIndex index)
    return ⟨srcdir, name, dstdir, name'⟩
  | _, _ => .error (.errno (some index) 2)

def renamevPhased (pairs : List (HostPath × HostPath)) : σ × Option VfError :=
  match Loop.forEach (connection.renameOp s) 0 pairs with
  | .error error => (s, some error)
  | .ok ops => inOrder connection.renameAt 0 s ops

def vrename (pairs : List (HostPath × HostPath)) : σ × Option VfError :=
  match connection.renamevPathCompound s pairs with
  | (s, .error error) => (s, some error)
  | (s, .ok none) => (s, none)
  | (s, .ok (some first)) =>
    let done := connection.renamevPhased s (pairs.drop first)
    (done.1, done.2.map (·.mapIndex (first + ·)))

end Connection

/-- The namespace that is left, and the index of the error. -/
def Ends (done : σ × Option VfError) (expected : σ × Option Nat) : Prop :=
  done.1 = expected.1 ∧ done.2.map (·.index) = expected.2.map some

theorem Ends.ok_iff {done : σ × Option VfError} {expected : σ × Option Nat}
    (h : Ends done expected) {t : σ} : done = (t, none) ↔ expected = (t, none) := by
  obtain ⟨s, error⟩ := done
  obtain ⟨s', index⟩ := expected
  obtain ⟨rfl, hindex⟩ := h
  cases error <;> cases index <;> simp_all

theorem firstFailure_single {single : σ → τ → VfResult σ} {s t : σ} {item : τ} :
    firstFailure single s [item] = (t, none) ↔ single s item = .ok t := by
  cases h : single s item <;> simp [firstFailure, h]

theorem singleton_eq_append_cons {item other : τ} {front back : List τ}
    (h : [item] = front ++ other :: back) : front = [] ∧ other = item ∧ back = [] := by
  cases front <;> simp_all

theorem inOrder_ends (single : σ → τ → VfResult σ) (index : Nat) (s : σ) (items : List τ) :
    Ends (inOrder single index s items) ((firstFailure single s items).1,
      (firstFailure single s items).2.map (index + ·)) := by
  induction items generalizing index s with
  | nil => exact ⟨rfl, rfl⟩
  | cons item rest ih =>
    unfold inOrder
    cases hs : single s item with
    | error error =>
      rw [cons_error hs]
      exact ⟨rfl, rfl⟩
    | ok t =>
      rw [cons_ok hs]
      simpa [Function.comp_def, Nat.add_assoc, Nat.add_comm 1] using ih (index + 1) t

namespace Connection

variable {connection : Connection σ δ} {s t : σ} {pair : HostPath × HostPath} {index : Nat}
  {op : RenameOp δ} {pairs : List (HostPath × HostPath)}

variable (connection) in
/-- A pair between the directories its paths resolve to. -/
def handled (s : σ) (pair : HostPath × HostPath) : VfResult σ :=
  match connection.renameOp s 0 pair with
  | .error error => .error error
  | .ok op => connection.renameAt s op

theorem renameOp_ok_iff : connection.renameOp s index pair = .ok op ↔
    ∃ dir dir', split pair.1 = some (dir, op.oldname) ∧ split pair.2 = some (dir', op.newname) ∧
      connection.resolvePath s dir = .ok op.srcdir ∧
      connection.resolvePath s dir' = .ok op.dstdir := by
  unfold renameOp
  cases hsource : split pair.1 with
  | none => simp
  | some source =>
    cases htarget : split pair.2 with
    | none => simp
    | some target =>
      obtain ⟨dir, name⟩ := source
      obtain ⟨dir', name'⟩ := target
      obtain ⟨srcdir, oldname, dstdir, newname⟩ := op
      cases hsrcdir : connection.resolvePath s dir with
      | error error => simp [hsrcdir, Except.mapError, bind, Except.bind]
      | ok srcfh =>
        cases hdstdir : connection.resolvePath s dir' with
        | error error => simp [hsrcdir, hdstdir, Except.mapError, bind, Except.bind]
        | ok dstfh =>
          simp [hsrcdir, hdstdir, Except.mapError, bind, Except.bind, pure, Except.pure]
          tauto

theorem renameOp_index (h : connection.renameOp s 0 pair = .ok op) (index : Nat) :
    connection.renameOp s index pair = .ok op :=
  renameOp_ok_iff.mpr (renameOp_ok_iff.mp h)

theorem handled_ok_iff : connection.handled s pair = .ok t ↔
    ∃ op, connection.renameOp s 0 pair = .ok op ∧ connection.renameAt s op = .ok t := by
  unfold handled
  cases connection.renameOp s 0 pair <;> simp

theorem compounded_ok (h : connection.compounded s pair = .ok t) :
    connection.handled s pair = .ok t := by
  unfold compounded at h
  split at h
  · cases h
  · split at h <;> cases h
  · rename_i dir name dir' name' hsource htarget
    split at h
    · rename_i srcdir dstdir hsrcdir hdstdir
      cases hrename : connection.renameAt s ⟨srcdir, name, dstdir, name'⟩ with
      | error error =>
        rw [hrename] at h
        cases h
      | ok t' =>
        rw [hrename] at h
        obtain rfl := Except.ok.inj h
        obtain ⟨hdir, hdir'⟩ := connection.plain hsrcdir hdstdir hrename
        exact handled_ok_iff.mpr
          ⟨_, renameOp_ok_iff.mpr ⟨dir, dir', hsource, htarget, hdir, hdir'⟩, hrename⟩
    · cases h

theorem not_lost {error : VfError} (h : connection.compounded s pair = .error (some error)) :
    connection.renameOp s index pair ≠ .ok op := by
  intro hop
  obtain ⟨dir, dir', hsource, htarget, -⟩ := renameOp_ok_iff.mp hop
  unfold compounded at h
  rw [hsource, htarget] at h
  dsimp only at h
  split at h
  · rename_i srcdir dstdir _ _
    cases hrename : connection.renameAt s ⟨srcdir, op.oldname, dstdir, op.newname⟩ <;>
      rw [hrename] at h <;> cases h
  · cases h

/-- How far the compounds get. -/
theorem renamevPathCompound_stops (connection : Connection σ δ) (s : σ)
    (pairs : List (HostPath × HostPath)) : ∃ front back t, pairs = front ++ back ∧
      firstFailure connection.compounded s front = (t, none) ∧
      (back = [] ∧ connection.renamevPathCompound s pairs = (t, .ok none) ∨
        ∃ pair rest, back = pair :: rest ∧
          (connection.compounded t pair = .error none ∧
              connection.renamevPathCompound s pairs = (t, .ok (some front.length)) ∨
            ∃ error, connection.compounded t pair = .error (some error) ∧
              connection.renamevPathCompound s pairs = (t, .error error))) := by
  induction pairs generalizing s with
  | nil => exact ⟨[], [], s, rfl, rfl, .inl ⟨rfl, rfl⟩⟩
  | cons pair rest ih =>
    unfold renamevPathCompound
    cases hpair : connection.compounded s pair with
    | error failed =>
      refine ⟨[], pair :: rest, s, rfl, rfl, .inr ⟨pair, rest, rfl, ?_⟩⟩
      cases failed with
      | none => exact .inl ⟨hpair, rfl⟩
      | some error => exact .inr ⟨error, hpair, rfl⟩
    | ok s' =>
      obtain ⟨front, back, t, hsplit, hfront, hstop⟩ := ih s'
      refine ⟨pair :: front, back, t, congrArg (pair :: ·) hsplit, ?_, ?_⟩
      · rw [cons_ok hpair, hfront]
        rfl
      dsimp only
      rcases hstop with ⟨hback, hdone⟩ | ⟨next, later, hback, ⟨hnext, hdone⟩ |
        ⟨error, hnext, hdone⟩⟩
      · exact .inl ⟨hback, by rw [hdone]; rfl⟩
      · exact .inr ⟨next, later, hback, .inl ⟨hnext, by rw [hdone]; rfl⟩⟩
      · exact .inr ⟨next, later, hback, .inr ⟨error, hnext, by rw [hdone]; rfl⟩⟩

variable (connection) in
/-- The directories of all these pairs can be resolved now, and those of a pair whose turn
comes are still the same. -/
structure Ahead (s : σ) (pairs : List (HostPath × HostPath)) : Prop where
  found : ∀ pair ∈ pairs, ∃ op, connection.renameOp s 0 pair = .ok op
  kept : ∀ front pair back t, pairs = front ++ pair :: back →
    firstFailure connection.handled s front = (t, none) →
    connection.renameOp t 0 pair = connection.renameOp s 0 pair

variable (connection) in
/-- Where the compounds stop, the rest can be resolved ahead. -/
def Stays (s : σ) (pairs : List (HostPath × HostPath)) : Prop :=
  ∀ front pair back t failed, pairs = front ++ pair :: back →
    firstFailure connection.compounded s front = (t, none) →
    connection.compounded t pair = .error failed → connection.Ahead t (pair :: back)

theorem renameOps_ok (h : ∀ pair ∈ pairs, ∃ op, connection.renameOp s 0 pair = .ok op)
    (index : Nat) : ∃ ops, Loop.forEach (connection.renameOp s) index pairs = .ok ops ∧
      pairs.map (fun pair => (connection.renameOp s 0 pair).toOption) = ops.map some := by
  induction pairs generalizing index with
  | nil => exact ⟨[], rfl, rfl⟩
  | cons pair rest ih =>
    obtain ⟨op, hop⟩ := h pair mem_cons_self
    obtain ⟨ops, hops, hmap⟩ := ih (fun pair hmem => h pair (mem_cons_of_mem _ hmem)) (index + 1)
    refine ⟨op :: ops, ?_, ?_⟩
    · simp only [Loop.forEach, renameOp_index hop, hops, bind, Except.bind]
    · rw [map_cons, hmap, hop]
      rfl

/-- The second phase renames the pairs in order if it was right to resolve them ahead. -/
theorem renamevPhased_ends (h : connection.Ahead s pairs) :
    Ends (connection.renamevPhased s pairs) (firstFailure connection.handled s pairs) := by
  obtain ⟨ops, hops, hmap⟩ := renameOps_ok h.found 0
  let early (t : σ) (pair : HostPath × HostPath) : VfResult σ :=
    match connection.renameOp s 0 pair with
    | .error error => .error error
    | .ok op => connection.renameAt t op
  have hearly : firstFailure early s pairs = firstFailure connection.handled s pairs := by
    refine FirstFailure.congr_along fun front pair back t hsplit hfront t' => ?_
    simp only [early, handled, h.kept front pair back t hsplit hfront]
  have hrun : firstFailure early s pairs = firstFailure connection.renameAt s ops := by
    refine of_options (f := fun pair => (connection.renameOp s 0 pair).toOption) ?_ hmap s
    intro pair op hop t t'
    cases hfound : connection.renameOp s 0 pair with
    | error error =>
      rw [hfound] at hop
      cases hop
    | ok op' =>
      rw [hfound] at hop
      obtain rfl := Option.some.inj hop
      simp only [early, hfound]
  unfold renamevPhased
  rw [hops, ← hearly, hrun]
  simpa using inOrder_ends connection.renameAt 0 s ops

/-- A vector is as good as its pairs one after another. -/
theorem vrename_ends (h : connection.Stays s pairs) :
    Ends (connection.vrename s pairs) (firstFailure connection.handled s pairs) := by
  obtain ⟨front, back, t, rfl, hfront, hstop⟩ := connection.renamevPathCompound_stops s pairs
  have hrun := mono (fun _ _ _ => compounded_ok) hfront
  unfold vrename
  rcases hstop with ⟨rfl, hdone⟩ | ⟨pair, rest, rfl, ⟨hpair, hdone⟩ | ⟨error, hpair, hdone⟩⟩
  · rw [hdone, append_nil, hrun]
    exact ⟨rfl, rfl⟩
  · obtain ⟨hleft, hindex⟩ := renamevPhased_ends (h front pair rest t none rfl hfront hpair)
    rw [hdone, append_ok hrun]
    refine ⟨?_, ?_⟩
    · simpa using hleft
    · have hshift := congrArg (Option.map (Option.map (front.length + ·))) hindex
      simpa [Function.comp_def, VfError.mapIndex] using hshift
  · have hahead := h front pair rest t (some error) rfl hfront hpair
    obtain ⟨op, hop⟩ := hahead.found pair mem_cons_self
    exact absurd hop (not_lost hpair)

/-- A vector of one pair. -/
theorem vrename_single : connection.vrename s [pair] = (t, none) ↔
    connection.handled s pair = .ok t := by
  cases hop : connection.renameOp s 0 pair with
  | ok op =>
    have hahead : connection.Ahead s [pair] := by
      refine ⟨fun other hmem => ⟨op, mem_singleton.mp hmem ▸ hop⟩, ?_⟩
      intro front other back t hsplit hfront
      obtain ⟨rfl, rfl, rfl⟩ := singleton_eq_append_cons hsplit
      cases hfront
      rfl
    have hstays : connection.Stays s [pair] := by
      intro front other back t failed hsplit hfront _
      obtain ⟨rfl, rfl, rfl⟩ := singleton_eq_append_cons hsplit
      cases hfront
      exact hahead
    rw [(vrename_ends hstays).ok_iff, firstFailure_single]
  | error error =>
    have hfails : connection.handled s pair = .error error := by
      unfold handled
      rw [hop]
    rw [hfails]
    unfold vrename renamevPathCompound
    cases hpair : connection.compounded s pair with
    | ok t => cases hfails.symm.trans (compounded_ok hpair)
    | error failed =>
      cases failed with
      | none => simp [renamevPhased, Loop.forEach, hop, bind, Except.bind]
      | some lost => simp

end Connection

end Vnfs.Auto
