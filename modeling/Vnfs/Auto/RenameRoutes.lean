import Vnfs.Auto.RenameVector

/-!
`vrename` of the mount-aware client, in the mode that replaces. Every path is routed, to a
direct connection or to the kernel's mount, before the first rename; adjacent pairs of one
backend go out as one vector, and a pair between two backends is refused. The routes are
those of the namespace before the call, but a pair may depend on an earlier one.

A connection is taken to show the files of the mount it stands for.
-/

namespace Vnfs.Auto

open List FirstFailure Option

inductive Component where
  | parentDir
  | normal (name : Bytes)
  deriving DecidableEq

def names : List Component → Option HostPath
  | [] => some []
  | .parentDir :: _ => none
  | .normal name :: path => (names path).map (name :: ·)

/-- What to rename, and to what. -/
abbrev Pair := List Component × List Component

structure MountSpec where
  id : Nat
  mountPoint : HostPath

inductive LookupError where
  | notFound
  | other

/-- A host whose namespace is in the state `σ`. A connection is known by the identity of its
client, which mounts of one export share. -/
structure Host (σ δ : Type) where
  root : HostPath
  eligible : List MountSpec
  connection : MountSpec → Option Nat
  canonicalize : σ → HostPath → Except LookupError HostPath
  pathMountId : σ → HostPath → Option Nat
  /-- A rename by the kernel. -/
  mounted : σ → Pair → VfResult σ
  client : Nat → Connection σ δ
  agree : ∀ {spec spec' : MountSpec} {identity : Nat} {path path' : List Component}
    {host host' source target : HostPath} (s t : σ), connection spec = some identity →
    connection spec' = some identity → names path = some host → names path' = some host' →
    root ++ host = spec.mountPoint ++ source → root ++ host' = spec'.mountPoint ++ target →
    ((client identity).vrename s [(source, target)] = (t, none) ↔ mounted s (path, path') = .ok t)

inductive Resolved where
  | posix (path : List Component)
  | nfs (identity : Nat) (path : HostPath)

namespace Resolved

def sameBackend : Resolved → Resolved → Bool
  | posix _, posix _ => true
  | nfs identity _, nfs identity' _ => identity == identity'
  | _, _ => false

def components : Resolved → List Component
  | posix path => path
  | nfs _ path => path.map .normal

/-- The path on a connection; it is only taken of one that has been routed there. -/
def suffix : Resolved → HostPath
  | posix _ => []
  | nfs _ path => path

end Resolved

variable {σ δ : Type} (host : Host σ δ)

namespace Host

variable (s : σ) (hostPath : HostPath) (route : Resolved)

/-- The canonical path, and that of the parent if only the parent exists. -/
def inspect : Option (HostPath × Option HostPath) :=
  match host.canonicalize s hostPath, hostPath.getLast? with
  | .ok actual, _ => some (actual, none)
  | .error .notFound, some name =>
    match host.canonicalize s hostPath.dropLast with
    | .ok parent => some (parent ++ [name], some parent)
    | .error _ => none
  | .error _, _ => none

def connectionFor : Option (Nat × HostPath) := do
  let (canonical, parent) ← host.inspect s hostPath
  if canonical ≠ hostPath ∨ ¬host.root <+: canonical then none
  else
    let mountId ← host.pathMountId s (parent.getD canonical)
    let spec ← host.eligible.find? fun spec =>
      spec.id == mountId && decide (spec.mountPoint <+: canonical)
    let identity ← host.connection spec
    return (identity, canonical.drop spec.mountPoint.length)

def resolve (path : List Component) : Resolved :=
  match (names path).bind fun relative => host.connectionFor s (host.root ++ relative) with
  | some (identity, path) => .nfs identity path
  | none => .posix path

/-- `libc::EXDEV`. -/
def exdev : Nat := 18

/-- The vector of the backend of `route`. That of the kernel's mount is a loop. -/
def vrename (pairs : List (Resolved × Resolved)) : σ × Option VfError :=
  match route with
  | .posix _ =>
    inOrder host.mounted 0 s (pairs.map fun pair => (pair.1.components, pair.2.components))
  | .nfs identity _ =>
    (host.client identity).vrename s (pairs.map fun pair => (pair.1.suffix, pair.2.suffix))

def joins (pair : Resolved × Resolved) : Bool :=
  route.sameBackend pair.1 && route.sameBackend pair.2

def renameFrom (start : Nat) (s : σ) : List (Resolved × Resolved) → σ × Option VfError
  | [] => (s, none)
  | first :: rest =>
    if first.1.sameBackend first.2 then
      let batch := first :: rest.takeWhile (joins first.1)
      match host.vrename s first.1 batch with
      | (s, some error) => (s, some (error.mapIndex (start + ·)))
      | (s, none) => renameFrom (start + batch.length) s (rest.dropWhile (joins first.1))
    else (s, some (.errno (some start) exdev))
termination_by pairs => pairs.length
decreasing_by exact Nat.lt_succ_of_le (dropWhile_suffix _).length_le

/-- The routes of a pair. -/
def routes (pair : Pair) : Resolved × Resolved := (host.resolve s pair.1, host.resolve s pair.2)

def vrenameImpl (pairs : List Pair) : σ × Option VfError :=
  host.renameFrom 0 s (pairs.map (host.routes s))

/-- A call for one pair. -/
def alone (pair : Pair) : VfResult σ :=
  match host.vrenameImpl s [pair] with
  | (s, none) => .ok s
  | (_, some error) => .error error

variable (t : σ) (pair : Pair)

/-- A pair by its own routes. -/
def step (s : σ) : Resolved × Resolved → VfResult σ
  | (.posix source, .posix target) => host.mounted s (source, target)
  | (.nfs identity source, .nfs identity' target) =>
    if identity = identity' then (host.client identity).handled s (source, target)
    else .error (.errno none exdev)
  | _ => .error (.errno none exdev)

/-- The rename of a pair, if its routes in the namespace `s` agree. -/
def routed : VfResult σ :=
  if (host.resolve s pair.1).sameBackend (host.resolve s pair.2) then host.mounted t pair
  else .error (.errno none exdev)

variable {host}

theorem resolve_nfs {s : σ} {path : List Component} {identity : Nat} {suffix : HostPath}
    (h : host.resolve s path = .nfs identity suffix) : ∃ spec relative,
      host.connection spec = some identity ∧ names path = some relative ∧
        host.root ++ relative = spec.mountPoint ++ suffix := by
  unfold resolve at h
  split at h
  · rename_i found hf
    cases h
    obtain ⟨relative, hn, h⟩ := bind_eq_some_iff.mp hf
    obtain ⟨⟨canonical, parent⟩, -, h⟩ := bind_eq_some_iff.mp h
    dsimp only at h
    split at h
    · cases h
    · rename_i hs
      obtain ⟨mountId, -, h⟩ := bind_eq_some_iff.mp h
      obtain ⟨spec, hsp, h⟩ := bind_eq_some_iff.mp h
      obtain ⟨_, hc, h⟩ := bind_eq_some_iff.mp h
      cases h
      have hm := find?_some hsp
      simp only [Bool.and_eq_true, decide_eq_true_eq] at hm
      refine ⟨spec, relative, hc, hn, ?_⟩
      rw [← not_not.mp (not_or.mp hs).1]
      exact (prefix_iff_eq_append.mp hm.2).symm
  · cases h

/-- Which way a pair is routed makes no difference, as long as it is routed one way. -/
theorem step_routes (u : σ) :
    host.step t (host.routes s pair) = .ok u ↔ host.routed s t pair = .ok u := by
  have hposix {path path' : List Component} (h : host.resolve s path = .posix path') :
      path' = path := by
    unfold resolve at h
    split at h <;> cases h
    rfl
  unfold routed routes
  cases hsource : host.resolve s pair.1 with
  | posix source =>
    cases htarget : host.resolve s pair.2 with
    | posix target =>
      rw [hposix hsource, hposix htarget]
      rfl
    | nfs identity' target => rfl
  | nfs identity source =>
    cases htarget : host.resolve s pair.2 with
    | posix target => rfl
    | nfs identity' target =>
      by_cases hsame : identity = identity'
      · subst hsame
        obtain ⟨_, _, hspec, hnames, hroot⟩ := resolve_nfs hsource
        obtain ⟨_, _, hspec', hnames', hroot'⟩ := resolve_nfs htarget
        have hagree := host.agree t u hspec hspec' hnames hnames' hroot hroot'
        rw [Connection.vrename_single] at hagree
        simpa [step, Resolved.sameBackend] using hagree
      · simp [step, Resolved.sameBackend, hsame]

variable (host) in
/-- The vectors of connections in a list of routed pairs, each in the namespace in which it
is sent. -/
def VectorsStay (pairs : List (Resolved × Resolved)) : Prop :=
  ∀ front direct back identity t,
    pairs = front ++ direct.map (fun pair => (.nfs identity pair.1, .nfs identity pair.2)) ++ back →
      firstFailure host.step s front = (t, none) → (host.client identity).Stays t direct

/-- Pairs that join a vector are pairs of its backend. -/
theorem eq_map_of_joins {route : Resolved} {pairs : List (Resolved × Resolved)}
    (h : ∀ pair ∈ pairs, joins route pair = true) :
    match route with
    | .posix _ => pairs = (pairs.map fun pair => (pair.1.components, pair.2.components)).map
        fun pair => (.posix pair.1, .posix pair.2)
    | .nfs identity _ => pairs = (pairs.map fun pair => (pair.1.suffix, pair.2.suffix)).map
        fun pair => (.nfs identity pair.1, .nfs identity pair.2) := by
  cases route <;> dsimp only <;> rw [List.map_map] <;>
    refine ((map_congr_left (g := id) ?_).trans (map_id _)).symm
  · rintro ⟨source, target⟩ hmem
    have hjoins := h _ hmem
    cases source <;> cases target <;> simp [joins, Resolved.sameBackend] at hjoins
    rfl
  · rintro ⟨source, target⟩ hmem
    have hjoins := h _ hmem
    cases source <;> cases target <;> simp [joins, Resolved.sameBackend] at hjoins
    obtain ⟨rfl, rfl⟩ := hjoins
    rfl

theorem vrename_ends {route : Resolved} {pairs : List (Resolved × Resolved)}
    (h : ∀ pair ∈ pairs, joins route pair = true) (hstay : host.VectorsStay s pairs) :
    Ends (host.vrename s route pairs) (firstFailure host.step s pairs) := by
  have hpairs := eq_map_of_joins h
  cases route with
  | posix path =>
    have hrun : firstFailure host.mounted s
        (pairs.map fun pair => (pair.1.components, pair.2.components)) =
          firstFailure host.step s pairs := by
      conv_rhs => rw [hpairs]
      exact of_options (f := fun pair => some (.posix pair.1, .posix pair.2))
        (by rintro pair _ ⟨⟩ t t'; rfl) (by simp) s
    rw [← hrun]
    simpa [vrename] using inOrder_ends host.mounted 0 s _
  | nfs identity path =>
    have hrun : firstFailure (host.client identity).handled s
        (pairs.map fun pair => (pair.1.suffix, pair.2.suffix)) =
          firstFailure host.step s pairs := by
      conv_rhs => rw [hpairs]
      exact of_options (f := fun pair => some (.nfs identity pair.1, .nfs identity pair.2))
        (by rintro pair _ ⟨⟩ t t'; simp [step]) (by simp) s
    rw [← hrun]
    apply Connection.vrename_ends
    refine hstay [] _ [] identity s ?_ rfl
    rw [nil_append, append_nil]
    exact hpairs

theorem VectorsStay.rest {s t : σ} {front back : List (Resolved × Resolved)}
    (h : host.VectorsStay s (front ++ back)) (hfront : firstFailure host.step s front = (t, none)) :
    host.VectorsStay t back := by
  intro front' direct back' identity u hsplit hrun
  refine h (front ++ front') direct back' identity u (by simp [hsplit]) ?_
  rw [append_ok hfront, hrun]
  rfl

theorem VectorsStay.front {s : σ} {front back : List (Resolved × Resolved)}
    (h : host.VectorsStay s (front ++ back)) : host.VectorsStay s front := by
  intro front' direct back' identity u hsplit hrun
  exact h front' direct (back' ++ back) identity u (by simp [hsplit]) hrun

theorem renameFrom_ends (start : Nat) (s : σ) (pairs : List (Resolved × Resolved))
    (hstay : host.VectorsStay s pairs) :
    Ends (host.renameFrom start s pairs) ((firstFailure host.step s pairs).1,
      (firstFailure host.step s pairs).2.map (start + ·)) := by
  induction hle : pairs.length using Nat.strong_induction_on generalizing start s pairs with
  | _ length ih =>
    cases pairs with
    | nil =>
      rw [renameFrom]
      exact ⟨rfl, rfl⟩
    | cons first rest =>
      rw [renameFrom]
      split
      · rename_i hsa
        have hj : joins first.1 first = true := by
          cases hro : first.1 <;> simp_all [joins, Resolved.sameBackend]
        have hs : first :: rest =
            (first :: rest.takeWhile (joins first.1)) ++ rest.dropWhile (joins first.1) := by
          rw [cons_append, takeWhile_append_dropWhile]
        have hless := (dropWhile_suffix (l := rest) (joins first.1)).length_le
        rw [hs] at hstay ⊢
        obtain ⟨hl, hi⟩ : Ends (host.vrename s first.1 _) _ := vrename_ends s
          (forall_mem_cons.mpr ⟨hj, fun pair (hp : pair ∈ rest.takeWhile _) =>
            mem_takeWhile_imp hp⟩) hstay.front
        generalize first :: rest.takeWhile (joins first.1) = batch at hl hi hstay
        dsimp only
        rcases hd : host.vrename s first.1 batch with ⟨t, _ | error⟩ <;>
          rw [hd] at hl hi
        · have hr : firstFailure host.step s batch = (t, none) :=
            Prod.ext hl.symm (by simpa using hi.symm)
          rw [append_ok hr]
          have hre := ih (rest.dropWhile (joins first.1)).length
            (by rw [← hle, length_cons]; omega) (start + batch.length) t _ (hstay.rest hr) rfl
          simpa [Function.comp_def, Nat.add_assoc] using hre
        · obtain ⟨k, hk, he⟩ := map_eq_some_iff.mp hi.symm
          have hr : firstFailure host.step s batch = (t, some k) := Prod.ext hl.symm hk
          rw [append_failed hr]
          exact ⟨rfl, by simp [VfError.mapIndex, ← he]⟩
      · rename_i hc
        have hst : host.step s first = .error (.errno none exdev) := by
          obtain ⟨source | _, target | _⟩ := first <;> simp_all [step, Resolved.sameBackend]
        rw [cons_error hst]
        exact ⟨rfl, rfl⟩

theorem firstFailure_routes (u : σ) (pairs : List Pair) :
    firstFailure host.step u (pairs.map (host.routes s)) =
      firstFailure (host.routed s) u pairs := by
  symm
  refine of_options (f := fun pair => some (host.routes s pair)) ?_ (by simp) u
  rintro pair _ ⟨⟩ t t'
  exact (step_routes s t pair t').symm

theorem renameFrom_single (first : Resolved × Resolved) :
    host.renameFrom 0 s [first] = (t, none) ↔ host.step s first = .ok t := by
  obtain ⟨source, target⟩ := first
  rw [renameFrom]
  cases source with
  | posix source =>
    cases target with
    | posix target =>
      simp only [Resolved.sameBackend, if_true, takeWhile_nil, dropWhile_nil, vrename, map_cons,
        map_nil, Resolved.components, inOrder, step]
      cases host.mounted s (source, target) <;> simp [renameFrom]
    | nfs identity' target => simp [Resolved.sameBackend, step]
  | nfs identity source =>
    cases target with
    | posix target => simp [Resolved.sameBackend, step]
    | nfs identity' target =>
      by_cases hsame : identity = identity'
      · subst hsame
        simp only [Resolved.sameBackend, beq_self_eq_true, if_true, takeWhile_nil, dropWhile_nil,
          vrename, map_cons, map_nil, Resolved.suffix, step]
        rw [← Connection.vrename_single]
        rcases (host.client identity).vrename s [(source, target)] with ⟨t', _ | error⟩ <;>
          simp [renameFrom]
      · simp [Resolved.sameBackend, step, hsame]

theorem alone_ok_iff : host.alone s pair = .ok t ↔ host.routed s s pair = .ok t := by
  have halone : host.alone s pair = .ok t ↔ host.vrenameImpl s [pair] = (t, none) := by
    unfold alone
    rcases host.vrenameImpl s [pair] with ⟨t', _ | error⟩ <;> simp
  rw [halone, ← step_routes, ← renameFrom_single]
  rfl

/-- Between the earlier pairs of the list and this one, no route changes sides. -/
def RoutesStay (host : Host σ δ) (s : σ) (pairs : List Pair) : Prop :=
  ∀ front pair back t, pairs = front ++ pair :: back → firstFailure host.alone s front = (t, none) →
    (host.resolve s pair.1).sameBackend (host.resolve s pair.2) =
      (host.resolve t pair.1).sameBackend (host.resolve t pair.2)

/-- Where the compounds of a vector stop, the directories of the pairs left can be resolved
ahead. -/
def DirectoriesStay (host : Host σ δ) (s : σ) (pairs : List Pair) : Prop :=
  ∀ front vector back identity direct t, pairs = front ++ vector ++ back →
    vector.map (host.routes s) =
      direct.map (fun pair => (.nfs identity pair.1, .nfs identity pair.2)) →
    firstFailure host.alone s front = (t, none) → (host.client identity).Stays t direct

theorem routed_eq_alone {s : σ} {pairs : List Pair} (h : RoutesStay host s pairs) :
    firstFailure (host.routed s) s pairs = firstFailure host.alone s pairs := by
  refine FirstFailure.congr_along fun front pair back t hsplit hfront t' => ?_
  rw [alone_ok_iff, routed, routed, h front pair back t hsplit hfront]

end Host

/-- A rename in a namespace that is the list of its paths. -/
def move (files : List HostPath) (pair : HostPath × HostPath) : VfResult (List HostPath) :=
  if pair.1 ∈ files ∧ pair.1.dropLast ∈ files ∧ pair.2.dropLast ∈ files then
    .ok (files.map fun path =>
      if pair.1 <+: path then pair.2 ++ path.drop pair.1.length else path)
  else .error (.errno none 2)

/-- A connection to the export that is mounted at `/m`; the handle of a directory is its
path. -/
def oneExport : Connection (List HostPath) HostPath where
  lookups files dir := if [109] :: dir ∈ files then .ok ([109] :: dir) else .error 2
  resolvePath files dir :=
    if [109] :: dir ∈ files then .ok ([109] :: dir) else .error (.nfs none 2)
  renameAt files op := move files (op.srcdir ++ [op.oldname], op.dstdir ++ [op.newname])
  plain := by
    intro files _ dir dir' op hdir hdir' _
    constructor
    · by_cases hmem : [109] :: dir ∈ files <;> simp_all
    · by_cases hmem : [109] :: dir' ∈ files <;> simp_all

/-- Renaming below `/m` through the connection is renaming there by the full paths. -/
theorem oneExport_vrename (files t : List HostPath) (source target : HostPath) :
    oneExport.vrename files [(source, target)] = (t, none) ↔
      source ≠ [] ∧ target ≠ [] ∧ move files ([109] :: source, [109] :: target) = .ok t := by
  rw [Connection.vrename_single, Connection.handled_ok_iff]
  simp only [Connection.renameOp_ok_iff, split_eq_some, oneExport]
  constructor
  · rintro ⟨op, ⟨dir, dir', rfl, rfl, hdir, hdir'⟩, hmove⟩
    refine ⟨by simp, by simp, ?_⟩
    by_cases hmem : [109] :: dir ∈ files <;> by_cases hmem' : [109] :: dir' ∈ files <;>
      simp_all
    rwa [← hdir, ← hdir'] at hmove
  · rintro ⟨hsource, htarget, hmove⟩
    obtain ⟨dir, name, rfl⟩ := (source.eq_nil_or_concat.resolve_left hsource)
    obtain ⟨dir', name', rfl⟩ := (target.eq_nil_or_concat.resolve_left htarget)
    simp only [concat_eq_append] at hmove ⊢
    have hparent (dir : HostPath) (name : Bytes) :
        ([109] :: (dir ++ [name]) : HostPath).dropLast = [109] :: dir := by
      rw [← cons_append, dropLast_concat]
    have hfound := hmove
    unfold move at hfound
    split at hfound
    · rename_i hmem
      dsimp only at hmem
      rw [hparent, hparent] at hmem
      exact ⟨⟨[109] :: dir, name, [109] :: dir', name'⟩,
        ⟨dir, dir', rfl, rfl, if_pos hmem.2.1, if_pos hmem.2.2⟩, hmove⟩
    · cases hfound

/-- A host with a mount at `/m`. The mount point itself is busy. -/
def oneMount : Host (List HostPath) HostPath where
  root := []
  eligible := [⟨1, [[109]]⟩]
  connection spec := if spec.mountPoint = [[109]] then some 0 else none
  canonicalize files path := if path ∈ files then .ok path else .error .notFound
  pathMountId _ path := some (if [[109]] <+: path then 1 else 0)
  mounted files pair :=
    match names pair.1, names pair.2 with
    | some source, some target =>
      if source = [[109]] ∨ target = [[109]] then .error (.errno none 16)
      else move files (source, target)
    | _, _ => .error (.errno none 2)
  client _ := oneExport
  agree := by
    intro spec spec' _ _ _ _ _ source target files t hspec hspec' hnames hnames' hroot hroot'
    rw [oneExport_vrename, hnames, hnames']
    by_cases hsource : source = [] <;> by_cases htarget : target = [] <;> simp_all

def path (components : HostPath) : List Component := components.map .normal

section Flat

variable {files t : List HostPath}

/-- A pair of names in `/m`. -/
def flat (names : Bytes × Bytes) : Pair := (path [[109], names.1], path [[109], names.2])

theorem resolve_flat (h : [[109]] ∈ files) (name : Bytes) :
    oneMount.resolve files (path [[109], name]) = .nfs 0 [name] := by
  by_cases hmem : [[109], name] ∈ files <;>
    simp [Host.resolve, Host.connectionFor, Host.inspect, oneMount, path, names, h, hmem]

theorem renameOp_flat (h : [[109]] ∈ files) (names : Bytes × Bytes) :
    oneExport.renameOp files 0 ([names.1], [names.2]) =
      .ok ⟨[[109]], names.1, [[109]], names.2⟩ := by
  rw [Connection.renameOp_ok_iff]
  exact ⟨[], [], rfl, rfl, if_pos h, if_pos h⟩

theorem handled_flat (h : [[109]] ∈ files) {names : Bytes × Bytes}
    (hhandled : oneExport.handled files ([names.1], [names.2]) = .ok t) : [[109]] ∈ t := by
  obtain ⟨op, hop, hmove⟩ := Connection.handled_ok_iff.mp hhandled
  cases hop.symm.trans (renameOp_flat h names)
  unfold oneExport move at hmove
  dsimp only at hmove
  split at hmove
  · obtain rfl := Except.ok.inj hmove
    exact mem_map.mpr ⟨[[109]], h, by simp⟩
  · cases hmove

theorem routes_flat (h : [[109]] ∈ files) (pair : Bytes × Bytes) :
    oneMount.routes files (flat pair) = (.nfs 0 [pair.1], .nfs 0 [pair.2]) :=
  Prod.ext (resolve_flat h pair.1) (resolve_flat h pair.2)

/-- The pairs of a list are in `/m`, which stays where it is. -/
theorem run_flat (h : [[109]] ∈ files) {pairs : List Pair} (hpairs : ∀ pair ∈ pairs, ∃ names,
    pair = flat names) (hrun : firstFailure oneMount.alone files pairs = (t, none)) :
    [[109]] ∈ t := by
  have hkept : [[109]] ∈ (firstFailure oneMount.alone files pairs).1 := by
    refine invariant (P := fun files => [[109]] ∈ files) ?_ h
    intro pair hmem s t hs halone
    obtain ⟨names, rfl⟩ := hpairs pair hmem
    rw [Host.alone_ok_iff, ← Host.step_routes, routes_flat hs] at halone
    exact handled_flat hs halone
  rwa [hrun] at hkept

theorem routesStay_flat (h : [[109]] ∈ files) (pairs : List (Bytes × Bytes)) :
    Host.RoutesStay oneMount files (pairs.map flat) := by
  intro front pair back t hsplit hfront
  have hflat : ∀ other ∈ front ++ pair :: back, ∃ names, other = flat names := by
    rw [← hsplit]
    intro other hmem
    obtain ⟨names, -, rfl⟩ := mem_map.mp hmem
    exact ⟨names, rfl⟩
  obtain ⟨names, rfl⟩ := hflat pair (by simp)
  have hkept := run_flat h (fun other hmem => hflat other (by simp [hmem])) hfront
  have hroutes := (routes_flat h names).trans (routes_flat hkept names).symm
  obtain ⟨hsource, htarget⟩ := Prod.mk.inj hroutes
  rw [hsource, htarget]

theorem stays_flat (h : [[109]] ∈ files) {direct : List (HostPath × HostPath)}
    (hflat : ∀ pair ∈ direct, ∃ names : Bytes × Bytes, pair = ([names.1], [names.2])) :
    oneExport.Stays files direct := by
  have hrun {s t : List HostPath} {front : List (HostPath × HostPath)} (hs : [[109]] ∈ s)
      (hsub : front ⊆ direct) (hfront : firstFailure oneExport.handled s front = (t, none)) :
      [[109]] ∈ t := by
    have hkept : [[109]] ∈ (firstFailure oneExport.handled s front).1 := by
      refine invariant (P := fun files => [[109]] ∈ files) ?_ hs
      intro pair hmem s t hs hhandled
      obtain ⟨names, rfl⟩ := hflat pair (hsub hmem)
      exact handled_flat hs hhandled
    rwa [hfront] at hkept
  intro front pair back t failed hsplit hfront _
  have ht := hrun h (by simp [hsplit]) (mono (fun _ _ _ => Connection.compounded_ok) hfront)
  have hback : pair :: back ⊆ direct := by simp [hsplit]
  refine ⟨?_, ?_⟩
  · intro other hmem
    obtain ⟨names, rfl⟩ := hflat other (hback hmem)
    exact ⟨_, renameOp_flat ht names⟩
  · intro front' other back' u hsplit' hfront'
    have hsub : front' ⊆ direct := fun x hx => hback (by simp [hsplit', hx])
    obtain ⟨names, rfl⟩ := hflat other (hback (by simp [hsplit']))
    rw [renameOp_flat (hrun ht hsub hfront'), renameOp_flat ht]

theorem directoriesStay_flat (h : [[109]] ∈ files) (pairs : List (Bytes × Bytes)) :
    Host.DirectoriesStay oneMount files (pairs.map flat) := by
  intro front vector back identity direct t hsplit hvector hfront
  have hflat : ∀ other ∈ front ++ vector ++ back, ∃ names, other = flat names := by
    rw [← hsplit]
    intro other hmem
    obtain ⟨names, -, rfl⟩ := mem_map.mp hmem
    exact ⟨names, rfl⟩
  apply stays_flat (run_flat h (fun other hmem => hflat other (by simp [hmem])) hfront)
  intro pair hmem
  have hroute := mem_map_of_mem (f := fun pair : HostPath × HostPath =>
    (Resolved.nfs identity pair.1, Resolved.nfs identity pair.2)) hmem
  rw [← hvector] at hroute
  obtain ⟨routed, hrouted, heq⟩ := mem_map.mp hroute
  obtain ⟨names, rfl⟩ := hflat routed (by simp [hrouted])
  rw [routes_flat h] at heq
  obtain ⟨source, target⟩ := pair
  exact ⟨names, by simp_all⟩

end Flat

end Vnfs.Auto
