import Vnfs.Nfs.PathBytes

/-!
Which paths the resolver asks the server for. Whatever a path and the contents of
symbolic links say, a path that reaches the server starts with the components of
the configured root: an application path is normalized before it is put behind
the root, and the target of a link is normalized and put behind the root again.
The links that are followed are counted.
-/

namespace Vnfs.Nfs

open List

section Components

theorem pathComponents_joinPath {base path : Bytes} (h : path.head? ≠ some slash) :
    pathComponents (joinPath base path) = pathComponents base ++ pathComponents path := by
  unfold joinPath
  rw [if_neg h]
  split
  · rename_i he
    rcases eq_nil_or_concat base with rfl | ⟨front, last, rfl⟩
    · rfl
    rw [concat_eq_append] at he ⊢
    obtain rfl : last = slash := by simpa using he
    rw [append_assoc, singleton_append, pathComponents_append_slash, pathComponents_concat_slash]
  · rw [pathComponents_append_slash]

end Components

/-- The components of the configured root come first. -/
def Mount.Below (mount : Mount) (path : Bytes) : Prop :=
  pathComponents mount.root <+: pathComponents path

/-- A path below the root that no dots lead out of again. -/
structure Mount.Confined (mount : Mount) (path : Bytes) : Prop where
  below : mount.Below path
  plain : PlainPath path

/-- A mount as the client configures it. -/
structure Configured (mount : Mount) : Prop where
  normalized : ∃ root, mount.root = normalizeBytes root

section Targets

variable {mount : Mount}

theorem Configured.plainPath (h : Configured mount) : PlainPath mount.root := by
  obtain ⟨root, hroot⟩ := h.normalized
  rw [hroot]
  exact plainPath_normalizeBytes root

theorem Configured.confined_joinPath (h : Configured mount) (path : Bytes) :
    mount.Confined (joinPath mount.root (normalizeBytes path)) := by
  refine ⟨?_, h.plainPath.joinPath (plainPath_normalizeBytes path)⟩
  unfold Mount.Below
  rw [pathComponents_joinPath (normalizeBytes_ends path).1]
  exact prefix_append _ _

theorem Configured.confined_serverPath (h : Configured mount) (path : Bytes) :
    mount.Confined (mount.serverPath path) :=
  h.confined_joinPath _

theorem Configured.confined_resolveTarget (h : Configured mount) (link target : Bytes) :
    mount.Confined (mount.resolveTarget link target) := by
  unfold Mount.resolveTarget
  dsimp only
  split
  · exact h.confined_joinPath _
  · exact h.confined_joinPath _

/-- The rest of a path behind a link is put behind the link's target. -/
theorem Mount.Confined.joinPathBytes {base : Bytes} {rest : List Bytes}
    (h : mount.Confined base) (hnames : ∀ name ∈ rest, name ≠ [] ∧ slash ∉ name)
    (hplain : ∀ name ∈ rest, name ≠ [46] ∧ name ≠ [46, 46]) :
    mount.Confined (joinPathBytes base (joinComponents rest)) := by
  have hjoin := pathComponents_joinPathBytes base (joinComponents rest)
  rw [pathComponents_joinComponents hnames] at hjoin
  constructor
  · unfold Mount.Below
    rw [hjoin]
    exact h.below.trans (prefix_append _ _)
  · intro name hname
    rw [hjoin] at hname
    rcases mem_append.mp hname with hbase | hrest
    · exact h.plain name hbase
    · exact hplain name hrest

theorem Mount.Confined.normalizeBytes {path : Bytes} (h : mount.Confined path) :
    mount.Confined (normalizeBytes path) := by
  refine ⟨?_, plainPath_normalizeBytes path⟩
  unfold Mount.Below
  rw [h.plain.normalizeBytes]
  exact h.below

end Targets

inductive Hop where
  | done (result : VfResult (NfsFh × Nat))
  | next (path : Bytes)

section Resolver

variable {σ : Type} (server : NameServer σ) (mount : Mount)

/-- One round of `resolve_path_and_type`: the path is asked for, and its first or
final link followed. -/
def hop (s : σ) (followFinal : Bool) (path : Bytes) : Hop :=
  match server.resolve s path with
  | .ok fh =>
    if !followFinal then .done (.ok (fh, 0))
    else match server.getattrType s fh with
      | .error error => .done (.error (errorFromRpc error (some 0)))
      | .ok ftype =>
        if ftype ≠ symlinkType then .done (.ok (fh, ftype))
        else match server.readlinkOf s fh with
          | .error error => .done (.error (errorFromRpc error (some 0)))
          | .ok target => .next (mount.resolveTarget path target)
  | .error error =>
    if error.status = .symlink then
      match walkComponents server mount s followFinal server.root [] (pathComponents path) with
      | .error error => .done (.error error)
      | .ok (.arrived fh ftype) => .done (.ok (fh, ftype))
      | .ok (.followed path) => .next path
      | .ok .stuck => .done (.error (errorFromRpc error (some 0)))
    else .done (.error (errorFromRpc error (some 0)))

theorem resolveHops_succ (s : σ) (followFinal : Bool) (ho : Nat) (path : Bytes) :
    resolveHops server mount s followFinal (ho + 1) path =
      match hop server mount s followFinal path with
      | .done result => result
      | .next path => resolveHops server mount s followFinal ho path := by
  rw [resolveHops, hop]
  repeat' split
  all_goals simp_all

/-- The paths the server is asked for, in the order of the rounds. -/
def resolveAsked (s : σ) (followFinal : Bool) : Nat → Bytes → List Bytes
  | 0, _ => []
  | hops + 1, path =>
    path :: match hop server mount s followFinal path with
      | .done _ => []
      | .next path => resolveAsked s followFinal hops path

end Resolver

/-- `raw_code() == ERR_NOENT`. -/
def isNoent (error : VfError) : Bool :=
  match error.detail with
  | .status (.errno code) | .status (.nfs code) | .status (.smb code) => code = errNoent
  | .client (.other name) => name = "NotFound"
  | _ => false

/-- `lstat_impl` and `readlink_raw_impl`, by the server paths they ask for. -/
structure LinkProbe where
  lstat : Bytes → VfResult Nat
  readlink : Bytes → VfResult Bytes

/-- The part of a server path that applications see. -/
def Mount.visible (mount : Mount) (path : Bytes) : Bytes :=
  match Mount.stripFront mount.root path with
  | some path => (Mount.stripFront [slash] path).getD path
  | none => path

/-- The loop of `follow_target_path`, with the paths it asks for. -/
def followHops (probe : LinkProbe) (mount : Mount) : Nat → Bytes → List Bytes × VfResult Bytes
  | left, current =>
    let path := mount.serverPath (slash :: mount.visible current)
    match probe.lstat path with
    | .error error => ([path], if isNoent error then .ok current else .error error)
    | .ok ftype =>
      if ftype ≠ symlinkType then ([path], .ok current)
      else match left with
        | 0 => ([path], .error (.errno (some 0) VfError.errIo))
        | left + 1 =>
          match probe.readlink path with
          | .error error => ([path, path], .error error)
          | .ok target =>
            let (asked, result) :=
              followHops probe mount left (mount.resolveTarget current target)
            (path :: path :: asked, result)

def followTargetPath (probe : LinkProbe) (mount : Mount) (path : Bytes) :
    List Bytes × VfResult Bytes :=
  followHops probe mount 40 (normalizeBytes path)

section Confined

variable {σ : Type} {server : NameServer σ} {mount : Mount} {probe : LinkProbe} {s : σ}
  {followFinal : Bool}

theorem walkComponents_confined (hmount : Configured mount) {dir : NfsFh} {consumed path : Bytes}
    {components : List Bytes} (hnames : ∀ name ∈ components, name ≠ [] ∧ slash ∉ name)
    (hplain : ∀ name ∈ components, name ≠ [46] ∧ name ≠ [46, 46])
    (h : walkComponents server mount s followFinal dir consumed components = .ok (.followed path)) :
    mount.Confined path := by
  induction components generalizing dir consumed with
  | nil => cases h
  | cons component rest ih =>
    have hnames' := fun name hname => hnames name (mem_cons_of_mem component hname)
    have hplain' := fun name hname => hplain name (mem_cons_of_mem component hname)
    rw [walkComponents] at h
    split at h
    · cases h
    split at h
    · split at h
      · cases h
      rename_i target _
      obtain ⟨rfl⟩ := Except.ok.inj h
      have htarget := hmount.confined_resolveTarget (joinPathBytes consumed component) target
      split
      · exact htarget
      · exact htarget.joinPathBytes hnames' hplain'
    · split at h
      · cases h
      · exact ih hnames' hplain' h

theorem hop_confined (hmount : Configured mount) {path next : Bytes} (hpath : mount.Confined path)
    (h : hop server mount s followFinal path = .next next) : mount.Confined next := by
  unfold hop at h
  split at h
  · split at h
    · cases h
    split at h
    · cases h
    split at h
    · cases h
    split at h
    · cases h
    · obtain rfl := Hop.next.inj h
      exact hmount.confined_resolveTarget _ _
  split at h
  · split at h
    · cases h
    · cases h
    · rename_i hwalk
      obtain rfl := Hop.next.inj h
      exact walkComponents_confined hmount (fun _ => mem_pathComponents) hpath.plain hwalk
    · cases h
  · cases h

theorem resolveAsked_confined (hmount : Configured mount) {ho : Nat} {path : Bytes}
    (hpath : mount.Confined path) :
    ∀ asked ∈ resolveAsked server mount s followFinal ho path, mount.Confined asked := by
  induction ho generalizing path with
  | zero => exact fun asked hasked => nomatch hasked
  | succ ho ih =>
    intro asked hasked
    rcases mem_cons.mp hasked with rfl | hlater
    · exact hpath
    split at hlater
    · cases hlater
    · rename_i next hnext
      exact ih (hop_confined hmount hpath hnext) asked hlater

theorem resolveAsked_length (ho : Nat) (path : Bytes) :
    (resolveAsked server mount s followFinal ho path).length ≤ ho := by
  induction ho generalizing path with
  | zero => exact Nat.le_refl 0
  | succ ho ih =>
    rw [resolveAsked, length_cons]
    split
    · exact Nat.succ_le_succ (Nat.zero_le ho)
    · exact Nat.succ_le_succ (ih _)

/-- A run of `follow_target_path` that stays below the root. -/
structure Mount.Confines (mount : Mount) (run : List Bytes × VfResult Bytes) (bound : Nat) :
    Prop where
  asked : ∀ path ∈ run.1, mount.Confined path
  length : run.1.length ≤ bound
  result : ∀ path, run.2 = .ok path → mount.Confined path

theorem Mount.Confines.single {path : Bytes} {result : VfResult Bytes} {bound : Nat}
    (hp : mount.Confined path) (hr : ∀ path, result = .ok path → mount.Confined path) :
    mount.Confines ([path], result) (bound + 1) := by
  refine ⟨?_, Nat.succ_le_succ (Nat.zero_le bound), hr⟩
  intro asked ha
  rw [mem_singleton.mp ha]
  exact hp

open Mount.Confines

theorem followHops_confined (hmount : Configured mount) {left : Nat} {current : Bytes}
    (hc : mount.Confined current) :
    mount.Confines (followHops probe mount left current) (2 * left + 1) := by
  induction left using Nat.strongRecOn generalizing current with
  | ind left ih =>
    have hp := hmount.confined_serverPath (slash :: mount.visible current)
    unfold followHops
    dsimp only
    split
    · apply single hp
      intro path hok
      split at hok
      · obtain rfl := Except.ok.inj hok
        exact hc
      · cases hok
    split
    · apply single hp
      intro path hok
      obtain rfl := Except.ok.inj hok
      exact hc
    cases left with
    | zero => exact single hp fun path hok => nomatch hok
    | succ left =>
      dsimp only
      split
      · refine ⟨?_, by simp; omega, fun path hok => nomatch hok⟩
        intro asked ha
        rcases mem_cons.mp ha with rfl | hag
        · exact hp
        · rw [mem_singleton.mp hag]
          exact hp
      rename_i target _
      obtain ⟨ha, hl, hr⟩ :=
        ih left (Nat.lt_succ_self left) (hmount.confined_resolveTarget current target)
      refine ⟨?_, by simp only [length_cons]; omega, hr⟩
      intro asked hm
      rcases mem_cons.mp hm with rfl | hm
      · exact hp
      · rcases mem_cons.mp hm with rfl | hm
        · exact hp
        · exact ha asked hm

variable (server probe s followFinal) in
/-- Whatever the application path and the links say, every path the resolver asks
for is below the configured root, with no dots behind it, and so is what it returns;
it stops after 41 rounds, and `follow_target_path` after 40 links. -/
theorem Mount.resolver_confined (h : Configured mount) (path : Bytes) :
    mount.Confined (mount.serverPath path) ∧
    (∀ link target, mount.Confined (mount.resolveTarget link target)) ∧
    (∀ asked ∈ resolveAsked server mount s followFinal 41 (normalizeBytes (mount.serverPath path)),
      mount.Confined asked) ∧
    (resolveAsked server mount s followFinal 41 (normalizeBytes (mount.serverPath path))).length ≤
      41 ∧
    mount.Confines (followTargetPath probe mount (mount.serverPath path)) 81 := by
  have hserver := h.confined_serverPath path
  have hstart := hserver.normalizeBytes
  exact ⟨hserver, h.confined_resolveTarget, resolveAsked_confined h hstart,
    resolveAsked_length 41 _, followHops_confined h hstart⟩

/-- A server on which everything is a link that climbs. -/
def climbingLinks : NameServer Unit where
  root := ⟨[0]⟩
  lookup _ _ _ := .ok ⟨[1]⟩
  kind _ _ := .ok symlinkType
  readlink _ _ := .ok [46, 46, 47, 46, 46, 47, 120]

theorem Mount.resolver_confined_climbing :
    (∀ asked ∈ resolveAsked climbingLinks ⟨[97], [], false⟩ () true 41
      (normalizeBytes (Mount.serverPath ⟨[97], [], false⟩ [46, 46, 47, 98])),
        Mount.Confined ⟨[97], [], false⟩ asked) ∧
      (resolveAsked climbingLinks ⟨[97], [], false⟩ () true 41
        (normalizeBytes (Mount.serverPath ⟨[97], [], false⟩ [46, 46, 47, 98]))).length ≤ 41 := by
  have hconfigured : Configured ⟨[97], [], false⟩ := ⟨[97], by decide⟩
  obtain ⟨-, -, hasked, hlength, -⟩ := Mount.resolver_confined climbingLinks
    ⟨fun _ => .ok symlinkType, fun _ => .ok [46, 46]⟩ () true hconfigured [46, 46, 47, 98]
  exact ⟨hasked, hlength⟩

end Confined

end Vnfs.Nfs
