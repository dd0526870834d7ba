import Vnfs.Nfs.Confinement

/-!
The resolver against the walk that follows every symbolic link where it meets it.
The resolver asks for whole paths and rewrites the path at the first link of it;
the walk keeps its place in the tree. They meet because what lies before the first
link of a path is a chain of directories, so that leaving out names behind it in
the path is climbing in the tree.
-/

namespace Vnfs.Nfs

open List Mount

/-- `nfs_ftype4_NF4DIR`. -/
def directoryKind : Nat := 2

def dot : Bytes := [46]

def dots : Bytes := [46, 46]

section Standard

variable {σ : Type} (server : NameServer σ) (s : σ) (root : NfsFh)

/-- The walk component by component, with the directories it is in, innermost
first. Absolute targets start at the root again, where two dots stay. Whether a
dot asks for a directory is a parameter. -/
def standardWalk (checkDot : Bool) (links : Nat) (dirs : List NfsFh) :
    List Bytes → Option (NfsFh × Nat)
  | [] => (server.kind s (dirs.headD root)).toOption.map fun ftype => (dirs.headD root, ftype)
  | component :: rest =>
    if component = dot then
      if checkDot ∧ server.kind s (dirs.headD root) ≠ .ok directoryKind then none
      else standardWalk checkDot links dirs rest
    else if component = dots then standardWalk checkDot links dirs.tail rest
    else match server.lookup s (dirs.headD root) component with
      | .error _ => none
      | .ok child =>
        match server.kind s child with
        | .error _ => none
        | .ok ftype =>
          if ftype = symlinkType then
            match links with
            | 0 => none
            | links + 1 =>
              match server.readlink s child with
              | .error _ => none
              | .ok target =>
                standardWalk checkDot links
                  (if target.head? = some slash then [] else dirs)
                  (pathComponents target ++ rest)
          else standardWalk checkDot links (child :: dirs) rest
  termination_by components => (links, components.length)

end Standard

/-- Two dots only come first. -/
def LeadingDots (target : Bytes) : Prop :=
  ∃ count names, (pathComponents target).filter (· ≠ dot) = replicate count dots ++ names ∧
    dots ∉ names

/-- A chain of LOOKUPs from `base` over names that are no links, with the objects it
passes, the last first. -/
inductive Along {σ : Type} (server : NameServer σ) (s : σ) (base : NfsFh) :
    List Bytes → List NfsFh → Prop
  | nil : Along server s base [] []
  | snoc {names : List Bytes} {dirs : List NfsFh} {name : Bytes} {child : NfsFh} {ftype : Nat}
      (before : Along server s base names dirs)
      (hlookup : server.lookup s (dirs.headD base) name = .ok child)
      (hkind : server.kind s child = .ok ftype) (hlink : ftype ≠ symlinkType) :
      Along server s base (names ++ [name]) (child :: dirs)

/-- A server whose objects are a tree with symbolic links, as LOOKUP documents it:
in a link it fails with the status for links, elsewhere never. -/
structure LinkedTree {σ : Type} (server : NameServer σ) (s : σ) (mount : Mount)
    (root : NfsFh) : Prop where
  configured : Configured mount
  /-- The configured root is reached without links. -/
  rooted : ∃ dirs, Along server s server.root (pathComponents mount.root) dirs ∧
    dirs.headD server.root = root
  root_kind : ∃ ftype, server.kind s root = .ok ftype ∧ ftype ≠ symlinkType
  kinds : ∀ d name c, server.lookup s d name = .ok c → ∃ ftype, server.kind s c = .ok ftype
  lookup_link : ∀ d name, server.kind s d = .ok symlinkType →
    server.lookup s d name = .error .symlink
  lookup_other : ∀ d name ftype, server.kind s d = .ok ftype → ftype ≠ symlinkType →
    server.lookup s d name ≠ .error .symlink
  leading : ∀ c target, server.readlink s c = .ok target → LeadingDots target

section Walks

variable {σ : Type} {server : NameServer σ} {s : σ} {mount : Mount} {base root : NfsFh}
  {names rest : List Bytes} {dirs : List NfsFh} {links : Nat}

/-- Plain names: no dot and no two. -/
def Plain (names : List Bytes) : Prop := ∀ name ∈ names, name ≠ dot ∧ name ≠ dots

variable {checkDot : Bool} {names' : List Bytes}

theorem standardWalk_name {name : Bytes} (hdo : name ≠ dot) (hd : name ≠ dots) :
    standardWalk server s root checkDot links dirs (name :: rest) =
      match server.lookup s (dirs.headD root) name with
      | .error _ => none
      | .ok child =>
        match server.kind s child with
        | .error _ => none
        | .ok ftype =>
          if ftype = symlinkType then
            match links with
            | 0 => none
            | links + 1 =>
              match server.readlink s child with
              | .error _ => none
              | .ok target =>
                standardWalk server s root checkDot links
                  (if target.head? = some slash then [] else dirs)
                  (pathComponents target ++ rest)
          else standardWalk server s root checkDot links (child :: dirs) rest := by
  conv_lhs => rw [standardWalk.eq_def]
  simp only [if_neg hdo, if_neg hd]

theorem standardWalk_dot :
    standardWalk server s root false links dirs (dot :: rest) =
      standardWalk server s root false links dirs rest := by
  conv_lhs => rw [standardWalk.eq_def]
  simp

theorem standardWalk_dots :
    standardWalk server s root checkDot links dirs (dots :: rest) =
      standardWalk server s root checkDot links dirs.tail rest := by
  conv_lhs => rw [standardWalk.eq_def]
  simp [dot, dots]

theorem standardWalk_filter (links : Nat) (dirs : List NfsFh) (names : List Bytes) :
    standardWalk server s root false links dirs names =
      standardWalk server s root false links dirs (names.filter (· ≠ dot)) := by
  induction links using Nat.strong_induction_on generalizing dirs names with
  | _ links ihlinks =>
    induction names generalizing dirs with
    | nil => rfl
    | cons name rest ih =>
      by_cases hd : name = dot
      · subst hd
        rw [standardWalk_dot, filter_cons_of_neg (by simp)]
        exact ih dirs
      rw [filter_cons_of_pos (by simpa using hd)]
      by_cases hdo : name = dots
      · subst hdo
        rw [standardWalk_dots, standardWalk_dots]
        exact ih dirs.tail
      rw [standardWalk_name hd hdo, standardWalk_name hd hdo]
      cases server.lookup s (dirs.headD root) name with
      | error status => rfl
      | ok child =>
        dsimp only
        cases server.kind s child with
        | error status => rfl
        | ok ftype =>
          dsimp only
          split
          · cases links with
            | zero => rfl
            | succ links =>
              cases server.readlink s child with
              | error status => rfl
              | ok target =>
                -- Both sides see the target with the dots of the rest gone.
                have hl := Nat.lt_succ_self links
                dsimp only
                rw [ihlinks links hl _ (pathComponents target ++ rest),
                  ihlinks links hl _ (pathComponents target ++ rest.filter _)]
                simp [filter_append]
          · exact ih (child :: dirs)

theorem Along.append {dirs' : List NfsFh} (first : Along server s base names dirs)
    (second : Along server s (dirs.headD base) names' dirs') :
    Along server s base (names ++ names') (dirs' ++ dirs) := by
  induction second with
  | nil =>
    rw [append_nil, nil_append]
    exact first
  | @snoc names' dirs' name child ftype before hl hk hli ih =>
    rw [← append_assoc]
    refine ih.snoc ?_ hk hli
    cases dirs' with
    | nil => exact hl
    | cons dir dirs' => exact hl

theorem Along.walk (along : Along server s base names dirs) (rest : List Bytes) :
    server.walk s base (names ++ rest) = server.walk s (dirs.headD base) rest := by
  induction along generalizing rest with
  | nil => rfl
  | snoc before hl hk hli ih =>
    rw [append_assoc, ih, singleton_append, NameServer.walk, hl]
    rfl

theorem Along.standardWalk (along : Along server s root names dirs) (hpl : Plain names)
    (rest : List Bytes) :
    standardWalk server s root checkDot links [] (names ++ rest) =
      standardWalk server s root checkDot links dirs rest := by
  induction along generalizing rest with
  | nil => rfl
  | @snoc names dirs name child ftype before hl hk hli ih =>
    obtain ⟨hdo, hd⟩ := hpl name (by simp)
    rw [append_assoc, ih (fun name hn => hpl name (mem_append_left _ hn)),
      singleton_append, standardWalk_name hdo hd, hl]
    dsimp only
    rw [hk]
    dsimp only
    rw [if_neg hli]

theorem Along.standardWalk_arrived {ftype : Nat} (along : Along server s root names dirs)
    (hpl : Plain names) (hk : server.kind s (dirs.headD root) = .ok ftype) :
    Nfs.standardWalk server s root checkDot links [] names = some (dirs.headD root, ftype) := by
  have ha : Nfs.standardWalk server s root checkDot links [] _ = _ :=
    along.standardWalk hpl []
  rw [append_nil] at ha
  rw [ha, Nfs.standardWalk, hk]
  rfl

theorem Along.pop (along : Along server s base names dirs) :
    Along server s base names.dropLast dirs.tail := by
  cases along with
  | nil => exact .nil
  | snoc before hl hk hli =>
    rw [dropLast_concat]
    exact before

theorem Plain.append (h : Plain names) (h' : Plain names') :
    Plain (names ++ names') := by
  intro name hn
  rcases mem_append.mp hn with hn | hn
  · exact h name hn
  · exact h' name hn

theorem Plain.dropLast (h : Plain names) : Plain names.dropLast :=
  fun name hn => h name (dropLast_subset names hn)

theorem Plain.filter (h : Plain names) : names.filter (· ≠ dot) = names := by
  rw [filter_eq_self]
  exact fun name hn => by simpa using (h name hn).1

theorem foldl_normalizeStep_filter_dot (components parts : List Bytes) :
    components.foldl normalizeStep parts =
      (components.filter (· ≠ dot)).foldl normalizeStep parts := by
  induction components generalizing parts with
  | nil => rfl
  | cons component components ih =>
    by_cases hd : component = dot
    · subst hd
      rw [filter_cons_of_neg (by simp), foldl_cons, ih]
      rfl
    · rw [filter_cons_of_pos (by simpa using hd), foldl_cons, foldl_cons, ih]

/-- Climbing first and then going down is the normalized path. -/
theorem Along.climb {count : Nat} {down : List Bytes} (along : Along server s root names dirs)
    (hpl : Plain names) (hd : Plain down) (hso : ∀ name ∈ down, name ≠ []) :
    Nfs.standardWalk server s root false links dirs
        ((replicate count dots ++ down) ++ rest) =
      Nfs.standardWalk server s root false links []
        ((replicate count dots ++ down).foldl normalizeStep names ++ rest) ∧
    Plain ((replicate count dots ++ down).foldl normalizeStep names) := by
  induction count generalizing names dirs with
  | zero =>
    have hf : down.foldl normalizeStep names = names ++ down :=
      foldl_normalizeStep_plain names fun name hn => ⟨hso name hn, hd name hn⟩
    rw [replicate_zero, nil_append, hf, append_assoc,
      along.standardWalk hpl]
    exact ⟨rfl, hpl.append hd⟩
  | succ count ih =>
    have hs : normalizeStep names dots = names.dropLast := by
      simp [normalizeStep, dots]
    rw [replicate_succ, cons_append, cons_append, foldl_cons, hs,
      standardWalk_dots]
    exact ih along.pop hpl.dropLast

variable (links) in
/-- What a link stands for: the walk goes on at its directory with the target, the
resolver at the root with the rewritten path. -/
theorem Along.target {target : Bytes} (along : Along server s root names dirs)
    (hpl : Plain names) (hr : Plain rest) (hl : LeadingDots target) :
    Nfs.standardWalk server s root false links dirs (pathComponents target ++ rest) =
      Nfs.standardWalk server s root false links []
        ((pathComponents target).foldl normalizeStep names ++ rest) ∧
    Plain ((pathComponents target).foldl normalizeStep names) := by
  obtain ⟨count, down, hf, hd⟩ := hl
  have hm : ∀ name ∈ down, name ∈ (pathComponents target).filter (· ≠ dot) := by
    intro name hn
    rw [hf]
    exact mem_append_right _ hn
  have hdo : Plain down := by
    intro name hn
    refine ⟨by simpa using (mem_filter.mp (hm name hn)).2, ?_⟩
    rintro rfl
    exact hd hn
  have hs : ∀ name ∈ down, name ≠ [] :=
    fun name hn => (mem_pathComponents (mem_filter.mp (hm name hn)).1).1
  rw [standardWalk_filter, filter_append, hr.filter, foldl_normalizeStep_filter_dot,
    hf]
  exact along.climb hpl hdo hs

end Walks

/-- Names that can be components. -/
def Valid (names : List Bytes) : Prop := ∀ name ∈ names, name ≠ [] ∧ slash ∉ name

section Joined

variable {names rest : List Bytes} {name : Bytes}

theorem Valid.append (h : Valid names) (h' : Valid rest) : Valid (names ++ rest) := by
  intro name hn
  rcases mem_append.mp hn with hn | hn
  · exact h name hn
  · exact h' name hn

theorem joinComponents_append (hn : names ≠ []) (hr : rest ≠ []) :
    joinComponents (names ++ rest) = joinComponents names ++ slash :: joinComponents rest := by
  induction names with
  | nil => exact absurd rfl hn
  | cons first names ih =>
    cases names with
    | nil =>
      obtain ⟨second, rest, rfl⟩ := exists_cons_of_ne_nil hr
      simp [joinComponents, intercalate, intersperse]
    | cons second names =>
      have hl := ih (cons_ne_nil _ _)
      simp only [joinComponents, intercalate, cons_append] at hl ⊢
      simp [intersperse, hl]

theorem joinComponents_eq_nil (h : Valid names) : joinComponents names = [] ↔ names = [] := by
  constructor
  · intro hn
    rw [← pathComponents_joinComponents h, hn]
    rfl
  · rintro rfl
    rfl

theorem joinPathBytes_joinComponents (hn : Valid names) (hr : rest ≠ []) :
    joinPathBytes (joinComponents names) (joinComponents rest) =
      joinComponents (names ++ rest) := by
  unfold joinPathBytes
  split
  · rename_i he
    obtain rfl := (joinComponents_eq_nil hn).mp (by simpa using he)
    rfl
  rename_i hs
  have hne : names ≠ [] := by
    rintro rfl
    exact hs rfl
  rw [if_neg (joinComponents_ends hn).2, joinComponents_append hne hr]

theorem joinPath_joinComponents (hnm : Valid names) (hr : Valid rest) (hne : rest ≠ []) :
    joinPath (joinComponents names) (joinComponents rest) = joinComponents (names ++ rest) := by
  have hb := joinPathBytes_joinComponents hnm hne
  unfold joinPathBytes at hb
  unfold joinPath
  rw [if_neg (joinComponents_ends hr).1]
  by_cases he : (joinComponents names).isEmpty = true
  · rw [if_pos he] at hb
    have hn : joinComponents names = [] := by simpa using he
    rw [hn, ← hb]
    rfl
  rw [if_neg he, if_neg (joinComponents_ends hnm).2] at hb
  have hno : ¬ ((joinComponents names).isEmpty ||
      decide ((joinComponents names).getLast? = some slash)) = true := by
    simp [he, (joinComponents_ends hnm).2]
  rw [if_neg hno, hb]

@[simp] theorem joinComponents_singleton (name : Bytes) : joinComponents [name] = name := by
  simp [joinComponents, intercalate]

theorem stripFront_append (front path : Bytes) :
    Mount.stripFront front (front ++ path) = some path := by
  simp [Mount.stripFront]

theorem stripFront_slash {path : Bytes} (h : path.head? ≠ some slash) :
    (Mount.stripFront [slash] path).getD path = path := by
  cases path with
  | nil => rfl
  | cons byte path =>
    have hne : slash ≠ byte := fun heq => h (by rw [← heq]; rfl)
    simp [Mount.stripFront, hne]

/-- The directory part of a path, with its slash. -/
def dirOf (path : Bytes) : Bytes :=
  match path.reverse.findIdx? (· = slash) with
  | some behind => path.take (path.length - behind)
  | none => []

theorem Mount.resolveTarget_dirOf (mount : Mount) (link target : Bytes) :
    mount.resolveTarget link target = joinPath mount.root
      (if target.head? = some slash then normalizeBytes (target.drop 1)
        else normalizeBytes (dirOf (mount.visible link) ++ target)) := rfl

theorem Mount.visible_joinComponents {mount : Mount}
    (hr : mount.root = joinComponents (pathComponents mount.root)) (hre : Valid rest)
    (hne : rest ≠ []) :
    mount.visible (joinComponents (pathComponents mount.root ++ rest)) = joinComponents rest := by
  generalize pathComponents mount.root = names at hr
  unfold visible
  rw [hr]
  cases names with
  | nil =>
    have hs : stripFront (joinComponents []) (joinComponents ([] ++ rest)) =
        some (joinComponents rest) := stripFront_append [] (joinComponents rest)
    exact stripFront_slash (joinComponents_ends hre).1
  | cons first names =>
    rw [joinComponents_append (cons_ne_nil _ _) hne, stripFront_append]
    exact congrArg (Option.getD · _) (stripFront_append [slash] (joinComponents rest))

theorem dirOf_joinComponents (hsl : slash ∉ name) :
    dirOf (joinComponents (names ++ [name])) =
      if names = [] then [] else joinComponents names ++ [slash] := by
  have hf : name.reverse.findIdx? (fun byte => decide (byte = slash)) = none := by
    rw [findIdx?_eq_none_iff]
    intro byte hb
    have hne : byte ≠ slash := by
      rintro rfl
      exact hsl (mem_reverse.mp hb)
    simpa using hne
  unfold dirOf
  cases names with
  | nil => rw [nil_append, joinComponents_singleton, hf, if_pos rfl]
  | cons first names =>
    rw [joinComponents_append (cons_ne_nil _ _) (cons_ne_nil _ _),
      joinComponents_singleton, if_neg (cons_ne_nil _ _)]
    generalize joinComponents (first :: names) = front
    have hr : (front ++ slash :: name).reverse = name.reverse ++ slash :: front.reverse := by
      simp
    have hl : (front ++ slash :: name).length - name.length = (front ++ [slash]).length := by
      simp only [length_append, length_cons, length_nil]
      omega
    have hs : front ++ slash :: name = (front ++ [slash]) ++ name := by simp
    have hi : (front ++ slash :: name).reverse.findIdx? (fun byte => decide (byte = slash)) =
        some name.length := by
      rw [hr, findIdx?_append, hf]
      simp [findIdx?_cons]
    rw [hi]
    dsimp only
    rw [hl, hs, take_left]

theorem Mount.resolveTarget_eq {mount : Mount} {target : Bytes}
    (hro : mount.root = joinComponents (pathComponents mount.root)) (hnm : Valid names)
    (hpl : Plain names) (hna : name ≠ []) (hsl : slash ∉ name) :
    mount.resolveTarget (joinComponents (pathComponents mount.root ++ (names ++ [name]))) target =
      joinPath mount.root (joinComponents ((pathComponents target).foldl normalizeStep
        (if target.head? = some slash then [] else names))) := by
  have hr : Valid (names ++ [name]) := by
    apply hnm.append
    intro other ho
    rw [mem_singleton.mp ho]
    exact ⟨hna, hsl⟩
  rw [resolveTarget_dirOf, visible_joinComponents hro hr (by simp)]
  congr 1
  split
  · rename_i ha
    obtain ⟨tail, rfl⟩ : ∃ tail, target = slash :: tail := by
      cases target with
      | nil => cases ha
      | cons byte tail => exact ⟨tail, by rw [Option.some.inj ha]⟩
    rw [drop_one, tail_cons, normalizeBytes_eq, pathComponents_slash_cons]
  rw [dirOf_joinComponents hsl, normalizeBytes_eq]
  congr 1
  split
  · rename_i hn
    rw [hn, nil_append]
  rw [append_assoc, singleton_append, pathComponents_append_slash,
    pathComponents_joinComponents hnm, foldl_append]
  congr 1
  exact foldl_normalizeStep_plain [] fun part hp =>
    ⟨(hnm part hp).1, hpl part hp⟩

end Joined

/-- How the resolver writes the path of these names below the root. Behind the root
itself there may be a slash. -/
def Mount.Canonical (mount : Mount) (names : List Bytes) (path : Bytes) : Prop :=
  path = joinComponents (pathComponents mount.root ++ names) ∨
    names = [] ∧ pathComponents path = pathComponents mount.root

section Canonical

variable {mount : Mount} {names rest : List Bytes} {name path : Bytes}

theorem valid_pathComponents (path : Bytes) : Valid (pathComponents path) :=
  fun _ hp => mem_pathComponents hp

theorem Valid.normalized {target : Bytes} (h : Valid names) :
    Valid ((pathComponents target).foldl normalizeStep names) := by
  intro part hp
  rcases foldl_normalizeStep_mem hp with hold | ⟨hn, -⟩
  · exact h part hold
  · exact mem_pathComponents hn

theorem Configured.root_eq (h : Configured mount) :
    mount.root = joinComponents (pathComponents mount.root) := by
  obtain ⟨root, hr⟩ := h.normalized
  rw [hr, pathComponents_normalizeBytes, ← normalizeBytes_eq]

theorem Mount.Canonical.components (h : mount.Canonical names path) (hn : Valid names) :
    pathComponents path = pathComponents mount.root ++ names := by
  rcases h with rfl | ⟨rfl, hp⟩
  · exact pathComponents_joinComponents ((valid_pathComponents _).append hn)
  · rw [hp, append_nil]

theorem Configured.canonical_join (h : Configured mount) (hnm : Valid names) :
    mount.Canonical names (joinPath mount.root (joinComponents names)) := by
  by_cases hn : names = []
  · subst hn
    right
    refine ⟨rfl, ?_⟩
    rw [pathComponents_joinPath (joinComponents_ends hnm).1]
    exact append_nil _
  · left
    conv_lhs => rw [h.root_eq]
    exact joinPath_joinComponents (valid_pathComponents _) hnm hn

theorem Configured.join_rest (h : Configured mount) (hnm : Valid names) (hne : rest ≠ []) :
    joinPathBytes (joinPath mount.root (joinComponents names)) (joinComponents rest) =
      joinComponents (pathComponents mount.root ++ (names ++ rest)) := by
  have hr := h.root_eq
  by_cases hn : names = []
  · subst hn
    have hv := valid_pathComponents mount.root
    generalize pathComponents mount.root = parts at hr hv
    rw [hr]
    cases parts with
    | nil => rfl
    | cons first parts =>
      have hs : joinComponents (first :: parts) ≠ [] :=
        mt (joinComponents_eq_nil hv).mp (cons_ne_nil _ _)
      have hsl : joinPath (joinComponents (first :: parts)) (joinComponents []) =
          joinComponents (first :: parts) ++ [slash] := by
        unfold joinPath
        rw [if_neg (joinComponents_ends hnm).1, if_neg]
        · rfl
        · simp [hs, (joinComponents_ends hv).2]
      rw [hsl, nil_append, joinComponents_append (cons_ne_nil _ _) hne]
      simp [joinPathBytes]
  have hj : joinPath mount.root (joinComponents names) =
      joinComponents (pathComponents mount.root ++ names) := by
    conv_lhs => rw [hr]
    exact joinPath_joinComponents (valid_pathComponents _) hnm hn
  rw [hj, joinPathBytes_joinComponents ((valid_pathComponents _).append hnm) hne,
    append_assoc]

end Canonical

/-- How far a path gets before its first link. -/
inductive Scanned {σ : Type} (server : NameServer σ) (s : σ) (base : NfsFh) : List Bytes → Prop
  | arrived {names : List Bytes} {dirs : List NfsFh} (along : Along server s base names dirs) :
      Scanned server s base names
  | failed {front back : List Bytes} {name : Bytes} {dirs : List NfsFh} {status : Status}
      (along : Along server s base front dirs)
      (hlookup : server.lookup s (dirs.headD base) name = .error status)
      (hstatus : status ≠ .symlink) : Scanned server s base (front ++ name :: back)
  | link {front back : List Bytes} {name : Bytes} {dirs : List NfsFh} {child : NfsFh}
      (along : Along server s base front dirs)
      (hlookup : server.lookup s (dirs.headD base) name = .ok child)
      (hkind : server.kind s child = .ok symlinkType) :
      Scanned server s base (front ++ name :: back)

section Simulation

variable {σ : Type} {server : NameServer σ} {s : σ} {mount : Mount} {base root : NfsFh}
  {names front back : List Bytes} {dirs : List NfsFh} {name path : Bytes} {child : NfsFh}

theorem Along.kind (along : Along server s base names dirs)
    (hb : ∃ ftype, server.kind s base = .ok ftype ∧ ftype ≠ symlinkType) :
    ∃ ftype, server.kind s (dirs.headD base) = .ok ftype ∧ ftype ≠ symlinkType := by
  cases along with
  | nil => exact hb
  | snoc before hlo hk hl => exact ⟨_, hk, hl⟩

theorem getattrType_ok {d : NfsFh} {ftype : Nat} (hk : server.kind s d = .ok ftype) :
    server.getattrType s d = .ok ftype := by
  rw [NameServer.getattrType, hk]
  rfl

theorem lookupGetattr_ok {d : NfsFh} {ftype : Nat} (hl : server.lookup s d name = .ok child)
    (hk : server.kind s child = .ok ftype) :
    server.lookupGetattr s d name = .ok (child, ftype) := by
  rw [NameServer.lookupGetattr, hl]
  change (server.getattrType s child).bind _ = _
  rw [getattrType_ok hk]
  rfl

theorem Along.walkComponents {parts rest : List Bytes} (along : Along server s base names dirs)
    (hpa : Valid parts) (hn : Valid names) (hne : rest ≠ []) :
    walkComponents server mount s true base (joinComponents parts) (names ++ rest) =
      walkComponents server mount s true (dirs.headD base) (joinComponents (parts ++ names))
        rest := by
  induction along generalizing rest with
  | nil => rw [append_nil, nil_append]; rfl
  | @snoc names dirs name child ftype before hl hk hli ih =>
    have hb : Valid names := fun part hp => hn part (mem_append_left _ hp)
    have hf : joinPathBytes (joinComponents (parts ++ names)) name =
        joinComponents (parts ++ (names ++ [name])) := by
      have hj : joinPathBytes (joinComponents (parts ++ names)) (joinComponents [name]) = _ :=
        joinPathBytes_joinComponents (hpa.append hb) (cons_ne_nil _ _)
      rwa [joinComponents_singleton, append_assoc] at hj
    rw [append_assoc, singleton_append, ih hb (cons_ne_nil _ _),
      Nfs.walkComponents, lookupGetattr_ok hl hk]
    dsimp only
    rw [if_neg (fun h => hli h.1), if_neg (by simpa using hne), hf]
    rfl

namespace LinkedTree

variable (tree : LinkedTree server s mount root)

include tree

theorem scan (along : Along server s root front dirs) (names : List Bytes) :
    Scanned server s root (front ++ names) := by
  induction names generalizing front dirs with
  | nil =>
    rw [append_nil]
    exact .arrived along
  | cons name names ih =>
    obtain ⟨ftype, hk, hli⟩ := along.kind tree.root_kind
    cases hl : server.lookup s (dirs.headD root) name with
    | error status =>
      refine .failed along hl ?_
      rintro rfl
      exact tree.lookup_other _ _ _ hk hli hl
    | ok child =>
      obtain ⟨ftype, hch⟩ := tree.kinds _ _ _ hl
      by_cases hs : ftype = symlinkType
      · subst hs
        exact .link along hl hch
      · have hn := ih (along.snoc hl hch hs)
        rwa [append_assoc] at hn

theorem walk_root (names : List Bytes) :
    server.walk s server.root (pathComponents mount.root ++ names) = server.walk s root names := by
  obtain ⟨dirs, along, rfl⟩ := tree.rooted
  exact along.walk names

theorem hop_arrived (hp : mount.Canonical names path) (hn : Valid names)
    (along : Along server s root names dirs) :
    ∃ ftype, server.kind s (dirs.headD root) = .ok ftype ∧
      hop server mount s true path = .done (.ok (dirs.headD root, ftype)) := by
  obtain ⟨ftype, hk, hl⟩ := along.kind tree.root_kind
  have hr : server.resolve s path = .ok (dirs.headD root) := by
    have hw := along.walk []
    rw [append_nil] at hw
    rw [NameServer.resolve, hp.components hn, tree.walk_root, hw]
    rfl
  refine ⟨ftype, hk, ?_⟩
  unfold hop
  rw [hr]
  simp only [Bool.not_true, Bool.false_eq_true, if_false]
  rw [getattrType_ok hk]
  dsimp only
  rw [if_pos hl]

theorem hop_failed {status : Status} (hp : mount.Canonical (front ++ name :: back) path)
    (hn : Valid (front ++ name :: back)) (along : Along server s root front dirs)
    (hl : server.lookup s (dirs.headD root) name = .error status)
    (hs : status ≠ .symlink) :
    ∃ error, hop server mount s true path = .done (.error error) := by
  have hr : server.resolve s path = .error (.op 0 status) := by
    rw [NameServer.resolve, hp.components hn, tree.walk_root, along.walk, NameServer.walk,
      hl]
    rfl
  unfold hop
  rw [hr]
  simp [RpcError.op, hs]

/-- The target of a link, as the resolver joins it to the rest. -/
theorem canonical_target (target : Bytes) (hnm : Valid (front ++ name :: back))
    (hpl : Plain (front ++ name :: back)) :
    mount.Canonical ((pathComponents target).foldl normalizeStep
        (if target.head? = some slash then [] else front) ++ back)
      (if back.isEmpty then
        mount.resolveTarget (joinComponents (pathComponents mount.root ++ (front ++ [name]))) target
      else joinPathBytes (mount.resolveTarget
        (joinComponents (pathComponents mount.root ++ (front ++ [name]))) target)
        (joinComponents back)) := by
  have hfr : Valid front := fun part hp => hnm part (mem_append_left _ hp)
  have hplainFront : Plain front := fun part hp => hpl part (mem_append_left _ hp)
  obtain ⟨hs, hsl⟩ := hnm name (by simp)
  have hn : Valid ((pathComponents target).foldl normalizeStep
      (if target.head? = some slash then [] else front)) := by
    apply Valid.normalized
    split
    · exact fun part hp => nomatch hp
    · exact hfr
  rw [resolveTarget_eq tree.configured.root_eq hfr hplainFront hs hsl]
  generalize (pathComponents target).foldl normalizeStep _ = normal at hn ⊢
  split
  · rename_i he
    obtain rfl : back = [] := by simpa using he
    rw [append_nil]
    exact tree.configured.canonical_join hn
  · rename_i hb
    exact .inl (tree.configured.join_rest hn (by simpa using hb))

/-- The walk by components from the server's root up to the link. -/
theorem walkComponents_link (hnm : Valid (front ++ name :: back))
    (along : Along server s root front dirs)
    (hl : server.lookup s (dirs.headD root) name = .ok child)
    (hk : server.kind s child = .ok symlinkType) :
    walkComponents server mount s true server.root []
        (pathComponents mount.root ++ (front ++ name :: back)) =
      match server.readlinkOf s child with
      | .error error => .error (errorFromRpc error (some 0))
      | .ok target =>
        let base := mount.resolveTarget
          (joinComponents (pathComponents mount.root ++ (front ++ [name]))) target
        .ok (.followed (if back.isEmpty then base
          else joinPathBytes base (joinComponents back))) := by
  obtain ⟨rootDirs, rooted, hr⟩ := tree.rooted
  have hfr : Valid front := fun part hp => hnm part (mem_append_left _ hp)
  have ha := (valid_pathComponents mount.root).append hfr
  rw [← hr] at along
  have hn : Valid [] := fun part hp => nomatch hp
  have hw : walkComponents server mount s true server.root (joinComponents []) _ = _ :=
    (rooted.append along).walkComponents hn ha (cons_ne_nil name back)
  have hh : (dirs ++ rootDirs).headD server.root = dirs.headD root := by
    cases dirs with
    | nil => exact hr
    | cons dir dirs => rfl
  have hf : joinPathBytes (joinComponents (pathComponents mount.root ++ front)) name =
      joinComponents (pathComponents mount.root ++ (front ++ [name])) := by
    have hj : joinPathBytes _ (joinComponents [name]) = _ :=
      joinPathBytes_joinComponents ha (cons_ne_nil _ _)
    rwa [joinComponents_singleton, append_assoc] at hj
  change walkComponents server mount s true server.root (joinComponents []) _ = _
  rw [← append_assoc, hw, hh, nil_append, ← hf]
  unfold walkComponents
  rw [lookupGetattr_ok hl hk]
  exact if_pos ⟨rfl, .inl rfl⟩

/-- A path with a link: the resolver goes on with what the link stands for. -/
theorem hop_link (hp : mount.Canonical (front ++ name :: back) path)
    (hnm : Valid (front ++ name :: back)) (hpl : Plain (front ++ name :: back))
    (along : Along server s root front dirs)
    (hl : server.lookup s (dirs.headD root) name = .ok child)
    (hk : server.kind s child = .ok symlinkType) :
    match server.readlink s child with
    | .error _ => ∃ error, hop server mount s true path = .done (.error error)
    | .ok target => ∃ next, hop server mount s true path = .next next ∧
        mount.Canonical ((pathComponents target).foldl normalizeStep
          (if target.head? = some slash then [] else front) ++ back) next := by
  have hread : server.readlinkOf s child = (server.readlink s child).mapError (.op 0) := rfl
  have hca := fun target => tree.canonical_target target hnm hpl
  have hc := hp.components hnm
  have hw : server.walk s server.root (pathComponents path) = server.walk s child back := by
    rw [hc, tree.walk_root, along.walk, NameServer.walk, hl]
    rfl
  cases back with
  | nil =>
    obtain rfl : path = joinComponents (pathComponents mount.root ++ (front ++ [name])) := by
      rcases hp with heq | ⟨hn, -⟩
      · exact heq
      · simp at hn
    have hr := NameServer.resolve_ok hw
    unfold hop
    rw [hr]
    simp only [Bool.not_true, Bool.false_eq_true, if_false]
    rw [getattrType_ok hk]
    rw [hread]
    cases hre : server.readlink s child with
    | error status => exact ⟨_, rfl⟩
    | ok target => exact ⟨_, rfl, hca target⟩
  | cons second back =>
    have hr : server.resolve s path = .error (.op 0 .symlink) := by
      rw [NameServer.resolve, hw, NameServer.walk, tree.lookup_link _ _ hk]
      rfl
    unfold hop
    rw [hr]
    rw [hc, tree.walkComponents_link hnm along hl hk, hread]
    cases hre : server.readlink s child with
    | error status => exact ⟨_, rfl⟩
    | ok target => exact ⟨_, rfl, hca target⟩

/-- One round of the resolver: it ends where the walk ends without a link, or goes on
where the walk goes on behind its first link. -/
theorem hop_cases (hpa : mount.Canonical names path) (hnm : Valid names)
    (hpl : Plain names) :
    (∃ result, hop server mount s true path = .done result ∧
      ∀ links, result.toOption = standardWalk server s root false links [] names) ∨
    ∃ next names', hop server mount s true path = .next next ∧ mount.Canonical names' next ∧
      Valid names' ∧ Plain names' ∧ standardWalk server s root false 0 [] names = none ∧
      ∀ links, standardWalk server s root false (links + 1) [] names =
        standardWalk server s root false links [] names' := by
  have hsc : Scanned server s root names := tree.scan .nil names
  cases hsc with
  | arrived along =>
    obtain ⟨ftype, hk, hh⟩ := tree.hop_arrived hpa hnm along
    exact .inl ⟨_, hh, fun links => (along.standardWalk_arrived hpl hk).symm⟩
  | @failed front back name dirs status along hl hst =>
    obtain ⟨error, hh⟩ := tree.hop_failed hpa hnm along hl hst
    obtain ⟨hdo, hd⟩ := hpl name (by simp)
    refine .inl ⟨_, hh, fun links => ?_⟩
    rw [along.standardWalk
      (fun part hp => hpl part (mem_append_left _ hp)),
      standardWalk_name hdo hd, hl]
    rfl
  | @link front back name dirs child along hl hk =>
    have hh := tree.hop_link hpa hnm hpl along hl hk
    have hfr : Valid front := fun part hp => hnm part (mem_append_left _ hp)
    have hplainFront : Plain front := fun part hp => hpl part (mem_append_left _ hp)
    have hplainBack : Plain back := fun part hp => hpl part (by simp [hp])
    obtain ⟨hdo, hd⟩ := hpl name (by simp)
    have hs : ∀ links, standardWalk server s root false links [] (front ++ name :: back) =
        match links with
        | 0 => none
        | links + 1 =>
          match server.readlink s child with
          | .error _ => none
          | .ok target =>
            standardWalk server s root false links
              (if target.head? = some slash then [] else dirs)
              (pathComponents target ++ back) := by
      intro links
      rw [along.standardWalk hplainFront, standardWalk_name hdo hd, hl]
      dsimp only
      rw [hk]
      rfl
    cases hr : server.readlink s child with
    | error status =>
      rw [hr] at hh
      obtain ⟨error, hh⟩ := hh
      refine .inl ⟨_, hh, fun links => ?_⟩
      rw [hs]
      cases links with
      | zero => rfl
      | succ links => rw [hr]; rfl
    | ok target =>
      rw [hr] at hh
      obtain ⟨next, hh, hn⟩ := hh
      have hb : Valid back := fun part hp => hnm part (by simp [hp])
      -- The directory the target is seen from: the root, or that of the link.
      have hf : Along server s root (if target.head? = some slash then [] else front)
          (if target.head? = some slash then [] else dirs) := by
        split
        · exact .nil
        · exact along
      have hv : Valid (if target.head? = some slash then [] else front) := by
        split
        · exact fun part hp => nomatch hp
        · exact hfr
      have hplainFrom : Plain (if target.head? = some slash then [] else front) := by
        split
        · exact fun part hp => nomatch hp
        · exact hplainFront
      have ht := fun links => hf.target links hplainFrom hplainBack
        (tree.leading child target hr)
      refine .inr ⟨next, _, hh, hn, hv.normalized.append hb,
        (ht 0).2.append hplainBack, hs 0, fun links => ?_⟩
      rw [hs, hr]
      exact (ht links).1

/-- The resolver and the walk, with the same number of links left. -/
theorem resolveHops_standard (links : Nat) (hp : mount.Canonical names path)
    (hnm : Valid names) (hpl : Plain names) :
    (resolveHops server mount s true (links + 1) path).toOption =
      standardWalk server s root false links [] names := by
  induction links generalizing names path with
  | zero =>
    rw [resolveHops_succ]
    rcases tree.hop_cases hp hnm hpl with ⟨result, hh, hr⟩ |
      ⟨next, names', hh, -, -, -, hn, -⟩
    · rw [hh]
      exact hr 0
    · rw [hh, hn]
      rfl
  | succ links ih =>
    rw [resolveHops_succ]
    rcases tree.hop_cases hp hnm hpl with ⟨result, hh, hr⟩ |
      ⟨next, names', hh, hne, hv, hpl', -, hl⟩
    · rw [hh]
      exact hr (links + 1)
    · rw [hh, hl]
      exact ih hne hv hpl'

end LinkedTree

theorem Configured.canonical_serverPath (h : Configured mount) (path : Bytes) :
    mount.Canonical (pathComponents (mount.namespacePath path))
      (normalizeBytes (mount.serverPath path)) := by
  have hpl : PlainPath (mount.serverPath path) :=
    h.plainPath.joinPath (plainPath_normalizeBytes _)
  left
  rw [normalizeBytes_eq, ← pathComponents_normalizeBytes, hpl.normalizeBytes]
  unfold serverPath
  rw [pathComponents_joinPath]
  exact (normalizeBytes_ends _).1

/-- The resolver returns what the walk over every link reaches, and fails where it
fails, with at most 40 links followed. Dots in targets are left out, without a
question whether what they follow is a directory. -/
theorem resolvePathAndType_standard (tree : LinkedTree server s mount root) (path : Bytes) :
    (resolvePathAndType server mount s (mount.serverPath path) true).toOption =
      standardWalk server s root false 40 [] (pathComponents (mount.namespacePath path)) := by
  apply tree.resolveHops_standard 40 (tree.configured.canonical_serverPath path)
  · exact valid_pathComponents _
  · exact plainPath_normalizeBytes _

/-- A link to a file with a dot behind it: `l` leads to `f/.`. -/
def dottedLink : NameServer Unit where
  root := ⟨[0]⟩
  lookup _ d name :=
    if d = ⟨[0]⟩ then
      if name = [108] then .ok ⟨[1]⟩ else if name = [102] then .ok ⟨[2]⟩ else .error .noent
    else if d = ⟨[1]⟩ then .error .symlink
    else .error .notdir
  kind _ d := .ok (if d = ⟨[0]⟩ then directoryKind else if d = ⟨[1]⟩ then symlinkType else 1)
  readlink _ _ := .ok [102, 47, 46]

theorem dottedLink_tree : LinkedTree dottedLink () ⟨[], [], false⟩ ⟨[0]⟩ where
  configured := ⟨[], rfl⟩
  rooted := ⟨[], .nil, rfl⟩
  root_kind := ⟨directoryKind, rfl, by decide⟩
  kinds _ _ _ _ := ⟨_, rfl⟩
  lookup_link d name hk := by
    by_cases hr : d = ⟨[0]⟩
    · subst hr
      cases hk
    by_cases hl : d = ⟨[1]⟩
    · subst hl
      rfl
    · simp [dottedLink, hr, hl, symlinkType] at hk
  lookup_other d name ftype hk hl := by
    by_cases hr : d = ⟨[0]⟩
    · subst hr
      have hno : Status.noent ≠ .symlink := by decide
      simp only [dottedLink, if_true]
      split
      · exact fun h => (nomatch h)
      · split
        · exact fun h => (nomatch h)
        · simpa using hno
    by_cases ho : d = ⟨[1]⟩
    · subst ho
      cases hk
      exact absurd rfl hl
    · have hn : Status.notdir ≠ .symlink := by decide
      simpa [dottedLink, hr, ho] using hn
  leading c target ht := by
    obtain rfl := Except.ok.inj ht
    exact ⟨0, [[102]], by decide, by decide⟩

/-- Where a dot behind a file fails, the resolver does not. -/
theorem resolvePathAndType_dotted :
    LinkedTree dottedLink () ⟨[], [], false⟩ ⟨[0]⟩ ∧
      standardWalk dottedLink () ⟨[0]⟩ true 40 [] [[108]] = none ∧
      resolvePathAndType dottedLink ⟨[], [], false⟩ ()
        (Mount.serverPath ⟨[], [], false⟩ [108]) true = .ok (⟨[2]⟩, 1) := by
  refine ⟨dottedLink_tree, ?_, by decide +kernel⟩
  have hlink : standardWalk dottedLink () ⟨[0]⟩ true 40 [] [[108]] =
      standardWalk dottedLink () ⟨[0]⟩ true 39 [] [[102], dot] := by
    rw [standardWalk_name (by decide) (by decide)]
    rfl
  have hfile : standardWalk dottedLink () ⟨[0]⟩ true 39 [] [[102], dot] =
      standardWalk dottedLink () ⟨[0]⟩ true 39 [⟨[2]⟩] [dot] := by
    rw [standardWalk_name (by decide) (by decide)]
    rfl
  rw [hlink, hfile, standardWalk]
  rfl

theorem resolvePathAndType_standard_dotted :
    LinkedTree dottedLink () ⟨[], [], false⟩ ⟨[0]⟩ ∧
      (resolvePathAndType dottedLink ⟨[], [], false⟩ ()
        (Mount.serverPath ⟨[], [], false⟩ [108]) true).toOption =
      standardWalk dottedLink () ⟨[0]⟩ false 40 []
        (pathComponents (Mount.namespacePath ⟨[], [], false⟩ [108])) :=
  ⟨dottedLink_tree, resolvePathAndType_standard dottedLink_tree [108]⟩

end Simulation

end Vnfs.Nfs
