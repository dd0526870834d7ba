import Vnfs.TreeServer

/-!
A walk of the cursor is a walk from the root. The saved filehandle stays the
object at the path the cursor remembers, whatever the builders' own operations do
to the tree: REMOVE and RENAME take names out of the saved directory itself, and
what they replace holds nothing. So in every state a compound can reach, the
operations of a call have the effect of the walk from the root.
-/

namespace Vnfs

open FileServer List Option NameTree Conn CursorCall

variable {α : Type} {server : FileServer α}

def rootWalk (dir : Bytes) : List ArgOp := .putrootfh :: (pathComponents dir).map .lookup

section Walk

variable {t : NameTree NfsFh Bytes} {conn : Conn α}

/-- LOOKUP after LOOKUP, with the status of the first that fails. -/
def lookupAll (t : NameTree NfsFh Bytes) (d : NfsFh) : List Bytes → Except Status NfsFh
  | [] => .ok d
  | name :: rest =>
    if !t.isDir d then .error .notdir
    else match t.child d name with
      | none => .error .noent
      | some c => lookupAll t c rest

theorem lookupAll_append (d : NfsFh) (names rest : List Bytes) : lookupAll t d (names ++ rest) =
      (lookupAll t d names).bind fun c => lookupAll t c rest := by
  induction names generalizing d with
  | nil => rfl
  | cons name names ih =>
    simp only [cons_append, lookupAll]
    split
    · rfl
    · cases t.child d name with
      | none => rfl
      | some c => exact ih c

theorem lookupAll_eq_ok {d c : NfsFh} {names : List Bytes} :
    lookupAll t d names = .ok c ↔ t.walk d names = some c := by
  induction names generalizing d with
  | nil => simp [lookupAll, walk]
  | cons name names ih =>
    simp only [lookupAll, walk]
    cases hch : t.child d name with
    | none =>
      split <;> simp
    | some c' =>
      have hd := isDir_of_child hch
      simp only [hd, Bool.not_true, Bool.false_eq_true, if_false, bind_some]
      exact ih

variable (server conn) in
theorem execute_lookups {d : NfsFh} (hc : conn.current = some d) (names : List Bytes) :
    server.execute conn (names.map .lookup) = match lookupAll conn.world.tree d names with
      | .error status => .error (conn.world, status)
      | .ok c => .ok (conn.goto c) := by
  induction names generalizing conn d with
  | nil =>
    obtain ⟨world, current, saved⟩ := conn
    cases hc
    rfl
  | cons name names ih =>
    rw [map_cons, execute_cons]
    simp only [step, cfh, hc, Conn.lookup, lookupAll, bind, Except.bind]
    cases hd : conn.world.tree.isDir d with
    | false => rfl
    | true =>
      cases hch : conn.world.tree.child d name with
      | none => rfl
      | some c => exact ih _ rfl

variable (server) in
theorem execute_rootWalk (conn : Conn α) (dir : Bytes) : server.execute conn (rootWalk dir) =
      match lookupAll conn.world.tree conn.world.tree.root (pathComponents dir) with
      | .error status => .error (conn.world, status)
      | .ok c => .ok (conn.goto c) := by
  unfold rootWalk
  exact execute_lookups server (conn.goto conn.world.tree.root) rfl _

theorem execute_climb {path : List Bytes} {d a : NfsFh} {ups : Nat}
    (hwf : conn.world.tree.WellFormed) (hc : conn.current = some d)
    (hd : conn.world.tree.resolve path = some d) (hdi : conn.world.tree.isDir d = true)
    (hu : ups ≤ path.length)
    (ha : conn.world.tree.resolve (path.take (path.length - ups)) = some a) :
    server.execute conn (replicate ups .lookupp) = .ok (conn.goto a) := by
  induction ups generalizing conn path d with
  | zero =>
    rw [Nat.sub_zero, take_length, hd] at ha
    obtain rfl := some.inj ha
    obtain ⟨world, current, saved⟩ := conn
    cases hc
    rfl
  | succ ups ih =>
    rcases eq_nil_or_concat path with rfl | ⟨front, name, rfl⟩
    · cases hu
    rw [concat_eq_append] at hd hu ha
    obtain ⟨p, hp, hch⟩ := resolve_concat hd
    have hpa := hwf.parent_child p name d hch hdi
    have hl : (front ++ [name]).length = front.length + 1 := by simp
    rw [hl] at hu ha
    rw [Nat.succ_sub_succ, take_append_of_le_length (by omega)] at ha
    rw [replicate_succ, execute_cons]
    simp only [step, cfh, hc, lookupp, hdi, hpa, bind, Except.bind,
      Bool.not_true, Bool.false_eq_true, if_false]
    have hup : server.execute (conn.goto p) (replicate ups .lookupp) = .ok ((conn.goto p).goto a) :=
      ih hwf rfl hp (isDir_of_child hch) (by omega) ha
    exact hup

end Walk

section Common

variable (saved target : List Bytes)

theorem commonCount_le_left : commonCount saved target ≤ saved.length := by
  unfold commonCount
  have hle := (takeWhile_sublist (fun pair : Bytes × Bytes => decide (pair.1 = pair.2))
    (l := saved.zip target)).length_le
  rw [length_zip] at hle
  omega

theorem take_commonCount : saved.take (commonCount saved target) =
    target.take (commonCount saved target) := by
  unfold commonCount
  induction saved generalizing target with
  | nil => simp
  | cons first saved ih =>
    cases target with
    | nil => simp
    | cons first' target =>
      by_cases heq : first = first'
      · subst heq
        simp [ih target]
      · simp [heq]

end Common

/-- What a compound keeps between the steps of its builder: the saved filehandle
is the object at the path the cursor remembers. -/
structure Standing (cursor : CfhCursor) (conn : Conn α) : Prop where
  wellFormed : conn.world.tree.WellFormed
  saved : ∀ dir, cursor.savedDir = some dir → ∃ d, conn.saved = some d ∧
    conn.world.tree.resolve (pathComponents dir) = some d

def Settled (cursor : CfhCursor) (conn : Conn α) : Prop :=
  cursor.atSaved = true → conn.current = conn.saved

/-- The cursor remembers a path to something that is not a directory. -/
def SavedFile (cursor : CfhCursor) (conn : Conn α) : Prop :=
  ∃ dir d, cursor.savedDir = some dir ∧ conn.saved = some d ∧ conn.world.tree.isDir d = false

section Calls

variable {cursor : CfhCursor} {conn conn' : Conn α} {dir : Bytes} {step : CursorStep}

/-- Up from a directory and down again is down from the root. -/
theorem execute_upDown {path target : List Bytes} {d : NfsFh} {common : Nat}
    (hwf : conn.world.tree.WellFormed) (hcu : conn.current = some d)
    (hd : conn.world.tree.resolve path = some d) (hco : common ≤ path.length)
    (ht : path.take common = target.take common)
    (hdi : path.length - common = 0 ∨ conn.world.tree.isDir d = true) :
    server.execute conn (replicate (path.length - common) .lookupp ++
        (target.drop common).map .lookup) =
      match lookupAll conn.world.tree conn.world.tree.root target with
      | .error status => .error (conn.world, status)
      | .ok c => .ok (conn.goto c) := by
  obtain ⟨a, ha, -⟩ := resolve_take hd common
  have hc : server.execute conn (replicate (path.length - common) .lookupp) =
      .ok (conn.goto a) := by
    rcases hdi with hz | hdi
    · have hal : path.take common = path := take_of_length_le (by omega)
      rw [hal, hd] at ha
      obtain rfl := some.inj ha
      rw [hz]
      obtain ⟨world, current, saved⟩ := conn
      cases hcu
      rfl
    · apply execute_climb hwf hcu hd hdi (by omega)
      rwa [Nat.sub_sub_self hco]
  have hr : lookupAll conn.world.tree conn.world.tree.root target =
      lookupAll conn.world.tree a (target.drop common) := by
    conv_lhs => rw [← take_append_drop common target, lookupAll_append]
    rw [ht] at ha
    rw [lookupAll_eq_ok.mpr ha]
    rfl
  rw [execute_append, hc, hr]
  exact execute_lookups server (conn.goto a) rfl (target.drop common)

/-- A relative walk is the walk from the root, or fails because the saved
filehandle is not a directory and it would have to go up from there. -/
theorem execute_walkRelative (h : Standing cursor conn) (hse : Settled cursor conn)
    (hst : cursor.walkRelative dir = some step) :
    server.execute conn step.ops = server.execute conn (rootWalk dir) ∨
      SavedFile cursor conn ∧ server.execute conn step.ops = .error (conn.world, .notdir) := by
  unfold CfhCursor.walkRelative at hst
  split at hst
  · cases hst
  rename_i saved hs
  dsimp only at hst
  split at hst
  · obtain rfl := some.inj hst
    obtain ⟨d, hd, hr⟩ := h.saved saved hs
    have hrs : server.execute conn (if cursor.atSaved then [] else [.restorefh]) =
        .ok (conn.goto d) := by
      split
      · rename_i hat
        have hcu := (hse hat).trans hd
        obtain ⟨world, current, saved⟩ := conn
        cases hcu
        rfl
      · rw [execute_cons]
        simp only [FileServer.step, sfh, hd, bind, Except.bind, execute_nil]
    rw [append_assoc, execute_append, hrs]
    change server.execute (conn.goto d) _ = _ ∨ _ ∧ server.execute (conn.goto d) _ = _
    have hc := commonCount_le_left (pathComponents saved) (pathComponents dir)
    have ht := take_commonCount (pathComponents saved) (pathComponents dir)
    generalize commonCount (pathComponents saved) (pathComponents dir) = common at hc ht ⊢
    by_cases hdi : (pathComponents saved).length - common = 0 ∨ conn.world.tree.isDir d = true
    · left
      rw [execute_rootWalk]
      have hw : server.execute (conn.goto d) _ = _ := execute_upDown h.wellFormed rfl hr hc ht hdi
      exact hw
    right
    obtain ⟨hu, hf⟩ := not_or.mp hdi
    obtain ⟨ups, hsu⟩ := Nat.exists_eq_succ_of_ne_zero hu
    have hn : conn.world.tree.isDir d = false := by simpa using hf
    refine ⟨⟨saved, d, hs, hd, hn⟩, ?_⟩
    rw [hsu, replicate_succ, cons_append, execute_cons]
    simp only [FileServer.step, cfh, goto, lookupp, hn, bind, Except.bind, Bool.not_false, if_true]
  · cases hst

variable (server dir) in
/-- A walk is the walk from the root, or fails in a saved filehandle that is not
a directory. -/
theorem execute_walkParent (h : Standing cursor conn) (hse : Settled cursor conn) :
    server.execute conn (cursor.walkParent dir).ops = server.execute conn (rootWalk dir) ∨
      SavedFile cursor conn ∧
        server.execute conn (cursor.walkParent dir).ops = .error (conn.world, .notdir) := by
  unfold CfhCursor.walkParent
  split
  · rename_i hsa
    left
    obtain ⟨d, hd, hr⟩ := h.saved dir hsa
    rw [execute_rootWalk, lookupAll_eq_ok.mpr hr]
    split
    · rename_i hat
      have hc := (hse hat).trans hd
      obtain ⟨world, current, saved⟩ := conn
      cases hc
      rfl
    · rw [execute_cons]
      simp only [FileServer.step, sfh, hd, bind, Except.bind, execute_nil]
  split
  · rename_i step hs
    exact execute_walkRelative h hse hs
  · exact .inl rfl

/-- The operations a call stands for, from the root. -/
def CursorCall.rootOps : CursorCall → Option (List ArgOp)
  | .setParent path => (splitPathBytes path).map fun (dir, _) => rootWalk dir ++ [.savefh]
  | .setCurrentParent path => (splitPathBytes path).map fun (dir, _) => rootWalk dir
  | .setHandle fh => some [.putfh fh]
  | .descend => some []

/-- A call that walks from where the cursor says it is. -/
def CursorCall.walks : CursorCall → Bool
  | .setParent _ | .setCurrentParent _ => true
  | .setHandle _ | .descend => false

def CursorCall.saves : CursorCall → Bool
  | .setParent _ => true
  | _ => false

variable (server) in
theorem execute_rootWalk_savefh (conn : Conn α) (dir : Bytes) :
    server.execute conn (rootWalk dir ++ [.savefh]) =
      match lookupAll conn.world.tree conn.world.tree.root (pathComponents dir) with
      | .error status => .error (conn.world, status)
      | .ok c => .ok ⟨conn.world, some c, some c⟩ := by
  rw [execute_append, execute_rootWalk]
  cases lookupAll conn.world.tree conn.world.tree.root (pathComponents dir) with
  | error status => rfl
  | ok c => rfl

variable (server) in
/-- Every call is its walk from the root, or fails in a saved filehandle that is
not a directory. -/
theorem execute_call {call : CursorCall} (h : Standing cursor conn)
    (hse : call.walks = true → Settled cursor conn) (hst : cursor.call call = some step) :
    ∃ ops, call.rootOps = some ops ∧ (server.execute conn step.ops = server.execute conn ops ∨
      SavedFile cursor conn ∧ server.execute conn step.ops = .error (conn.world, .notdir)) := by
  cases call with
  | setParent path =>
    obtain ⟨⟨dir, leaf⟩, hs, rfl⟩ := map_eq_some_iff.mp hst
    refine ⟨rootWalk dir ++ [.savefh], by simp [rootOps, hs], ?_⟩
    have hw := execute_walkParent server dir h (hse rfl)
    dsimp only
    split
    · rename_i hsa
      obtain ⟨d, hd, hr⟩ := h.saved dir hsa
      rw [execute_rootWalk_savefh, lookupAll_eq_ok.mpr hr]
      rw [execute_rootWalk, lookupAll_eq_ok.mpr hr] at hw
      obtain ⟨world, current, saved⟩ := conn
      cases hd
      exact hw
    rw [execute_append, execute_append]
    rcases hw with hro | ⟨hf, he⟩
    · exact .inl (by rw [hro])
    · exact .inr ⟨hf, by rw [he]; rfl⟩
  | setCurrentParent path =>
    obtain ⟨⟨dir, leaf⟩, hs, rfl⟩ := map_eq_some_iff.mp hst
    exact ⟨rootWalk dir, by simp [rootOps, hs], execute_walkParent server dir h (hse rfl)⟩
  | setHandle fh =>
    obtain rfl := some.inj hst
    exact ⟨_, rfl, .inl rfl⟩
  | descend =>
    obtain rfl := some.inj hst
    exact ⟨_, rfl, .inl rfl⟩

/-- The current filehandle is what the call names, in the tree as it is. -/
def CursorCall.Names (conn : Conn α) : CursorCall → Prop
  | .setParent path | .setCurrentParent path => ∃ dir leaf d,
      splitPathBytes path = some (dir, leaf) ∧ conn.current = some d ∧
        conn.world.tree.resolve (pathComponents dir) = some d
  | .setHandle fh => conn.current = some fh
  | .descend => True

theorem CfhCursor.walkParent_cursor (cursor : CfhCursor) (dir : Bytes) :
    (cursor.walkParent dir).cursor.savedDir = cursor.savedDir ∧
      ((cursor.walkParent dir).cursor.atSaved = true → cursor.savedDir = some dir) := by
  unfold walkParent
  split
  · rename_i hsa
    split <;> exact ⟨rfl, fun _ => hsa⟩
  split
  · rename_i step hs
    unfold walkRelative at hs
    split at hs
    · cases hs
    dsimp only at hs
    split at hs
    · obtain rfl := some.inj hs
      exact ⟨rfl, fun h => absurd h Bool.false_ne_true⟩
    · cases hs
  · exact ⟨rfl, fun h => absurd h Bool.false_ne_true⟩

structure Called (call : CursorCall) (before cursor : CfhCursor) (conn conn' : Conn α) : Prop where
  standing : Standing cursor conn'
  settled : Settled cursor conn'
  names : call.Names conn'
  world : conn'.world = conn.world
  saves : call.saves = true → conn'.current = conn'.saved ∧ cursor.savedDir.isSome
  keeps : call.saves = false → conn'.saved = conn.saved ∧ cursor.savedDir = before.savedDir

theorem Standing.call {call : CursorCall} (h : Standing cursor conn)
    (hse : call.walks = true → Settled cursor conn) (hst : cursor.call call = some step)
    (hru : server.execute conn step.ops = .ok conn') :
    Called call cursor step.cursor conn conn' := by
  obtain ⟨ops, hops, he⟩ := execute_call server h hse hst
  have hr : server.execute conn ops = .ok conn' := by
    rcases he with heq | ⟨-, her⟩
    · rw [← heq, hru]
    · rw [hru] at her
      cases her
  cases call with
  | setParent path =>
    obtain ⟨⟨dir, leaf⟩, hsp, rfl⟩ := map_eq_some_iff.mp hst
    obtain rfl : rootWalk dir ++ [.savefh] = ops := by
      simpa [rootOps, hsp] using hops
    rw [execute_rootWalk_savefh] at hr
    cases hl : lookupAll conn.world.tree conn.world.tree.root (pathComponents dir) with
    | error status => rw [hl] at hr; cases hr
    | ok d =>
      rw [hl] at hr
      cases hr
      have hre : conn.world.tree.resolve (pathComponents dir) = some d := lookupAll_eq_ok.mp hl
      have hc : (if cursor.savedDir = some dir then cursor.walkParent dir
          else ⟨(cursor.walkParent dir).ops ++ [.savefh], (cursor.walkParent dir).count + 1,
            ⟨some dir, true⟩⟩ : CursorStep).cursor.savedDir = some dir := by
        split
        · rename_i hsame
          rw [(cursor.walkParent_cursor dir).1, hsame]
        · rfl
      refine ⟨⟨h.wellFormed, ?_⟩, fun _ => rfl, ⟨dir, leaf, d, hsp, rfl, hre⟩, rfl, ?_,
        fun hkp => nomatch hkp⟩
      · intro other ho
        rw [hc] at ho
        obtain rfl := some.inj ho
        exact ⟨d, rfl, hre⟩
      · intro _
        exact ⟨rfl, by rw [hc]; rfl⟩
  | setCurrentParent path =>
    obtain ⟨⟨dir, leaf⟩, hsp, rfl⟩ := map_eq_some_iff.mp hst
    obtain rfl : rootWalk dir = ops := by simpa [rootOps, hsp] using hops
    rw [execute_rootWalk] at hr
    obtain ⟨hsa, hat⟩ := cursor.walkParent_cursor dir
    cases hl : lookupAll conn.world.tree conn.world.tree.root (pathComponents dir) with
    | error status => rw [hl] at hr; cases hr
    | ok d =>
      rw [hl] at hr
      cases hr
      have hre : conn.world.tree.resolve (pathComponents dir) = some d := lookupAll_eq_ok.mp hl
      refine ⟨⟨h.wellFormed, ?_⟩, ?_, ⟨dir, leaf, d, hsp, rfl, hre⟩, rfl,
        fun hs => (nomatch hs), fun _ => ⟨rfl, hsa⟩⟩
      · intro other ho
        rw [hsa] at ho
        exact h.saved other ho
      intro ha
      obtain ⟨d', hd', hre'⟩ := h.saved dir (hat ha)
      rw [hre] at hre'
      change some d = conn.saved
      rw [hd', hre']
  | setHandle fh =>
    obtain rfl := some.inj hst
    obtain rfl := some.inj hops
    rw [execute_cons] at hr
    simp only [FileServer.step] at hr
    split at hr
    · cases hr
    rename_i middle hm
    split at hm
    · cases hm
      cases hr
      exact ⟨⟨h.wellFormed, h.saved⟩, fun hat => absurd hat Bool.false_ne_true, rfl, rfl,
        fun hs => (nomatch hs), fun _ => ⟨rfl, rfl⟩⟩
    · cases hm
  | descend =>
    obtain rfl := some.inj hst
    obtain rfl := some.inj hops
    cases hr
    exact ⟨⟨h.wellFormed, h.saved⟩, fun hat => absurd hat Bool.false_ne_true, trivial, rfl,
      fun hs => (nomatch hs), fun _ => ⟨rfl, rfl⟩⟩

end Calls

def ArgOp.isBuilders : ArgOp → Bool
  | .lookup _ | .getattr _ | .setattr .. | .nverifyType _ | .openFile _ | .getfh | .remove _
  | .rename .. => true
  | _ => false

/-- Those that move the current filehandle. -/
def ArgOp.moves : ArgOp → Bool
  | .lookup _ | .openFile _ => true
  | _ => false

def ArgOp.removes : ArgOp → Bool
  | .remove _ => true
  | _ => false

def ArgOp.renames : ArgOp → Bool
  | .rename .. => true
  | _ => false

/-- Those that only succeed with a directory as the current filehandle. -/
def ArgOp.needsDir : ArgOp → Bool
  | .lookup _ | .remove _ => true
  | .openFile args => args.file.isSome
  | _ => false

section Operations

variable {cursor : CfhCursor} {conn conn' : Conn α} {op : ArgOp}
  {w w' : World α} {c : NfsFh} {args : OpenArgs} {d : NfsFh} {name : Bytes}
  {t : NameTree NfsFh Bytes} {oldname newname : Bytes}

theorem performOn_tree (h : server.performOn w op c = .ok w') : w'.tree = w.tree := by
  unfold performOn at h
  split at h
  · cases h
  rename_i attrs _
  cases hp : server.perform op attrs with
  | error status => rw [hp] at h; cases h
  | ok attrs' => rw [hp] at h; cases h; rfl

theorem cfh_bind_ok {β : Type} {f : NfsFh → Except Status β} {b : β}
    (h : (conn.cfh >>= f) = .ok b) : ∃ d, conn.current = some d ∧ f d = .ok b := by
  rw [cfh] at h
  cases hc : conn.current with
  | none => rw [hc] at h; cases h
  | some d => rw [hc] at h; exact ⟨d, rfl, h⟩

theorem permits_bind_ok {β : Type} {x : Except Status β} {b : β} {fhs : List NfsFh}
    (h : (server.permits w op fhs >>= fun _ => x) = .ok b) : x = .ok b := by
  cases hp : server.permits w op fhs with
  | error status => rw [hp] at h; cases h
  | ok => rw [hp] at h; exact h

/-- An operation on the attributes of the current object moves nothing. -/
theorem stays_of_attributes (h : (do
      let c ← conn.cfh
      server.permits conn.world op [c]
      let w ← server.performOn conn.world op c
      Except.ok {conn with world := w}) = Except.ok conn') :
    conn'.current = conn.current ∧ conn'.saved = conn.saved ∧
      conn'.world.tree = conn.world.tree := by
  obtain ⟨d, -, h⟩ := cfh_bind_ok h
  replace h := permits_bind_ok h
  cases hw : server.performOn conn.world op d with
  | error status => rw [hw] at h; cases h
  | ok w =>
    rw [hw] at h
    cases h
    exact ⟨rfl, rfl, performOn_tree hw⟩

theorem openIn_ok (h : server.openIn w args d name = .ok (w', c)) :
    w.tree.isDir d = true ∧ (w'.tree = w.tree ∨ (w.tree.child d name = none ∧
      w.tree.isDir c = false ∧ w'.tree = w.tree.link d name c)) := by
  unfold openIn at h
  split at h
  · cases h
  rename_i hd
  refine ⟨by simpa using hd, ?_⟩
  split at h
  · rename_i c' hch
    split at h
    · cases h
    split at h
    · cases h
    cases hp : server.performOn w (.openFile args) c' with
    | error status => rw [hp] at h; cases h
    | ok w'' =>
      rw [hp] at h
      cases h
      exact .inl (performOn_tree hp)
  rename_i hch
  split at h
  · cases h
  split at h
  · cases h
  · rename_i ha
    cases h
    exact .inr ⟨hch, server.allocate_file w _ ha, rfl⟩

theorem removeIn_ok (h : removeIn w d name = .ok t) :
    w.tree.isDir d = true ∧ t = w.tree.unlink d name := by
  unfold removeIn at h
  split at h
  · cases h
  rename_i hd
  split at h
  · cases h
  split at h
  · cases h
    exact ⟨by simpa using hd, rfl⟩
  · cases h

/-- RENAME leaves the tree, or moves an entry over nothing that holds anything. -/
theorem renameIn_ok {s : NfsFh} (h : renameIn w s oldname d newname = .ok t) :
    w.tree.isDir s = true ∧ (t = w.tree ∨ ∃ c, w.tree.isDir d = true ∧
      w.tree.child s oldname = some c ∧
      (∀ x, w.tree.child d newname = some x → w.tree.isBare x = true) ∧
      t = w.tree.move s oldname d newname c) := by
  unfold renameIn at h
  split at h
  · cases h
  rename_i hdi
  obtain ⟨hs, hd⟩ : w.tree.isDir s = true ∧ w.tree.isDir d = true := by simpa using hdi
  refine ⟨hs, ?_⟩
  split at h
  · cases h
  rename_i c hch
  split at h
  · rename_i hf
    cases h
    refine .inr ⟨c, hd, hch, ?_, rfl⟩
    intro x hx
    rw [hf] at hx
    cases hx
  rename_i replaced hr
  split at h
  · cases h
    exact .inl rfl
  split at h
  · cases h
  split at h
  · rename_i hb
    cases h
    refine .inr ⟨c, hd, hch, ?_, rfl⟩
    intro x hx
    obtain rfl := some.inj (hr.symm.trans hx)
    exact hb
  · cases h

structure Operated (op : ArgOp) (cursor : CfhCursor) (conn conn' : Conn α) : Prop where
  standing : Standing cursor conn'
  saved : conn'.saved = conn.saved
  current : op.moves = false → conn'.current = conn.current
  isDir : ∀ d, conn'.world.tree.isDir d = conn.world.tree.isDir d
  currentDir : op.needsDir = true → ∀ d, conn.current = some d → conn.world.tree.isDir d = true
  savedDir : op.renames = true → ∀ d, conn.saved = some d → conn.world.tree.isDir d = true

theorem Operated.of_tree (h : Standing cursor conn) (ht : conn'.world.tree = conn.world.tree)
    (hsa : conn'.saved = conn.saved) (hcu : op.moves = false → conn'.current = conn.current)
    (hc : op.needsDir = true → ∀ d, conn.current = some d → conn.world.tree.isDir d = true)
    (hs : op.renames = true → ∀ d, conn.saved = some d → conn.world.tree.isDir d = true) :
    Operated op cursor conn conn' := by
  refine ⟨⟨?_, ?_⟩, hsa, hcu, fun d => by rw [ht], hc, hs⟩
  · rw [ht]
    exact h.wellFormed
  · rw [ht, hsa]
    exact h.saved

theorem step_lookup_ok (hr : server.step conn (.lookup name) = .ok conn') :
    ∃ d c, conn.current = some d ∧ conn.world.tree.child d name = some c ∧ conn' = conn.goto c := by
  simp only [step, cfh, Conn.lookup] at hr
  cases hc : conn.current with
  | none => rw [hc] at hr; cases hr
  | some d =>
    cases hch : conn.world.tree.child d name with
    | none =>
      rw [hc] at hr
      simp only [hch, bind, Except.bind] at hr
      split at hr
      · cases hr
      · rename_i heq
        split at heq <;> cases heq
    | some c =>
      have hd := isDir_of_child hch
      rw [hc] at hr
      simp only [hch, hd, bind, Except.bind, Bool.not_true, Bool.false_eq_true, if_false] at hr
      cases hr
      exact ⟨d, c, rfl, hch, rfl⟩

theorem step_remove_ok (hr : server.step conn (.remove name) = .ok conn') :
    ∃ d, conn.current = some d ∧ conn.world.tree.isDir d = true ∧
      conn'.world.tree = conn.world.tree.unlink d name ∧ conn'.current = conn.current ∧
      conn'.saved = conn.saved := by
  obtain ⟨d, hc, hr⟩ := cfh_bind_ok hr
  replace hr := permits_bind_ok hr
  cases ht : removeIn conn.world d name with
  | error status => rw [ht] at hr; cases hr
  | ok t =>
    rw [ht] at hr
    cases hr
    obtain ⟨hd, rfl⟩ := removeIn_ok ht
    exact ⟨d, hc, hd, rfl, rfl, rfl⟩

theorem step_rename_ok (hr : server.step conn (.rename oldname newname) = .ok conn') :
    ∃ s d, conn.saved = some s ∧ conn.current = some d ∧
      renameIn conn.world s oldname d newname = .ok conn'.world.tree ∧
      conn'.current = conn.current ∧ conn'.saved = conn.saved := by
  obtain ⟨d, hc, hr⟩ := cfh_bind_ok hr
  cases hs : conn.saved with
  | none => rw [sfh, hs] at hr; cases hr
  | some s =>
    rw [sfh, hs] at hr
    replace hr := permits_bind_ok hr
    cases ht : renameIn conn.world s oldname d newname with
    | error status => rw [ht] at hr; cases hr
    | ok t =>
      rw [ht] at hr
      cases hr
      exact ⟨s, d, rfl, hc, ht, rfl, rfl⟩

theorem step_openFile_ok (hr : server.step conn (.openFile args) = .ok conn') :
    conn'.saved = conn.saved ∧ ∃ d, conn.current = some d ∧
      (args.file.isSome = true → conn.world.tree.isDir d = true) ∧
      (conn'.world.tree = conn.world.tree ∨ ∃ name c, conn.world.tree.isDir d = true ∧
        conn.world.tree.child d name = none ∧ conn.world.tree.isDir c = false ∧
        conn'.world.tree = conn.world.tree.link d name c) := by
  obtain ⟨d, hc, hr⟩ := cfh_bind_ok hr
  replace hr := permits_bind_ok hr
  simp only [bind, Except.bind] at hr
  split at hr
  · rename_i hcl
    split at hr
    · cases hr
    rename_i w hw
    cases hr
    refine ⟨rfl, d, hc, ?_, .inl (performOn_tree hw)⟩
    intro hf
    rw [hcl] at hf
    cases hf
  rename_i name _
  split at hr
  · cases hr
  rename_i opened ho
  cases hr
  obtain ⟨hd, hs | ⟨hfr, hf, hl⟩⟩ := openIn_ok ho
  · exact ⟨rfl, d, hc, fun _ => hd, .inl hs⟩
  · exact ⟨rfl, d, hc, fun _ => hd, .inr ⟨name, _, hd, hfr, hf, hl⟩⟩

theorem Operated.of_attributes (h : Standing cursor conn)
    (hn : op.needsDir = false) (hr : op.renames = false) (hru : (do
      let c ← conn.cfh
      server.permits conn.world op [c]
      let w ← server.performOn conn.world op c
      Except.ok {conn with world := w}) = Except.ok conn') : Operated op cursor conn conn' := by
  obtain ⟨hc, hs, ht⟩ := stays_of_attributes hru
  refine .of_tree h ht hs (fun _ => hc) ?_ ?_
  · intro hd
    rw [hn] at hd
    cases hd
  · intro hd
    rw [hr] at hd
    cases hd

/-- The builders' operations keep the saved directory at its path. REMOVE is
appended with the saved directory current. -/
theorem Standing.operate (h : Standing cursor conn) (hop : op.isBuilders = true)
    (hremoves : op.removes = true → conn.current = conn.saved)
    (hru : server.step conn op = .ok conn') : Operated op cursor conn conn' := by
  cases op with
  | lookup name =>
    obtain ⟨d, c, hcur, hch, rfl⟩ := step_lookup_ok hru
    refine .of_tree h rfl rfl (fun hm => nomatch hm) ?_ fun hr => nomatch hr
    intro _ d' hd'
    obtain rfl := some.inj (hcur.symm.trans hd')
    exact isDir_of_child hch
  | getattr attrs => exact .of_attributes h rfl rfl hru
  | setattr attrs stateid => exact .of_attributes h rfl rfl hru
  | nverifyType ftype => exact .of_attributes h rfl rfl hru
  | getfh => exact .of_attributes h rfl rfl hru
  | openFile args =>
    obtain ⟨hsa, d, hcur, hn, ht⟩ := step_openFile_ok hru
    have hcu : args.file.isSome = true → ∀ d, conn.current = some d →
        conn.world.tree.isDir d = true := by
      intro hf d' hd'
      obtain rfl := some.inj (hcur.symm.trans hd')
      exact hn hf
    rcases ht with ht | ⟨name, c, hd, hfr, hf, ht⟩
    · exact .of_tree h ht hsa (fun hm => nomatch hm) hcu fun hr => nomatch hr
    refine ⟨⟨?_, ?_⟩, hsa, fun hm => (nomatch hm), fun x => ?_, hcu, fun hr => nomatch hr⟩
    · rw [ht]
      exact h.wellFormed.link hd hf
    · intro dir hc
      obtain ⟨s, hs, hre⟩ := h.saved dir hc
      rw [ht, hsa]
      exact ⟨s, hs, resolve_link hre hd hfr⟩
    · rw [ht, isDir_link]
  | remove name =>
    obtain ⟨d, hcur, hd, ht, hcur', hsa⟩ := step_remove_ok hru
    refine ⟨⟨?_, ?_⟩, hsa, fun _ => hcur', fun x => ?_, ?_, fun hr => nomatch hr⟩
    · rw [ht]
      exact h.wellFormed.unlink
    · intro dir hc
      obtain ⟨s, hs, hre⟩ := h.saved dir hc
      obtain rfl : d = s := by
        have := hremoves rfl
        rw [hcur, hs] at this
        exact some.inj this
      rw [ht, hsa]
      exact ⟨d, hs, h.wellFormed.resolve_unlink hre hd⟩
    · rw [ht, isDir_unlink]
    · intro _ d' hd'
      obtain rfl := some.inj (hcur.symm.trans hd')
      exact hd
  | rename oldname newname =>
    obtain ⟨s, d, hs, hcur, hren, hcur', hsa⟩ := step_rename_ok hru
    obtain ⟨hsd, hmv⟩ := renameIn_ok hren
    have hsavedDir : ∀ d, conn.saved = some d → conn.world.tree.isDir d = true := by
      intro s' hs'
      obtain rfl := some.inj (hs.symm.trans hs')
      exact hsd
    rcases hmv with ht | ⟨c, hd, hch, hb, ht⟩
    · exact .of_tree h ht hsa (fun _ => hcur') (fun hn => nomatch hn) fun _ => hsavedDir
    refine ⟨⟨?_, ?_⟩, hsa, fun _ => hcur', fun x => ?_, fun hn => (nomatch hn), fun _ => hsavedDir⟩
    · rw [ht]
      exact h.wellFormed.move hd hch
    · intro dir hc
      obtain ⟨s', hs', hre⟩ := h.saved dir hc
      obtain rfl : s = s' := some.inj (hs.symm.trans hs')
      rw [ht, hsa]
      exact ⟨s, hs, h.wellFormed.resolve_move hre hch hd hb⟩
    · rw [ht, isDir_move]
  | _ => cases hop

end Operations

end Vnfs
