import Vnfs.CfhCursorWalk

/-!
Whole compounds of the merged builders. Between its items a builder follows a
discipline: it walks only with the cursor settled, that is after a call and
without having moved the current filehandle since, and it appends REMOVE only
with the saved directory current. Any steps that follow it keep the cursor
right. An item then does what it does in a compound of its own that walks from
the root.
-/

namespace Vnfs

open FileServer CfhCursor CursorCall Option List

variable {α : Type} {server : FileServer α}

/-- What a builder may rely on. -/
structure Phase where
  /-- The cursor knows whether the current filehandle is the saved one. -/
  settled : Bool
  /-- The current filehandle is the saved one. -/
  atParent : Bool
  /-- The saved filehandle has proved to be a directory. -/
  inDir : Bool
  deriving DecidableEq, Repr

namespace Phase

def allows (phase : Phase) : BuildStep → Bool
  | .call call => !call.walks || phase.settled
  | .op op => op.isBuilders && (!op.removes || phase.atParent)

def next (phase : Phase) : BuildStep → Phase
  | .call (.setParent _) => ⟨true, true, false⟩
  | .call _ => ⟨true, false, phase.inDir⟩
  | .op op => ⟨phase.settled && !op.moves, phase.atParent && !op.moves,
      phase.inDir || (op.needsDir && phase.atParent) || op.renames⟩

/-- The phase behind a list of steps, if each is allowed where it stands. -/
def follow (phase : Phase) : List BuildStep → Option Phase
  | [] => some phase
  | first :: rest => if phase.allows first then (phase.next first).follow rest else none

theorem follow_append (phase : Phase) (steps rest : List BuildStep) :
    phase.follow (steps ++ rest) = (phase.follow steps).bind fun last => last.follow rest := by
  induction steps generalizing phase with
  | nil => rfl
  | cons first steps ih =>
    simp only [cons_append, follow]
    split
    · exact ih _
    · rfl

end Phase

/-- The phase of a builder is right about the compound. -/
structure Holds (phase : Phase) (cursor : CfhCursor) (conn : Conn α) : Prop where
  standing : Standing cursor conn
  settled : phase.settled = true → Settled cursor conn
  atParent : phase.atParent = true → conn.current = conn.saved ∧ cursor.savedDir.isSome
  inDir : phase.inDir = true → ∀ dir, cursor.savedDir = some dir →
    ∃ d, conn.saved = some d ∧ conn.world.tree.isDir d = true

section Follow

variable {phase : Phase} {cursor cursor' : CfhCursor} {conn conn' : Conn α}

theorem Holds.call {call : CursorCall} {step : CursorStep} (h : Holds phase cursor conn)
    (ha : phase.allows (.call call) = true) (hst : cursor.call call = some step)
    (hr : server.execute conn step.ops = .ok conn') :
    Called call cursor step.cursor conn conn' ∧
      Holds (phase.next (.call call)) step.cursor conn' := by
  have hc := h.standing.call (by
    intro hwk
    apply h.settled
    simpa [Phase.allows, hwk] using ha) hst hr
  refine ⟨hc, hc.standing, fun _ => hc.settled, ?_, ?_⟩
  · intro hp
    apply hc.saves
    cases call with
    | setParent path => rfl
    | setCurrentParent path => cases hp
    | setHandle fh => cases hp
    | descend => cases hp
  intro hi dir hd
  have hph : call.saves = false ∧ phase.inDir = true := by
    cases call with
    | setParent path => cases hi
    | setCurrentParent path => exact ⟨rfl, hi⟩
    | setHandle fh => exact ⟨rfl, hi⟩
    | descend => exact ⟨rfl, hi⟩
  obtain ⟨hs, hcu⟩ := hc.keeps hph.1
  rw [hc.world, hs]
  rw [hcu] at hd
  exact h.inDir hph.2 dir hd

theorem Holds.operate {op : ArgOp} (h : Holds phase cursor conn) (ha : phase.allows (.op op) = true)
    (hru : server.step conn op = .ok conn') : Holds (phase.next (.op op)) cursor conn' := by
  obtain ⟨hb, hr⟩ := Bool.and_eq_true_iff.mp ha
  have ho := h.standing.operate hb (by
    intro hop
    apply And.left
    apply h.atParent
    simpa [hop] using hr) hru
  refine ⟨ho.standing, ?_, ?_, ?_⟩
  · intro hs hat
    obtain ⟨hph, hm⟩ : phase.settled = true ∧ op.moves = false := by
      simpa [Phase.next] using hs
    rw [ho.saved, ho.current hm]
    exact h.settled hph hat
  · intro hp
    obtain ⟨hph, hm⟩ : phase.atParent = true ∧ op.moves = false := by
      simpa [Phase.next] using hp
    rw [ho.saved, ho.current hm]
    exact h.atParent hph
  intro hi dir hdi
  rw [ho.saved]
  simp only [Phase.next, Bool.or_eq_true, Bool.and_eq_true] at hi
  obtain ⟨d, hd, -⟩ := h.standing.saved dir hdi
  refine ⟨d, hd, ?_⟩
  rw [ho.isDir]
  rcases hi with (hph | ⟨hn, hp⟩) | hre
  · obtain ⟨d', hd', his⟩ := h.inDir hph dir hdi
    obtain rfl := Option.some.inj (hd.symm.trans hd')
    exact his
  · apply ho.currentDir hn
    rw [(h.atParent hp).1, hd]
  · exact ho.savedDir hre d hd

variable {ops : List ArgOp} {w : World α}

/-- Steps that follow the discipline keep the cursor right. -/
theorem Holds.follow {steps : List BuildStep} {last : Phase} (h : Holds phase cursor conn)
    (hfo : phase.follow steps = some last) (he : cursor.emit steps = (ops, some cursor'))
    (hr : server.execute conn ops = .ok conn') : Holds last cursor' conn' := by
  induction steps generalizing phase cursor conn ops with
  | nil =>
    cases hfo
    cases he
    cases hr
    exact h
  | cons first rest ih =>
    simp only [Phase.follow] at hfo
    split at hfo
    · rename_i ha
      cases first with
      | call call =>
        simp only [emit] at he
        cases hc : cursor.call call with
        | none => rw [hc] at he; cases he
        | some step =>
          rw [hc] at he
          obtain ⟨rfl, hl⟩ := Prod.mk.inj he
          rw [execute_append] at hr
          cases hf : server.execute conn step.ops with
          | error e => rw [hf] at hr; cases hr
          | ok middle =>
            rw [hf] at hr
            obtain ⟨-, hn⟩ := h.call ha hc hf
            exact ih hn hfo (Prod.ext rfl hl) hr
      | op op =>
        obtain ⟨rfl, hl⟩ := Prod.mk.inj he
        obtain ⟨middle, hf, hr⟩ := execute_cons_ok hr
        exact ih (h.operate ha hf) hfo (Prod.ext rfl hl) hr
    · cases hfo

def between : Phase := ⟨true, false, true⟩

theorem follow_steps (item : PathItem) {phase : Phase} (hs : phase.settled = true)
    (hi : phase.inDir = true) : ∃ last, phase.follow item.steps = some last ∧
      last.settled = true ∧ last.inDir = true := by
  obtain ⟨settled, atParent, inDir⟩ := phase
  cases hs
  cases hi
  cases item with
  | getattr file attrs => cases file <;> exact ⟨_, rfl, rfl, rfl⟩
  | setattr file check attrs => cases file <;> cases check <;> exact ⟨_, rfl, rfl, rfl⟩
  | openFile op => exact ⟨_, rfl, rfl, rfl⟩
  | remove path => exact ⟨_, rfl, rfl, rfl⟩
  | rename src dst => exact ⟨_, rfl, rfl, rfl⟩

theorem follow_items (items : List PathItem) (phase : Phase)
    (hs : phase.settled = true) (hi : phase.inDir = true) :
    ∃ last, phase.follow (items.flatMap PathItem.steps) = some last := by
  induction items generalizing phase with
  | nil => exact ⟨_, rfl⟩
  | cons item rest ih =>
    obtain ⟨middle, hm, hs', hi'⟩ := follow_steps item hs hi
    obtain ⟨last, hl⟩ := ih middle hs' hi'
    refine ⟨last, ?_⟩
    rw [flatMap_cons, Phase.follow_append, hm]
    exact hl

theorem holds_start (hwf : w.tree.WellFormed) : Holds between {} (⟨w, none, none⟩ : Conn α) where
  standing := ⟨hwf, fun _ h => nomatch h⟩
  settled _ h := nomatch h
  atParent h := nomatch h
  inDir _ _ h := nomatch h

theorem called_of_prefix (hwf : w.tree.WellFormed) {items : List PathItem}
    {front back : List BuildStep} {call : CursorCall}
    (hs : items.flatMap PathItem.steps = front ++ .call call :: back)
    (he : emit {} (front ++ [.call call]) = (ops, some cursor))
    (hru : server.execute ⟨w, none, none⟩ ops = .ok conn) :
    Standing cursor conn ∧ Settled cursor conn ∧ call.Names conn := by
  obtain ⟨last, hfo⟩ := follow_items items between rfl rfl
  rw [hs, Phase.follow_append] at hfo
  obtain ⟨middle, hm, hr⟩ := bind_eq_some_iff.mp hfo
  simp only [Phase.follow] at hr
  split at hr
  · rename_i ha
    rw [emit_append] at he
    cases hfr : emit {} front with
    | mk frontOps frontCursor =>
      rw [hfr] at he
      cases frontCursor with
      | none => cases he
      | some cursor₁ =>
        simp only [emit] at he
        cases hc : cursor₁.call call with
        | none => rw [hc] at he; cases he
        | some step =>
          rw [hc] at he
          cases he
          dsimp only at hru
          rw [append_nil, execute_append] at hru
          cases hf : server.execute ⟨w, none, none⟩ frontOps with
          | error e => rw [hf] at hru; cases hru
          | ok conn₁ =>
            rw [hf] at hru
            have hh := (holds_start hwf).follow hm hfr hf
            obtain ⟨hcl, -⟩ := hh.call ha hc hru
            exact ⟨hcl.standing, hcl.settled, hcl.names⟩
  · cases hr

end Follow

/-- The operations of a list of steps with every walk from the root; false if a
path was rejected. -/
def rootEmit : List BuildStep → List ArgOp × Bool
  | [] => ([], true)
  | .call call :: rest =>
    match call.rootOps with
    | none => ([], false)
    | some ops =>
      let (more, complete) := rootEmit rest
      (ops ++ more, complete)
  | .op op :: rest =>
    let (more, complete) := rootEmit rest
    (op :: more, complete)

variable (server) in
/-- The items of one compound, with the first that fails. Rejected paths fail in
the client, behind what was appended for them. -/
def mergedOutcome : Nat → CfhCursor → Conn α → List PathItem → World α × Option (Nat × Status)
  | _, _, conn, [] => (conn.world, none)
  | index, cursor, conn, item :: rest =>
    match server.execute conn (cursor.emit item.steps).1, (cursor.emit item.steps).2 with
    | .error (w, status), _ => (w, some (index, status))
    | .ok conn, none => (conn.world, some (index, .inval))
    | .ok conn, some cursor => mergedOutcome (index + 1) cursor conn rest

variable (server) in
/-- The items one after another, each in a compound of its own. -/
def separateOutcome : Nat → World α → List PathItem → World α × Option (Nat × Status)
  | _, w, [] => (w, none)
  | index, w, item :: rest =>
    match server.execute ⟨w, none, none⟩ (rootEmit item.steps).1, (rootEmit item.steps).2 with
    | .error (w, status), _ => (w, some (index, status))
    | .ok conn, false => (conn.world, some (index, .inval))
    | .ok conn, true => separateOutcome (index + 1) conn.world rest

/-- The parent of the source of a RENAME is there and not a directory. -/
def RenamesFromFile (w : World α) (item : PathItem) : Prop :=
  ∃ src dst dir leaf d, item = .rename src dst ∧ splitPathBytes src = some (dir, leaf) ∧
    w.tree.resolve (pathComponents dir) = some d ∧ w.tree.isDir d = false

/-- The same effects, and the same failure but for a RENAME out of a file. -/
def Agree (item : PathItem) : Except (World α × Status) (Conn α) →
    Except (World α × Status) (Conn α) → Prop
  | .ok conn, .ok conn' => conn.world = conn'.world
  | .error (w, status), .error (w', status') =>
    w = w' ∧ (status = status' ∨ status = .notdir ∧ RenamesFromFile w item)
  | _, _ => False

theorem Agree.refl (item : PathItem) (outcome : Except (World α × Status) (Conn α)) :
    Agree item outcome outcome := by
  cases outcome with
  | ok conn => rfl
  | error e => exact ⟨rfl, .inl rfl⟩

section Equivalence

variable {phase : Phase} {cursor : CfhCursor} {conn : Conn α} {item : PathItem}

theorem call_isSome (cursor : CfhCursor) (call : CursorCall) :
    (cursor.call call).isSome = call.rootOps.isSome := by
  cases call with
  | setParent path => simp [CfhCursor.call, CfhCursor.setParent, rootOps]
  | setCurrentParent path => simp [CfhCursor.call, CfhCursor.setCurrentParent, rootOps]
  | setHandle fh => rfl
  | descend => rfl

variable {step : CursorStep} {ops : List ArgOp} {dir leaf : Bytes}

variable {call : CursorCall}

theorem emit_call (hc : cursor.call call = some step) (rest : List BuildStep) :
    (cursor.emit (.call call :: rest)).1 = step.ops ++ (step.cursor.emit rest).1 := by
  simp only [emit, hc]

theorem emit_call_none (hc : cursor.call call = none) (rest : List BuildStep) :
    (cursor.emit (.call call :: rest)).1 = [] := by
  simp only [emit, hc]

theorem rootEmit_call (ho : call.rootOps = some ops) (rest : List BuildStep) :
    (rootEmit (.call call :: rest)).1 = ops ++ (rootEmit rest).1 := by
  simp only [rootEmit, ho]

theorem rootEmit_call_none (ho : call.rootOps = none) (rest : List BuildStep) :
    (rootEmit (.call call :: rest)).1 = [] := by
  simp only [rootEmit, ho]

theorem emit_isSome (cursor : CfhCursor) (steps : List BuildStep) :
    (cursor.emit steps).2.isSome = (rootEmit steps).2 := by
  induction steps generalizing cursor with
  | nil => rfl
  | cons first rest ih =>
    cases first with
    | call call =>
      have hs := call_isSome cursor call
      simp only [emit, rootEmit]
      cases hc : cursor.call call with
      | none =>
        rw [hc] at hs
        cases hr : call.rootOps with
        | none => rfl
        | some ops => rw [hr] at hs; cases hs
      | some step =>
        rw [hc] at hs
        cases hr : call.rootOps with
        | none => rw [hr] at hs; cases hs
        | some ops => exact ih step.cursor
    | op op => exact ih cursor

def BuildStep.walks : BuildStep → Bool
  | .call made => made.walks
  | .op _ => false

theorem emit_eq_rootEmit (cursor : CfhCursor) {steps : List BuildStep}
    (hst : ∀ step ∈ steps, step.walks = false) : (cursor.emit steps).1 = (rootEmit steps).1 := by
  induction steps generalizing cursor with
  | nil => rfl
  | cons first rest ih =>
    have hr := fun cursor => ih cursor fun step hs => hst step (by simp [hs])
    have hf := hst first (by simp)
    cases first with
    | call call =>
      cases call with
      | setParent path => cases hf
      | setCurrentParent path => cases hf
      | setHandle fh =>
        simp only [emit, CfhCursor.call, CfhCursor.setHandle, rootEmit, rootOps, hr]
      | descend =>
        simp only [emit, CfhCursor.call, CfhCursor.descend, rootEmit, rootOps, hr]
    | op op => simp only [emit, rootEmit, hr]

variable (server) in
/-- A parent reached between items is the same connection as from the root. -/
theorem execute_setParent (h : Holds phase cursor conn) (hse : phase.settled = true)
    (hi : phase.inDir = true) {path : Bytes} (hsp : splitPathBytes path = some (dir, leaf))
    (hst : cursor.call (.setParent path) = some step) :
    server.execute conn step.ops =
      server.execute ⟨conn.world, none, none⟩ (rootWalk dir ++ [.savefh]) := by
  obtain ⟨ops, ho, he⟩ := execute_call server h.standing (fun _ => h.settled hse) hst
  obtain rfl : rootWalk dir ++ [.savefh] = ops := by
    simpa [rootOps, hsp] using ho
  have hr : server.execute conn (rootWalk dir ++ [.savefh]) =
      server.execute ⟨conn.world, none, none⟩ (rootWalk dir ++ [.savefh]) := by
    rw [execute_rootWalk_savefh, execute_rootWalk_savefh]
  rcases he with heq | ⟨⟨savedDir, d, hs, hd, hf⟩, -⟩
  · rw [heq, hr]
  obtain ⟨d', hd', hdi⟩ := h.inDir hi savedDir hs
  obtain rfl := Option.some.inj (hd.symm.trans hd')
  rw [hf] at hdi
  cases hdi

theorem agree_setParent (h : Holds phase cursor conn) (hse : phase.settled = true)
    (hi : phase.inDir = true) (path : Bytes) {rest : List BuildStep}
    (hr : ∀ step ∈ rest, step.walks = false) :
    Agree item (server.execute conn (cursor.emit (.call (.setParent path) :: rest)).1)
      (server.execute ⟨conn.world, none, none⟩ (rootEmit (.call (.setParent path) :: rest)).1) := by
  cases hs : splitPathBytes path with
  | none =>
    rw [emit_call_none (by simp [CfhCursor.call, CfhCursor.setParent, hs]),
      rootEmit_call_none (by simp [rootOps, hs])]
    exact rfl
  | some split =>
    obtain ⟨dir, leaf⟩ := split
    obtain ⟨step, hst⟩ : ∃ step, cursor.call (.setParent path) = some step :=
      isSome_iff_exists.mp (by simp [CfhCursor.call, CfhCursor.setParent, hs])
    have ho : (CursorCall.setParent path).rootOps = some (rootWalk dir ++ [.savefh]) := by
      simp [rootOps, hs]
    rw [emit_call hst, rootEmit_call ho, execute_append, execute_append,
      execute_setParent server h hse hi hs hst, emit_eq_rootEmit _ hr]
    exact Agree.refl ..

def ArgOp.onAttributes : ArgOp → Bool
  | .getattr _ | .setattr .. | .nverifyType _ => true
  | _ => false

variable (server) in
theorem step_attributes (w : World α) (current : Option NfsFh) {op : ArgOp}
    (hop : op.onAttributes = true) : ∃ outcome : Except Status (World α),
      ∀ saved, server.step ⟨w, current, saved⟩ op = outcome.map fun w => ⟨w, current, saved⟩ := by
  have hg : ∃ outcome : Except Status (World α), ∀ saved, (do
      let c ← Conn.cfh ⟨w, current, saved⟩
      server.permits w op [c]
      let w ← server.performOn w op c
      Except.ok (⟨w, current, saved⟩ : Conn α)) = outcome.map fun w => ⟨w, current, saved⟩ := by
    cases current with
    | none => exact ⟨.error .nofilehandle, fun _ => rfl⟩
    | some c =>
      cases hp : server.permits w op [c] with
      | error status => exact ⟨.error status, fun _ => by simp [Conn.cfh, hp, bind,
          Except.bind, Except.map]⟩
      | ok u => exact ⟨server.performOn w op c, fun _ => by
          cases hpe : server.performOn w op c <;>
            simp [Conn.cfh, hp, hpe, bind, Except.bind, Except.map]⟩
  cases op with
  | getattr attrs => exact hg
  | setattr attrs stateid => exact hg
  | nverifyType ftype => exact hg
  | _ => cases hop

variable (server) in
theorem agree_attributes (ho : ∀ op ∈ ops, op.onAttributes = true) (saved saved' : Option NfsFh)
    (w : World α) (current : Option NfsFh) :
    Agree item (server.execute ⟨w, current, saved⟩ ops)
      (server.execute ⟨w, current, saved'⟩ ops) := by
  induction ops generalizing w with
  | nil => exact rfl
  | cons op rest ih =>
    obtain ⟨outcome, hs⟩ := step_attributes server w current (ho op (by simp))
    rw [execute_cons, execute_cons, hs, hs]
    cases outcome with
    | error status => exact ⟨rfl, .inl rfl⟩
    | ok w' => exact ih (fun op hop => ho op (by simp [hop])) w'

theorem agree_setHandle (fh : NfsFh) (ho : ∀ op ∈ ops, op.onAttributes = true) :
    Agree item (server.execute conn (.putfh fh :: ops))
      (server.execute ⟨conn.world, none, none⟩ (.putfh fh :: ops)) := by
  rw [execute_cons, execute_cons]
  simp only [FileServer.step]
  cases hkn : (conn.world.attrs fh).isSome with
  | false => exact ⟨rfl, .inl rfl⟩
  | true => exact agree_attributes server ho ..

variable (server) in
theorem step_rename_savedFile (h : Standing cursor conn) (hf : SavedFile cursor conn)
    (oldname newname : Bytes) :
    ∃ status, server.step conn (.rename oldname newname) = .error status := by
  obtain ⟨dir, d, -, hd, hn⟩ := hf
  cases hs : server.step conn (.rename oldname newname) with
  | error status => exact ⟨status, rfl⟩
  | ok conn' =>
    have ho := h.operate rfl (by intro hr; cases hr) hs
    have hdi := ho.savedDir rfl d hd
    rw [hn] at hdi
    cases hdi

/-- The only walk that can differ: up from a source parent that is not a directory. -/
theorem agree_setCurrentParent {src dst : Bytes} {d : NfsFh} (h : Standing cursor conn)
    (hse : Settled cursor conn) (hsa : conn.saved = some d)
    (hsr : splitPathBytes src = some (dir, leaf))
    (hre : conn.world.tree.resolve (pathComponents dir) = some d) :
    Agree (.rename src dst) (server.execute conn (cursor.emit [.call (.setCurrentParent dst),
        .op (.rename (leafOf src) (leafOf dst)), .call .descend]).1)
      (server.execute conn (rootEmit [.call (.setCurrentParent dst),
        .op (.rename (leafOf src) (leafOf dst)), .call .descend]).1) := by
  cases hd : splitPathBytes dst with
  | none =>
    rw [emit_call_none (by simp [CfhCursor.call, CfhCursor.setCurrentParent, hd]),
      rootEmit_call_none (by simp [rootOps, hd])]
    exact rfl
  | some split =>
    obtain ⟨dir', leaf'⟩ := split
    obtain ⟨step, hs⟩ : ∃ step, cursor.call (.setCurrentParent dst) = some step :=
      isSome_iff_exists.mp (by simp [CfhCursor.call, CfhCursor.setCurrentParent, hd])
    obtain ⟨ops, ho, he⟩ := execute_call server h (fun _ => hse) hs
    rw [emit_call hs, rootEmit_call ho, execute_append, execute_append,
      emit_eq_rootEmit _ (by simp [BuildStep.walks, walks])]
    rcases he with heq | ⟨hf, her⟩
    · rw [heq]
      exact Agree.refl ..
    obtain rfl : rootWalk dir' = ops := by
      simpa [rootOps, hd] using ho
    have hc : RenamesFromFile conn.world (.rename src dst) := by
      obtain ⟨_, d', -, hd', hn⟩ := hf
      obtain rfl := Option.some.inj (hsa.symm.trans hd')
      exact ⟨src, dst, dir, leaf, d, rfl, hsr, hre, hn⟩
    rw [her, execute_rootWalk]
    cases lookupAll conn.world.tree conn.world.tree.root (pathComponents dir') with
    | error status => exact ⟨rfl, .inr ⟨rfl, hc⟩⟩
    | ok c =>
      have hst : Standing cursor (conn.goto c) := ⟨h.wellFormed, h.saved⟩
      obtain ⟨status, hr⟩ := step_rename_savedFile server hst hf (leafOf src) (leafOf dst)
      simp only [rootEmit, rootOps, Except.bind, nil_append]
      rw [execute_cons, hr]
      exact ⟨rfl, .inr ⟨rfl, hc⟩⟩

theorem agree_rename (h : Holds phase cursor conn) (hse : phase.settled = true)
    (hi : phase.inDir = true) (src dst : Bytes) :
    Agree (.rename src dst) (server.execute conn (cursor.emit (PathItem.rename src dst).steps).1)
      (server.execute ⟨conn.world, none, none⟩ (rootEmit (PathItem.rename src dst).steps).1) := by
  unfold PathItem.steps
  cases hs : splitPathBytes src with
  | none =>
    rw [emit_call_none (by simp [CfhCursor.call, CfhCursor.setParent, hs]),
      rootEmit_call_none (by simp [rootOps, hs])]
    exact rfl
  | some split =>
    obtain ⟨dir, leaf⟩ := split
    obtain ⟨step, hst⟩ : ∃ step, cursor.call (.setParent src) = some step :=
      isSome_iff_exists.mp (by simp [CfhCursor.call, CfhCursor.setParent, hs])
    have ho : (CursorCall.setParent src).rootOps = some (rootWalk dir ++ [.savefh]) := by
      simp [rootOps, hs]
    have hw := execute_setParent server h hse hi hs hst
    rw [emit_call hst, rootEmit_call ho, execute_append, execute_append, hw]
    cases hf : server.execute ⟨conn.world, none, none⟩ (rootWalk dir ++ [.savefh]) with
    | error e => exact Agree.refl ..
    | ok conn₁ =>
      rw [hf] at hw
      have ha : phase.allows (.call (.setParent src)) = true := by
        simp [Phase.allows, hse]
      obtain ⟨hc, -⟩ := h.call ha hst hw
      obtain ⟨dir', leaf', d, hsplit', hcu, hr⟩ := hc.names
      obtain ⟨rfl, rfl⟩ : dir = dir' ∧ leaf = leaf' := by
        simpa [hs] using hsplit'
      have hsa : conn₁.saved = some d := by rw [← (hc.saves rfl).1, hcu]
      exact agree_setCurrentParent hc.standing hc.settled hsa hs hr

variable (server) in
theorem item_agree (h : Holds phase cursor conn) (hs : phase.settled = true)
    (hi : phase.inDir = true) (item : PathItem) :
    Agree item (server.execute conn (cursor.emit item.steps).1)
      (server.execute ⟨conn.world, none, none⟩ (rootEmit item.steps).1) := by
  cases item with
  | getattr file attrs =>
    cases file with
    | path target =>
      apply agree_setParent h hs hi target
      simp [BuildStep.walks, walks]
    | handle fh =>
      exact agree_setHandle fh (by simp [CfhCursor.descend, ArgOp.onAttributes])
  | setattr file check attrs =>
    cases file with
    | path target =>
      apply agree_setParent h hs hi target
      cases check <;> simp [TypeCheck.steps, BuildStep.walks, walks]
    | handle fh =>
      cases check <;>
        exact agree_setHandle fh (by simp [CfhCursor.descend, ArgOp.onAttributes])
  | openFile op =>
    exact agree_setParent h hs hi op.path (by simp [BuildStep.walks, walks])
  | remove path => exact agree_setParent h hs hi path (by simp [BuildStep.walks])
  | rename src dst => exact agree_rename h hs hi src dst

/-- The same effects and the same failing item, with the same status but for a
RENAME out of a file. -/
def SameOutcome (index : Nat) (items : List PathItem)
    (merged separate : World α × Option (Nat × Status)) : Prop :=
  merged.1 = separate.1 ∧ (merged.2 = separate.2 ∨ ∃ offset item status,
    items[offset]? = some item ∧ RenamesFromFile merged.1 item ∧
      merged.2 = some (index + offset, .notdir) ∧ separate.2 = some (index + offset, status))

theorem SameOutcome.cons {index : Nat} {items : List PathItem}
    {merged separate : World α × Option (Nat × Status)}
    (h : SameOutcome (index + 1) items merged separate) (item : PathItem) :
    SameOutcome index (item :: items) merged separate := by
  obtain ⟨hw, hsa | ⟨offset, failing, status, hi, hc, hm, hs⟩⟩ := h
  · exact ⟨hw, .inl hsa⟩
  · rw [Nat.add_assoc, Nat.add_comm 1 offset] at hm hs
    exact ⟨hw, .inr ⟨offset + 1, failing, status, hi, hc, hm, hs⟩⟩

/-- The items of a compound, from any point between two of them. -/
theorem mergedOutcome_sameOutcome (h : Holds phase cursor conn) (hse : phase.settled = true)
    (hi : phase.inDir = true) (index : Nat) (items : List PathItem) :
    SameOutcome index items (mergedOutcome server index cursor conn items)
      (separateOutcome server index conn.world items) := by
  induction items generalizing phase cursor conn index with
  | nil => exact ⟨rfl, .inl rfl⟩
  | cons item rest ih =>
    have ha := item_agree server h hse hi item
    have hf := emit_isSome cursor item.steps
    simp only [mergedOutcome, separateOutcome]
    cases he : cursor.emit item.steps with
    | mk ops last =>
      rw [he] at ha hf
      dsimp only at ha hf ⊢
      rw [← hf]
      cases hm : server.execute conn ops with
      | error e =>
        obtain ⟨w, status⟩ := e
        rw [hm] at ha
        cases hs : server.execute ⟨conn.world, none, none⟩ (rootEmit item.steps).1 with
        | ok conn' => rw [hs] at ha; cases ha
        | error e' =>
          obtain ⟨w', status'⟩ := e'
          rw [hs] at ha
          obtain ⟨rfl, rfl | ⟨rfl, hc⟩⟩ := ha
          · exact ⟨rfl, .inl rfl⟩
          · exact ⟨rfl, .inr ⟨0, item, status', rfl, hc, rfl, rfl⟩⟩
      | ok conn₁ =>
        rw [hm] at ha
        cases hs : server.execute ⟨conn.world, none, none⟩ (rootEmit item.steps).1 with
        | error e' => rw [hs] at ha; cases ha
        | ok conn₂ =>
          rw [hs] at ha
          cases last with
          | none => exact ⟨ha, .inl rfl⟩
          | some cursor₁ =>
            obtain ⟨next, hn, hse', hi'⟩ := follow_steps item hse hi
            have hh := h.follow hn he hm
            have hr := ih hh hse' hi' (index + 1)
            rw [show conn₁.world = conn₂.world from ha] at hr
            exact hr.cons item

/-- A run of the whole compound against its items: where it stops, that item
failed, and behind a rejected path the client reports INVAL. -/
def Reports (outcome : World α × Option (Nat × Status)) (complete : Bool) :
    Except (World α × Status) (Conn α) → Prop
  | .error (w, status) => ∃ index, outcome = (w, some (index, status))
  | .ok conn => outcome.1 = conn.world ∧
      if complete then outcome.2 = none else ∃ index, outcome.2 = some (index, .inval)

variable (server cursor conn) in
theorem mergedOutcome_reports (index : Nat) (items : List PathItem) :
    Reports (mergedOutcome server index cursor conn items)
      (cursor.emit (items.flatMap PathItem.steps)).2.isSome
      (server.execute conn (cursor.emit (items.flatMap PathItem.steps)).1) := by
  induction items generalizing cursor conn index with
  | nil => exact ⟨rfl, rfl⟩
  | cons item rest ih =>
    rw [flatMap_cons, emit_append]
    simp only [mergedOutcome]
    rcases cursor.emit item.steps with ⟨ops, _ | last⟩
    · dsimp only
      cases server.execute conn ops with
      | error e => exact ⟨index, rfl⟩
      | ok conn₁ => exact ⟨rfl, index, rfl⟩
    dsimp only
    rw [execute_append]
    cases server.execute conn ops with
    | error e => exact ⟨index, rfl⟩
    | ok conn₁ => exact ih last conn₁ (index + 1)

end Equivalence

/-- For every compound of the merged builders: after each call that the server
completes, the current filehandle is what the call names, the saved one is the
object at the remembered path, and `atSaved` tells when they are the same; counts
are right; and the compound has the effects and the failing item of walks from
the root, with the same status unless a RENAME starts in a file. -/
theorem emit_simulates_rootWalks (server : FileServer α) (w : World α)
    (hwf : w.tree.WellFormed) (items : List PathItem) :
    (∀ front call back ops cursor conn,
      items.flatMap PathItem.steps = front ++ .call call :: back →
      emit {} (front ++ [.call call]) = (ops, some cursor) →
      server.execute ⟨w, none, none⟩ ops = .ok conn →
        call.Names conn ∧
        (∀ dir, cursor.savedDir = some dir → ∃ d, conn.saved = some d ∧
          conn.world.tree.resolve (pathComponents dir) = some d) ∧
        (cursor.atSaved = true → conn.current = conn.saved)) ∧
    (∀ (cursor : CfhCursor) call step, cursor.call call = some step →
      step.count = step.ops.length) ∧
    Reports (mergedOutcome server 0 {} ⟨w, none, none⟩ items)
      (emit {} (items.flatMap PathItem.steps)).2.isSome
      (server.execute ⟨w, none, none⟩ (emit {} (items.flatMap PathItem.steps)).1) ∧
    SameOutcome 0 items (mergedOutcome server 0 {} ⟨w, none, none⟩ items)
      (separateOutcome server 0 w items) := by
  refine ⟨?_, fun _ _ _ hstep => call_count hstep,
    mergedOutcome_reports server {} _ 0 items,
    mergedOutcome_sameOutcome (holds_start hwf) rfl rfl 0 items⟩
  intro front call back ops cursor conn hsteps hemit hrun
  obtain ⟨hstanding, hsettled, hnames⟩ := called_of_prefix hwf hsteps hemit hrun
  exact ⟨hnames, hstanding.saved, hsettled⟩

/-- The directory "a" with the file "f" in it. -/
private def fileInDir : NameTree NfsFh Bytes where
  root := ⟨[0]⟩
  entries fh := if fh = ⟨[0]⟩ then some [([97], ⟨[1]⟩)]
    else if fh = ⟨[1]⟩ then some [([102], ⟨[2]⟩)] else none
  parent fh := if fh = ⟨[1]⟩ then some ⟨[0]⟩ else none

theorem fileInDir_child {d c : NfsFh} {name : Bytes} (h : fileInDir.child d name = some c) :
    d = ⟨[0]⟩ ∧ name = [97] ∧ c = ⟨[1]⟩ ∨ d = ⟨[1]⟩ ∧ name = [102] ∧ c = ⟨[2]⟩ := by
  simp only [NameTree.child, fileInDir] at h
  split at h
  · rename_i hd
    simp only [bind_some, lookup_cons, lookup_nil] at h
    split at h
    · rename_i hn
      cases h
      exact .inl ⟨hd, by simpa using hn, rfl⟩
    · cases h
  split at h
  · rename_i hd
    simp only [bind_some, lookup_cons, lookup_nil] at h
    split at h
    · rename_i hn
      cases h
      exact .inr ⟨hd, by simpa using hn, rfl⟩
    · cases h
  · cases h

theorem fileInDir_wellFormed : fileInDir.WellFormed where
  parent_child d name c hch hdi := by
    rcases fileInDir_child hch with ⟨rfl, -, rfl⟩ | ⟨-, -, rfl⟩
    · rfl
    · cases hdi
  parent_root := rfl
  name_unique d name name' c hch hch' _ := by
    rcases fileInDir_child hch with ⟨rfl, rfl, -⟩ | ⟨rfl, rfl, -⟩ <;>
      rcases fileInDir_child hch' with ⟨hd, rfl, -⟩ | ⟨hd, rfl, -⟩ <;> first | rfl | cases hd

/-- A server that refuses nothing and has no room for another file. -/
private def fullServer : FileServer Unit where
  perform _ attrs := .ok attrs
  created _ := ()
  allocate _ := none
  allocate_file _ _ h := nomatch h
  refuses _ _ _ := none

/-- Renaming "a/f/x" to "a/m/y": LOOKUPP fails in the file "a/f", the walk from
the root at the missing "m". -/
theorem mergedOutcome_rename_from_file :
    fileInDir.WellFormed ∧
    (emit {} (PathItem.rename [97, 47, 102, 47, 120] [97, 47, 109, 47, 121]).steps).1 =
      [.putrootfh, .lookup [97], .lookup [102], .savefh, .lookupp, .lookup [109],
        .rename [120] [121]] ∧
    (mergedOutcome fullServer 0 {} ⟨⟨fileInDir, fun _ => some (), []⟩, none, none⟩
      [.rename [97, 47, 102, 47, 120] [97, 47, 109, 47, 121]]).2 = some (0, .notdir) ∧
    (separateOutcome fullServer 0 ⟨fileInDir, fun _ => some (), []⟩
      [.rename [97, 47, 102, 47, 120] [97, 47, 109, 47, 121]]).2 = some (0, .noent) :=
  ⟨fileInDir_wellFormed, by decide, by decide, by decide⟩

/-- Two items in the directory "a", the second reached by RESTOREFH. -/
theorem emit_simulates_rootWalks_restored :
    (emit {} (List.flatMap PathItem.steps
      [.getattr (.path [97, 47, 102]) [typeAttribute], .remove [97, 47, 102]])).1 =
        [.putrootfh, .lookup [97], .savefh, .lookup [102], .getattr [typeAttribute], .restorefh,
          .remove [102]] ∧
    SameOutcome 0 [.getattr (.path [97, 47, 102]) [typeAttribute], .remove [97, 47, 102]]
      (mergedOutcome fullServer 0 {} ⟨⟨fileInDir, fun _ => some (), []⟩, none, none⟩
        [.getattr (.path [97, 47, 102]) [typeAttribute], .remove [97, 47, 102]])
      (separateOutcome fullServer 0 ⟨fileInDir, fun _ => some (), []⟩
        [.getattr (.path [97, 47, 102]) [typeAttribute], .remove [97, 47, 102]]) ∧
    (mergedOutcome fullServer 0 {} ⟨⟨fileInDir, fun _ => some (), []⟩, none, none⟩
      [.getattr (.path [97, 47, 102]) [typeAttribute], .remove [97, 47, 102]]).2 = none :=
  ⟨by decide, (emit_simulates_rootWalks fullServer ⟨fileInDir, fun _ => some (), []⟩
    fileInDir_wellFormed _).2.2.2, by decide⟩

end Vnfs
