import Vnfs.PathIo

/-!
What the builders of path I/O do to a compound, step by step. A compound grows by
items; preparing an item appends at most a CLOSE, a walk and an OPEN with what
follows it, and the transfers come behind. Every property of the compounds is
proved along these steps.
-/

namespace Vnfs

section Packing

variable {T : Type} {io : PathIo T}

variable (io) in
/-- The chunks on the way of the packing loop: nothing yet, or one more item. -/
inductive PathIo.Packing (close : Bool) (owner : PathIoOwner) (items : List T) :
    PathIoChunk io → Prop
  | start (global partOff : Nat) (failed : Option (Nat × Status)) :
      PathIo.Packing close owner items {global := global, partOff := partOff, failed := failed}
  | add {chunk next : PathIoChunk io} {item : T} {access : io.Access} {stop : Nat} {more : Bool}
      (packing : PathIo.Packing close owner items chunk)
      (hitem : items[chunk.global]? = some item)
      (hadd : io.add close owner items.length item stop {chunk with access := access} =
        .ok (next, more)) :
      PathIo.Packing close owner items next

inductive PathIo.Added (close : Bool) (owner : PathIoOwner) (count : Nat) (item : T) (stop : Nat)
    (chunk : PathIoChunk io) : PathIoChunk io × Bool → Prop
  | rejected {target : PathIoTarget}
      (hprepare : {chunk.toPathIoTarget with map := chunk.map.begin chunk.global}.prepare close
        owner chunk.global (io.file item) (io.opening item chunk.partOff) = (target, none)) :
      PathIo.Added close owner count item stop chunk ({chunk with
        toPathIoTarget := target
        failed := some (chunk.global, .inval)
        global := count}, false)
  | added {target : PathIoTarget} {newlyOpened : Bool} {filled : PathIoChunk io}
      (hprepare : {chunk.toPathIoTarget with map := chunk.map.begin chunk.global}.prepare close
        owner chunk.global (io.file item) (io.opening item chunk.partOff) =
          (target, some newlyOpened))
      (hfilled : io.addTransfers item chunk.global chunk.partOff (io.lens chunk.partOff stop)
        {chunk with toPathIoTarget := target} = .ok filled)
      (global partOff : Nat) (more : Bool)
      (hend : if stop = io.length item then global = chunk.global + 1 ∧ partOff = 0 ∧ more = true
        else global = filled.global ∧ partOff = stop ∧ more = false) :
      PathIo.Added close owner count item stop chunk ({filled with
        cursor := if newlyOpened then filled.cursor.descend.cursor else filled.cursor
        map := filled.map.endItem
        payload := filled.payload + (128 + (stop - chunk.partOff))
        global := global
        partOff := partOff}, more)

variable {close : Bool} {owner : PathIoOwner} {count : Nat} {item : T} {stop : Nat}
  {chunk : PathIoChunk io}

theorem PathIo.add_spec {next : PathIoChunk io × Bool}
    (h : io.add close owner count item stop chunk = .ok next) :
    PathIo.Added close owner count item stop chunk next := by
  unfold PathIo.add at h
  dsimp only at h
  split at h
  · rename_i target hp
    obtain rfl := Except.ok.inj h
    exact .rejected hp
  rename_i target newlyOpened hp
  cases hf : io.addTransfers item chunk.global chunk.partOff (io.lens chunk.partOff stop)
      {chunk with toPathIoTarget := target} with
  | error error =>
    rw [hf] at h
    cases h
  | ok filled =>
    rw [hf] at h
    split at h
    · rename_i he
      obtain rfl := Except.ok.inj h
      exact .added hp hf _ _ _ (by rw [if_pos he]; exact ⟨rfl, rfl, rfl⟩)
    · rename_i he
      obtain rfl := Except.ok.inj h
      exact .added hp hf _ _ _ (by rw [if_neg he]; exact ⟨rfl, rfl, rfl⟩)

open PathIo

theorem PathIo.add_global {next : PathIoChunk io} {more : Bool}
    (h : io.add close owner count item stop chunk = .ok (next, more)) (hm : more = true) :
    next.global = chunk.global + 1 := by
  cases add_spec h with
  | rejected hp => cases hm
  | added hp hf global partOff more he =>
    split at he
    · exact he.1
    · rw [he.2.2] at hm
      cases hm

theorem PathIo.Packing.pack {items rest : List T} {budget maxItems : Nat} {packed : PathIoChunk io}
    (packing : io.Packing close owner items chunk) (hr : rest = items.drop chunk.global)
    (hpa : io.pack close owner items.length budget maxItems rest chunk = .ok packed) :
    io.Packing close owner items packed := by
  induction rest generalizing chunk with
  | nil =>
    obtain rfl := Except.ok.inj hpa
    exact packing
  | cons item rest ih =>
    have hi : items[chunk.global]? = some item := by
      rw [← List.head?_drop, ← hr]
      rfl
    rw [pack] at hpa
    split at hpa
    · cases hp : io.precheck item chunk.global with
      | error error => rw [hp] at hpa; cases hpa
      | ok _ =>
        rw [hp] at hpa
        simp only [bind, Except.bind] at hpa
        split at hpa
        · obtain rfl := Except.ok.inj hpa
          exact packing
        rename_i access _
        split at hpa
        · obtain rfl := Except.ok.inj hpa
          exact packing
        rename_i stop _
        cases ha : io.add close owner items.length item stop {chunk with access := access} with
        | error error => rw [ha] at hpa; cases hpa
        | ok next =>
          have hn := packing.add hi ha
          rw [ha] at hpa
          dsimp only at hpa
          split at hpa
          · obtain rfl := Except.ok.inj hpa
            exact hn
          rename_i hm
          split at hpa
          · obtain rfl := Except.ok.inj hpa
            exact hn
          refine ih hn ?_ hpa
          have hg := add_global ha (by simpa using hm)
          rw [hg, ← List.drop_drop, ← hr]
          rfl
    · obtain rfl := Except.ok.inj hpa
      exact packing

end Packing

section Targets

variable {T : Type} {io : PathIo T} {target : PathIoTarget} {close : Bool} {owner : PathIoOwner}
  {caller : Nat} {file : FileRef} {opening : PathIoOpen}

variable (target caller) in
@[simp] theorem PathIoTarget.compound_push (ops : List ArgOp) (count : Nat) :
    (target.push caller ops count).compound = target.compound ++ ops := by
  simp [compound, push, Function.comp_def]

def PathIoTarget.openOps (close : Bool) (owner : PathIoOwner) (path : Bytes)
    (opening : PathIoOpen) (target : PathIoTarget) : List ArgOp :=
  .openFile ⟨owner.baseSeq + target.opensInChunk.toUInt32, opening.access, owner.name,
      opening.how, some (leafOf path)⟩ ::
    ((if close then [] else [.getfh]) ++
      if opening.truncateExisting then [.setattr {size := some 0} specialStateid] else [])

def PathIoTarget.walked (caller : Nat) (step : CursorStep) (target : PathIoTarget) :
    PathIoTarget :=
  {target.push caller step.ops step.ops.length with cursor := step.cursor}

def PathIoTarget.opened (close : Bool) (owner : PathIoOwner) (caller : Nat) (path : Bytes)
    (opening : PathIoOpen) (target : PathIoTarget) : PathIoTarget :=
  let ops := target.openOps close owner path opening
  {target.push caller ops ops.length with
    openedPath := some path
    fhAtOpened := true
    opensInChunk := target.opensInChunk + 1}

@[simp] theorem PathIoTarget.compound_walked (step : CursorStep) :
    (target.walked caller step).compound = target.compound ++ step.ops :=
  compound_push target caller step.ops step.ops.length

@[simp] theorem PathIoTarget.compound_opened (path : Bytes) :
    (target.opened close owner caller path opening).compound =
      target.compound ++ target.openOps close owner path opening :=
  compound_push target caller _ (target.openOps close owner path opening).length

theorem PathIoTarget.openAt_eq (path : Bytes) : target.openAt close owner caller path opening =
      target.opened close owner caller path opening := by
  unfold openAt opened openOps
  cases close <;> cases opening.truncateExisting <;>
    simp [push, ExecutionMap.noteOps_noteOps]

inductive PathIoTarget.Prepared (close : Bool) (owner : PathIoOwner) (caller : Nat)
    (opening : PathIoOpen) (target : PathIoTarget) :
    FileRef → PathIoTarget × Option Bool → Prop
  | same {path : Bytes} (hpath : target.openedPath = some path) (hat : target.fhAtOpened = true) :
      Prepared close owner caller opening target (.path path) (target, some false)
  | rejected {path : Bytes} (hsplit : splitPathBytes path = none) :
      Prepared close owner caller opening target (.path path)
        (target.closeOpened close caller, none)
  | opened {path : Bytes} {step : CursorStep}
      (hstep : (target.closeOpened close caller).cursor.call (.setParent path) = some step) :
      Prepared close owner caller opening target (.path path)
        (((target.closeOpened close caller).walked caller step).opened close owner caller path
          opening, some true)
  | handle {fh : NfsFh} :
      Prepared close owner caller opening target (.handle fh)
        ({(target.closeOpened close caller).push caller [.putfh fh] 1 with
          cursor := {target.cursor with atSaved := false}
          fhAtOpened := false}, some false)

@[simp] theorem PathIoTarget.closeOpened_cursor :
    (target.closeOpened close caller).cursor = target.cursor := by
  unfold closeOpened
  split <;> rfl

theorem PathIoTarget.prepare_spec : target.Prepared close owner caller opening file
      (target.prepare close owner caller file opening) := by
  unfold prepare
  cases file with
  | path path =>
    dsimp only
    split
    · rename_i hs
      exact .same hs.1 hs.2
    cases hst : (target.closeOpened close caller).cursor.setParent path with
    | none =>
      have hsp : splitPathBytes path = none := by
        simpa [CfhCursor.setParent] using hst
      exact .rejected hsp
    | some step =>
      have hc : (target.closeOpened close caller).cursor.call (.setParent path) = some step := hst
      dsimp only
      rw [openAt_eq, CfhCursor.call_count hc]
      exact .opened hc
  | handle fh =>
    dsimp only [CfhCursor.setHandle]
    rw [closeOpened_cursor]
    exact .handle

/-- The map counts the operations, from the SEQUENCE on. -/
def PathIoTarget.Counted (target : PathIoTarget) : Prop :=
  target.map.next = saturatingAdd 1 target.ops.length

theorem PathIoTarget.Counted.push (h : target.Counted) {ops : List ArgOp} {count : Nat}
    (hc : count = ops.length) : (target.push caller ops count).Counted := by
  have hn : (target.push caller ops count).map.next =
      saturatingAdd (saturatingAdd 1 target.ops.length) count := by
    rw [← h]
    rfl
  rw [Counted, hn, hc]
  simp only [PathIoTarget.push, List.length_append, List.length_map, saturatingAdd]
  omega

theorem PathIoTarget.Counted.closeOpened (h : target.Counted) :
    (target.closeOpened close caller).Counted := by
  unfold PathIoTarget.closeOpened
  split
  · exact h.push rfl
  · exact h

theorem PathIoTarget.Prepared.counted {next : PathIoTarget × Option Bool}
    (hpr : target.Prepared close owner caller opening file next) (h : target.Counted) :
    next.1.Counted := by
  cases hpr with
  | same hp hat => exact h
  | rejected hs => exact h.closeOpened
  | @opened path step hst =>
    have hw : ((target.closeOpened close caller).walked caller step).Counted :=
      h.closeOpened.push rfl
    exact hw.push rfl
  | handle => exact h.closeOpened.push rfl

end Targets

section Chunks

variable {T : Type} {io : PathIo T} {item : T} {caller part : Nat} {lens : List Nat}
  {chunk filled : PathIoChunk io}
  {P : PathIoTarget → Prop} {close : Bool} {owner : PathIoOwner} {items : List T}

theorem PathIo.addTransfers_keeps
    (hp : ∀ (target : PathIoTarget) (op : ArgOp), P target → op.isTransfer = true →
      P (target.push caller [op] 1)) (h : P chunk.toPathIoTarget)
    (hf : io.addTransfers item caller part lens chunk = .ok filled) : P filled.toPathIoTarget := by
  induction lens generalizing part chunk with
  | nil =>
    obtain rfl := Except.ok.inj hf
    exact h
  | cons count lens ih =>
    rw [addTransfers] at hf
    cases hr : io.record chunk.expected.length count with
    | error error => rw [hr] at hf; cases hf
    | ok _ =>
      rw [hr] at hf
      simp only [bind, Except.bind] at hf
      split at hf
      · cases hf
      rename_i offset _
      apply ih _ hf
      apply hp _ _ h
      exact io.transfer_isTransfer _ _ _ _ _

/-- The induction over a compound: `P` holds between items and `Q` from where an
item is prepared to its end. -/
theorem PathIo.Packing.target_induction {Q : Nat → T → Bool → PathIoTarget → Prop}
    (packing : io.Packing close owner items chunk) (hst : P {})
    (hpr : ∀ target caller item start next, P target → items[caller]? = some item →
      PathIoTarget.Prepared close owner caller (io.opening item start)
        {target with map := target.map.begin caller} (io.file item) next →
      (next.2 = none → P next.1) ∧ ∀ newlyOpened, next.2 = some newlyOpened →
        Q caller item newlyOpened next.1)
    (ht : ∀ target caller item newlyOpened op, Q caller item newlyOpened target →
      items[caller]? = some item → op.isTransfer = true →
      Q caller item newlyOpened (target.push caller [op] 1))
    (he : ∀ target caller item newlyOpened, Q caller item newlyOpened target → P {target with
        cursor := if newlyOpened then target.cursor.descend.cursor else target.cursor
        map := target.map.endItem}) : P chunk.toPathIoTarget := by
  induction packing with
  | start global partOff failed => exact hst
  | add packing hi ha ih =>
    cases add_spec ha with
    | rejected hp =>
      have hn := hpr _ _ _ _ _ ih hi (hp ▸ PathIoTarget.prepare_spec)
      exact hn.1 rfl
    | added hp hf global partOff more _ =>
      have hn := hpr _ _ _ _ _ ih hi (hp ▸ PathIoTarget.prepare_spec)
      have hst := hn.2 _ rfl
      apply he _ _ _ _ (addTransfers_keeps _ hst hf)
      intro target op hq hop
      exact ht _ _ _ _ _ hq hi hop

theorem PathIo.Packing.counted (packing : io.Packing close owner items chunk) : chunk.Counted := by
  apply packing.target_induction (P := PathIoTarget.Counted)
    (Q := fun _ _ _ => PathIoTarget.Counted) rfl
  · intro target caller item start next h _ hp
    have hn := hp.counted h
    exact ⟨fun _ => hn, fun _ _ => hn⟩
  · intro target caller item newlyOpened op h _ _
    exact h.push rfl
  · intro target caller item newlyOpened h
    exact h

end Chunks

end Vnfs
