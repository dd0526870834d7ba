import Vnfs.CfhCursor
import Vnfs.Lib.Loop
import Vnfs.Remote

/-!
`removev_path_compound` and `renamev_path_compound`: a vector of path operations
run through as few compounds as the limits allow, each item reaching its
directories with the cursor. The two functions are one loop over different items.

A slot of the outcome says that the item was done. The log is what was sent and
what came back; the code does not keep it.
-/

namespace Vnfs

open List ExecutionMap

def CursorCall.rejected : CursorCall → Bool
  | .setParent path | .setCurrentParent path => (splitPathBytes path).isNone
  | .setHandle _ | .descend => false

def ArgOp.changesNames : ArgOp → Bool
  | .remove _ | .rename _ _ => true
  | _ => false

/-- What the two builders differ in. An item walks to its directories and ends
with the operation it is there for. -/
structure PathVector (T : Type) where
  tag : Tag
  perFile : Nat
  /-- The estimated size of an item. -/
  est : Nat
  calls : T → List CursorCall
  op : T → ArgOp
  /-- The operation moves the current filehandle. -/
  descends : Bool
  op_changesNames : ∀ item, (op item).changesNames = true

def pathReserve : Nat := 16

structure PathRenamePair where
  src : Bytes
  dst : Bytes
  deriving DecidableEq, Repr

def removev : PathVector Bytes where
  tag := "removev1"
  perFile := 3
  est := 128
  calls path := [.setParent path]
  op path := .remove (leafOf path)
  descends := false
  op_changesNames _ := rfl

def renamev : PathVector PathRenamePair where
  tag := "renamev1"
  perFile := 8
  est := 256
  calls pair := [.setParent pair.src, .setCurrentParent pair.dst]
  op pair := .rename (leafOf pair.src) (leafOf pair.dst)
  descends := true
  op_changesNames _ := rfl

def PathVector.steps {T : Type} (vector : PathVector T) (item : T) : List BuildStep :=
  (vector.calls item).map .call ++ .op (vector.op item) ::
    if vector.descends then [.call .descend] else []

/-- A path of the item has no final component. -/
def PathVector.malformed {T : Type} (vector : PathVector T) (item : T) : Bool :=
  (vector.calls item).any CursorCall.rejected

/-- A compound under construction. Its operations carry the item they are for. -/
structure PathChunk where
  ops : List (Nat × ArgOp) := []
  cursor : CfhCursor := {}
  map : ExecutionMap := .new
  payload : Nat := 0
  global : Nat
  failed : Option (Nat × Status)

namespace PathChunk

def compound (chunk : PathChunk) : List ArgOp := chunk.ops.map Prod.snd

/-- The walks of an item; false where a path is rejected. -/
def walk (caller : Nat) (chunk : PathChunk) : List CursorCall → PathChunk × Bool
  | [] => (chunk, true)
  | call :: rest =>
    match chunk.cursor.call call with
    | none => (chunk, false)
    | some step =>
      walk caller {chunk with
        ops := chunk.ops ++ step.ops.map (Prod.mk caller)
        cursor := step.cursor
        map := chunk.map.noteOps step.count} rest

end PathChunk

section Build

variable {T : Type} (vector : PathVector T)

/-- One item; false ends the chunk. A rejected path is the failure of its item, and
no item behind it is looked at. -/
def PathVector.add (count : Nat) (chunk : PathChunk) (item : T) : PathChunk × Bool :=
  let caller := chunk.global
  match {chunk with map := chunk.map.begin caller}.walk caller (vector.calls item) with
  | (chunk, false) => ({chunk with failed := some (caller, .inval), global := count}, false)
  | (chunk, true) =>
    ({chunk with
      ops := chunk.ops ++ [(caller, vector.op item)]
      cursor := if vector.descends then chunk.cursor.descend.cursor else chunk.cursor
      map := (chunk.map.noteOps 1).endItem
      payload := chunk.payload + vector.est
      global := caller + 1}, true)

def PathVector.pack (count maxArgBytes budget maxItems : Nat) :
    List T → PathChunk → PathChunk
  | [], chunk => chunk
  | item :: rest, chunk =>
    if chunk.map.ranges.length < maxItems ∧ chunk.map.next + vector.perFile ≤ budget then
      if chunk.payload > 0 ∧ maxArgBytes > 0 ∧ chunk.payload + vector.est > maxArgBytes then chunk
      else
        match vector.add count chunk item with
        | (chunk, false) => chunk
        | (chunk, true) =>
          if chunk.map.next + vector.perFile > budget ∧ chunk.global < count then chunk
          else pack count maxArgBytes budget maxItems rest chunk
    else chunk

end Build

structure PathExchange where
  ops : List (Nat × ArgOp)
  called : RpcResult CompoundRes

structure PathVectorOutcome where
  slots : List (Option Unit)
  failed : Option (Nat × Status)
  deriving DecidableEq, Repr

structure PathVectorState (σ : Type) where
  remote : Remote σ
  slots : List (Option Unit)
  failed : Option (Nat × Status)
  global : Nat
  maxItems : Nat
  log : List PathExchange

structure PathVectorDone (σ : Type) where
  remote : Remote σ
  log : List PathExchange
  result : RpcResult PathVectorOutcome

def markDone (slots : List (Option Unit)) (ranges : List OpRange) : List (Option Unit) :=
  ranges.foldl (fun slots r => slots.set r.caller (some ())) slots

section Loop

variable {T σ : Type} (vector : PathVector T) (wire : Wire σ) (maxArgBytes : Nat)
  (items : List T)

namespace PathVectorState

variable (st : PathVectorState σ)

def budget : Nat :=
  (st.remote.client.opBudgetFor vector.tag (1 + vector.perFile)).mergedLimit pathReserve
    vector.perFile

def chunk : PathChunk :=
  vector.pack items.length maxArgBytes (st.budget vector) st.maxItems (items.drop st.global)
    {global := st.global, failed := st.failed}

def finish (result : RpcResult PathVectorOutcome) : PathVectorState σ ⊕ PathVectorDone σ :=
  .inr ⟨st.remote, st.log, result⟩

def reply (budget : Nat) (chunk : PathChunk) (res : CompoundRes) :
    PathVectorState σ ⊕ PathVectorDone σ :=
  if st.remote.client.canRetryMergedResource vector.tag res budget pathReserve vector.perFile then
    .inl st
  else
    match firstFailedRange res chunk.map with
    | .error error => st.finish (.error error)
    | .ok (some (caller, status)) =>
      let done := chunk.map.ranges.filter fun r => r.caller < caller
      st.finish (.ok ⟨markDone st.slots done, some (caller, status)⟩)
    | .ok none =>
      let slots := markDone st.slots chunk.map.ranges
      if st.global = chunk.global then
        st.finish (.ok ⟨slots, st.failed.or (some (st.global, .tooManyOps))⟩)
      else .inl {st with slots := slots, global := chunk.global}

end PathVectorState

def pathVectorStep (st : PathVectorState σ) : PathVectorState σ ⊕ PathVectorDone σ :=
  if st.global < items.length then
    let budget := st.budget vector
    let chunk := st.chunk vector maxArgBytes items
    if chunk.map.ranges.isEmpty then
      st.finish (.ok ⟨st.slots, st.failed.or (some (st.global, .tooManyOps))⟩)
    else
      let needed :=
        if chunk.failed.isNone then
          st.remote.client.mergedPathsNeedRepack vector.tag (1 + vector.perFile) chunk.compound
            chunk.map.ranges.length
        else .ok false
      match needed with
      | .error error => st.finish (.error error)
      | .ok true => .inl {st with maxItems := chunk.map.ranges.length - 1}
      | .ok false =>
        let (remote, called) := st.remote.callMutation wire vector.tag chunk.compound
        let st : PathVectorState σ := {st with
          remote := remote
          failed := chunk.failed
          maxItems := usizeMax
          log := st.log ++ [⟨chunk.ops, called⟩]}
        match called with
        | .error error => st.finish (.error error)
        | .ok res => st.reply vector budget chunk res
  else st.finish (.ok ⟨st.slots, st.failed⟩)

variable {vector wire maxArgBytes items}

section Add

variable {cursor : CfhCursor} {chunk : PathChunk}

theorem emit_calls_cons (call : CursorCall) (calls : List CursorCall) :
    cursor.emit ((call :: calls).map .call) = match cursor.call call with
      | none => ([], none)
      | some step =>
        (step.ops ++ (step.cursor.emit (calls.map .call)).1,
          (step.cursor.emit (calls.map .call)).2) := rfl

open CfhCursor

theorem CfhCursor.call_isNone (cursor : CfhCursor) (call : CursorCall) :
    (cursor.call call).isNone = call.rejected := by
  cases call with
  | setParent path => simp [call, setParent, CursorCall.rejected]
  | setCurrentParent path => simp [call, setCurrentParent, CursorCall.rejected]
  | setHandle fh => rfl
  | descend => rfl

theorem CfhCursor.call_changesNames {call : CursorCall} {step : CursorStep}
    (h : cursor.call call = some step) : ∀ op ∈ step.ops, op.changesNames = false := by
  have hw : ∀ dir, ∀ op ∈ (cursor.walkParent dir).ops, op.changesNames = false := by
    intro dir op hop
    unfold walkParent at hop
    split at hop
    · split at hop
      · cases hop
      · rw [mem_singleton.mp hop]
        rfl
    split at hop
    · rename_i relative hr
      unfold walkRelative at hr
      split at hr
      · cases hr
      dsimp only at hr
      split at hr
      · obtain rfl := Option.some.inj hr
        simp only [mem_append, mem_replicate, mem_map] at hop
        rcases hop with (hop | ⟨-, rfl⟩) | ⟨name, -, rfl⟩
        · split at hop
          · cases hop
          · rw [mem_singleton.mp hop]
            rfl
        · rfl
        · rfl
      · cases hr
    rcases mem_cons.mp hop with rfl | hop
    · rfl
    · obtain ⟨name, -, rfl⟩ := mem_map.mp hop
      rfl
  cases call with
  | setParent path =>
    obtain ⟨⟨dir, leaf⟩, -, rfl⟩ := Option.map_eq_some_iff.mp h
    dsimp only
    split
    · exact hw dir
    intro op hop
    rcases mem_append.mp hop with hop | hop
    · exact hw dir op hop
    · rw [mem_singleton.mp hop]
      rfl
  | setCurrentParent path =>
    obtain ⟨⟨dir, leaf⟩, -, rfl⟩ := Option.map_eq_some_iff.mp h
    exact hw dir
  | setHandle fh =>
    obtain rfl := Option.some.inj h
    intro op hop
    rw [mem_singleton.mp hop]
    rfl
  | descend =>
    obtain rfl := Option.some.inj h
    intro op hop
    cases hop

theorem ExecutionMap.noteOps_zero (map : ExecutionMap) : map.noteOps 0 = map := by
  have hle := map.next_le
  ext1
  · rfl
  · simp only [noteOps, saturatingAdd]
    omega

/-- The walks of an item are what the cursor emits for its calls. -/
theorem walk_emit (caller : Nat) (chunk : PathChunk) (calls : List CursorCall) :
    let emitted := chunk.cursor.emit (calls.map .call)
    ∃ cursor, chunk.walk caller calls = ({chunk with
        ops := chunk.ops ++ emitted.1.map (Prod.mk caller)
        cursor := cursor
        map := chunk.map.noteOps emitted.1.length}, emitted.2.isSome) ∧
      (∀ last, emitted.2 = some last → cursor = last) ∧
      (∀ op ∈ emitted.1, op.changesNames = false) ∧
      (emitted.2.isSome = true ↔ calls.any CursorCall.rejected = false) := by
  induction calls generalizing chunk with
  | nil =>
    refine ⟨chunk.cursor, ?_, ?_, ?_, ?_⟩
    · simp [PathChunk.walk, emit, noteOps_zero]
    · intro last hl
      exact Option.some.inj hl
    · simp [emit]
    · simp [emit]
  | cons call calls ih =>
    have hr := chunk.cursor.call_isNone call
    rw [emit_calls_cons]
    unfold PathChunk.walk
    cases hc : chunk.cursor.call call with
    | none =>
      rw [hc] at hr
      refine ⟨chunk.cursor, ?_, ?_, ?_, ?_⟩
      · simp [noteOps_zero]
      · simp
      · simp
      · simp [← hr]
    | some step =>
      rw [hc] at hr
      obtain ⟨cursor, hw, hl, hn, hf⟩ := ih {chunk with
        ops := chunk.ops ++ step.ops.map (Prod.mk caller)
        cursor := step.cursor
        map := chunk.map.noteOps step.count}
      dsimp only at hw hl hn hf ⊢
      refine ⟨cursor, ?_, hl, ?_, ?_⟩
      · rw [hw, call_count hc, noteOps_noteOps]
        simp
      · intro op hop
        rcases mem_append.mp hop with hop | hop
        · exact call_changesNames hc op hop
        · exact hn op hop
      · rw [hf]
        simp [← hr]

inductive Added (vector : PathVector T) (count : Nat) (chunk : PathChunk) (item : T) :
    PathChunk × Bool → Prop
  | rejected (walked : List ArgOp) (cursor : CfhCursor) (map : ExecutionMap)
      (malformed : vector.malformed item = true)
      (walks : ∀ op ∈ walked, op.changesNames = false)
      (emits : chunk.cursor.emit (vector.steps item) = (walked, none))
      (ranges : map.ranges =
        chunk.map.ranges ++ [⟨chunk.global, chunk.map.next, chunk.map.next⟩])
      (next : map.next = saturatingAdd chunk.map.next walked.length) :
      Added vector count chunk item ({chunk with
        ops := chunk.ops ++ walked.map (Prod.mk chunk.global)
        cursor := cursor
        map := map
        failed := some (chunk.global, .inval)
        global := count}, false)
  | added (walked : List ArgOp) (cursor : CfhCursor) (map : ExecutionMap)
      (wellFormed : vector.malformed item = false)
      (walks : ∀ op ∈ walked, op.changesNames = false)
      (emits : chunk.cursor.emit (vector.steps item) =
        (walked ++ [vector.op item], some cursor))
      (ranges : map.ranges = chunk.map.ranges ++ [⟨chunk.global, chunk.map.next, map.next⟩])
      (next : map.next = saturatingAdd chunk.map.next (walked.length + 1)) :
      Added vector count chunk item ({chunk with
        ops := chunk.ops ++ walked.map (Prod.mk chunk.global) ++ [(chunk.global, vector.op item)]
        cursor := cursor
        map := map
        payload := chunk.payload + vector.est
        global := chunk.global + 1}, true)

theorem emit_last (vector : PathVector T) (cursor : CfhCursor) (item : T) :
    cursor.emit (.op (vector.op item) :: if vector.descends then [.call .descend] else []) =
      ([vector.op item], some (if vector.descends then cursor.descend.cursor else cursor)) := by
  cases vector.descends <;> rfl

theorem PathVector.add_spec (vector : PathVector T) (count : Nat) (chunk : PathChunk) (item : T) :
    Added vector count chunk item (vector.add count chunk item) := by
  obtain ⟨cursor, hw, hl, hn, hf⟩ := walk_emit chunk.global
    {chunk with map := chunk.map.begin chunk.global} (vector.calls item)
  have he := chunk.cursor.emit_append ((vector.calls item).map .call)
    (.op (vector.op item) :: if vector.descends then [.call .descend] else [])
  unfold PathVector.add
  dsimp only at hw hl hn hf ⊢
  rw [hw]
  cases hcs : chunk.cursor.emit ((vector.calls item).map .call) with
  | mk walked last =>
    rw [hcs] at hl hn hf he
    cases last with
    | none =>
      refine .rejected walked cursor _ ?_ hn he rfl rfl
      rw [← Bool.not_eq_false]
      exact fun hfa => absurd (hf.mpr hfa) (by simp)
    | some last =>
      obtain rfl := hl last rfl
      dsimp only at he hf ⊢
      rw [emit_last] at he
      refine .added walked _ _ (hf.mp rfl) hn he ?_ ?_
      · simp [endItem, noteOps, begin, modifyLast_concat]
      · rw [noteOps_noteOps]
        rfl

end Add

variable {count : Nat} {chunk : PathChunk} {item : T} {next : PathChunk × Bool} {maxItems : Nat}
  {rest : List T} {st st' : PathVectorState σ}

theorem Added.ranges_length (h : Added vector count chunk item next) :
    next.1.map.ranges.length = chunk.map.ranges.length + 1 := by
  cases h with
  | rejected walked cursor map malformed walks emits ranges next => simp [ranges]
  | added walked cursor map wellFormed walks emits ranges next => simp [ranges]

theorem pack_ranges_le {budget : Nat} (h : chunk.map.ranges.length ≤ maxItems) :
    (vector.pack count maxArgBytes budget maxItems rest chunk).map.ranges.length ≤ maxItems := by
  induction rest generalizing chunk with
  | nil => exact h
  | cons item rest ih =>
    have ha := (vector.add_spec count chunk item).ranges_length
    unfold PathVector.pack
    split
    · rename_i hr
      split
      · exact h
      split
      · rename_i next hi
        rw [hi] at ha
        dsimp only at ha
        omega
      rename_i next hi
      rw [hi] at ha
      dsimp only at ha
      split
      · omega
      · exact ih (by omega)
    · exact h

section

variable (vector wire maxArgBytes items) (st : PathVectorState σ)

namespace PathVectorState

/-- There is a compound to send. -/
def Packs : Prop :=
  st.global < items.length ∧ (st.chunk vector maxArgBytes items).map.ranges ≠ []

/-- What `merged_paths_need_repack` says of the next compound, if it is asked. -/
def needsRepack : RpcResult Bool :=
  if (st.chunk vector maxArgBytes items).failed.isNone then
    st.remote.client.mergedPathsNeedRepack vector.tag (1 + vector.perFile)
      (st.chunk vector maxArgBytes items).compound
      (st.chunk vector maxArgBytes items).map.ranges.length
  else .ok false

/-- The next compound is handed to `call_mutation`, with this answer. -/
structure Sends (remote : Remote σ) (answer : RpcResult CompoundRes) : Prop where
  packs : st.Packs vector maxArgBytes items
  fits : st.needsRepack vector maxArgBytes items = .ok false
  called : st.remote.callMutation wire vector.tag
    (st.chunk vector maxArgBytes items).compound = (remote, answer)

/-- The state behind an answered compound. -/
def received (remote : Remote σ) (res : CompoundRes) : PathVectorState σ :=
  {st with
    remote := remote
    failed := (st.chunk vector maxArgBytes items).failed
    maxItems := usizeMax
    log := st.log ++ [⟨(st.chunk vector maxArgBytes items).ops, .ok res⟩]}

end PathVectorState

end

inductive PathVectorRound (vector : PathVector T) (wire : Wire σ) (maxArgBytes : Nat)
    (items : List T) (st : PathVectorState σ) :
    PathVectorState σ ⊕ PathVectorDone σ → Prop
  | finished (hglobal : items.length ≤ st.global) :
      PathVectorRound vector wire maxArgBytes items st
        (.inr ⟨st.remote, st.log, .ok ⟨st.slots, st.failed⟩⟩)
  | full (hglobal : st.global < items.length)
      (hempty : (st.chunk vector maxArgBytes items).map.ranges = []) :
      PathVectorRound vector wire maxArgBytes items st
        (.inr ⟨st.remote, st.log, .ok ⟨st.slots, st.failed.or (some (st.global, .tooManyOps))⟩⟩)
  | unsent (error : RpcError) (hpacks : st.Packs vector maxArgBytes items)
      (hneeded : st.needsRepack vector maxArgBytes items = .error error) :
      PathVectorRound vector wire maxArgBytes items st (.inr ⟨st.remote, st.log, .error error⟩)
  | repack (hpacks : st.Packs vector maxArgBytes items)
      (hneeded : st.needsRepack vector maxArgBytes items = .ok true)
      (hlong : 1 < (st.chunk vector maxArgBytes items).map.ranges.length) :
      PathVectorRound vector wire maxArgBytes items st
        (.inl {st with maxItems := (st.chunk vector maxArgBytes items).map.ranges.length - 1})
  | failed (remote : Remote σ) (error : RpcError)
      (hsends : st.Sends vector wire maxArgBytes items remote (.error error)) :
      PathVectorRound vector wire maxArgBytes items st
        (.inr ⟨remote, st.log ++ [⟨(st.chunk vector maxArgBytes items).ops, .error error⟩],
          .error error⟩)
  | replied (remote : Remote σ) (res : CompoundRes)
      (hsends : st.Sends vector wire maxArgBytes items remote (.ok res)) :
      PathVectorRound vector wire maxArgBytes items st
        ((st.received vector maxArgBytes items remote res).reply vector
          (st.budget vector) (st.chunk vector maxArgBytes items) res)

variable (vector wire maxArgBytes items) in
theorem pathVectorStep_round (st : PathVectorState σ) :
    PathVectorRound vector wire maxArgBytes items st
      (pathVectorStep vector wire maxArgBytes items st) := by
  unfold pathVectorStep
  dsimp only
  split
  · rename_i hg
    split
    · rename_i he
      exact .full hg (List.isEmpty_iff.mp he)
    rename_i hs
    rw [List.isEmpty_iff] at hs
    split
    · rename_i error hn
      exact .unsent error ⟨hg, hs⟩ hn
    · rename_i hn
      refine .repack ⟨hg, hs⟩ hn ?_
      split at hn
      · unfold Client.mergedPathsNeedRepack at hn
        split at hn
        · rename_i hl
          exact hl
        · cases hn
      · cases hn
    rename_i hn
    cases hc : st.remote.callMutation wire vector.tag
        (st.chunk vector maxArgBytes items).compound with
    | mk remote called =>
      cases called with
      | error error => exact .failed remote error ⟨⟨hg, hs⟩, hn, hc⟩
      | ok res => exact .replied remote res ⟨⟨hg, hs⟩, hn, hc⟩
  · rename_i hg
    exact .finished (Nat.le_of_not_lt hg)

/-- A round is the step that was taken. -/
theorem PathVectorRound.step_eq {next : PathVectorState σ ⊕ PathVectorDone σ}
    (h : PathVectorRound vector wire maxArgBytes items st next) :
    pathVectorStep vector wire maxArgBytes items st = next := by
  have hsent (hpacks : st.Packs vector maxArgBytes items) :
      pathVectorStep vector wire maxArgBytes items st =
        match st.needsRepack vector maxArgBytes items with
        | .error error => st.finish (.error error)
        | .ok true =>
          .inl {st with maxItems := (st.chunk vector maxArgBytes items).map.ranges.length - 1}
        | .ok false =>
          match st.remote.callMutation wire vector.tag
            (st.chunk vector maxArgBytes items).compound with
          | (remote, .error error) => .inr ⟨remote,
              st.log ++ [⟨(st.chunk vector maxArgBytes items).ops, .error error⟩], .error error⟩
          | (remote, .ok res) => (st.received vector maxArgBytes items remote res).reply vector
              (st.budget vector) (st.chunk vector maxArgBytes items) res := by
    unfold pathVectorStep PathVectorState.needsRepack
    dsimp only
    rw [if_pos hpacks.1, if_neg (by simpa using hpacks.2)]
    split
    · rfl
    · rfl
    cases st.remote.callMutation wire vector.tag (st.chunk vector maxArgBytes items).compound with
    | mk remote called => cases called <;> rfl
  cases h with
  | finished hglobal =>
    unfold pathVectorStep
    rw [if_neg (Nat.not_lt.mpr hglobal)]
    rfl
  | full hglobal hempty =>
    unfold pathVectorStep
    rw [if_pos hglobal]
    dsimp only
    rw [hempty]
    rfl
  | unsent error hpacks hneeded => rw [hsent hpacks, hneeded]; rfl
  | repack hpacks hneeded => rw [hsent hpacks, hneeded]
  | failed remote error hsends => rw [hsent hsends.packs, hsends.fits, hsends.called]
  | replied remote res hsends => rw [hsent hsends.packs, hsends.fits, hsends.called]

theorem pack_global_le {budget start : Nat} (hst : start ≤ chunk.global)
    (h : chunk.global + rest.length ≤ count) :
    start ≤ (vector.pack count maxArgBytes budget maxItems rest chunk).global := by
  induction rest generalizing chunk with
  | nil => exact hst
  | cons item rest ih =>
    have ha := vector.add_spec count chunk item
    unfold PathVector.pack
    split
    · split
      · exact hst
      generalize vector.add count chunk item = next at ha
      rw [length_cons] at h
      cases ha with
      | rejected walked cursor map malformed walks emits ranges next =>
        dsimp only
        omega
      | added walked cursor map wellFormed walks emits ranges next =>
        dsimp only
        split
        · exact Nat.le_succ_of_le hst
        · apply ih (Nat.le_succ_of_le hst)
          dsimp only
          omega
    · exact hst

theorem reply_decreases {budget : Nat} {res : CompoundRes}
    (h : st.reply vector budget chunk res = .inl st') (hf : st.global ≤ chunk.global)
    (hg : st.global < items.length) :
    items.length - st'.global < items.length - st.global ∨
      st'.global = st.global ∧ st'.budget vector < budget := by
  unfold PathVectorState.reply at h
  split at h
  · rename_i hr
    obtain rfl := Sum.inl.inj h
    right
    refine ⟨rfl, ?_⟩
    unfold Client.canRetryMergedResource at hr
    simp only [Bool.and_eq_true, decide_eq_true_eq] at hr
    exact hr.2
  split at h
  · cases h
  · cases h
  split at h
  · cases h
  obtain rfl := Sum.inl.inj h
  left
  dsimp only
  omega

/-- A round that goes on moves forward, lowers the limit, or asks for fewer items. -/
theorem pathVectorStep_decreases (h : pathVectorStep vector wire maxArgBytes items st = .inl st') :
    items.length - st'.global < items.length - st.global ∨
      st'.global = st.global ∧ (st'.budget vector < st.budget vector ∨
        st'.budget vector = st.budget vector ∧ st'.maxItems < st.maxItems) := by
  have hr := pathVectorStep_round vector wire maxArgBytes items st
  rw [h] at hr
  generalize hn : Sum.inl st' = next at hr
  cases hr with
  | finished hg => cases hn
  | full hg he => cases hn
  | unsent error => cases hn
  | failed remote error => cases hn
  | repack _ _ hlo =>
    obtain rfl := Sum.inl.inj hn
    have hle : (st.chunk vector maxArgBytes items).map.ranges.length ≤ st.maxItems :=
      pack_ranges_le (Nat.zero_le _)
    right
    refine ⟨rfl, .inr ⟨rfl, ?_⟩⟩
    dsimp only
    omega
  | replied remote res hsends =>
    have hg := hsends.packs.1
    have hf : st.global ≤ (st.chunk vector maxArgBytes items).global := by
      apply pack_global_le
      · exact Nat.le_refl _
      rw [length_drop]
      dsimp only
      omega
    rcases reply_decreases hn.symm hf hg with hl | ⟨hs, hl⟩
    · exact .inl hl
    · exact .inr ⟨hs, .inl hl⟩

variable (vector wire maxArgBytes items) in
def pathVectorBody : Loop.Body (PathVectorState σ) (PathVectorDone σ) (Nat × Nat × Nat) where
  step := pathVectorStep vector wire maxArgBytes items
  variant st := (items.length - st.global, st.budget vector, st.maxItems)
  decreases := by
    intro st st' h
    rcases pathVectorStep_decreases h with hforward | ⟨hsame, hless | ⟨hbudget, hless⟩⟩
    · exact Prod.Lex.left _ _ hforward
    · rw [hsame]
      exact Prod.Lex.right _ (Prod.Lex.left _ _ hless)
    · rw [hsame, hbudget]
      exact Prod.Lex.right _ (Prod.Lex.right _ hless)

theorem pathVectorBody_round {st : PathVectorState σ} {next : PathVectorState σ ⊕ PathVectorDone σ}
    (hs : (pathVectorBody vector wire maxArgBytes items).step st = next) :
    PathVectorRound vector wire maxArgBytes items st next :=
  hs ▸ pathVectorStep_round ..

variable (vector wire maxArgBytes items) in
def pathVectorStart (remote : Remote σ) : PathVectorState σ where
  remote := remote
  slots := replicate items.length none
  failed := none
  global := 0
  maxItems := usizeMax
  log := []

variable (vector wire maxArgBytes items) in
def pathVectorCompound (remote : Remote σ) : PathVectorDone σ :=
  Loop.run (pathVectorBody vector wire maxArgBytes items) (pathVectorStart items remote)

end Loop

section

variable {σ : Type} (wire : Wire σ) (maxArgBytes : Nat)

def removevPathCompound (paths : List Bytes) (remote : Remote σ) : PathVectorDone σ :=
  pathVectorCompound removev wire maxArgBytes paths remote

def renamevPathCompound (pairs : List PathRenamePair) (remote : Remote σ) : PathVectorDone σ :=
  pathVectorCompound renamev wire maxArgBytes pairs remote

end

end Vnfs
