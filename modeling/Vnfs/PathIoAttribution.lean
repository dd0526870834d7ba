import Vnfs.PathIoPairing
import Vnfs.Planner.Attribution

/-!
Who is blamed for the operation that failed in a compound of path I/O. The item
of a range that failed goes into `failed`; a failure outside every range is the
CLOSE behind the last item if it stands where the last range ends, and an error
of the whole call otherwise.

The files before the last one are closed while the next item is prepared, and
its range has begun by then. A CLOSE that fails there is reported as a failure of
the next item, or, if the path of that item was rejected, of the whole call.

Before the failure is reported, the results of the items that completed are taken
over: a transfer with more bytes than asked for or with none, or one that is short and
cannot be repaired, ends the call with an error of its own, and the failure of the
compound is not reported at all. Every other failure reaches the item it belongs to.
-/

namespace Vnfs

open List Option

/-- What the loops over the results of `writev` and `readv` differ in. -/
structure PathIoResults where
  resop : OpNum
  /-- A result of an item that no transfer was noted for. -/
  extra : Nat → RpcError
  /-- More bytes than asked for. -/
  tooLong : Nat → RpcError
  /-- The number of bytes of a result, and whether they reach the end of the file. -/
  received : ResData → Nat × Bool
  /-- `repair_path_write` and `repair_path_read` for an item, from a part on and for so many
  bytes; a read says whether it reached the end of the file. -/
  repair : Nat → Nat → Nat → RpcResult Bool

def writevResults (repair : Nat → Nat → Nat → RpcResult Unit) : PathIoResults where
  resop := .write
  extra _ := .transport "extra merged WRITE reply"
  tooLong caller := .op caller .io
  received
    | .write count _ => (count, false)
    | _ => (0, false)
  repair caller part count := (repair caller part count).map fun _ => false

def readvResults (repair : Nat → Nat → Nat → RpcResult Bool) : PathIoResults where
  resop := .read
  extra caller := (RpcError.transport
    "malformed readv COMPOUND reply: extra READ result").withOpIndex caller
  tooLong caller := (RpcError.transportWithKind .invalidReply
    "NFS READ reply exceeded requested count").withOpIndex caller
  received
    | .read data eof => (data.length, eof)
    | _ => (0, false)
  repair := repair

namespace PathIoResults

variable (results : PathIoResults) (reply : CompoundRes)

/-- One result of an item. Which items have reached the end of their files is kept: what
comes behind it is not looked at, and a write never does. -/
def settle (ended : Nat → Bool) (caller part requested length : Nat) (final : Bool) :
    RpcResult (Nat → Bool) :=
  if length > requested then .error (results.tooLong caller)
  else if ended caller then .ok ended
  else if length = 0 ∧ requested ≠ 0 ∧ !final then .error (.op caller .io)
  else if length < requested ∧ !final then
    (results.repair caller (part + length) (requested - length)).map (Function.update ended caller)
  else .ok (Function.update ended caller final)

/-- The results at some positions, with the transfers that were noted. -/
def settleAll : (Nat → Bool) → List (Nat × Nat) → List (Nat × Nat) → RpcResult (Nat → Bool)
  | ended, _, [] => .ok ended
  | _, [], (caller, _) :: _ => .error (results.extra caller)
  | ended, (part, requested) :: expected, (caller, position) :: rest => do
    let (length, final) := results.received (reply.data position)
    let ended ← results.settle ended caller part requested length final
    settleAll ended expected rest

/-- The positions of the results of some ranges, with their items. -/
def positions (ranges : List OpRange) : List (Nat × Nat) :=
  ranges.flatMap fun r =>
    ((List.range' r.start (min r.stop reply.nops - r.start)).filter fun position =>
      (reply.resarray[position]?).map ResOp.resop = some results.resop).map (Prod.mk r.caller)

/-- Every result has as many bytes as asked for, ends its file, comes behind the end of it, or
has some bytes and is repaired. -/
def Covers : (Nat → Bool) → List (Nat × Nat) → List (Nat × Nat) → Prop
  | _, _, [] => True
  | _, [], _ :: _ => False
  | ended, (part, requested) :: expected, (caller, position) :: rest =>
    let length := (results.received (reply.data position)).1
    let final := (results.received (reply.data position)).2
    length ≤ requested ∧
      if ended caller then Covers ended expected rest
      else if length = requested ∨ final then
        Covers (Function.update ended caller final) expected rest
      else 0 < length ∧
        ∃ final', results.repair caller (part + length) (requested - length) = .ok final' ∧
          Covers (Function.update ended caller final') expected rest

variable {results reply}

theorem settleAll_ok_iff {ended : Nat → Bool} {expected positions : List (Nat × Nat)} :
    (∃ after, results.settleAll reply ended expected positions = .ok after) ↔
      results.Covers reply ended expected positions := by
  induction positions generalizing ended expected with
  | nil => simp [settleAll, Covers]
  | cons first rest ih =>
    obtain ⟨caller, position⟩ := first
    cases expected with
    | nil => simp [settleAll, Covers]
    | cons asked expected =>
      obtain ⟨part, requested⟩ := asked
      rw [settleAll, Covers]
      rcases results.received (reply.data position) with ⟨length, final⟩
      dsimp only
      unfold settle
      by_cases hlong : length > requested
      · rw [if_pos hlong]
        simp [bind, Except.bind]
        omega
      rw [if_neg hlong]
      have hle : length ≤ requested := Nat.le_of_not_lt hlong
      simp only [hle, true_and]
      by_cases hended : ended caller = true
      · rw [if_pos hended, if_pos hended]
        exact ih
      rw [if_neg hended, if_neg hended]
      by_cases hwhole : length = requested ∨ final = true
      · have hsome : ¬ (length = 0 ∧ requested ≠ 0 ∧ (!final) = true) := by
          rintro ⟨hzero, hasked, hopen⟩
          rcases hwhole with rfl | rfl
          · exact hasked hzero
          · cases hopen
        have henough : ¬ (length < requested ∧ (!final) = true) := by
          rcases hwhole with rfl | rfl <;> simp
        rw [if_pos hwhole, if_neg hsome, if_neg henough]
        exact ih
      rw [if_neg hwhole]
      obtain ⟨hshort, hopen⟩ := not_or.mp hwhole
      have hopen : final = false := Bool.eq_false_iff.mpr hopen
      subst hopen
      by_cases hnone : length = 0
      · rw [if_pos ⟨hnone, by omega, rfl⟩]
        simp [bind, Except.bind, hnone]
      rw [if_neg (by simp [hnone]), if_pos ⟨by omega, rfl⟩]
      simp only [Nat.pos_of_ne_zero hnone, true_and]
      cases hrepair : results.repair caller (part + length) (requested - length) with
      | error error => simp [Except.map, bind, Except.bind]
      | ok final' =>
        simp only [Except.ok.injEq, exists_eq_left']
        exact ih

end PathIoResults

/-- `failed` and `close_failed` of the outcome, behind the loop over the results of the items
that completed. -/
def PathIoTarget.reportFailure (results : PathIoResults) (ended : Nat → Bool)
    (expected : List (Nat × Nat)) (close : Bool) (failed : Option (Nat × Status))
    (reply : CompoundRes) (report : ExecutionReport) (target : PathIoTarget) :
    RpcResult (Option (Nat × Status) × Option Status) := do
  let failed := (report.failure.map fun failure => (failure.caller, failure.status)).or failed
  let _ ← results.settleAll reply ended expected
    (results.positions reply (target.map.completedRanges report))
  match report.compoundFailure with
  | none => .ok (failed, none)
  | some status =>
    let closeOp := target.map.ranges.getLast?.map OpRange.stop
    if close ∧ target.openedPath.isSome ∧ report.compoundFailureOp = closeOp then
      .ok (failed, some status)
    else .error (.op 0 status)

def PathIoTarget.lastItem (target : PathIoTarget) : Nat :=
  (target.map.ranges.getLast?.map OpRange.caller).getD 0

def PathIoTarget.sent (target : PathIoTarget) : PathIoTarget :=
  target.closeLast true target.lastItem

def ArgOp.isClose : ArgOp → Bool
  | .close .. => true
  | _ => false

/-- An operation of `item` failed, and the outcome says so: a CLOSE is a close
failure of the last item, which is this one; anything else is a failure of the
item and no close failure. -/
def PathIoTarget.Blames (target : PathIoTarget) (failed : Option (Nat × Status)) (item : Nat)
    (op : ArgOp) (status : Status)
    (outcome : RpcResult (Option (Nat × Status) × Option Status)) : Prop :=
  if op.isClose then item = target.lastItem ∧ outcome = .ok (failed, some status)
  else outcome = .ok (some (item, status), none)

/-- Between two items: every operation but a CLOSE lies in the range of its item,
and the range of the item whose file is open reaches to the end. -/
structure PathIoTarget.Placed (target : PathIoTarget) : Prop where
  next_eq : target.map.next = target.ops.length + 1
  owned : ∀ i item op, target.ops[i]? = some (item, op) → op.isClose = false →
    ∃ r ∈ target.map.ranges, r.caller = item ∧ r.Owns (i + 1)
  stop_eq : target.openedPath.isSome = true →
    target.map.ranges.getLast?.map OpRange.stop = some target.map.next
  atOpened : target.openedPath.isSome = true → target.fhAtOpened = true

/-- While the item `caller` is added: its range has begun, and every operation
since then but a CLOSE is its own. -/
structure PathIoTarget.Placing (caller : Nat) (target : PathIoTarget) : Prop where
  next_eq : target.map.next = target.ops.length + 1
  begun : ∃ ranges start, target.map.ranges = ranges ++ [⟨caller, start, start⟩] ∧
    ∀ i item op, target.ops[i]? = some (item, op) → op.isClose = false →
      (∃ r ∈ ranges, r.caller = item ∧ r.Owns (i + 1)) ∨ item = caller ∧ start ≤ i + 1
  atOpened : target.openedPath.isSome = true → target.fhAtOpened = true

theorem getElem?_concat_cases {α : Type} {xs : List α} {last x : α} {i : Nat}
    (h : (xs ++ [last])[i]? = some x) : xs[i]? = some x ∨ i = xs.length ∧ x = last := by
  rcases Nat.lt_trichotomy i xs.length with hlt | heq | hgt
  · rw [getElem?_append_left hlt] at h
    exact .inl h
  · rw [heq, getElem?_concat_length] at h
    exact .inr ⟨heq, (some.inj h).symm⟩
  · rw [getElem?_eq_none (by simp; omega)] at h
    cases h

section Placement

variable {target : PathIoTarget} {owner : PathIoOwner} {caller : Nat} {file : FileRef}
  {opening : PathIoOpen}

namespace PathIoTarget

theorem Placed.begin (h : target.Placed) (caller : Nat) :
    {target with map := target.map.begin caller}.Placing caller where
  next_eq := h.next_eq
  begun := ⟨target.map.ranges, target.map.next, rfl, fun i item op hop hcl =>
    .inl (h.owned i item op hop hcl)⟩
  atOpened := h.atOpened

variable {item : Nat} {close : Bool} {next : PathIoTarget × Option Bool}

/-- Operations of the item, or a CLOSE, behind what is there. -/
theorem Placing.push (h : target.Placing caller) {ops : List ArgOp} {count : Nat}
    (hcn : count = ops.length) (hf : target.ops.length + ops.length < usizeMax)
    (hi : item = caller ∨ ∀ op ∈ ops, op.isClose = true) :
    (target.push item ops count).Placing caller := by
  obtain ⟨ranges, start, hr, hp⟩ := h.begun
  refine ⟨?_, ⟨ranges, start, hr, ?_⟩, h.atOpened⟩
  · change saturatingAdd target.map.next count = (target.ops ++ ops.map (Prod.mk item)).length + 1
    rw [h.next_eq, hcn, length_append, length_map]
    unfold saturatingAdd
    omega
  intro i item' op hop hcl
  have hst : start ≤ target.ops.length + 1 := by
    rw [← h.next_eq]
    exact (target.map.bounded ⟨caller, start, start⟩ (by simp [hr])).2.2
  change (target.ops ++ ops.map (Prod.mk item))[i]? = some (item', op) at hop
  rcases Nat.lt_or_ge i target.ops.length with hlt | hge
  · rw [getElem?_append_left hlt] at hop
    exact hp i item' op hop hcl
  rw [getElem?_append_right hge, getElem?_map] at hop
  obtain ⟨added, ha, heq⟩ := map_eq_some_iff.mp hop
  obtain ⟨rfl, rfl⟩ := Prod.mk.inj heq
  rcases hi with rfl | hc
  · exact .inr ⟨rfl, by omega⟩
  · have hm := hc added (mem_of_getElem? ha)
    rw [hm] at hcl
    cases hcl

theorem closeOpened_ranges (close : Bool) :
    (target.closeOpened close caller).map.ranges = target.map.ranges := by
  unfold closeOpened
  split <;> rfl

theorem closeOpened_length (close : Bool) (caller : Nat) :
    target.ops.length ≤ (target.closeOpened close caller).ops.length := by
  unfold closeOpened
  split
  · simp [push]
  · exact Nat.le_refl _

theorem closeOpened_getElem {i : Nat} {op : ArgOp}
    (hop : (target.closeOpened close caller).ops[i]? = some (item, op))
    (hcl : op.isClose = false) : target.ops[i]? = some (item, op) := by
  unfold closeOpened at hop
  split at hop
  · change (target.ops ++ [(caller - 1, closeOp)])[i]? = some (item, op) at hop
    rcases getElem?_concat_cases hop with hold | ⟨-, heq⟩
    · exact hold
    · obtain ⟨-, rfl⟩ := Prod.mk.inj heq
      cases hcl
  · exact hop

theorem Placing.closeOpened (h : target.Placing caller)
    (hf : (target.closeOpened true caller).ops.length < usizeMax) :
    (target.closeOpened true caller).Placing caller ∧
      (target.closeOpened true caller).openedPath = none := by
  unfold PathIoTarget.closeOpened at hf ⊢
  split
  · rename_i ho
    rw [if_pos ho] at hf
    have hl : target.ops.length + 1 < usizeMax := by
      simpa [PathIoTarget.push] using hf
    have hp : (target.push (caller - 1) [closeOp] 1).Placing caller :=
      h.push rfl hl (.inr fun op hop => by rw [mem_singleton.mp hop]; rfl)
    exact ⟨⟨hp.next_eq, hp.begun, fun hs => by cases hs⟩, rfl⟩
  rename_i hn
  refine ⟨h, ?_⟩
  cases hopd : target.openedPath with
  | none => rfl
  | some path =>
    have hs : target.openedPath.isSome = true := by rw [hopd]; rfl
    exact absurd ⟨rfl, hs, h.atOpened hs⟩ hn

/-- A rejected path leaves an empty range and at most the CLOSE before it. -/
theorem Placed.rejected (h : target.Placed)
    (hf : ({target with map := target.map.begin caller}.closeOpened true caller).ops.length <
      usizeMax) :
    ({target with map := target.map.begin caller}.closeOpened true caller).Placed := by
  obtain ⟨hp, hn⟩ := (h.begin caller).closeOpened hf
  refine ⟨hp.next_eq, ?_, ?_, hp.atOpened⟩
  · intro i item op hop hcl
    have hold := closeOpened_getElem hop hcl
    obtain ⟨r, hr, ho⟩ := h.owned i item op hold hcl
    refine ⟨r, ?_, ho⟩
    rw [closeOpened_ranges]
    exact mem_append_left _ hr
  · intro hs
    rw [hn] at hs
    cases hs

theorem Prepared.length_le (hpr : target.Prepared close owner caller opening file next) :
    target.ops.length ≤ next.1.ops.length := by
  cases hpr with
  | same hp hat => exact Nat.le_refl _
  | rejected hsp => exact closeOpened_length close caller
  | @opened path step hs =>
    refine Nat.le_trans (closeOpened_length close caller) ?_
    simp [PathIoTarget.opened, walked, PathIoTarget.push]
  | handle =>
    refine Nat.le_trans (closeOpened_length close caller) ?_
    simp [PathIoTarget.push]

theorem Prepared.eq_of_rejected (hpr : target.Prepared close owner caller opening file next)
    (hn : next.2 = none) : next.1 = target.closeOpened close caller := by
  cases hpr with
  | rejected hsp => rfl
  | same hp hat => cases hn
  | opened hs => cases hn
  | handle => cases hn

theorem Prepared.placing (hpr : target.Prepared true owner caller opening file next)
    (h : target.Placing caller) (hf : next.1.ops.length < usizeMax) : next.1.Placing caller := by
  cases hpr with
  | same hpa hat => exact h
  | rejected hsp => exact (h.closeOpened hf).1
  | @opened path step hst =>
    have hl : (target.closeOpened true caller).ops.length + step.ops.length +
        (((target.closeOpened true caller).walked caller step).openOps true owner path
          opening).length < usizeMax := by
      simpa [PathIoTarget.opened, walked, PathIoTarget.push, Nat.add_assoc] using hf
    obtain ⟨hc, -⟩ := h.closeOpened (by omega)
    have hw : ((target.closeOpened true caller).walked caller step).Placing caller := by
      have hp : ((target.closeOpened true caller).push caller step.ops
          step.ops.length).Placing caller := hc.push rfl (by omega) (.inl rfl)
      exact ⟨hp.next_eq, hp.begun, hp.atOpened⟩
    have ho : (((target.closeOpened true caller).walked caller step).push caller
        (((target.closeOpened true caller).walked caller step).openOps true owner path opening)
        (((target.closeOpened true caller).walked caller step).openOps true owner path
          opening).length).Placing caller :=
      hw.push rfl (by simpa [walked, PathIoTarget.push] using hl) (.inl rfl)
    exact ⟨ho.next_eq, ho.begun, fun _ => rfl⟩
  | @handle fh =>
    have hl : (target.closeOpened true caller).ops.length + 1 < usizeMax := by
      simpa [PathIoTarget.push] using hf
    obtain ⟨hc, hn⟩ := h.closeOpened (by omega)
    have hp : ((target.closeOpened true caller).push caller [.putfh fh] 1).Placing caller :=
      hc.push rfl hl (.inl rfl)
    refine ⟨hp.next_eq, hp.begun, fun hs => ?_⟩
    change (target.closeOpened true caller).openedPath.isSome = true at hs
    rw [hn] at hs
    cases hs

theorem Placing.endItem (h : target.Placing caller) (cursor : CfhCursor) :
    {target with cursor := cursor, map := target.map.endItem}.Placed := by
  obtain ⟨ranges, start, hrg, hp⟩ := h.begun
  have he : target.map.endItem.ranges = ranges ++ [⟨caller, start, target.map.next⟩] := by
    change target.map.ranges.modifyLast _ = _
    rw [hrg, modifyLast_concat]
  refine ⟨h.next_eq, ?_, ?_, h.atOpened⟩
  · intro i item op hop hcl
    have hlt : i < target.ops.length := (List.getElem?_eq_some_iff.mp hop).1
    rw [he]
    rcases hp i item op hop hcl with ⟨r, hr, ho⟩ | ⟨rfl, hst⟩
    · exact ⟨r, mem_append_left _ hr, ho⟩
    refine ⟨_, mem_append_right _ (mem_singleton.mpr rfl), rfl, hst, ?_⟩
    change i + 1 < target.map.next
    rw [h.next_eq]
    omega
  intro _
  rw [he, getLast?_concat]
  rfl

end PathIoTarget

theorem PathIo.Packing.placed {T : Type} {io : PathIo T} {chunk : PathIoChunk io}
    {items : List T} (packing : io.Packing true owner items chunk)
    (hf : chunk.ops.length < usizeMax) : chunk.Placed := by
  revert hf
  -- The length only grows, so its bound at the end holds all along.
  apply packing.target_induction (P := fun target => target.ops.length < usizeMax → target.Placed)
    (Q := fun caller _ _ target => target.ops.length < usizeMax → target.Placing caller)
  · exact fun _ => ⟨rfl, (fun i item op hop => by cases hop), (fun h => by cases h),
      (fun h => by cases h)⟩
  · intro target caller item start next h _ hpr
    have hl := hpr.length_le
    refine ⟨fun hr hn => ?_, fun newlyOpened _ hn => ?_⟩
    · have hp : target.Placed := h (Nat.lt_of_le_of_lt hl hn)
      rw [hpr.eq_of_rejected hr] at hn ⊢
      exact hp.rejected hn
    · have hp : target.Placed := h (Nat.lt_of_le_of_lt hl hn)
      exact hpr.placing (hp.begin caller) hn
  · intro target caller item newlyOpened op h _ hop hn
    have hl : target.ops.length + 1 < usizeMax := by
      simpa [PathIoTarget.push] using hn
    exact (h (by omega)).push rfl hl (.inl rfl)
  · intro target caller item newlyOpened h hn
    exact (h hn).endItem _

end Placement

section Replies

variable {target : PathIoTarget} (failed : Option (Nat × Status)) {reply : CompoundRes}
  {report : ExecutionReport} {op : Nat} {results : PathIoResults} {ended : Nat → Bool}
  {expected : List (Nat × Nat)}

/-- A result that cannot be taken over is an error of its own. -/
theorem PathIoTarget.reportFailure_uncovered (close : Bool)
    (hcovers : ¬ results.Covers reply ended expected
      (results.positions reply (target.map.completedRanges report))) :
    ∃ error, target.reportFailure results ended expected close failed reply report =
      .error error := by
  rw [← PathIoResults.settleAll_ok_iff] at hcovers
  unfold reportFailure
  cases hsettled : results.settleAll reply ended expected
      (results.positions reply (target.map.completedRanges report)) with
  | error error => exact ⟨error, rfl⟩
  | ok after => exact absurd ⟨after, hsettled⟩ hcovers

theorem PathIoTarget.reportFailure_owned {r : OpRange} (hre : target.map.Attributes reply report)
    (hcovers : results.Covers reply ended expected
      (results.positions reply (target.map.completedRanges report)))
    (hf : reply.FirstFailure op) (hu : ∀ op', reply.FirstFailure op' → op' = op)
    (hr : r ∈ target.map.ranges) (howns : r.Owns op) :
    target.reportFailure results ended expected true failed reply report =
      .ok (some (r.caller, reply.opStatus op), none) := by
  obtain ⟨after, hsettled⟩ := PathIoResults.settleAll_ok_iff.mpr hcovers
  have hi : report.failure = some ⟨r.caller, op, reply.opStatus op⟩ :=
    (hre.failure_iff _).mpr ⟨r, hr, rfl, howns, hf, rfl⟩
  have hn : report.compoundFailure = none := by
    by_contra hs
    rcases hre.compoundFailure_iff.mp hs with he | ⟨op', hf', ho⟩
    · have := hf.1
      omega
    · rw [hu op' hf'] at ho
      exact ho r hr howns
  rw [reportFailure, hsettled, hi, hn]
  rfl

/-- A failure outside every range is the last CLOSE or ends the call. -/
theorem PathIoTarget.reportFailure_unowned (hre : target.map.Attributes reply report)
    (hcovers : results.Covers reply ended expected
      (results.positions reply (target.map.completedRanges report)))
    (hfl : reply.FirstFailure op) (hu : ∀ op', reply.FirstFailure op' → op' = op)
    (hou : ∀ r ∈ target.map.ranges, ¬ r.Owns op) :
    target.reportFailure results ended expected true failed reply report =
      if target.openedPath.isSome ∧ some op = target.map.ranges.getLast?.map OpRange.stop then
        .ok (failed, some reply.status)
      else .error (.op 0 reply.status) := by
  obtain ⟨after, hsettled⟩ := PathIoResults.settleAll_ok_iff.mpr hcovers
  have hi : report.failure = none := by
    by_contra hs
    obtain ⟨failure, hf⟩ := ne_none_iff_exists'.mp hs
    obtain ⟨r, hr, -, ho, hfs, -⟩ := (hre.failure_iff failure).mp hf
    rw [hu _ hfs] at ho
    exact hou r hr ho
  have hs : report.compoundFailure ≠ none := hre.compoundFailure_iff.mpr (.inr ⟨op, hfl, hou⟩)
  obtain ⟨status, hst⟩ := ne_none_iff_exists'.mp hs
  have hop : report.compoundFailureOp = some op := (hre.compoundFailureOp_iff op).mpr ⟨hs, hfl⟩
  rw [reportFailure, hsettled, hi, hst, hop, (hre.compoundFailure_status status hst).1]
  simp [bind, Except.bind]

/-- A list cut at a place and the same list cut by a property, where both mean the same for
every element that counts. -/
theorem flatMap_take_eq_filter {α β : Type} {xs : List α} {n : Nat} {p : α → Bool}
    {f : α → List β} (h : ∀ i x, xs[i]? = some x → f x ≠ [] → (i < n ↔ p x = true)) :
    (xs.take n).flatMap f = (xs.filter p).flatMap f := by
  induction xs generalizing n with
  | nil => simp
  | cons x xs ih =>
    cases n with
    | zero =>
      refine (flatMap_eq_nil_iff.mpr fun y hy => ?_).symm
      obtain ⟨hmem, hp⟩ := mem_filter.mp hy
      obtain ⟨i, hi⟩ := mem_iff_getElem?.mp hmem
      by_contra hne
      exact Nat.not_lt_zero i ((h i y hi hne).mpr hp)
    | succ m =>
      have hrest : (xs.take m).flatMap f = (xs.filter p).flatMap f := by
        refine ih fun i y hi hne => ?_
        rw [← h (i + 1) y (by simpa using hi) hne, Nat.add_lt_add_iff_right]
      rw [take_succ_cons, flatMap_cons, hrest, filter_cons]
      by_cases hx : f x = []
      · split <;> simp [hx]
      · rw [if_pos ((h 0 x rfl hx).mp (Nat.succ_pos m)), flatMap_cons]

/-- The ranges that completed are those that end in front of the failed operation. -/
theorem positions_completed {request : List ArgOp} (hshape : ReplyShape request reply)
    (hre : target.map.Attributes reply report) (hf : reply.FirstFailure op) :
    results.positions reply (target.map.completedRanges report) =
      results.positions reply (target.map.ranges.filter fun r => r.stop ≤ op) := by
  refine flatMap_take_eq_filter fun i r hr hne => ?_
  have hlast := ((hshape.firstFailure_iff op).mp hf).1
  have hstart : r.start < min r.stop reply.nops := by
    by_contra hempty
    apply hne
    rw [Nat.sub_eq_zero_of_le (Nat.le_of_not_lt hempty)]
    rfl
  rw [hre.completed_iff i r hr (by omega), decide_eq_true_eq]
  constructor
  · intro hok
    by_contra hbehind
    exact hf.2.1 (hok op ⟨by omega, by omega⟩).2
  · intro hbefore op' howns
    have := howns.2
    exact ⟨by omega, hf.2.2 op' (by omega)⟩

end Replies

section Sent

variable {target : PathIoTarget}

@[simp] theorem PathIoTarget.sent_ranges : target.sent.map.ranges = target.map.ranges := by
  unfold sent closeLast
  split <;> rfl

@[simp] theorem PathIoTarget.sent_openedPath : target.sent.openedPath = target.openedPath := by
  unfold sent closeLast
  split <;> rfl

theorem PathIoTarget.length_le_sent : target.ops.length ≤ target.sent.ops.length := by
  unfold sent closeLast
  split
  · simp [push]
  · exact Nat.le_refl _

theorem PathIoTarget.Counted.sent (h : target.Counted) : target.sent.Counted := by
  unfold PathIoTarget.sent PathIoTarget.closeLast
  split
  · exact h.push rfl
  · exact h

/-- An operation is one of an item, or the CLOSE of the file still open. -/
theorem PathIoTarget.sent_getElem {i item : Nat} {op : ArgOp}
    (hop : target.sent.ops[i]? = some (item, op)) :
    target.ops[i]? = some (item, op) ∨
      i = target.ops.length ∧ item = target.lastItem ∧ op.isClose = true ∧
        target.openedPath.isSome = true := by
  unfold sent closeLast at hop
  split at hop
  · rename_i ho
    rcases getElem?_concat_cases hop with hold | ⟨hl, heq⟩
    · exact .inl hold
    · obtain ⟨rfl, rfl⟩ := Prod.mk.inj heq
      exact .inr ⟨hl, rfl, rfl, ho.2⟩
  · exact .inl hop

end Sent

theorem eq_ok_of_toOption {ε α : Type} {x : Except ε α} {a : α}
    (h : x.toOption = some a) : x = .ok a := by
  cases x with
  | error error => cases h
  | ok value => rw [some.inj h]

end Vnfs
