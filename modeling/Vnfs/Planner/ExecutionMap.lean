import Vnfs.Wire

/-!
The execution map of `planner.rs` records, for every vector item, which
positions of a compound belong to it; `analyze` reads a reply against that
record. Every retry and fallback of the client relies on the report being a
partition: the items that ran completely, at most one item that failed, and the
items the server never reached.

Items without operations exist. A path that cannot be split leaves a range that
was begun and never ended, so the results below treat empty ranges explicitly.
-/

namespace Vnfs

open List hiding min

/-- `usize::MAX` on a 64-bit target. -/
def usizeMax : Nat := 2 ^ 64 - 1

def saturatingAdd (a b : Nat) : Nat := min (a + b) usizeMax

/-- One vector item's operations `start..stop` of the compound. -/
structure OpRange where
  caller : Nat
  start : Nat
  stop : Nat
  deriving DecidableEq, Repr

/-- The operation at `op` belongs to this item. -/
def OpRange.Owns (r : OpRange) (op : Nat) : Prop := r.start ≤ op ∧ op < r.stop

instance (r : OpRange) (op : Nat) : Decidable (r.Owns op) :=
  inferInstanceAs (Decidable (_ ∧ _))

/-- Ranges lie in build order inside `1..next`; position zero is SEQUENCE. -/
@[ext]
structure ExecutionMap where
  ranges : List OpRange
  next : Nat
  one_le_next : 1 ≤ next
  next_le : next ≤ usizeMax
  ordered : ranges.Pairwise fun earlier later => earlier.stop ≤ later.start
  bounded : ∀ r ∈ ranges, 1 ≤ r.start ∧ r.start ≤ r.stop ∧ r.stop ≤ next

namespace ExecutionMap

def new : ExecutionMap where
  ranges := []
  next := 1
  one_le_next := Nat.le_refl _
  next_le := by decide
  ordered := .nil
  bounded := by simp

variable (map : ExecutionMap)

def begin (caller : Nat) : ExecutionMap where
  ranges := map.ranges ++ [⟨caller, map.next, map.next⟩]
  next := map.next
  one_le_next := map.one_le_next
  next_le := map.next_le
  ordered := by
    refine pairwise_append.mpr ⟨map.ordered, pairwise_singleton .., ?_⟩
    intro earlier hearlier later hlater
    rw [mem_singleton.mp hlater]
    exact (map.bounded earlier hearlier).2.2
  bounded := by
    intro r hr
    rcases mem_append.mp hr with hold | hnew
    · exact map.bounded r hold
    · rw [mem_singleton.mp hnew]
      exact ⟨map.one_le_next, Nat.le_refl _, Nat.le_refl _⟩

def noteOps (count : Nat) : ExecutionMap where
  ranges := map.ranges
  next := saturatingAdd map.next count
  one_le_next := by
    have := map.one_le_next
    simp only [saturatingAdd, usizeMax]
    omega
  next_le := Nat.min_le_right ..
  ordered := map.ordered
  bounded := by
    intro r hr
    have hbound := map.bounded r hr
    have := map.next_le
    simp only [saturatingAdd]
    omega

theorem noteOps_noteOps (first second : Nat) :
    (map.noteOps first).noteOps second = map.noteOps (first + second) := by
  apply ExecutionMap.ext
  · rfl
  · simp only [noteOps, saturatingAdd]
    omega

/-- `end`: close the range begun last at the current position. -/
def endItem : ExecutionMap where
  ranges := map.ranges.modifyLast fun last => {last with stop := map.next}
  next := map.next
  one_le_next := map.one_le_next
  next_le := map.next_le
  ordered := by
    have hordered := map.ordered
    rcases eq_nil_or_concat map.ranges with hnil | ⟨init, last, hlast⟩
    · simp [hnil, modifyLast, modifyLast.go]
    · rw [hlast, concat_eq_append, pairwise_append] at hordered
      rw [hlast, concat_eq_append, modifyLast_concat, pairwise_append]
      exact ⟨hordered.1, pairwise_singleton .., by simpa using hordered.2.2⟩
  bounded := by
    have hbounded := map.bounded
    rcases eq_nil_or_concat map.ranges with hnil | ⟨init, last, hlast⟩
    · simp [hnil, modifyLast, modifyLast.go]
    rw [hlast, concat_eq_append] at hbounded
    rw [hlast, concat_eq_append, modifyLast_concat]
    have hend := hbounded last (by simp)
    intro r hr
    rcases mem_append.mp hr with hinit | hnew
    · exact hbounded r (mem_append_left _ hinit)
    · rw [mem_singleton.mp hnew]
      exact ⟨hend.1, by simp only; omega, Nat.le_refl _⟩

end ExecutionMap

inductive MapCall where
  | begin (caller : Nat)
  | noteOps (count : Nat)
  | endItem
  deriving DecidableEq, Repr

namespace ExecutionMap

def call (map : ExecutionMap) : MapCall → ExecutionMap
  | .begin caller => map.begin caller
  | .noteOps count => map.noteOps count
  | .endItem => map.endItem

def build (calls : List MapCall) : ExecutionMap := calls.foldl call new

end ExecutionMap

/-- The response interface `analyze` reads. -/
class ReplyView (R : Type) where
  status : R → Status
  nops : R → Nat
  opStatus : R → Nat → Status

instance : ReplyView CompoundRes where
  status := CompoundRes.status
  nops := CompoundRes.nops
  opStatus := CompoundRes.opStatus

variable (reply : CompoundRes)

@[simp] theorem replyView_status : ReplyView.status reply = reply.status := rfl

@[simp] theorem replyView_nops : ReplyView.nops reply = reply.nops := rfl

@[simp] theorem replyView_opStatus (i : Nat) : ReplyView.opStatus reply i = reply.opStatus i := rfl

structure ItemFailure where
  caller : Nat
  opIndex : Nat
  status : Status
  deriving DecidableEq, Repr

structure ExecutionReport where
  completed : List Nat
  failure : Option ItemFailure
  unexecuted : List Nat
  compoundFailure : Option Status
  compoundFailureOp : Option Nat
  deriving DecidableEq, Repr

inductive MalformedReply where
  | missingSequence
  | operationsAfterFailure (failedOp actual : Nat)
  | statusMismatch (compound operation : Status)
  | truncatedItem (caller expectedEnd actual : Nat)
  deriving DecidableEq, Repr

namespace ExecutionMap

section

variable {R : Type} [ReplyView R]

/-- The scan of `start..stop` for the first operation that is not OK. -/
def failedOp (reply : R) (caller start stop : Nat) : Option ItemFailure :=
  ((range' start (stop - start)).find?
    fun opIndex => ReplyView.opStatus reply opIndex ≠ Status.ok).map
      fun opIndex => ⟨caller, opIndex, ReplyView.opStatus reply opIndex⟩

/-- The loop of `analyze`, with its accumulator of completed callers. -/
def analyzeRanges (reply : R) :
    List OpRange → List Nat → Except MalformedReply (List Nat × Option ItemFailure × List Nat)
  | [], completed => .ok (completed, none, [])
  | r :: rest, completed =>
    if r.start ≥ ReplyView.nops reply then
      .ok (completed, none, (r :: rest).map OpRange.caller)
    else match failedOp reply r.caller r.start (min r.stop (ReplyView.nops reply)) with
      | some itemFailure =>
        if ReplyView.nops reply ≠ itemFailure.opIndex + 1 then
          .error (.operationsAfterFailure itemFailure.opIndex (ReplyView.nops reply))
        else if ReplyView.status reply ≠ itemFailure.status then
          .error (.statusMismatch (ReplyView.status reply) itemFailure.status)
        else .ok (completed, some itemFailure, rest.map OpRange.caller)
      | none =>
        if r.stop > ReplyView.nops reply then
          .error (.truncatedItem r.caller r.stop (ReplyView.nops reply))
        else analyzeRanges reply rest (completed ++ [r.caller])

def analyze (map : ExecutionMap) (reply : R) : Except MalformedReply ExecutionReport :=
  if ReplyView.nops reply = 0 then
    if ReplyView.status reply ≠ Status.ok then
      .ok ⟨[], none, map.ranges.map OpRange.caller, some (ReplyView.status reply), none⟩
    else .error .missingSequence
  else if ReplyView.opStatus reply 0 ≠ Status.ok then
    .ok ⟨[], none, map.ranges.map OpRange.caller, some (ReplyView.opStatus reply 0), some 0⟩
  else do
    let (completed, failure, unexecuted) ← analyzeRanges reply map.ranges []
    if failure.isNone ∧ ReplyView.status reply ≠ Status.ok then
      -- A failing trailing operation (CLOSE) may lie outside every range.
      let opIndex := ReplyView.nops reply - 1
      let operation := ReplyView.opStatus reply opIndex
      if operation ≠ ReplyView.status reply then
        .error (.statusMismatch (ReplyView.status reply) operation)
      else .ok ⟨completed, failure, unexecuted, some (ReplyView.status reply), some opIndex⟩
    else .ok ⟨completed, failure, unexecuted, none, none⟩

end

variable (map : ExecutionMap) (report : ExecutionReport)

/-- The ranges of the items a report lists as completed. -/
def completedRanges : List OpRange :=
  map.ranges.take report.completed.length

/-- Operation ranges whose success is confirmed, including the successful start
of the item that failed. -/
def executedRanges : List (Nat × Nat) :=
  (map.completedRanges report).map (fun r => (r.start, r.stop)) ++
    (report.failure.bind fun failure =>
      (map.ranges.find? fun r => r.caller = failure.caller).map
        fun r => (r.start, failure.opIndex)).toList

end ExecutionMap

end Vnfs
