import Vnfs.Planner.ExecutionMap

/-!
How large the next compound may be. Every compound shape, named by its tag, has
a window that grows on success and shrinks on a resource rejection, below the
operation count the session negotiated.
-/

namespace Vnfs

/-- A COMPOUND tag. The tags are ASCII literals of the client. -/
abbrev Tag := String

structure AdaptiveBatchSizer where
  current : Nat
  ceiling : Nat
  resourceBackoff : Nat
  successesAtLimit : Nat
  deriving DecidableEq, Repr

namespace AdaptiveBatchSizer

def new (conservativeStart negotiatedCapacity : Nat) : AdaptiveBatchSizer :=
  let ceiling := max negotiatedCapacity 1
  ⟨min (max conservativeStart 1) ceiling, ceiling, 0, 0⟩

variable (sizer : AdaptiveBatchSizer) (attempted : Nat)

def next (remaining callerCap : Nat) : Nat :=
  let cap := if callerCap = 0 then sizer.current else min sizer.current callerCap
  min remaining cap

def succeeded (moreWork : Bool) :
    AdaptiveBatchSizer :=
  if !moreWork ∨ attempted < sizer.current - 16 then sizer
  else
    let successesAtLimit := sizer.successesAtLimit + 1
    let needed := 2 ^ sizer.resourceBackoff
    if successesAtLimit ≥ needed then
      {sizer with
        current := min (saturatingAdd sizer.current 8) sizer.ceiling
        successesAtLimit := 0}
    else {sizer with successesAtLimit := successesAtLimit}

def resourceRejected : AdaptiveBatchSizer :=
  {sizer with
    current := min sizer.current (max (attempted / 2) 1)
    resourceBackoff := min (sizer.resourceBackoff + 1) 5
    successesAtLimit := 0}

def opLimitRejected : AdaptiveBatchSizer :=
  if attempted > 1 then
    {sizer with
      ceiling := min sizer.ceiling (attempted - 1)
      current := min sizer.current (max (attempted / 2) 1)
      successesAtLimit := 0}
  else sizer

end AdaptiveBatchSizer

structure AdaptiveCompoundLimits where
  negotiatedOps : Nat
  shapes : Tag → Option AdaptiveBatchSizer

namespace AdaptiveCompoundLimits

variable (limits : AdaptiveCompoundLimits) (tag : Tag) (negotiatedOps : Nat)

def new : AdaptiveCompoundLimits := ⟨negotiatedOps, fun _ => none⟩

def startingOps : Nat :=
  match tag with
  | "removev" => 26
  | "lookupv" => 73
  | "lookup_typev" | "getattrv" | "getattrv1" | "vstatfs_impl" | "readlinkv" | "readv"
  | "readv1" | "readv2" | "readdir_children" | "readdir_pages" => 96
  | _ => negotiatedOps

def limit : Nat :=
  match limits.shapes tag with
  | none => min (startingOps tag limits.negotiatedOps) limits.negotiatedOps
  | some size => size.next usizeMax 0

def record (limit : AdaptiveBatchSizer) (sentOps : Nat) (status : Status) :
    AdaptiveBatchSizer :=
  if status = Status.ok then limit.succeeded sentOps true
  else if status = Status.resource then limit.resourceRejected sentOps
  else if status = Status.tooManyOps then limit.opLimitRejected sentOps
  else limit

def observe (sentOps : Nat) (status : Status) :
    AdaptiveCompoundLimits :=
  let known := (limits.shapes tag).getD
    (.new (startingOps tag limits.negotiatedOps) limits.negotiatedOps)
  {limits with shapes := fun other =>
    if other = tag then some (record known sentOps status) else limits.shapes other}

end AdaptiveCompoundLimits

/-- A mutation compound may be resent with a smaller budget only when the reply
proves that no mutating operation ran. -/
def resourceRejectedBeforeMutation {R : Type} [ReplyView R] (reply : R) : Bool :=
  if ReplyView.status reply ≠ Status.resource ∧ ReplyView.status reply ≠ Status.tooManyOps then
    false
  else match ReplyView.nops reply with
    | 0 | 1 => true
    | 2 => ReplyView.opStatus reply 1 ≠ Status.ok
    | _ => false

theorem nops_le_two_of_rejected {res : CompoundRes}
    (h : resourceRejectedBeforeMutation res = true) : res.nops ≤ 2 := by
  unfold resourceRejectedBeforeMutation at h
  split at h
  · cases h
  simp only [replyView_nops] at h
  split at h
  · omega
  · omega
  · omega
  · cases h

end Vnfs
