import Vnfs.Planner.Adaptive
import Vnfs.Session

/-!
The client around a session: the operation budget of a compound, the size check
before it is sent, and what the adaptive limits learn from its reply. The XDR
encoder is not modelled; `requestFits` is its verdict on a compound's arguments
against the negotiated request size.
-/

namespace Vnfs

inductive OpenCreate where
  | noCreate
  | exclusive
  | guarded
  | unchecked
  deriving DecidableEq, Repr

def makeOpenHow : OpenCreate → OpenHow
  | .noCreate => .noCreate
  | .exclusive => .exclusive
  | .guarded => .guarded
  | .unchecked => .unchecked none false

structure CompoundBudget where
  maxOps : Nat
  deriving DecidableEq, Repr

namespace CompoundBudget

variable (budget : CompoundBudget)

def batchCapacity (opsPerItem : Nat) : RpcResult Nat :=
  let capacity := (budget.maxOps - 1) / opsPerItem
  if capacity = 0 then .error (.op 0 Status.tooManyOps) else .ok capacity

/-- The limit of the builders whose items vary in length: `reserve` operations
of headroom for path walks, but room for one item of minimum shape. -/
def mergedLimit (reserve minOpsPerItem : Nat) : Nat :=
  let minimum := saturatingAdd 1 minOpsPerItem
  if budget.maxOps < minimum then 0
  else min (max (budget.maxOps - reserve) minimum) budget.maxOps

def ensure (compound : List ArgOp) : RpcResult Unit :=
  if saturatingAdd compound.length 1 > budget.maxOps then .error (.op 0 Status.tooManyOps)
  else .ok ()

end CompoundBudget

structure Client where
  session : Session
  maxOps : Nat
  compoundLimits : AdaptiveCompoundLimits
  requestFits : List ArgOp → RpcResult Bool

namespace Client

def opBudgetFor (client : Client) (tag : Tag) (oneItemOps : Nat) : CompoundBudget :=
  ⟨max (min (client.compoundLimits.limit tag) client.maxOps) (min oneItemOps client.maxOps)⟩

/-- `call_compound` up to the point where the request leaves the client. -/
def prepareCompound (client : Client) (compound : List ArgOp) : RpcResult (List ArgOp) := do
  CompoundBudget.ensure ⟨client.maxOps⟩ compound
  let fits ← client.requestFits compound
  if !fits then .error (.op 0 Status.reqTooBig)
  else client.session.sequenced compound

def completeCompound (client : Client) (tag : Tag) (compound : List ArgOp)
    (called : RpcResult CompoundRes) : Client × RpcResult CompoundRes :=
  let (session, replied) := client.session.complete called
  match replied with
  | .error e => ({client with session := session}, .error e)
  | .ok reply =>
    ({client with
      session := session
      compoundLimits := client.compoundLimits.observe tag
        (saturatingAdd compound.length 1) reply.status}, .ok reply)

@[simp] theorem completeCompound_snd (client : Client) (tag : Tag) (compound : List ArgOp)
    (called : RpcResult CompoundRes) :
    (client.completeCompound tag compound called).2 = called := by
  have hr := client.session.complete_snd called
  unfold completeCompound
  cases hf : client.session.complete called with
  | mk session replied =>
    rw [hf] at hr
    cases hr
    dsimp only
    split <;> rfl

def callCompound (client : Client) (tag : Tag) (compound : List ArgOp) (rpc : Rpc) :
    Client × RpcResult CompoundRes :=
  match client.prepareCompound compound with
  | .error e => (client, .error e)
  | .ok request => client.completeCompound tag compound (callResult request (rpc request))

variable {client : Client} {compound request : List ArgOp}

theorem prepareCompound_ok (h : client.prepareCompound compound = .ok request) :
    client.session.sequenced compound = .ok request := by
  unfold prepareCompound at h
  cases he : CompoundBudget.ensure ⟨client.maxOps⟩ compound with
  | error e => simp [he, bind, Except.bind] at h
  | ok _ =>
    cases hf : client.requestFits compound with
    | error e => simp [he, hf, bind, Except.bind] at h
    | ok fits =>
      simp only [he, hf, bind, Except.bind] at h
      split at h
      · cases h
      · exact h

/-- A compound that leaves the client keeps to the limit of the session. -/
theorem prepareCompound_ensure (h : client.prepareCompound compound = .ok request) :
    saturatingAdd compound.length 1 ≤ client.maxOps := by
  unfold prepareCompound CompoundBudget.ensure at h
  split at h
  · cases h
  · rename_i hle
    exact Nat.le_of_not_lt hle

end Client

end Vnfs
