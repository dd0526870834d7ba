import Vnfs.Client

/-!
A client and what it is connected to. The far end is a state and a function that
answers a request with a reply, or with the error of an exchange that failed; a
result about every such function holds against any server and any transport.
-/

namespace Vnfs

abbrev Wire (σ : Type) := σ → List ArgOp → σ × RpcResult CompoundRes

structure Remote (σ : Type) where
  client : Client
  server : σ

namespace Remote

variable {σ : Type} (wire : Wire σ) (remote : Remote σ)

def callCompound (tag : Tag) (compound : List ArgOp) : Remote σ × RpcResult CompoundRes :=
  match remote.client.prepareCompound compound with
  | .error error => (remote, .error error)
  | .ok request =>
    let (server, received) := wire remote.server request
    let (client, replied) :=
      remote.client.completeCompound tag compound (callResult request received)
    (⟨client, server⟩, replied)

/-- The error of a mutating compound whose outcome is unknown. -/
def ambiguous (error : RpcError) : RpcError :=
  if error.isTransport then
    let message := error.message
    {error with
      message := "ambiguous outcome for mutating compound; request was not retried: " ++ message}
  else error

def callMutation (tag : Tag) (compound : List ArgOp) : Remote σ × RpcResult CompoundRes :=
  let (remote, called) := remote.callCompound wire tag compound
  (remote, called.mapError ambiguous)

variable {remote' : Remote σ} {tag : Tag} {compound : List ArgOp} {res : CompoundRes}

/-- A reply that is returned was accepted for the request that was sent. -/
theorem callCompound_ok {remote : Remote σ}
    (h : remote.callCompound wire tag compound = (remote', .ok res)) :
    ∃ request, remote.client.prepareCompound compound = .ok request ∧
      (wire remote.server request).2 = .ok res ∧
      remote'.server = (wire remote.server request).1 ∧
      validateResponseOps request res = .ok () := by
  unfold callCompound at h
  split at h
  · cases h
  rename_i request hp
  have hr := remote.client.completeCompound_snd tag compound
    (callResult request (wire remote.server request).2)
  obtain ⟨rfl, hc⟩ := Prod.mk.inj h
  obtain ⟨hre, hv⟩ := callResult_ok (hr.symm.trans hc)
  exact ⟨request, hp, hre, rfl, hv⟩

theorem callMutation_ok {remote : Remote σ}
    (h : remote.callMutation wire tag compound = (remote', .ok res)) :
    remote.callCompound wire tag compound = (remote', .ok res) := by
  unfold callMutation at h
  cases hc : remote.callCompound wire tag compound with
  | mk remote₁ called =>
    rw [hc] at h
    cases called with
    | error error => cases h
    | ok reply => exact h

/-- A call changes neither the operation limit of the client nor its check of
sizes. -/
theorem callCompound_client (tag : Tag) (compound : List ArgOp) :
    (remote.callCompound wire tag compound).1.client.maxOps = remote.client.maxOps ∧
      (remote.callCompound wire tag compound).1.client.requestFits = remote.client.requestFits := by
  unfold callCompound Client.completeCompound
  split
  · exact ⟨rfl, rfl⟩
  · dsimp only
    split <;> exact ⟨rfl, rfl⟩

end Remote

/-- `Display` of a malformed reply. -/
def MalformedReply.text : MalformedReply → String
  | .missingSequence => "response omitted SEQUENCE"
  | .truncatedItem caller expectedEnd actual =>
    s!"response truncated caller item {caller}: expected through op {expectedEnd}, " ++
      s!"got {actual} ops"
  | .operationsAfterFailure failedOp actual =>
    s!"response contains operations after failed op {failedOp} ({actual} total ops)"
  | .statusMismatch compound operation =>
    s!"compound status {compound} does not match failing operation status {operation}"

/-- The first item a reply says failed, with its status. -/
def firstFailedRange (res : CompoundRes) (map : ExecutionMap) :
    RpcResult (Option (Nat × Status)) :=
  match map.analyze res with
  | .error error => .error (invalidReply error.text)
  | .ok report =>
    match report.compoundFailure with
    | some status => .error (.op 0 status)
    | none => .ok (report.failure.map fun failure => (failure.caller, failure.status))

namespace Client

variable (client : Client)

/-- A merged compound is built smaller if it is over the learned limit or the
size of a request; the estimate it was packed by is only a hint. -/
def mergedPathsNeedRepack (tag : Tag) (oneItemOps : Nat) (compound : List ArgOp)
    (items : Nat) : RpcResult Bool :=
  if items > 1 then
    if saturatingAdd compound.length 1 > (client.opBudgetFor tag oneItemOps).maxOps then .ok true
    else (client.requestFits compound).map (! ·)
  else .ok false

/-- The limit has already learned from the reply. -/
def canRetryMergedResource (tag : Tag) (reply : CompoundRes)
    (oldBudget reserve perItem : Nat) : Bool :=
  resourceRejectedBeforeMutation reply &&
    (client.opBudgetFor tag (1 + perItem)).mergedLimit reserve perItem < oldBudget

end Client

end Vnfs
