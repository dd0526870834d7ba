import Vnfs.Wire

/-!
The session of `session.rs`: its setup, the SEQUENCE operation put in front of
every compound, and its teardown. `rpc` stands for one exchange with the server
over the session's connection, so a setup step is a function of what that
exchange returned. `compound` is split where the request leaves the client,
because a run of the protocol has the wire and the server between its halves.
-/

namespace Vnfs

def asciiBytes (text : String) : Bytes := text.toList.map fun c => c.toNat.toUInt8

structure OpenOwner where
  name : Bytes
  seqid : UInt32
  deriving DecidableEq, Repr

structure Session where
  clientid : UInt64
  sessionid : Bytes
  slotSeqid : UInt32
  createSessionSeqid : UInt32
  sessionCreated : Bool
  ownsClientid : Bool
  /-- An RPC failed and it is unknown whether the server consumed the slot. -/
  poisoned : Bool
  maxRequestsize : Nat
  maxResponsesize : Nat
  maxOperations : Nat
  openOwner : OpenOwner
  pathOwner : OpenOwner
  deriving DecidableEq, Repr

abbrev Rpc := List ArgOp → RpcResult CompoundRes

namespace Session

/-- The state a connection starts from. The server creates the slot with
sequence zero, so the first SEQUENCE carries one. -/
def fresh : Session where
  clientid := 0
  sessionid := List.replicate 16 0
  slotSeqid := 1
  createSessionSeqid := 1
  sessionCreated := false
  ownsClientid := false
  poisoned := false
  maxRequestsize := 4 * 1024 * 1024
  maxResponsesize := 4 * 1024 * 1024
  maxOperations := 256
  openOwner := ⟨asciiBytes "vnfs-open-owner", 0⟩
  pathOwner := ⟨asciiBytes "vnfs-path-open-owner", 0⟩

def exchangeId (s : Session) (rpc : Rpc) : RpcResult Session := do
  let res ← callResult [.exchangeId] (rpc [.exchangeId])
  let st ← res.tryOpStatus 0
  if st ≠ Status.ok then .error (.op 0 st)
  else match res.data 0 with
    | .exchanged clientid sequenceid confirmed =>
      .ok {s with
        clientid := clientid
        createSessionSeqid := sequenceid
        ownsClientid := !confirmed}
    | _ => .error (.transport "op 0 is not EXCHANGE_ID")

def createSession (s : Session) (rpc : Rpc) : RpcResult Session := do
  let request := [ArgOp.createSession s.clientid s.createSessionSeqid]
  let res ← callResult request (rpc request)
  let st ← res.tryOpStatus 0
  if st ≠ Status.ok then .error (.op 0 st)
  else match res.data 0 with
    | .session sessionid maxRequestSize maxResponseSize maxOperations =>
      if maxRequestSize = 0 ∨ maxResponseSize = 0 ∨ maxOperations = 0 then
        .error (.transport "server returned invalid zero-valued fore-channel limits")
      else
        .ok {s with
          sessionid := sessionid
          sessionCreated := true
          maxRequestsize := maxRequestSize
          maxResponsesize := maxResponseSize
          maxOperations := maxOperations}
    | _ => .error (.transport "op 0 is not CREATE_SESSION")

def poisonedMessage : String :=
  "NFS session is unusable after an ambiguous transport failure; reconnect"

variable (s : Session) (called : RpcResult CompoundRes) (rpc : Rpc) (c : List ArgOp)

/-- The first half of `compound`: the request that goes on the wire. -/
def sequenced : RpcResult (List ArgOp) :=
  if s.poisoned then .error (.transport poisonedMessage)
  else .ok (.sequence s.sessionid s.slotSeqid 0 :: c)

/-- The second half of `compound`: what the session learns from the call. -/
def complete :
    Session × RpcResult CompoundRes :=
  match called with
  | .error e => ({s with poisoned := true}, .error e)
  | .ok res =>
    if res.nops > 0 ∧ res.opStatus 0 = Status.ok then
      ({s with slotSeqid := s.slotSeqid + 1}, .ok res)
    else (s, .ok res)

@[simp] theorem complete_snd : (s.complete called).2 = called := by
  unfold complete
  split
  · rfl
  · split <;> rfl

def compound (rpc : Rpc) : Session × RpcResult CompoundRes :=
  match s.sequenced c with
  | .error e => (s, .error e)
  | .ok request => s.complete (callResult request (rpc request))

def reclaimComplete (s : Session) (rpc : Rpc) : RpcResult Session := do
  let (s, called) := s.compound [.reclaimComplete] rpc
  let res ← called
  let st ← res.tryOpStatus 1
  if st ≠ Status.ok ∧ st ≠ Status.completeAlready then .error (.op 1 st)
  else .ok s

/-- EXCHANGE_ID and CREATE_SESSION: the server's slot exists afterwards. -/
def establish : RpcResult Session := do
  let s ← fresh.exchangeId rpc
  s.createSession rpc

def connect : RpcResult Session := do
  let s ← establish rpc
  s.reclaimComplete rpc

def destroySession (sessionid : Bytes) (rpc : Rpc) : RpcResult Unit := do
  let request := [ArgOp.destroySession sessionid]
  let result ← callResult request (rpc request)
  if result.status = Status.ok ∨ result.status = Status.badsession ∨
      result.status = Status.deadsession then .ok ()
  else .error (.op 0 result.status)

/-- Teardown. Its compounds carry no SEQUENCE; the first failure is reported. -/
def shutdown : Session × RpcResult Unit :=
  if s.clientid = 0 then (s, .ok ())
  else
    let session :=
      if s.sessionCreated then destroySession s.sessionid rpc else .ok ()
    let client :=
      if s.ownsClientid then do
        let request := [ArgOp.destroyClientid s.clientid]
        let res ← callResult request (rpc request)
        if res.status = Status.ok then .ok () else .error (.op 0 res.status)
      else .ok ()
    ({s with clientid := 0}, do session; client)

/-- Forget the server's side after the session was replaced. -/
def abandon : Session := {s with clientid := 0}

end Session

end Vnfs
