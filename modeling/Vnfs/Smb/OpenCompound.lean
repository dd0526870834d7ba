import Vnfs.Core

/-!
The compounds in which the SMB client opens a file for one request only: CREATE, the
operations and CLOSE go out together. A compound that comes back without a successful
CLOSE leaves a handle behind. The client sends a CLOSE for it alone, and hands the handle
to the caller if that fails too. The responses are arbitrary: the server, or the waiter for
any of them, may fail, and there may be too few or too many. What the `smb2` library makes
of the body of a response is a parameter.
-/

namespace Vnfs.Smb.OpenCompound

inductive Command where
  | create | setInfo | queryInfo | read | write | flush | close
  deriving DecidableEq

structure Frame where
  status : Nat
  body : Bytes
  deriving DecidableEq

/-- `NtStatus::SUCCESS`. -/
def success : Nat := 0

/-- `NtStatus::END_OF_FILE`. -/
def endOfFile : Nat := 0xC0000011

/-- The errors `E` and the handles `F` of the library, and its decoders: of the handle and
the attributes of a file, of the bytes of a query or a READ, of the length of a WRITE. -/
structure Library (E F : Type) where
  protocol : Nat → Command → E
  /-- `smb_error(error, 0)`. -/
  smbError : E → VfError
  createResponse : Bytes → Except E (F × Nat)
  queryInfoResponse : Bytes → Except E Bytes
  readResponse : Bytes → Except E Bytes
  writeResponse : Bytes → Except E Nat

abbrev Responses (E : Type) := List (Except E Frame)

structure CompoundOutcome (F α : Type) where
  result : VfResult α
  deferredClose : Option F

structure OpenCompoundResponseState (T E F : Type) where
  fileId : F
  createResponse : T
  operationResponses : List (Except E T)
  closeSucceeded : Bool
  cardinalityError : Option VfError

def compoundCardinalityError (actual expected : Nat) : VfError :=
  .invalidReply none s!"SMB compound returned {actual} responses, expected {expected}"

variable {T E F α : Type}

def responseSucceeded (response : Option (Except E T)) (isSuccess : T → Bool) : Bool :=
  match response with
  | some (.ok frame) => isSuccess frame
  | _ => false

def decodeOpenCompoundResponses (responses : List (Except E T)) (expected : Nat)
    (parseCreate : T → VfResult F) (closeSucceeded : T → Bool) (mapError : E → VfError) :
    VfResult (OpenCompoundResponseState T E F) :=
  if expected < 2 then
    .error (.transportWithKind none .other
      "SMB temporary-handle compound must include CREATE and CLOSE")
  else
    match responses with
    | [] => .error (compoundCardinalityError 0 expected)
    | .error error :: _ => .error (mapError error)
    | .ok createResponse :: rest =>
      match parseCreate createResponse with
      | .error error => .error error
      | .ok fileId => .ok
        { fileId, createResponse
          operationResponses := rest.take (expected - 2)
          -- the last one of too few responses is not that of CLOSE
          closeSucceeded := decide (expected ≤ responses.length) &&
            responseSucceeded rest[expected - 2]? closeSucceeded
          cardinalityError := if responses.length = expected then none
            else some (compoundCardinalityError responses.length expected) }

variable (lib : Library E F)

def requireStatus (frame : Frame) (command : Command) : VfResult Unit :=
  if frame.status = success then .ok ()
  else .error (lib.smbError (lib.protocol frame.status command))

def parseCreate (frame : Frame) : VfResult F := do
  requireStatus lib frame .create
  let opened ← (lib.createResponse frame.body).mapError lib.smbError
  return opened.1

/-- The decoder, as every compound below uses it. -/
def decode (responses : Responses E) (expected : Nat) :
    VfResult (OpenCompoundResponseState Frame E F) :=
  decodeOpenCompoundResponses responses expected (parseCreate lib) (·.status == success)
    lib.smbError

/-- `reply` is what the request for a CLOSE comes to. -/
def closeOnConnectionResult (reply : Except E Frame) : VfResult Unit := do
  let frame ← reply.mapError lib.smbError
  requireStatus lib frame .close

def retainFailedCloseSlot (deferredClose : Option F) (fileId : F) (result : VfResult Unit) :
    VfResult Unit × Option F :=
  match result with
  | .error error => (.error error, some fileId)
  | .ok _ => (.ok (), deferredClose)

def finishCompoundClose (deferredClose : Option F) (fileId : F) (closeSucceeded : Bool)
    (fallback : VfResult Unit) : VfResult Unit × Option F :=
  if closeSucceeded then (.ok (), deferredClose)
  else retainFailedCloseSlot deferredClose fileId fallback

/-- The third part are the handles for which a CLOSE was sent. -/
def closeCompoundOnConnection (reply : Except E Frame)
    (state : OpenCompoundResponseState Frame E F) : VfResult Unit × Option F × List F :=
  if state.closeSucceeded then
    let (result, deferredClose) := finishCompoundClose none state.fileId true (.ok ())
    (result, deferredClose, [])
  else
    let (result, deferredClose) :=
      finishCompoundClose none state.fileId false (closeOnConnectionResult lib reply)
    (result, deferredClose, [state.fileId])

/-- The operations of a compound of the right length, followed by the cleanup. -/
def settle (reply : Except E Frame) (responses : Responses E) (expected : Nat)
    (operation : Responses E → VfResult α) : CompoundOutcome F α × List F :=
  match decode lib responses expected with
  | .error error => (⟨.error error, none⟩, [])
  | .ok state =>
    let close := closeCompoundOnConnection lib reply state
    let result : VfResult α := match state.cardinalityError with
      | some error => .error error
      | none => operation state.operationResponses
    (⟨match result with
      | .ok value => close.1.map fun _ => value
      | .error error => .error error, close.2.1⟩, close.2.2)

/-- No compound of the right length comes without the response: `expect`. -/
def response (next : Option (Except E Frame)) (expected : Nat) : VfResult Frame :=
  match next with
  | some frame => frame.mapError lib.smbError
  | none => .error (compoundCardinalityError 1 expected)

def deleteOperation (responses : Responses E) : VfResult Unit := do
  let frame ← response lib responses[0]? 3
  requireStatus lib frame .setInfo

def deleteEntryOnConnection (reply : Except E Frame) (responses : Responses E) :
    CompoundOutcome F Unit × List F :=
  settle lib reply responses 3 (deleteOperation lib)

def identityOperation (responses : Responses E) : VfResult Nat := do
  let frame ← response lib responses[0]? 3
  requireStatus lib frame .queryInfo
  let buffer ← (lib.queryInfoResponse frame.body).mapError lib.smbError
  if buffer.length < 8 then
    .error (.invalidReply none "short SMB FileInternalInformation response")
  else .ok ((buffer.take 8).foldr (fun byte rest => byte.toNat + 256 * rest) 0)

def concurrentFileIdentity (reply : Except E Frame) (responses : Responses E) :
    CompoundOutcome F Nat × List F :=
  settle lib reply responses 3 (identityOperation lib)

def checkedReadData (data : Bytes) (requested index : Nat) : VfResult Bytes :=
  let length := data.length
  if requested < length then .error (.invalidReply (some index)
    s!"SMB server returned {length} READ bytes for a {requested}-byte request")
  else .ok data

def readOperation (length : Nat) (responses : Responses E) : VfResult Bytes := do
  let frame ← response lib responses[0]? 3
  if frame.status = endOfFile then .ok []
  else
    requireStatus lib frame .read
    let data ← (lib.readResponse frame.body).mapError lib.smbError
    checkedReadData data length 0

def concurrentCompoundRead (length : Nat) (reply : Except E Frame) (responses : Responses E) :
    CompoundOutcome F Bytes × List F :=
  settle lib reply responses 3 (readOperation lib length)

def writeOperation (requested : Nat) (responses : Responses E) : VfResult Nat := do
  let write ← response lib responses[0]? 4
  let flush ← response lib responses[1]? 4
  requireStatus lib write .write
  let count ← (lib.writeResponse write.body).mapError lib.smbError
  if requested < count then
    .error (.invalidReply none "SMB server reported writing more bytes than requested")
  else
    requireStatus lib flush .flush
    return count

def concurrentCompoundWrite (requested : Nat) (reply : Except E Frame) (responses : Responses E) :
    CompoundOutcome F Nat × List F :=
  settle lib reply responses 4 (writeOperation lib requested)

/-- `FILE_ATTRIBUTE_REPARSE_POINT` of the response to CREATE. -/
def isReparsePoint (frame : Frame) : VfResult Bool := do
  let opened ← (lib.createResponse frame.body).mapError lib.smbError
  return opened.2 &&& 0x400 != 0

/-- Here the cleanup comes before the answer, which CREATE has given already. -/
def probeReparsePoint (reply : Except E Frame) (responses : Responses E) :
    CompoundOutcome F Bool × List F :=
  match decode lib responses 2 with
  | .error error => (⟨.error error, none⟩, [])
  | .ok state =>
    let close := closeCompoundOnConnection lib reply state
    (⟨match state.cardinalityError with
      | some error => .error error
      | none => do
        close.1
        isReparsePoint lib state.createResponse, close.2.1⟩, close.2.2)

/-- Where the handle of a compound can be in the end. -/
inductive Fate where
  | compound
  | fallback
  | deferred

/-- The response at the place of CLOSE reports success. -/
def ClosedByCompound (responses : Responses E) (expected : Nat) : Prop :=
  ∃ frame, responses[expected - 1]? = some (.ok frame) ∧ frame.status = success

variable (reply : Except E Frame) (responses : Responses E) (expected : Nat) (fileId : F)

def Fate.Holds (outcome : CompoundOutcome F α × List F) : Fate → Prop
  | compound => ClosedByCompound responses expected
  | fallback => outcome.2 = [fileId] ∧ closeOnConnectionResult lib reply = .ok ()
  | deferred => outcome.1.deferredClose = some fileId

/-- A wrong number of responses is a failure of the operation. -/
def counted (operation : Responses E → VfResult α) : VfResult α :=
  if responses.length = expected then operation (responses.tail.take (expected - 2))
  else .error (compoundCardinalityError responses.length expected)

/-- The handle is in exactly one place, a CLOSE is sent at most once and never behind one
that succeeded, and the operation's failure comes before that of the cleanup. -/
structure Settled (operation : Responses E → VfResult α)
    (outcome : CompoundOutcome F α × List F) : Prop where
  fate : ∃! fate : Fate, fate.Holds lib reply responses expected fileId outcome
  sent : outcome.2 = [] ∨ outcome.2 = [fileId] ∧ ¬ClosedByCompound responses expected
  failed : ∀ error, counted responses expected operation = .error error →
    outcome.1.result = .error error

/-- What the decoder makes of a compound whose CREATE gives a handle. -/
structure Decoded (create : Frame) (state : OpenCompoundResponseState Frame E F) : Prop where
  fileId_eq : state.fileId = fileId
  create_eq : state.createResponse = create
  closed : state.closeSucceeded = true ↔ ClosedByCompound responses expected
  counted_eq : ∀ {α : Type} (operation : Responses E → VfResult α),
    counted responses expected operation = match state.cardinalityError with
      | some error => .error error
      | none => operation state.operationResponses

variable {lib reply responses expected fileId} {create : Frame}

theorem decode_decoded (he : 2 ≤ expected) (hh : responses.head? = some (.ok create))
    (hcr : parseCreate lib create = .ok fileId) :
    ∃ state, decode lib responses expected = .ok state ∧
      Decoded responses expected fileId create state := by
  obtain ⟨rest, rfl⟩ : ∃ rest, responses = .ok create :: rest := List.head?_eq_some_iff.mp hh
  obtain ⟨count, rfl⟩ := Nat.exists_eq_add_of_le' he
  unfold decode decodeOpenCompoundResponses
  rw [if_neg (by omega)]
  dsimp only
  rw [hcr]
  refine ⟨_, rfl, rfl, rfl, ?_, fun operation => ?_⟩
  · rw [Bool.and_eq_true, decide_eq_true_eq]
    constructor
    · rintro ⟨-, hc⟩
      unfold responseSucceeded at hc
      split at hc
      · rename_i frame hf
        exact ⟨frame, hf, beq_iff_eq.mp hc⟩
      · cases hc
    · rintro ⟨frame, hf, hs⟩
      have hf : rest[count]? = some (.ok frame) := hf
      refine ⟨?_, by simp [hf, responseSucceeded, hs]⟩
      have hlt := (List.getElem?_eq_some_iff.mp hf).1
      rw [List.length_cons]
      omega
  · unfold counted
    split <;> rfl

theorem closeCompoundOnConnection_eq (state : OpenCompoundResponseState Frame E F) :
    closeCompoundOnConnection lib reply state =
      if state.closeSucceeded then (.ok (), none, [])
      else (closeOnConnectionResult lib reply,
        match closeOnConnectionResult lib reply with
          | .ok _ => none
          | .error _ => some state.fileId, [state.fileId]) := by
  unfold closeCompoundOnConnection
  split
  · rfl
  · unfold finishCompoundClose retainFailedCloseSlot
    cases closeOnConnectionResult lib reply <;> rfl

theorem settled_of_close {operation : Responses E → VfResult α}
    {state : OpenCompoundResponseState Frame E F} {result : VfResult α}
    (h : Decoded responses expected fileId create state)
    (hf : ∀ error, counted responses expected operation = .error error → result = .error error) :
    Settled lib reply responses expected fileId operation
      (⟨result, (closeCompoundOnConnection lib reply state).2.1⟩,
        (closeCompoundOnConnection lib reply state).2.2) := by
  rw [closeCompoundOnConnection_eq, h.fileId_eq]
  split
  · rename_i hc
    refine ⟨⟨.compound, h.closed.mp hc, ?_⟩, .inl rfl, hf⟩
    rintro (_ | _ | _) ho
    · rfl
    · cases ho.1
    · cases ho
  · rename_i hc
    have hopen := mt h.closed.mpr hc
    refine ⟨?_, .inr ⟨rfl, hopen⟩, hf⟩
    cases hr : closeOnConnectionResult lib reply with
    | ok done =>
      refine ⟨.fallback, ⟨rfl, hr⟩, ?_⟩
      rintro (_ | _ | _) ho
      · exact absurd ho hopen
      · rfl
      · cases ho
    | error error =>
      refine ⟨.deferred, rfl, ?_⟩
      rintro (_ | _ | _) ho
      · exact absurd ho hopen
      · exact absurd (hr.symm.trans ho.2) nofun
      · rfl

theorem settle_settled (hex : 2 ≤ expected) (hh : responses.head? = some (.ok create))
    (hc : parseCreate lib create = .ok fileId) (operation : Responses E → VfResult α) :
    Settled lib reply responses expected fileId operation
      (settle lib reply responses expected operation) := by
  obtain ⟨state, hd, h⟩ := decode_decoded hex hh hc
  unfold settle
  rw [hd]
  dsimp only
  rw [← h.counted_eq operation]
  exact settled_of_close h fun error he => by rw [he]

theorem probeReparsePoint_settled (hh : responses.head? = some (.ok create))
    (hcr : parseCreate lib create = .ok fileId) :
    Settled lib reply responses 2 fileId (fun _ => isReparsePoint lib create)
      (probeReparsePoint lib reply responses) := by
  obtain ⟨state, hd, h⟩ := decode_decoded (Nat.le_refl 2) hh hcr
  -- the probe never fails here, since the handle was decoded from the same body
  obtain ⟨found, hf⟩ : ∃ found, isReparsePoint lib create = .ok found := by
    unfold parseCreate at hcr
    unfold isReparsePoint
    cases hs : requireStatus lib create .create with
    | error error => simp [hs, bind, Except.bind] at hcr
    | ok done =>
      cases ho : lib.createResponse create.body with
      | error error => simp [hs, ho, bind, Except.bind, Except.mapError] at hcr
      | ok opened => exact ⟨_, rfl⟩
  unfold probeReparsePoint
  rw [hd]
  dsimp only
  rw [h.create_eq, hf]
  refine settled_of_close h fun error he => ?_
  rw [h.counted_eq] at he
  cases hc : state.cardinalityError with
  | some _ => simpa [hc] using he
  | none => simp [hc] at he

/-- Each of the five compounds, for every vector of responses that begins with a handle. -/
theorem compounds_settled (hhead : responses.head? = some (.ok create))
    (hcreate : parseCreate lib create = .ok fileId) (length requested : Nat) :
    Settled lib reply responses 3 fileId (deleteOperation lib)
        (deleteEntryOnConnection lib reply responses) ∧
      Settled lib reply responses 2 fileId (fun _ => isReparsePoint lib create)
        (probeReparsePoint lib reply responses) ∧
      Settled lib reply responses 3 fileId (identityOperation lib)
        (concurrentFileIdentity lib reply responses) ∧
      Settled lib reply responses 3 fileId (readOperation lib length)
        (concurrentCompoundRead lib length reply responses) ∧
      Settled lib reply responses 4 fileId (writeOperation lib requested)
        (concurrentCompoundWrite lib requested reply responses) :=
  ⟨settle_settled (by decide) hhead hcreate _, probeReparsePoint_settled hhead hcreate,
    settle_settled (by decide) hhead hcreate _, settle_settled (by decide) hhead hcreate _,
    settle_settled (by decide) hhead hcreate _⟩

/-- A compound cut short behind CREATE, and a server that refuses the CLOSE as well. -/
theorem compounds_settled_truncated :
    let lib : Library (Nat × Command) Nat :=
      ⟨Prod.mk, fun e => .errno (some 0) e.1, fun _ => .ok (7, 0), .ok, .ok, fun _ => .ok 0⟩
    let outcome := deleteEntryOnConnection lib (.ok ⟨5, []⟩) [.ok ⟨success, []⟩]
    outcome.1.deferredClose = some 7 ∧
      Settled lib (.ok ⟨5, []⟩) [.ok ⟨success, []⟩] 3 7 (deleteOperation lib) outcome :=
  ⟨by decide, (compounds_settled rfl rfl 0 0).1⟩

end Vnfs.Smb.OpenCompound
