import Vnfs.Session

/-!
One session beside the server's slot, with the messages on the wire between
them. The client sends one compound at a time; the wire may lose a request or a
reply, and the client may give up waiting while either is still on its way. The
server runs a SEQUENCE only when it carries the sequence after the last one it
ran. It may also refuse one that does (a dead session, a request too large),
and its replies are otherwise arbitrary, malformed ones included.

The log records what happened in order, each SEQUENCE with the server's counter
at that moment.
-/

namespace Vnfs

open List Session

/-- The sequence id of a request that starts with SEQUENCE. -/
def sequenceSeqid : List ArgOp → Option UInt32
  | .sequence _ seqid _ :: _ => some seqid
  | _ => none

/-- The reply shows that the server ran the SEQUENCE operation. -/
def CompoundRes.SequenceRan (res : CompoundRes) : Prop :=
  res.nops > 0 ∧ res.opStatus 0 = Status.ok

inductive SlotEvent where
  | sent (seqid last : UInt32)
  | executed (seqid last : UInt32)
  | replayed (seqid last : UInt32)
  | refused (seqid last : UInt32)
  /-- A call failed and the client does not know its outcome. -/
  | unknown
  deriving DecidableEq, Repr

@[simp]
def SlotEvent.sentSeqid : SlotEvent → Option UInt32
  | .sent seqid _ => some seqid
  | _ => none

@[simp]
def SlotEvent.executedSeqid : SlotEvent → Option UInt32
  | .executed seqid _ => some seqid
  | _ => none

/-- How a server whose slot last ran `last` answers SEQUENCE `seqid`: its reply
and its counter afterwards. -/
inductive Served (last seqid : UInt32) : CompoundRes → UInt32 → SlotEvent → Prop where
  | execute (res : CompoundRes) (hnext : seqid = last + 1) (hran : res.SequenceRan) :
      Served last seqid res seqid (.executed seqid last)
  | replay (res : CompoundRes) (hlast : seqid = last) :
      Served last seqid res last (.replayed seqid last)
  | refuse (res : CompoundRes) (hran : ¬ res.SequenceRan) :
      Served last seqid res last (.refused seqid last)

structure SlotSystem where
  session : Session
  /-- The request whose reply the client waits for. -/
  outstanding : Option (List ArgOp)
  requests : List (List ArgOp)
  replies : List CompoundRes
  /-- The last sequence the server's slot ran. -/
  last : UInt32
  log : List SlotEvent

namespace SlotSystem

/-- The server has just created the session, and with it the slot. -/
structure Initial (sys : SlotSystem) : Prop where
  established : ∃ rpc, establish rpc = .ok sys.session
  outstanding : sys.outstanding = none
  requests : sys.requests = []
  replies : sys.replies = []
  last : sys.last = 0
  log : sys.log = []

/-- The call returns to the client with what the RPC layer received. -/
def finish (sys : SlotSystem) (request : List ArgOp) (received : RpcResult CompoundRes) :
    SlotSystem :=
  let called := callResult request received
  {sys with
    session := (sys.session.complete called).1
    outstanding := none
    log := sys.log ++ match called with
      | .ok _ => []
      | .error _ => [.unknown]}

@[simp] theorem finish_requests (sys : SlotSystem) (request : List ArgOp)
    (received : RpcResult CompoundRes) : (sys.finish request received).requests = sys.requests :=
  rfl

inductive Step : SlotSystem → SlotSystem → Prop where
  | send {sys : SlotSystem} {c request : List ArgOp} {seqid : UInt32}
      (hidle : sys.outstanding = none) (hrequest : sys.session.sequenced c = .ok request)
      (hseqid : sequenceSeqid request = some seqid) :
      Step sys {sys with
        outstanding := some request
        requests := sys.requests ++ [request]
        log := sys.log ++ [.sent seqid sys.last]}
  | serve {sys : SlotSystem} {request : List ArgOp} {rest : List (List ArgOp)}
      {seqid last : UInt32} {res : CompoundRes} {event : SlotEvent}
      (hrequest : sys.requests = request :: rest)
      (hseqid : sequenceSeqid request = some seqid)
      (hserved : Served sys.last seqid res last event) :
      Step sys {sys with
        requests := rest
        replies := sys.replies ++ [res]
        last := last
        log := sys.log ++ [event]}
  | loseRequest {sys : SlotSystem} {request : List ArgOp} {rest : List (List ArgOp)}
      (hrequest : sys.requests = request :: rest) : Step sys {sys with requests := rest}
  | loseReply {sys : SlotSystem} {res : CompoundRes} {rest : List CompoundRes}
      (hreply : sys.replies = res :: rest) : Step sys {sys with replies := rest}
  | receive {sys : SlotSystem} {request : List ArgOp} {res : CompoundRes}
      {rest : List CompoundRes} (hwaiting : sys.outstanding = some request)
      (hreply : sys.replies = res :: rest) :
      Step sys {sys.finish request (.ok res) with replies := rest}
  | fail {sys : SlotSystem} {request : List ArgOp} {error : RpcError}
      (hwaiting : sys.outstanding = some request) :
      Step sys (sys.finish request (.error error))
  | shutdown {sys : SlotSystem} {rpc : Rpc} (hidle : sys.outstanding = none) :
      Step sys {sys with session := (sys.session.shutdown rpc).1}
  | abandon {sys : SlotSystem} (hidle : sys.outstanding = none) :
      Step sys {sys with session := sys.session.abandon}

/-- While the client waits, the exchange is in one of three phases. -/
inductive Phase (sys : SlotSystem) (request : List ArgOp) : Prop where
  | requested (hrequests : sys.requests = [request]) (hreplies : sys.replies = [])
      (hslot : sys.session.slotSeqid = sys.last + 1)
  | answered (res : CompoundRes) (hrequests : sys.requests = []) (hreplies : sys.replies = [res])
      (hran : res.SequenceRan → sys.session.slotSeqid = sys.last)
      (hrefused : ¬ res.SequenceRan → sys.session.slotSeqid = sys.last + 1)
  | lost (hrequests : sys.requests = []) (hreplies : sys.replies = [])

/-- The two counters agree unless an exchange is open, and a request on the wire
always carries the sequence the server expects. -/
structure Synchronized (sys : SlotSystem) : Prop where
  request_next : ∀ request ∈ sys.requests, sequenceSeqid request = some (sys.last + 1)
  request_le_one : sys.requests.length ≤ 1
  idle : sys.session.poisoned = false → sys.outstanding = none →
    sys.requests = [] ∧ sys.replies = [] ∧ sys.session.slotSeqid = sys.last + 1
  waiting : ∀ request, sys.outstanding = some request →
    sys.session.poisoned = false ∧ sys.Phase request

structure History (sys : SlotSystem) : Prop where
  next : ∀ seqid last, .sent seqid last ∈ sys.log ∨ .executed seqid last ∈ sys.log ∨
    .refused seqid last ∈ sys.log → seqid = last + 1
  not_replayed : ∀ seqid last, .replayed seqid last ∉ sys.log
  /-- Everything the server ran, and everything it may still run, was sent. -/
  executed_sent : (sys.log.filterMap SlotEvent.executedSeqid ++
    sys.requests.filterMap sequenceSeqid).Sublist (sys.log.filterMap SlotEvent.sentSeqid)
  poisoned : .unknown ∈ sys.log → sys.session.poisoned = true
  silent : sys.log.Pairwise fun earlier later => earlier = .unknown → later.sentSeqid = none

theorem seqid_ne_next (seqid : UInt32) : seqid ≠ seqid + 1 := by
  intro h
  have := congrArg UInt32.toNat h
  simp only [UInt32.toNat_add, UInt32.reduceToNat] at this
  omega

variable {s : Session} {sys sys' : SlotSystem} {s' : Session} {rpc : Rpc}

theorem sequenced_ok {c request : List ArgOp} (h : s.sequenced c = .ok request) :
    s.poisoned = false ∧ request = .sequence s.sessionid s.slotSeqid 0 :: c := by
  unfold sequenced at h
  split at h
  · cases h
  · rename_i hp
    exact ⟨by simpa using hp, (Except.ok.inj h).symm⟩

theorem complete_ok (s : Session) (res : CompoundRes) :
    (s.complete (.ok res)).1.poisoned = s.poisoned ∧
      (res.SequenceRan → (s.complete (.ok res)).1.slotSeqid = s.slotSeqid + 1) ∧
      (¬ res.SequenceRan → (s.complete (.ok res)).1.slotSeqid = s.slotSeqid) := by
  unfold complete CompoundRes.SequenceRan
  split
  · contradiction
  · rename_i heq
    cases heq
    split <;> simp_all

/-- The client's view after a returned call, whichever way it returned. -/
theorem finish_cases (sys : SlotSystem) (request : List ArgOp) (received : RpcResult CompoundRes) :
    ((∃ e, callResult request received = .error e) ∧
        (sys.finish request received).session.poisoned = true ∧
        (sys.finish request received).log = sys.log ++ [.unknown]) ∨
      (∃ res, received = .ok res ∧
        (sys.finish request received).session = (sys.session.complete (.ok res)).1 ∧
        (sys.finish request received).log = sys.log) := by
  unfold finish
  cases hc : callResult request received with
  | error e => exact .inl ⟨⟨e, rfl⟩, rfl, rfl⟩
  | ok called =>
    right
    refine ⟨called, (callResult_ok hc).1, rfl, by simp⟩

theorem Step.synchronized (step : Step sys sys') (h : sys.Synchronized) : sys'.Synchronized := by
  cases step with
  | @send c request seqid hi hrequest hseqid =>
    obtain ⟨hp, rfl⟩ := sequenced_ok hrequest
    obtain ⟨hr, hre, hs⟩ := h.idle hp hi
    constructor
    · simp [hr, sequenceSeqid, hs]
    · simp [hr]
    · simp
    · rintro waited ⟨⟩
      exact ⟨hp, .requested (by simp [hr]) hre hs⟩
  | @serve request rest seqid last res event hrequest hseqid hserved =>
    have hrest : rest = [] := by
      have := h.request_le_one
      simpa [hrequest] using this
    have hn : seqid = sys.last + 1 := by
      have := h.request_next request (by simp [hrequest])
      simpa [hseqid] using this
    constructor
    · simp [hrest]
    · simp [hrest]
    · intro hp hi
      have := (h.idle hp hi).1
      simp [hrequest] at this
    intro waited hw
    obtain ⟨hp, hph⟩ := h.waiting waited hw
    refine ⟨hp, ?_⟩
    cases hph with
    | requested hr hre hs =>
      cases hserved with
      | execute _ hra =>
        exact .answered res hrest (by simp [hre]) (fun _ => by simp [hs, hn]) (absurd hra)
      | replay hl => exact absurd (hl.symm.trans hn) (seqid_ne_next _)
      | refuse hra =>
        exact .answered res hrest (by simp [hre]) (fun hra' => absurd hra' hra) (fun _ => hs)
    | answered _ hr => simp [hrequest] at hr
    | lost hr => simp [hrequest] at hr
  | @loseRequest request rest hrequest =>
    have hrest : rest = [] := by
      have := h.request_le_one
      simpa [hrequest] using this
    constructor
    · simp [hrest]
    · simp [hrest]
    · intro hp hi
      have := (h.idle hp hi).1
      simp [hrequest] at this
    intro waited hw
    obtain ⟨hp, hph⟩ := h.waiting waited hw
    refine ⟨hp, ?_⟩
    cases hph with
    | requested _ hre => exact .lost hrest hre
    | answered _ hr => simp [hrequest] at hr
    | lost hr => simp [hrequest] at hr
  | @loseReply res rest hreply =>
    refine ⟨h.request_next, h.request_le_one, ?_, ?_⟩
    · intro hp hi
      have := (h.idle hp hi).2.1
      simp [hreply] at this
    intro waited hw
    obtain ⟨hp, hph⟩ := h.waiting waited hw
    refine ⟨hp, ?_⟩
    cases hph with
    | requested _ hre => simp [hreply] at hre
    | answered _ hr hre =>
      exact .lost hr (by simp_all)
    | lost _ hre => simp [hreply] at hre
  | @receive request res rest hwa hreply =>
    obtain ⟨hp, hph⟩ := h.waiting request hwa
    cases hph with
    | requested _ hre => simp [hreply] at hre
    | lost _ hre => simp [hreply] at hre
    | answered answer hr hre hra hrefused =>
      obtain ⟨rfl, hrest⟩ : res = answer ∧ rest = [] := by simpa [hreply] using hre
      refine ⟨h.request_next, h.request_le_one, ?_, by simp [finish]⟩
      intro hf _
      refine ⟨hr, hrest, ?_⟩
      rcases sys.finish_cases request (.ok res) with ⟨-, hb, -⟩ | ⟨_, ⟨⟩, hse, -⟩
      · simp [hb] at hf
      change (sys.finish request (.ok res)).session.slotSeqid = sys.last + 1
      rw [hse]
      obtain ⟨-, ha, hst⟩ := complete_ok sys.session res
      by_cases hseq : res.SequenceRan
      · rw [ha hseq, hra hseq]
      · rw [hst hseq, hrefused hseq]
  | @fail request error hwa =>
    refine ⟨h.request_next, h.request_le_one, ?_, by simp [finish]⟩
    intro hf
    cases hf
  | @shutdown rpc hi =>
    have hse : (sys.session.shutdown rpc).1.poisoned = sys.session.poisoned ∧
        (sys.session.shutdown rpc).1.slotSeqid = sys.session.slotSeqid := by
      unfold Session.shutdown
      split <;> simp
    refine ⟨h.request_next, h.request_le_one, ?_, by simp [hi]⟩
    intro hp _
    simpa [hse] using h.idle (hse.1 ▸ hp) hi
  | abandon hi =>
    exact ⟨h.request_next, h.request_le_one, fun hp _ => h.idle hp hi, by simp [hi]⟩

/-- A log may be extended by an event that obeys the rules itself, unless it is a
send after an unknown outcome. -/
theorem History.silent_snoc (h : sys.History) (event : SlotEvent)
    (hev : .unknown ∈ sys.log → event.sentSeqid = none) :
    (sys.log ++ [event]).Pairwise
      fun earlier later => earlier = .unknown → later.sentSeqid = none := by
  apply pairwise_append.mpr
  refine ⟨h.silent, pairwise_singleton .., ?_⟩
  intro earlier hear later hl hu
  rw [mem_singleton.mp hl]
  exact hev (hu ▸ hear)

theorem History.finish (h : sys.History) (request : List ArgOp) (received : RpcResult CompoundRes) :
    (sys.finish request received).History := by
  rcases sys.finish_cases request received with ⟨-, hp, hl⟩ | ⟨res, -, hs, hl⟩
  · constructor
    · simpa [hl] using h.next
    · simpa [hl] using h.not_replayed
    · simpa [hl, filterMap_cons] using h.executed_sent
    · exact fun _ => hp
    · rw [hl]
      exact h.silent_snoc .unknown fun _ => rfl
  constructor
  · simpa [hl] using h.next
  · simpa [hl] using h.not_replayed
  · rw [hl]
    exact h.executed_sent
  · rw [hl, hs, (complete_ok sys.session res).1]
    exact h.poisoned
  · rw [hl]
    exact h.silent

theorem Step.history (step : Step sys sys') (hsy : sys.Synchronized) (h : sys.History) :
    sys'.History := by
  cases step with
  | @send c request seqid hi hr hse =>
    obtain ⟨hp, rfl⟩ := sequenced_ok hr
    obtain ⟨hrequests, -, hsl⟩ := hsy.idle hp hi
    obtain rfl : sys.session.slotSeqid = seqid := Option.some.inj hse
    have hkn : .unknown ∉ sys.log := fun hm => by simp [h.poisoned hm] at hp
    constructor
    · intro seqid last hm
      simp only [mem_append, mem_singleton, SlotEvent.sent.injEq, reduceCtorEq, or_false] at hm
      rcases hm with (hs | ⟨rfl, rfl⟩) | hserved
      · exact h.next _ _ (.inl hs)
      · exact hsl
      · exact h.next _ _ (.inr hserved)
    · simpa using h.not_replayed
    · have hs := h.executed_sent
      simpa [hrequests, filterMap_cons, sequenceSeqid] using hs
    · simpa using h.poisoned
    · exact h.silent_snoc _ fun hm => absurd hm hkn
  | @serve request rest seqid last res event hr hse hserved =>
    have hn : seqid = sys.last + 1 := by
      have := hsy.request_next request (by simp [hr])
      simpa [hse] using this
    have hs := h.executed_sent
    rw [hr, filterMap_cons_some hse] at hs
    cases hserved with
    | execute _ _ =>
      constructor
      · intro seqid' last' hm
        simp only [mem_append, mem_singleton, SlotEvent.executed.injEq,
          reduceCtorEq, or_false] at hm
        rcases hm with hs' | (he | ⟨rfl, rfl⟩) | hre
        · exact h.next _ _ (.inl hs')
        · exact h.next _ _ (.inr (.inl he))
        · exact hn
        · exact h.next _ _ (.inr (.inr hre))
      · simpa using h.not_replayed
      · simpa [filterMap_cons] using hs
      · simpa using h.poisoned
      · exact h.silent_snoc _ fun _ => rfl
    | replay hl => exact absurd (hl.symm.trans hn) (seqid_ne_next _)
    | refuse _ =>
      constructor
      · intro seqid' last' hm
        simp only [mem_append, mem_singleton, SlotEvent.refused.injEq, reduceCtorEq, or_false] at hm
        rcases hm with hs' | he | hre | ⟨rfl, rfl⟩
        · exact h.next _ _ (.inl hs')
        · exact h.next _ _ (.inr (.inl he))
        · exact h.next _ _ (.inr (.inr hre))
        · exact hn
      · simpa using h.not_replayed
      · have hd := (sublist_cons_self seqid (rest.filterMap sequenceSeqid)).append_left
          (sys.log.filterMap SlotEvent.executedSeqid)
        simpa [filterMap_cons] using hd.trans hs
      · simpa using h.poisoned
      · exact h.silent_snoc _ fun _ => rfl
  | @loseRequest request rest hr =>
    refine ⟨h.next, h.not_replayed, ?_, h.poisoned, h.silent⟩
    have hd : (rest.filterMap sequenceSeqid).Sublist (sys.requests.filterMap sequenceSeqid) := by
      rw [hr]
      exact (sublist_cons_self request rest).filterMap _
    exact (hd.append_left _).trans h.executed_sent
  | loseReply _ => exact ⟨h.next, h.not_replayed, h.executed_sent, h.poisoned, h.silent⟩
  | @receive request res rest hw hreply =>
    have hf := h.finish request (.ok res)
    exact ⟨hf.next, hf.not_replayed, hf.executed_sent, hf.poisoned, hf.silent⟩
  | @fail request error hw => exact h.finish request (.error error)
  | @shutdown rpc hi =>
    have hsess : (sys.session.shutdown rpc).1.poisoned = sys.session.poisoned := by
      unfold Session.shutdown
      split <;> rfl
    exact ⟨h.next, h.not_replayed, h.executed_sent, fun hm => hsess ▸ h.poisoned hm, h.silent⟩
  | abandon hi => exact ⟨h.next, h.not_replayed, h.executed_sent, h.poisoned, h.silent⟩

theorem exchangeId_slot (h : s.exchangeId rpc = .ok s') :
    s'.slotSeqid = s.slotSeqid ∧ s'.poisoned = s.poisoned := by
  unfold exchangeId at h
  cases hc : callResult [.exchangeId] (rpc [.exchangeId]) with
  | error e => simp [hc, bind, Except.bind] at h
  | ok res =>
    cases hs : res.tryOpStatus 0 with
    | error e => simp [hc, hs, bind, Except.bind] at h
    | ok st =>
      simp only [hc, hs, bind, Except.bind] at h
      split at h
      · cases h
      split at h
      · cases h
        exact ⟨rfl, rfl⟩
      · cases h

theorem createSession_slot (h : s.createSession rpc = .ok s') :
    s'.slotSeqid = s.slotSeqid ∧ s'.poisoned = s.poisoned := by
  unfold createSession at h
  cases hc : callResult [.createSession s.clientid s.createSessionSeqid]
      (rpc [.createSession s.clientid s.createSessionSeqid]) with
  | error e => simp [hc, bind, Except.bind] at h
  | ok res =>
    cases hs : res.tryOpStatus 0 with
    | error e => simp [hc, hs, bind, Except.bind] at h
    | ok st =>
      simp only [hc, hs, bind, Except.bind] at h
      split at h
      · cases h
      split at h
      · split at h
        · cases h
        · cases h
          exact ⟨rfl, rfl⟩
      · cases h

/-- Setup leaves the counter at one, the sequence after the new slot's zero. -/
theorem establish_slot (h : establish rpc = .ok s) : s.slotSeqid = 1 ∧ s.poisoned = false := by
  unfold establish at h
  cases he : fresh.exchangeId rpc with
  | error e => simp [he, bind, Except.bind] at h
  | ok identified =>
    simp only [he, bind, Except.bind] at h
    obtain ⟨hs, hp⟩ := exchangeId_slot he
    obtain ⟨hs', hp'⟩ := createSession_slot h
    exact ⟨hs'.trans hs, hp'.trans hp⟩

theorem Initial.synchronized (h : sys.Initial) : sys.Synchronized := by
  obtain ⟨rpc, hs⟩ := h.established
  constructor
  · simp [h.requests]
  · simp [h.requests]
  · intro _ _
    refine ⟨h.requests, h.replies, ?_⟩
    rw [(establish_slot hs).1, h.last]
    rfl
  · simp [h.outstanding]

theorem Initial.history (h : sys.Initial) : sys.History := by
  constructor <;> simp [h.log, h.requests]

theorem run_invariant {init : SlotSystem} (hi : init.Initial)
    (hr : Relation.ReflTransGen Step init sys) : sys.Synchronized ∧ sys.History := by
  induction hr with
  | refl => exact ⟨hi.synchronized, hi.history⟩
  | tail _ hs ih => exact ⟨hs.synchronized ih.1, hs.history ih.1 ih.2⟩

/-- In every run from a new session: each SEQUENCE is sent, and meets the
server, with the sequence after the one the slot ran last; the server never
takes one for a replay and runs no compound twice; and once a call left its
outcome unknown nothing is sent on the slot again. -/
theorem run_sequences_next {init sys : SlotSystem} (hinit : init.Initial)
    (hrun : Relation.ReflTransGen Step init sys) :
    (∀ seqid last, .sent seqid last ∈ sys.log ∨ .executed seqid last ∈ sys.log ∨
        .refused seqid last ∈ sys.log → seqid = last + 1) ∧
      (∀ seqid last, .replayed seqid last ∉ sys.log) ∧
      (sys.log.filterMap SlotEvent.executedSeqid).Sublist
        (sys.log.filterMap SlotEvent.sentSeqid) ∧
      sys.log.Pairwise (fun earlier later => earlier = .unknown → later.sentSeqid = none) ∧
      (.unknown ∈ sys.log → ∀ c rpc, sys.session.compound c rpc =
        (sys.session, .error (.transport poisonedMessage))) := by
  obtain ⟨-, h⟩ := run_invariant hinit hrun
  refine ⟨h.next, h.not_replayed, ?_, h.silent, ?_⟩
  · exact (sublist_append_left _ _).trans h.executed_sent
  · intro hunknown c rpc
    simp [compound, sequenced, h.poisoned hunknown]

/-- A server that accepts the two setup compounds. -/
def setupRpc : Rpc
  | [.exchangeId] =>
    .ok ⟨Status.ok, [⟨.exchangeId, Status.ok, .exchanged 7 1 false, false⟩], false⟩
  | _ => .ok ⟨Status.ok, [⟨.createSession, Status.ok, .session [9] 4096 4096 16, false⟩], false⟩

/-- RECLAIM_COMPLETE runs, the next request is lost, and the session is dead. -/
theorem run_sequences_next_lost_request :
    ∃ init sys : SlotSystem, init.Initial ∧ Relation.ReflTransGen Step init sys ∧
      sys.log = [.sent 1 0, .executed 1 0, .sent 2 1, .unknown] ∧
      ∀ c rpc, sys.session.compound c rpc =
        (sys.session, .error (.transport poisonedMessage)) := by
  let established : Session := {fresh with
    clientid := 7, ownsClientid := true, sessionid := [9], sessionCreated := true,
    maxRequestsize := 4096, maxResponsesize := 4096, maxOperations := 16}
  let init : SlotSystem := ⟨established, none, [], [], 0, []⟩
  let reply : CompoundRes := ⟨Status.ok, [⟨.sequence, Status.ok, .none, false⟩,
    ⟨.reclaimComplete, Status.ok, .none, false⟩], false⟩
  have hinit : init.Initial := ⟨⟨setupRpc, rfl⟩, rfl, rfl, rfl, rfl, rfl⟩
  have hreclaim := Relation.ReflTransGen.single (@Step.send init [.reclaimComplete] _ _ rfl rfl rfl)
  have hserve := hreclaim.tail (Step.serve rfl rfl (.execute reply rfl ⟨by decide, rfl⟩))
  have hreceive := hserve.tail (Step.receive rfl rfl)
  have hsend := hreceive.tail (@Step.send _ [.putrootfh] _ _ rfl rfl rfl)
  have hlost := hsend.tail (Step.loseRequest rfl)
  have hrun := hlost.tail (@Step.fail _ _ (.transport "timed out") rfl)
  exact ⟨init, _, hinit, hrun, rfl, (run_sequences_next hinit hrun).2.2.2.2 (by decide)⟩

end SlotSystem

end Vnfs
