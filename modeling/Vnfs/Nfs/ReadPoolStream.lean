import Vnfs.Nfs.ReadPoolTraffic

/-!
What a stream does as a whole. In every run the callback gets the ranges of the
file in order, each once, and no more is buffered than the pool allows. When the
stream returns nothing is left in transit.

The result is put together from three sources: an error of the pool or of a read,
the error of the callback, and an error of closing the file. The first one wins,
and reads that fail while the stream only waits for them to end count for it.
-/

namespace Vnfs.Nfs

open Mailbox Option StreamState StreamPhase
open List hiding min

def StreamPhase.late {n : Nat} : StreamPhase n → Bool
  | .draining | .closing _ | .awaitFinished | .returned _ => true
  | _ => false

def StreamPhase.drained {n : Nat} : StreamPhase n → Bool
  | .closing _ | .awaitFinished | .returned _ => true
  | _ => false

def StreamPhase.opening {n : Nat} : StreamPhase n → Bool
  | .starting _ | .awaitStarted => true
  | _ => false

/-- What went on between the stream and the callback. -/
def StreamState.heard {n : Nat} (s : StreamState n) :
    List (Nat × Bytes) × Bool × Option VfError × Bool :=
  (s.calls, s.cancelled, s.callbackError, s.callbackPanic)

variable {n : Nat} {s s' : StreamState n}

theorem StreamState.calls_of_heard (h : s'.heard = s.heard) :
    s'.calls = s.calls := congrArg Prod.fst h

theorem StreamState.cancelled_of_heard (h : s'.heard = s.heard) :
    s'.cancelled = s.cancelled := congrArg (·.2.1) h

namespace ReadStream

variable {n : Nat} (stream : ReadStream n)

/-- The first answer of the callback that ends the stream, if there is one. -/
def verdictFrom (earlier : List (Nat × Bytes)) : List (Nat × Bytes) → Verdict
  | [] => .resume
  | call :: later =>
    match stream.callback earlier call.1 call.2 with
    | .resume => verdictFrom (earlier ++ [call]) later
    | verdict => verdict

def verdict (calls : List (Nat × Bytes)) : Verdict := stream.verdictFrom [] calls

/-- What is wrong with something received after scheduling stopped. -/
def drainFault : Option (WorkerEvent n) → Option VfError
  | none => some (poolError "read worker channel closed while draining")
  | some (.chunk _ _ _ _ (.ok _)) => none
  | some (.chunk _ _ _ _ (.error error)) => some (stream.inContext error)
  | some (.stopped worker) => some (poolError s!"read worker {worker} stopped while draining")
  | some _ => some (poolError "read worker sent an unexpected drain response")

/-- The first thing that went wrong after scheduling stopped. -/
def drainError (drained : List (Option (WorkerEvent n))) : Option VfError :=
  drained.findSome? stream.drainFault

theorem verdictFrom_append (earlier calls : List (Nat × Bytes)) (call : Nat × Bytes) :
    stream.verdictFrom earlier (calls ++ [call]) =
      match stream.verdictFrom earlier calls with
      | .resume => stream.callback (earlier ++ calls) call.1 call.2
      | verdict => verdict := by
  induction calls generalizing earlier with
  | nil =>
    simp only [nil_append, append_nil, verdictFrom]
    split <;> simp_all
  | cons first calls ih =>
    simp only [cons_append, verdictFrom]
    split
    · rw [ih, append_assoc, singleton_append]
    · split
      · contradiction
      · rfl

theorem verdict_append {calls : List (Nat × Bytes)} (h : stream.verdict calls = .resume)
    (offset : Nat) (data : Bytes) :
    stream.verdict (calls ++ [(offset, data)]) = stream.callback calls offset data := by
  unfold verdict at h ⊢
  rw [verdictFrom_append, h]
  rfl

theorem drainError_append (drained : List (Option (WorkerEvent n)))
    (received : Option (WorkerEvent n)) :
    stream.drainError (drained ++ [received]) =
      (stream.drainError drained).or (stream.drainFault received) := by
  unfold drainError
  rw [findSome?_append, findSome?_singleton]

/-- The variables say what the callback answered. -/
def Heeded (s : StreamState n) : Verdict → Prop
  | .resume => s.cancelled = false ∧ s.callbackError = none ∧ s.callbackPanic = false
  | .stop => s.cancelled = true ∧ s.callbackError = none ∧ s.callbackPanic = false
  | .error error =>
    s.cancelled = true ∧ s.callbackError = some error ∧ s.callbackPanic = false
  | .panic => s.cancelled = true ∧ s.callbackError = none ∧ s.callbackPanic = true

/-- Where the result of the stream comes from. -/
structure Settled (s : StreamState n) : Prop where
  heeded : Heeded s (stream.verdict s.calls)
  opening : s.phase.opening = true → s.calls = []
  sized : s.calls ≠ [] → s.fileSize.isSome
  undrained : s.phase.late = false → s.drained = []
  delivering : s.phase = .delivering → s.primaryError = none ∧ s.cancelled = false
  /-- After the callback ended the stream only the drain can bring an error. -/
  fault : s.cancelled = true → s.primaryError = stream.drainError s.drained
  exhausted : s.phase.late = true → s.primaryError = none → s.cancelled = false →
    s.fileSize.isSome ∧ stream.totalRanges s.size ≤ s.nextDelivery
  outcome : ∀ result, s.phase = .returned result → result = stream.outcome s

variable {stream} {s s' : StreamState n}

theorem Heeded.resume {verdict : Verdict} (h : Heeded s verdict) (hi : s.cancelled = false) :
    verdict = .resume := by
  cases verdict with
  | resume => rfl
  | stop => exact absurd (hi.symm.trans h.1) (by simp)
  | error error => exact absurd (hi.symm.trans h.1) (by simp)
  | panic => exact absurd (hi.symm.trans h.1) (by simp)

theorem Heeded.of_same (hs : s'.heard = s.heard) {verdict : Verdict} (h : Heeded s verdict) :
    Heeded s' verdict := by
  simp only [heard, Prod.mk.injEq] at hs
  obtain ⟨-, hc, he, hp⟩ := hs
  cases verdict <;> exact ⟨hc.trans h.1, he.trans h.2.1, hp.trans h.2.2⟩

/-- A step before scheduling stops, with the callback content so far. -/
theorem Settled.early (h : stream.Settled s) (hi : s.cancelled = false) (hs : s'.heard = s.heard)
    (hf : s.phase.opening = false → s'.fileSize = s.fileSize) (hdr : s'.drained = s.drained)
    (hph : s.phase.late = false) (hph' : s'.phase.late = false)
    (hopg : s'.phase.opening = true → s.phase.opening = true)
    (hde : s'.phase = .delivering → s'.primaryError = none) : stream.Settled s' where
  heeded := calls_of_heard hs ▸ h.heeded.of_same hs
  opening ho := (calls_of_heard hs).trans (h.opening (hopg ho))
  sized hcs := by
    rw [calls_of_heard hs] at hcs
    cases ho : s.phase.opening with
    | true => exact absurd (h.opening ho) hcs
    | false => exact hf ho ▸ h.sized hcs
  undrained _ := hdr.trans (h.undrained hph)
  delivering hd := ⟨hde hd, (cancelled_of_heard hs).trans hi⟩
  fault hc := by
    rw [cancelled_of_heard hs, hi] at hc
    cases hc
  exhausted hl := by
    rw [hph'] at hl
    cases hl
  outcome result hr := by
    rw [hr] at hph'
    cases hph'

theorem Settled.later (h : stream.Settled s) (hsa : s'.heard = s.heard)
    (hph : s.phase.late = true) (hph' : s'.phase.late = true)
    (her : s'.primaryError = s.primaryError) (hdr : s'.drained = s.drained)
    (hf : s'.fileSize = s.fileSize) (hne : s'.nextDelivery = s.nextDelivery)
    (hou : ∀ result, s'.phase = .returned result → result = stream.outcome s') :
    stream.Settled s' where
  heeded := calls_of_heard hsa ▸ h.heeded.of_same hsa
  opening ho := by
    cases hs : s'.phase <;> simp_all [StreamPhase.opening, late]
  sized hcs := hf ▸ h.sized (calls_of_heard hsa ▸ hcs)
  undrained he := by
    rw [hph'] at he
    cases he
  delivering hd := by
    rw [hd] at hph'
    cases hph'
  fault hc := by
    rw [her, hdr]
    exact h.fault ((cancelled_of_heard hsa).symm.trans hc)
  exhausted _ hn hi := by
    have hsi : s'.size = s.size := by rw [size, size, hf]
    rw [hf, hsi, hne]
    exact h.exhausted hph (her.symm.trans hn) ((cancelled_of_heard hsa).symm.trans hi)
  outcome := hou

section Keeps

variable (stream)

theorem onStart_keeps (s : StreamState n) (event : WorkerEvent n) :
    (stream.onStart s event).heard = s.heard ∧ (stream.onStart s event).drained = s.drained ∧
      (stream.onStart s event).phase = s.phase := by
  unfold onStart
  split
  · split
    · split
      · split <;> exact ⟨rfl, rfl, rfl⟩
      · split <;> exact ⟨rfl, rfl, rfl⟩
      · exact ⟨rfl, rfl, rfl⟩
    · exact ⟨rfl, rfl, rfl⟩
  · split <;> exact ⟨rfl, rfl, rfl⟩
  · exact ⟨rfl, rfl, rfl⟩

theorem started_keeps (s : StreamState n) :
    (started s).heard = s.heard ∧ (started s).drained = s.drained ∧
      (started s).phase = .running := by
  dsimp only [started]
  split <;> exact ⟨rfl, rfl, rfl⟩

/-- An error while ranges are read, or one more range to deliver. -/
theorem onRange_keeps (hph : s.phase = .running) (event : WorkerEvent n) :
    (stream.onRange s event).heard = s.heard ∧ (stream.onRange s event).fileSize = s.fileSize ∧
      (stream.onRange s event).drained = s.drained ∧
      ((stream.onRange s event).phase = .running ∨ (stream.onRange s event).phase = .delivering ∧
          (stream.onRange s event).primaryError = s.primaryError) := by
  unfold onRange onData
  dsimp only
  split
  · split
    · split
      · exact ⟨rfl, rfl, rfl, .inl hph⟩
      split
      · split
        · exact ⟨rfl, rfl, rfl, .inl hph⟩
        split
        · exact ⟨rfl, rfl, rfl, .inl hph⟩
        · split
          · exact ⟨rfl, rfl, rfl, .inl hph⟩
          · exact ⟨rfl, rfl, rfl, .inr ⟨rfl, rfl⟩⟩
      · exact ⟨rfl, rfl, rfl, .inl hph⟩
    · exact ⟨rfl, rfl, rfl, .inl hph⟩
  · exact ⟨rfl, rfl, rfl, .inl hph⟩
  · exact ⟨rfl, rfl, rfl, .inl hph⟩

theorem onFinish_keeps (s : StreamState n) (event : WorkerEvent n) :
    (stream.onFinish s event).heard = s.heard ∧ (stream.onFinish s event).phase = s.phase ∧
      (stream.onFinish s event).primaryError = s.primaryError ∧
      (stream.onFinish s event).drained = s.drained ∧
      (stream.onFinish s event).fileSize = s.fileSize ∧
      (stream.onFinish s event).nextDelivery = s.nextDelivery ∧
      (stream.onFinish s event).jobs = s.jobs := by
  unfold onFinish
  split
  · split
    · split <;> exact ⟨rfl, rfl, rfl, rfl, rfl, rfl, rfl⟩
    · exact ⟨rfl, rfl, rfl, rfl, rfl, rfl, rfl⟩
  · split <;> exact ⟨rfl, rfl, rfl, rfl, rfl, rfl, rfl⟩
  · exact ⟨rfl, rfl, rfl, rfl, rfl, rfl, rfl⟩

theorem startWorker_keeps (system : PoolSystem n) (worker : Fin n) (rest : List (Fin n)) :
    (stream.startWorker system worker rest).main.heard = system.main.heard ∧
      (stream.startWorker system worker rest).main.drained = system.main.drained ∧
      (stream.startWorker system worker rest).main.phase = .starting rest := by
  unfold startWorker
  split <;> exact ⟨rfl, rfl, rfl⟩

end Keeps

variable {system system' : PoolSystem n}

theorem Settled.opened (h : stream.Settled s) (hph : s.phase.opening = true) :
    s.cancelled = false := by
  have hh := h.heeded
  rw [h.opening hph] at hh
  exact hh.1

theorem late_of_opening {phase : StreamPhase n} (h : phase.opening = true) :
    phase.late = false := by
  cases phase <;> first | rfl | cases h

theorem Settled.awaitStarted (h : stream.Settled system.main)
    (hph : system.main.phase = .awaitStarted)
    (hstep : stream.awaitStarted system = some system') : stream.Settled system'.main := by
  have ho : system.main.phase.opening = true := by rw [hph]; rfl
  have hi := h.opened ho
  have hst : ∀ primaryError, stream.Settled
      (started {system.main with primaryError := primaryError}) := by
    intro primaryError
    obtain ⟨hs, hd, hr⟩ := started_keeps {system.main with primaryError := primaryError}
    exact h.early hi hs (by simp [ho]) hd (late_of_opening ho)
      (by rw [hr]; rfl) (by simp [hr, StreamPhase.opening]) (by simp [hr])
  unfold ReadStream.awaitStarted at hstep
  dsimp only at hstep
  split at hstep
  · rcases receive_cases hstep with ⟨event, events, he, rfl⟩ | ⟨he, ha, rfl⟩
    · obtain ⟨hs, hd, hs'⟩ := stream.onStart_keeps system.main event
      exact h.early hi hs (by simp [ho]) hd (late_of_opening ho)
        (late_of_opening (hs' ▸ ho)) (fun _ => ho) (by simp [hs', hph])
    · exact hst _
  · obtain rfl := some.inj hstep
    exact hst _

theorem Settled.drain (h : stream.Settled s)
    (primaryError : Option VfError) (her : s.cancelled = true → primaryError = s.primaryError)
    (hex : primaryError = none → s.cancelled = false →
      s.fileSize.isSome ∧ stream.totalRanges s.size ≤ s.nextDelivery) :
    stream.Settled {s with phase := .draining, primaryError := primaryError} where
  heeded := h.heeded
  opening ho := by cases ho
  sized := h.sized
  undrained he := by cases he
  delivering hd := by cases hd
  fault hc := (her hc).trans (h.fault hc)
  exhausted _ := hex
  outcome result hr := by cases hr

theorem Settled.runRanges (hco : stream.Consistent system)
    (h : stream.Settled system.main) (hph : system.main.phase = .running)
    (hst : stream.runRanges system = some system') : stream.Settled system'.main := by
  have he : system.main.phase.late = false := by rw [hph]; rfl
  unfold ReadStream.runRanges at hst
  dsimp only at hst
  split at hst
  · rename_i hl
    have hi : system.main.cancelled = false := by simpa using hl.2.1
    have hn : system.main.primaryError = none := isNone_iff_eq_none.mp hl.1
    have hru : ∀ s, s.heard = system.main.heard → s.fileSize = system.main.fileSize →
        s.drained = system.main.drained → s.phase = .running → stream.Settled s := by
      intro s hs hf hd hph'
      exact h.early hi hs (fun _ => hf) hd he (by rw [hph']; rfl)
        (by simp [hph', StreamPhase.opening]) (by simp [hph'])
    split at hst
    · rename_i hsc
      split at hst
      · -- an offset within the file does not overflow
        have hle := hco.offset_le hph hn hsc.1
        omega
      split at hst
      · obtain rfl := some.inj hst
        exact hru _ rfl rfl rfl hph
      · obtain rfl := some.inj hst
        exact hru _ rfl rfl rfl hph
    rcases receive_cases hst with ⟨event, events, hev, rfl⟩ | ⟨hev, ha, rfl⟩
    · obtain ⟨hs, hf, hd, hr⟩ := stream.onRange_keeps hph event
      rcases hr with hr | ⟨hr, her⟩
      · exact hru _ hs hf hd hr
      · exact h.early hi hs (fun _ => hf) hd he (by rw [hr]; rfl)
          (by simp [hr, StreamPhase.opening]) fun _ => her.trans hn
    refine h.drain _ ?_ ?_
    · intro hc
      exact absurd (hi.symm.trans hc) (by simp)
    · intro hso
      simp [orError, hn] at hso
  rename_i hdo
  obtain rfl := some.inj hst
  refine h.drain _ (fun _ => rfl) ?_
  intro hn hi
  refine ⟨hco.known (.inl hph) hn, ?_⟩
  simpa [hn, hi] using hdo

theorem Settled.deliver (h : stream.Settled s) (hph : s.phase = .delivering)
    (hfi : s.fileSize.isSome) : stream.Settled (stream.deliver s) := by
  obtain ⟨hn, hi⟩ := h.delivering hph
  have hr := h.heeded.resume hi
  have hd := h.undrained (by rw [hph]; rfl)
  obtain ⟨-, he, hp⟩ : Heeded s .resume := hr ▸ h.heeded
  unfold ReadStream.deliver
  split
  · exact h.early hi rfl (fun _ => rfl) rfl (by rw [hph]; rfl) rfl
      (by simp [StreamPhase.opening]) (by simp)
  rename_i data hl
  have hv := stream.verdict_append hr (s.nextDelivery * stream.options.chunkSize) data
  have hf : s.primaryError = stream.drainError s.drained := by
    rw [hn, hd]
    rfl
  dsimp only
  split <;> rename_i hc <;> rw [hc] at hv
  · refine ⟨?_, ?_, fun _ => hfi, fun _ => hd, fun _ => ⟨hn, hi⟩, ?_, ?_, ?_⟩
    · dsimp only
      rw [hv]
      exact ⟨hi, he, hp⟩
    · simp [hph, StreamPhase.opening]
    · intro hca
      exact absurd (hi.symm.trans hca) (by simp)
    · simp [hph, late]
    · simp [hph]
  · refine ⟨?_, by simp [StreamPhase.opening], fun _ => hfi, fun _ => hd, by simp,
      fun _ => hf, by simp [late], by simp⟩
    rw [hv]
    exact ⟨rfl, he, hp⟩
  · refine ⟨?_, by simp [StreamPhase.opening], fun _ => hfi, fun _ => hd, by simp,
      fun _ => hf, by simp [late], by simp⟩
    rw [hv]
    exact ⟨rfl, rfl, hp⟩
  refine ⟨?_, by simp [StreamPhase.opening], fun _ => hfi, fun _ => hd, by simp,
    fun _ => hf, by simp [late], by simp⟩
  rw [hv]
  exact ⟨rfl, he, rfl⟩

/-- While draining, what is received counts as an error exactly if it is a fault. -/
theorem onDrain_fault (hc : stream.Consistent system)
    (hph : system.main.phase = .draining) {event : WorkerEvent n}
    {events : List (WorkerEvent n)} (he : system.queues.events = event :: events) :
    ∃ jobs answered workerAlive, stream.onDrain system.main event = {system.main with
      jobs := jobs
      answered := answered
      workerAlive := workerAlive
      primaryError := system.main.primaryError.or (stream.drainFault (some event))
      drained := system.main.drained ++ [some event]} := by
  rcases hc.event_cases (.inr hph) he with
    ⟨worker, index, offset, result, rfl, -, hl⟩ | ⟨worker, rfl⟩
  · dsimp only [onDrain]
    rw [if_pos rfl, if_neg (by simp [hl])]
    cases result with
    | error error => exact ⟨_, _, _, rfl⟩
    | ok data =>
      rw [show stream.drainFault (some (.chunk stream.streamId worker index offset (.ok data))) =
        none from rfl, or_none]
      exact ⟨_, _, _, rfl⟩
  · exact ⟨_, _, _, rfl⟩

theorem Settled.drainRanges (hco : stream.Consistent system)
    (h : stream.Settled system.main) (hph : system.main.phase = .draining)
    (hst : stream.drainRanges system = some system') : stream.Settled system'.main := by
  have hl : system.main.phase.late = true := by rw [hph]; rfl
  -- one more thing was received
  have hm : ∀ (received : Option (WorkerEvent n)) (s : StreamState n),
      s.heard = system.main.heard → s.phase = .draining ∨ (∃ rest, s.phase = .closing rest) →
      s.primaryError = system.main.primaryError.or (stream.drainFault received) →
      s.drained = system.main.drained ++ [received] →
      s.fileSize = system.main.fileSize → s.nextDelivery = system.main.nextDelivery →
      stream.Settled s := by
    intro received s hs hph' he hd hf hne
    have hcs := calls_of_heard hs
    have hc := cancelled_of_heard hs
    have hl' : s.phase.late = true ∧ s.phase.opening = false ∧ s.phase ≠ .delivering ∧
        ∀ result, s.phase ≠ .returned result := by
      rcases hph' with hph' | ⟨rest, hph'⟩ <;>
        simp [hph', late, StreamPhase.opening]
    refine ⟨hcs ▸ h.heeded.of_same hs, ?_, ?_, ?_, ?_, ?_, ?_, ?_⟩
    · simp [hl'.2.1]
    · exact fun hso => hf ▸ h.sized (hcs ▸ hso)
    · simp [hl'.1]
    · exact fun hde => absurd hde hl'.2.2.1
    · intro hca
      rw [he, hd, stream.drainError_append, h.fault (hc ▸ hca)]
    · intro _ hn hi
      have hsi : s.size = system.main.size := by
        rw [size, size, hf]
      rw [hf, hsi, hne]
      rw [he, or_eq_none_iff] at hn
      exact h.exhausted hl hn.1 (hc ▸ hi)
    · exact fun result hr => absurd hr (hl'.2.2.2 result)
  unfold ReadStream.drainRanges at hst
  dsimp only at hst
  split at hst
  · obtain rfl := some.inj hst
    exact h.later rfl hl rfl rfl rfl rfl rfl (by simp)
  rcases receive_cases hst with ⟨event, events, hev, rfl⟩ | ⟨hev, ha, rfl⟩
  · obtain ⟨jobs, answered, workerAlive, heq⟩ := onDrain_fault hco hph hev
    rw [heq]
    exact hm (some event) _ rfl (.inl hph) rfl rfl rfl rfl
  · exact hm none _ rfl (.inr ⟨_, rfl⟩) rfl rfl rfl rfl

variable {worker : Fin n} {rest : List (Fin n)}

theorem Settled.closeWorker (h : stream.Settled system.main)
    (hph : system.main.phase = .closing (worker :: rest)) :
    stream.Settled (stream.closeWorker system worker rest).main := by
  have hl : system.main.phase.late = true := by rw [hph]; rfl
  unfold ReadStream.closeWorker
  dsimp only
  split
  · exact h.later rfl hl rfl rfl rfl rfl rfl (by simp)
  split
  · exact h.later rfl hl rfl rfl rfl rfl rfl (by
      simp [orCloseError, lost])
  · exact h.later rfl hl rfl rfl rfl rfl rfl (by simp)

theorem Settled.awaitFinished (h : stream.Settled system.main)
    (hph : system.main.phase = .awaitFinished)
    (hst : stream.awaitFinished system = some system') : stream.Settled system'.main := by
  have hl : system.main.phase.late = true := by rw [hph]; rfl
  unfold ReadStream.awaitFinished at hst
  dsimp only at hst
  split at hst
  · rcases receive_cases hst with ⟨event, events, he, rfl⟩ | ⟨he, ha, rfl⟩
    · obtain ⟨hs, hph', her, hd, hf, hn, -⟩ := stream.onFinish_keeps system.main event
      exact h.later hs hl (hph' ▸ hl) her hd hf hn (by simp [hph', hph])
    · refine h.later rfl hl rfl rfl rfl rfl rfl ?_
      intro result hr
      exact (returned.inj hr).symm
  obtain rfl := some.inj hst
  refine h.later rfl hl rfl rfl rfl rfl rfl ?_
  intro result hr
  exact (returned.inj hr).symm

theorem Settled.mainStep (hc : stream.Consistent system) (h : stream.Settled system.main)
    (hst : stream.mainStep system = some system') : stream.Settled system'.main := by
  unfold ReadStream.mainStep at hst
  split at hst <;> rename_i hph
  · obtain rfl := some.inj hst
    have ho : system.main.phase.opening = true := by rw [hph]; rfl
    exact h.early (h.opened ho) rfl (by simp [ho]) rfl (late_of_opening ho) rfl
      (fun _ => ho) (by simp)
  · rename_i worker rest
    obtain rfl := some.inj hst
    have ho : system.main.phase.opening = true := by rw [hph]; rfl
    obtain ⟨hs, hd, hph'⟩ := stream.startWorker_keeps system worker rest
    exact h.early (h.opened ho) hs (by simp [ho]) hd (late_of_opening ho)
      (by rw [hph']; rfl) (fun _ => ho) (by simp [hph'])
  · exact h.awaitStarted hph hst
  · exact h.runRanges hc hph hst
  · obtain rfl := some.inj hst
    exact h.deliver hph (hc.known (.inr hph) (h.delivering hph).1)
  · exact h.drainRanges hc hph hst
  · obtain rfl := some.inj hst
    exact h.later rfl (by rw [hph]; rfl) rfl rfl rfl rfl rfl (by simp)
  · obtain rfl := some.inj hst
    exact h.closeWorker hph
  · exact h.awaitFinished hph hst
  · cases hst

theorem Settled.step (hc : stream.Consistent system) (h : stream.Settled system.main)
    (hs : stream.Step system system') : stream.Settled system'.main := by
  cases hs with
  | main step => exact h.mainStep hc step
  | work listening queued handles => exact h
  | panic listening => exact h
  | announce gone silent => exact h

variable (stream) in
theorem Settled.initial (workerAlive : Fin n → Bool) (queues : PoolQueues n)
    (opened : Fin n → Option Nat) :
    stream.Settled (ReadStream.initial workerAlive queues opened).main where
  heeded := ⟨rfl, rfl, rfl⟩
  opening _ := rfl
  sized hcs := by cases hcs rfl
  undrained _ := rfl
  delivering hd := by cases hd
  fault hc := by cases hc
  exhausted hl := by cases hl
  outcome result hr := by cases hr

/-- After the drain the only jobs left are those of workers that are gone. -/
def Abandoned (system : PoolSystem n) : Prop :=
  system.main.phase.drained = true →
    ∀ job ∈ system.main.jobs, system.queues.listening job.2 = false

theorem Abandoned.of_open (h : system.main.phase.drained = false) : Abandoned system := by
  intro hd
  rw [hd] at h
  cases h

theorem Abandoned.of_same (h : Abandoned system)
    (hph : system.main.phase.drained = true) (hj : system'.main.jobs = system.main.jobs)
    (hl : system'.queues.listening = system.queues.listening) : Abandoned system' := by
  intro _
  rw [hj, hl]
  exact h hph

theorem Abandoned.drainRanges (hc : stream.Consistent system) (hph : system.main.phase = .draining)
    (hs : stream.drainRanges system = some system') : Abandoned system' := by
  unfold ReadStream.drainRanges at hs
  dsimp only at hs
  split at hs
  · rename_i hjo
    obtain rfl := some.inj hs
    intro _ job hj
    rw [List.isEmpty_iff.mp hjo] at hj
    cases hj
  rcases receive_cases hs with ⟨event, events, he, rfl⟩ | ⟨he, ha, rfl⟩
  · obtain ⟨jobs, answered, workerAlive, heq⟩ := onDrain_fault hc hph he
    intro hd
    rw [heq] at hd
    simp [hph, StreamPhase.drained] at hd
  intro _ job _
  cases hl : system.queues.listening job.2 with
  | false => rfl
  | true =>
    have hli := (hc.transit.live job.2 hl).1
    exact absurd (hli.symm.trans (ha job.2)) (by simp)

theorem Abandoned.closeWorker (h : Abandoned system)
    (hph : system.main.phase = .closing (worker :: rest)) :
    Abandoned (stream.closeWorker system worker rest) := by
  have hd : system.main.phase.drained = true := by rw [hph]; rfl
  unfold ReadStream.closeWorker
  dsimp only
  split
  · exact h.of_same hd rfl rfl
  split
  · exact h.of_same hd rfl rfl
  rename_i queues hs
  refine h.of_same hd rfl ?_
  unfold Mailbox.send at hs
  split at hs
  · obtain rfl := some.inj hs
    rfl
  · cases hs

theorem Abandoned.awaitFinished (h : Abandoned system) (hph : system.main.phase = .awaitFinished)
    (hs : stream.awaitFinished system = some system') : Abandoned system' := by
  have hd : system.main.phase.drained = true := by rw [hph]; rfl
  unfold ReadStream.awaitFinished at hs
  dsimp only at hs
  split at hs
  · rcases receive_cases hs with ⟨event, events, he, rfl⟩ | ⟨he, ha, rfl⟩
    · obtain ⟨-, -, -, -, -, -, hj⟩ := stream.onFinish_keeps system.main event
      exact h.of_same hd hj rfl
    · exact h.of_same hd rfl rfl
  · obtain rfl := some.inj hs
    exact h.of_same hd rfl rfl

theorem awaitStarted_open (hph : system.main.phase = .awaitStarted)
    (hs : stream.awaitStarted system = some system') : system'.main.phase.drained = false := by
  unfold ReadStream.awaitStarted at hs
  dsimp only at hs
  split at hs
  · rcases receive_cases hs with ⟨event, events, he, rfl⟩ | ⟨he, ha, rfl⟩
    · rw [(stream.onStart_keeps system.main event).2.2, hph]
      rfl
    · rw [(started_keeps _).2.2]
      rfl
  · obtain rfl := some.inj hs
    rw [(started_keeps _).2.2]
    rfl

theorem deliver_open (hph : s.phase = .delivering) : (stream.deliver s).phase.drained = false := by
  unfold deliver
  dsimp only
  split
  · rfl
  split
  · rw [hph]
    rfl
  · rfl
  · rfl
  · rfl

theorem runRanges_open (hc : stream.Consistent system) (hph : system.main.phase = .running)
    (hst : stream.runRanges system = some system') : system'.main.phase.drained = false := by
  have ho : system.main.phase.drained = false := by rw [hph]; rfl
  unfold ReadStream.runRanges at hst
  dsimp only at hst
  split at hst
  · rename_i hl
    split at hst
    · rename_i hs
      split at hst
      · rename_i hov
        have hn : system.main.primaryError = none := isNone_iff_eq_none.mp hl.1
        have hlt := hc.offset_le hph hn hs.1
        omega
      split at hst
      · obtain rfl := some.inj hst
        exact ho
      · obtain rfl := some.inj hst
        exact ho
    rcases receive_cases hst with ⟨event, events, he, rfl⟩ | ⟨he, ha, rfl⟩
    · rcases (stream.onRange_keeps hph event).2.2.2 with hr | ⟨hr, -⟩
      · rw [hr]
        rfl
      · rw [hr]
        rfl
    · rfl
  · obtain rfl := some.inj hst
    rfl

theorem Abandoned.mainStep (hc : stream.Consistent system) (h : Abandoned system)
    (hs : stream.mainStep system = some system') : Abandoned system' := by
  unfold ReadStream.mainStep at hs
  split at hs <;> rename_i hph
  · obtain rfl := some.inj hs
    exact .of_open rfl
  · rename_i worker rest
    obtain rfl := some.inj hs
    apply Abandoned.of_open
    rw [(stream.startWorker_keeps system worker rest).2.2]
    rfl
  · exact .of_open (awaitStarted_open hph hs)
  · exact .of_open (runRanges_open hc hph hs)
  · obtain rfl := some.inj hs
    exact .of_open (deliver_open hph)
  · exact .drainRanges hc hph hs
  · obtain rfl := some.inj hs
    exact h.of_same (by rw [hph]; rfl) rfl rfl
  · obtain rfl := some.inj hs
    exact h.closeWorker hph
  · exact h.awaitFinished hph hs
  · cases hs

theorem Abandoned.step (hc : stream.Consistent system) (h : Abandoned system)
    (hs : stream.Step system system') : Abandoned system' := by
  cases hs with
  | main step => exact h.mainStep hc step
  | work listening queued handles => exact h
  | panic listening =>
    rename_i worker
    intro hd job hj
    dsimp only [Mailbox.died]
    rcases eq_or_ne job.2 worker with heq | hne
    · rw [heq, Function.update_self]
    · rw [Function.update_of_ne hne]
      exact h hd job hj
  | announce gone silent => exact h

/-- Every state of a run is consistent, and says where its result comes from. -/
theorem reaches_settled {workerAlive : Fin n → Bool} {queues : PoolQueues n}
    {opened : Fin n → Option Nat} (hi : Expects (poolReading n) queues (fun _ => []))
    (hr : stream.Reaches (initial workerAlive queues opened) system) :
    stream.Consistent system ∧ stream.Settled system.main ∧ Abandoned system := by
  induction hr with
  | refl =>
    exact ⟨Consistent.initial stream workerAlive opened hi,
      Settled.initial stream workerAlive queues opened, .of_open rfl⟩
  | tail _ hs ih =>
    obtain ⟨hc, hse, ha⟩ := ih
    exact ⟨hc.step hs, hse.step hc hs, ha.step hc hs⟩

section Told

variable {event : WorkerEvent n} {main : StreamState n} {queues : PoolQueues n}
  {command : WorkerCommand}

theorem jobsOf_eq_nil {jobs : List (Nat × Fin n)} :
    stream.jobsOf jobs worker = [] ↔ ∀ job ∈ jobs, job.2 ≠ worker := by
  simp [jobsOf]

variable (stream) in
/-- Nothing is expected of a worker whose end has been taken in. -/
def Told (system : PoolSystem n) : Prop := ∀ worker, system.queues.announced worker = true →
  .stopped worker ∈ system.queues.events ∨ stream.expected system.main worker = []

theorem Told.send (h : stream.Told system) (hc : stream.Consistent system)
    (hs : system.queues.send worker command = some queues) (he : ∀ other, other ≠ worker →
      stream.expected system.main other = [] → stream.expected main other = []) :
    stream.Told {system with main := main, queues := queues} := by
  unfold Mailbox.send at hs
  split at hs
  · rename_i hl
    obtain rfl := some.inj hs
    intro other ha
    have hne : other ≠ worker := by
      rintro rfl
      exact absurd ((hc.transit.live other hl).1.symm.trans ha) (by simp)
    exact (h other ha).imp_right (he other hne)
  · cases hs

/-- A receive leaves no more to wait for, and nothing of a worker that stopped. -/
theorem Told.receive {onEvent : WorkerEvent n → StreamState n} (h : stream.Told system)
    (hs : ReadStream.receive system onEvent main = some system')
    (he : ∀ event worker, stream.expected system.main worker = [] ∨ event = .stopped worker →
      stream.expected (onEvent event) worker = [])
    (hn : ∀ worker, stream.expected system.main worker = [] → stream.expected main worker = []) :
    stream.Told system' := by
  rcases receive_cases hs with ⟨event, events, hev, rfl⟩ | ⟨-, -, rfl⟩
  · intro worker ha
    rcases h worker ha with hm | hx
    · rw [hev, mem_cons] at hm
      rcases hm with rfl | hm
      · exact .inr (he _ worker (.inr rfl))
      · exact .inl hm
    · exact .inr (he _ worker (.inl hx))
  · exact fun worker ha => (h worker ha).imp_right (hn worker)

section Events

variable (h : stream.expected s worker = [] ∨ event = .stopped worker)
include h

theorem expected_onStart (hph : s.phase = .awaitStarted) :
    stream.expected (stream.onStart s event) worker = [] := by
  simp only [expected, hph, round_eq_nil, (stream.onStart_keeps s event).2.2] at h ⊢
  cases event <;> grind [onStart, orError, lost]

theorem expected_onRange (hph : s.phase = .running) :
    stream.expected (stream.onRange s event) worker = [] := by
  rcases (stream.onRange_keeps hph event).2.2.2 with hr | ⟨hr, -⟩ <;>
    simp only [expected, hph, hr, jobsOf_eq_nil] at h ⊢ <;>
    cases event <;> grind [onRange, onData, setError, orError, lost, dropJobs]

theorem expected_onDrain (hph : s.phase = .draining) :
    stream.expected (stream.onDrain s event) worker = [] := by
  have hk : (stream.onDrain s event).phase = .draining := by
    cases event <;> grind [onDrain, orError, lost, dropJobs]
  simp only [expected, hph, hk, jobsOf_eq_nil] at h ⊢
  cases event <;> grind [onDrain, orError, lost, dropJobs]

theorem expected_onFinish (hph : s.phase = .awaitFinished) :
    stream.expected (stream.onFinish s event) worker = [] := by
  simp only [expected, hph, round_eq_nil, (stream.onFinish_keeps s event).2.1] at h ⊢
  cases event <;> grind [onFinish, orCloseError, lost]

end Events

theorem told_mainStep (h : stream.Told system) (hc : stream.Consistent system)
    (hs : stream.mainStep system = some system') : stream.Told system' := by
  have hsh := hc.shape
  -- with the phase a constructor, what is expected computes
  obtain ⟨⟨phase⟩, queues, opened⟩ := system
  simp only [mainStep] at hs
  split at hs
  · obtain rfl := some.inj hs
    obtain ⟨-, rfl, -⟩ := hsh
    exact h
  · obtain rfl := some.inj hs
    unfold startWorker
    split
    · exact h
    · rename_i hse
      refine h.send hc hse fun _ hne hx => round_eq_nil.mpr ?_
      simpa [hne] using round_eq_nil.mp hx
  -- awaitStarted
  · obtain ⟨-, -, rfl, -⟩ := hsh
    have hj : ∀ s worker, s.jobs = [] → stream.expected (started s) worker = [] := by
      intro s worker hj
      obtain ⟨_, heq, -⟩ := started_spec s
      simp [heq, expected, jobsOf, hj]
    simp only [awaitStarted] at hs
    split at hs
    · exact h.receive hs (fun _ _ h => expected_onStart h rfl) fun _ _ => hj _ _ rfl
    · obtain rfl := some.inj hs
      exact fun _ _ => .inr (hj _ _ rfl)
  -- running
  · simp only [runRanges] at hs
    split at hs
    · split at hs
      · split at hs
        · obtain rfl := some.inj hs
          exact fun _ _ => .inr rfl
        split at hs
        · obtain rfl := some.inj hs
          exact h
        · rename_i hse
          obtain rfl := some.inj hs
          refine h.send hc hse fun _ hne hx => jobsOf_eq_nil.mpr ?_
          simpa [hne.symm, or_imp, forall_and] using jobsOf_eq_nil.mp hx
      exact h.receive hs (fun _ _ h => expected_onRange h rfl) fun _ => id
    · obtain rfl := some.inj hs
      exact h
  -- delivering
  · obtain rfl := some.inj hs
    unfold deliver
    split
    · exact h
    · dsimp only
      split <;> exact h
  -- draining
  · obtain ⟨-, rfl, -⟩ := hsh
    simp only [drainRanges] at hs
    split at hs
    · obtain rfl := some.inj hs
      exact fun _ _ => .inr rfl
    · exact h.receive hs (fun _ _ h => expected_onDrain h rfl) fun _ _ => rfl
  -- closing
  · obtain rfl := some.inj hs
    obtain ⟨-, rfl⟩ := hsh
    exact h
  · obtain rfl := some.inj hs
    unfold closeWorker
    dsimp only
    split
    · exact h
    split
    · exact h
    · rename_i hse
      refine h.send hc hse fun _ hne hx => round_eq_nil.mpr ?_
      simpa [hne] using round_eq_nil.mp hx
  -- awaitFinished
  · simp only [awaitFinished] at hs
    split at hs
    · exact h.receive hs (fun _ _ h => expected_onFinish h rfl) fun _ _ => rfl
    · obtain rfl := some.inj hs
      exact fun _ _ => .inr rfl
  · cases hs

theorem told_step (h : stream.Told system) (hc : stream.Consistent system)
    (hs : stream.Step system system') : stream.Told system' := by
  cases hs with
  | main step => exact told_mainStep h hc step
  | work => exact fun worker ha => (h worker ha).imp_left (mem_append_left _)
  | panic => exact h
  | announce gone silent =>
    rename_i worker
    intro other ha
    rcases eq_or_ne other worker with rfl | hne
    · exact .inl (by simp [Mailbox.announce])
    · simp only [Mailbox.announce, Function.update_of_ne hne] at ha
      exact (h other ha).imp_left (mem_append_left _)

end Told

section Schedules

/-- A turn of the main thread, or of a worker whose client fails or does not. -/
inductive Turn (n : Nat) where
  | main
  | work (worker : Fin n) (failure : Option VfError)

variable (stream)

def serve (worker : Fin n) (failure : Option VfError) (opened : Option Nat) :
    WorkerCommand → WorkerEvent n × Option Nat
  | .start streamId _ =>
    match opened, failure with
    | some other, _ => (.started streamId worker (.error (.errno (some 0) ebusy)), some other)
    | none, some error => (.started streamId worker (.error error), none)
    | none, none =>
      let size := if worker.val = 0 then some stream.file.length else none
      (.started streamId worker (.ok size), some streamId)
  | .read streamId index offset length =>
    if opened = some streamId then
      let vread := fun offset length =>
        match failure with
        | some error => .error error
        | none => .ok ((stream.file.drop offset).take length)
      let result := (readRange vread stream.path offset length).mapError fun error =>
        error.withIndex index
      (.chunk streamId worker index offset result, some streamId)
    else
      (.chunk streamId worker index offset (.error (.errno (some index) VfError.errEbadf)),
        opened)
  | .finish streamId =>
    match opened with
    | none => (.finished streamId worker (.ok ()), none)
    | some other =>
      if other = streamId then
        (.finished streamId worker (failure.elim (.ok ()) .error), none)
      else
        (.finished streamId worker (.error (.fromKind (some 0) .invalidInput)), some other)

/-- The state after a list of turns, if all of them are possible. -/
def play : List (Turn n) → PoolSystem n → Option (PoolSystem n)
  | [], system => some system
  | .main :: turns, system => (stream.mainStep system).bind (play turns)
  | .work worker failure :: turns, system =>
    match system.queues.listening worker, system.queues.commands worker with
    | true, command :: rest =>
      let served := stream.serve worker failure (system.opened worker) command
      play turns {system with
        queues := system.queues.handled worker rest served.1
        opened := Function.update system.opened worker served.2}
    | _, _ => none

theorem serve_handles (worker : Fin n) (failure : Option VfError) (opened : Option Nat)
    (command : WorkerCommand) : Handles stream worker opened command
      (stream.serve worker failure opened command).1
      (stream.serve worker failure opened command).2 := by
  cases command with
  | start streamId path =>
    cases opened with
    | some other => exact .busy streamId path
    | none =>
      cases failure with
      | some error => exact .unopened streamId path error
      | none => exact .opened streamId path
  | read streamId index offset length =>
    dsimp only [serve]
    split
    · rename_i hopen
      subst hopen
      apply Handles.read
      intro offset length bytes hr
      cases failure with
      | some error => cases hr
      | none =>
        obtain rfl := Except.ok.inj hr
        simp
    · rename_i ho
      exact .unread streamId index offset length ho
  | finish streamId =>
    cases opened with
    | none => exact .nothing streamId
    | some other =>
      dsimp only [serve]
      split
      · rename_i hs
        subst hs
        exact .closed other _
      · rename_i ho
        exact .unclosed streamId ho

theorem play_reaches {turns : List (Turn n)} {system system' : PoolSystem n}
    (h : stream.play turns system = some system') : stream.Reaches system system' := by
  induction turns generalizing system with
  | nil =>
    obtain rfl := some.inj h
    exact .refl
  | cons turn turns ih =>
    cases turn with
    | main =>
      obtain ⟨next, hs, hr⟩ := bind_eq_some_iff.mp h
      exact .head (.main hs) (ih hr)
    | work worker failure =>
      unfold play at h
      split at h
      · rename_i hl hq
        exact .head (.work hl hq (stream.serve_handles worker failure _ _)) (ih h)
      · cases h

def freshQueues (n : Nat) : PoolQueues n := ⟨fun _ => [], [], fun _ => true, fun _ => false⟩

theorem freshQueues_idle (n : Nat) : Expects (poolReading n) (freshQueues n) (fun _ => []) where
  live _ _ := ⟨rfl, [], rfl, rfl⟩
  dead _ hg := by cases hg

/-- Two workers read a file of two bytes, and the callback always answers the same. -/
def twoBytes (verdict : Verdict) : ReadStream 2 where
  options := ⟨2, 1, 2, 2, by decide, by decide, by decide⟩
  inFlight := 2
  effective_eq := rfl
  streamId := 1
  path := []
  file := [7, 8]
  file_le := by decide
  callback _ _ _ := verdict

def twoBytesStart : PoolSystem 2 := initial (fun _ => true) (freshQueues 2) (fun _ => none)

/-- Both workers open the file and get a range. -/
def twoBytesTurns : List (Turn 2) :=
  [.main, .main, .main, .work 0 none, .work 1 none, .main, .main, .main, .main, .main]

end Schedules

section Results

variable (stream) in
theorem flatten_calls (count : Nat) : (((List.range count).map stream.call).map Prod.snd).flatten =
      stream.file.take (count * stream.options.chunkSize) := by
  induction count with
  | zero => simp
  | succ count ih =>
    rw [range_succ, map_append, map_append, flatten_append, ih, Nat.add_mul, Nat.one_mul, take_add]
    simp [call, slice]

theorem outcome_complete (h : stream.outcome s = .result (.ok .complete)) :
    s.primaryError = none ∧ s.cancelled = false := by
  unfold outcome at h
  split at h
  · cases h
  split at h
  · cases h
  · cases h
  · cases h
  rename_i hn _ _
  split at h
  · cases h
  · rename_i hi
    exact ⟨hn, by simpa using hi⟩

theorem idle_events {queues : PoolQueues n} (h : Expects (poolReading n) queues (fun _ => [])) :
    (∀ worker, queues.commands worker = []) ∧
      ∀ event ∈ queues.events, ∃ worker, event = .stopped worker := by
  refine ⟨fun worker => (h.idle rfl).1, ?_⟩
  intro event hev
  have hn := (h.idle rfl).2 event hev rfl
  cases event with
  | stopped worker => exact ⟨worker, rfl⟩
  | started streamId worker result => cases hn
  | chunk streamId worker index offset result => cases hn
  | finished streamId worker result => cases hn

/-- In every run the callback gets the ranges of the file in order, each once and
with its bytes, and what is scheduled or held for its turn fits the limit of the
pool. A stream that completes has delivered the whole file. When a stream returns,
every range it scheduled has been answered, unless the worker that had it died, and
the queues are as idle as the next stream needs them. -/
theorem reaches_in_order {workerAlive : Fin n → Bool} {queues : PoolQueues n}
    {opened : Fin n → Option Nat} (hidle : Expects (poolReading n) queues (fun _ => []))
    (hrun : stream.Reaches (initial workerAlive queues opened) system) :
    system.main.calls = (List.range system.main.nextDelivery).map stream.call ∧
    (system.main.calls.map Prod.snd).flatten =
      stream.file.take (system.main.nextDelivery * stream.options.chunkSize) ∧
    system.main.nextDelivery ≤ stream.totalRanges stream.file.length ∧
    stream.bufferedBytes system.main ≤ stream.options.maxBufferedBytes ∧
    ∀ result, system.main.phase = .returned result →
      (result = .result (.ok .complete) →
        system.main.nextDelivery = stream.totalRanges stream.file.length ∧
        (system.main.calls.map Prod.snd).flatten = stream.file) ∧
      (∀ index < system.main.nextJob, index ∈ system.main.answered ∨
        system.queues.listening (stream.workerOf index) = false) ∧
      (∀ worker, system.queues.commands worker = []) ∧
      (∀ event ∈ system.queues.events, ∃ worker, event = .stopped worker) ∧
      Expects (poolReading n) system.queues (fun _ => []) := by
  obtain ⟨hconsistent, hsettled, habandoned⟩ := reaches_settled hidle hrun
  have hwindow := hconsistent.window
  have hwithin := hwindow.ordered.trans hwindow.within
  have hdata := stream.flatten_calls system.main.nextDelivery
  rw [← hwindow.delivered] at hdata
  refine ⟨hwindow.delivered, hdata, hwithin, hwindow.bufferedBytes_le, ?_⟩
  intro result hreturned
  have htransit := hconsistent.transit
  simp only [expected, hreturned] at htransit
  refine ⟨?_, ?_, (idle_events htransit).1, (idle_events htransit).2, htransit⟩
  · intro hcomplete
    rw [hsettled.outcome result hreturned] at hcomplete
    obtain ⟨hnone, hcontent⟩ := outcome_complete hcomplete
    obtain ⟨hknown, htotal⟩ := hsettled.exhausted (by rw [hreturned]; rfl) hnone hcontent
    rw [hconsistent.size_eq hknown] at htotal
    have hall : system.main.nextDelivery = stream.totalRanges stream.file.length :=
      Nat.le_antisymm hwithin htotal
    refine ⟨hall, ?_⟩
    rw [hdata, hall]
    exact take_of_length_le stream.file_length_le_total
  intro index hindex
  rcases hconsistent.accounted index hindex with hanswered | hjob | hgone
  · exact .inl hanswered
  · exact .inr (habandoned (by rw [hreturned]; rfl) _ hjob)
  · exact .inr hgone

/-- The second range arrives first. -/
theorem reaches_in_order_reordered : ∃ system,
    (twoBytes .resume).Reaches twoBytesStart system ∧
      system.main.phase = .returned (.result (.ok .complete)) ∧
      (system.main.calls.map Prod.snd).flatten = [7, 8] := by
  let turns : List (Turn 2) := twoBytesTurns ++
    [.work 1 none, .work 0 none, .main, .main, .main, .main, .main, .main, .main, .main, .main,
      .main, .main, .work 0 none, .work 1 none, .main, .main, .main]
  have hplay : ((twoBytes .resume).play turns twoBytesStart).map (·.main.phase) =
      some (.returned (.result (.ok .complete))) := rfl
  obtain ⟨system, hsystem, hphase⟩ := map_eq_some_iff.mp hplay
  have hrun := (twoBytes .resume).play_reaches hsystem
  have hresults := reaches_in_order (freshQueues_idle 2) hrun
  exact ⟨system, hrun, hphase, ((hresults.2.2.2.2 _ hphase).1 rfl).2⟩

theorem outcome_of_error {error : VfError} (he : s.callbackError = some error)
    (hp : s.callbackPanic = false) :
    stream.outcome s = .result (.error (s.primaryError.getD error)) := by
  unfold outcome
  rw [hp, he]
  cases s.primaryError <;> rfl

/-- The result of a stream whose callback stopped it, with the file closed. -/
theorem outcome_of_stop (hc : s.cancelled = true) (he : s.callbackError = none)
    (hp : s.callbackPanic = false) (hcl : s.closeError = none) :
    stream.outcome s = match s.primaryError with
      | some error => .result (.error error)
      | none => .result (.ok (.stopped (min (stream.offsetOf s.nextDelivery) s.size))) := by
  unfold outcome
  rw [hp, he, hcl, hc]
  cases s.primaryError <;> rfl

/-- A stream that delivered something delivered up to the end of the last range. -/
theorem delivered_end (hc : stream.Consistent system)
    (hse : stream.Settled system.main) (hcs : system.main.calls ≠ []) :
    ∃ earlier offset data, system.main.calls = earlier ++ [(offset, data)] ∧
      min (stream.offsetOf system.main.nextDelivery) system.main.size = offset + data.length := by
  have hs := hc.size_eq (hse.sized hcs)
  have hle := stream.file_le
  have hw := hc.window
  cases hn : system.main.nextDelivery with
  | zero => exact absurd (by rw [hw.delivered, hn]; rfl) hcs
  | succ last =>
    have hl : last < stream.totalRanges stream.file.length := by
      have := hw.ordered
      have := hw.within
      omega
    have hlt := stream.offset_lt_of_lt_total hl
    refine ⟨(List.range last).map stream.call, last * stream.options.chunkSize,
      stream.slice last, ?_, ?_⟩
    · rw [hw.delivered, hn, range_succ, map_append]
      rfl
    · rw [hs, stream.slice_length, offsetOf, Nat.add_mul]
      omega

/-- What a stream returns once its callback ended it. The error of the callback is
the result exactly if nothing else went wrong while the stream drained, or the same
thing did; and a stream that was stopped says so exactly if nothing went wrong
then. -/
theorem reaches_outcome {workerAlive : Fin n → Bool} {queues : PoolQueues n}
    {opened : Fin n → Option Nat} (hidle : Expects (poolReading n) queues (fun _ => []))
    (hrun : stream.Reaches (initial workerAlive queues opened) system) {result : StreamEnd}
    (hreturned : system.main.phase = .returned result) :
    (∀ error, stream.verdict system.main.calls = .error error →
      (result = .result (.error error) ↔
        ∀ fault, stream.drainError system.main.drained = some fault → fault = error)) ∧
    (stream.verdict system.main.calls = .stop → system.main.closeError = none →
      ∃ earlier offset data, system.main.calls = earlier ++ [(offset, data)] ∧
        (result = .result (.ok (.stopped (offset + data.length))) ↔
          stream.drainError system.main.drained = none)) := by
  obtain ⟨hconsistent, hsettled, -⟩ := reaches_settled hidle hrun
  have hheeded := hsettled.heeded
  rw [hsettled.outcome result hreturned]
  constructor
  · intro error hverdict
    rw [hverdict] at hheeded
    obtain ⟨hcancelled, herror, hpanic⟩ := hheeded
    rw [outcome_of_error herror hpanic, hsettled.fault hcancelled]
    cases stream.drainError system.main.drained <;> simp
  intro hverdict hclose
  rw [hverdict] at hheeded
  obtain ⟨hcancelled, herror, hpanic⟩ := hheeded
  have hcalls : system.main.calls ≠ [] := by
    intro hnil
    rw [hnil] at hverdict
    cases hverdict
  obtain ⟨earlier, offset, data, hlast, hend⟩ := delivered_end hconsistent hsettled hcalls
  refine ⟨earlier, offset, data, hlast, ?_⟩
  rw [outcome_of_stop hcancelled herror hpanic hclose, hend, hsettled.fault hcancelled]
  cases stream.drainError system.main.drained <;> simp

/-- The callback ends the stream at the first range, and the second one comes or
fails while the stream drains. -/
def drainTurns (failure : Option VfError) : List (Turn 2) :=
  twoBytesTurns ++ [.work 0 none, .main, .main, .main, .work 1 failure, .main, .main, .main, .main,
    .main, .work 0 none, .work 1 none, .main, .main, .main]

def callbackFailure : VfError := .errno none 22

def readFailure : VfError := .errno none VfError.errIo

/-- The error of the callback is the result of a stream that drains in order. -/
theorem reaches_outcome_drained : ∃ system,
    (twoBytes (.error callbackFailure)).Reaches twoBytesStart system ∧
      system.main.phase = .returned (.result (.error callbackFailure)) := by
  have hplay : ∃ system result,
      (twoBytes (.error callbackFailure)).play (drainTurns none) twoBytesStart = some system ∧
        system.main.phase = .returned result ∧
        (twoBytes (.error callbackFailure)).verdict system.main.calls = .error callbackFailure ∧
        (twoBytes (.error callbackFailure)).drainError system.main.drained = none :=
    ⟨_, _, rfl, rfl, rfl, rfl⟩
  obtain ⟨system, result, hsystem, hreturned, hverdict, hdrained⟩ := hplay
  have hrun := (twoBytes (.error callbackFailure)).play_reaches hsystem
  have houtcome := (reaches_outcome (freshQueues_idle 2) hrun hreturned).1 _ hverdict
  have hresult := houtcome.mpr (by simp [hdrained])
  exact ⟨system, hrun, hreturned.trans (congrArg _ hresult)⟩

/-- A read that fails while the stream drains replaces the error of the callback,
and the result of a stream that was stopped. -/
theorem outcome_replaced_while_draining :
    (∃ system other, (twoBytes (.error callbackFailure)).Reaches twoBytesStart system ∧
      (twoBytes (.error callbackFailure)).verdict system.main.calls = .error callbackFailure ∧
      system.main.phase = .returned (.result (.error other)) ∧ other ≠ callbackFailure) ∧
    ∃ system other, (twoBytes .stop).Reaches twoBytesStart system ∧
      (twoBytes .stop).verdict system.main.calls = .stop ∧ system.main.closeError = none ∧
      system.main.phase = .returned (.result (.error other)) := by
  let other := (readFailure.withIndex 1).withContext "read_stream_pipelined" []
  constructor
  · have hplay : ∃ system, (twoBytes (.error callbackFailure)).play
        (drainTurns (some readFailure)) twoBytesStart = some system ∧
          (twoBytes (.error callbackFailure)).verdict system.main.calls =
            .error callbackFailure ∧
          system.main.phase = .returned (.result (.error other)) := ⟨_, rfl, rfl, rfl⟩
    obtain ⟨system, hsystem, hverdict, hphase⟩ := hplay
    exact ⟨system, other, play_reaches _ hsystem, hverdict, hphase, by decide⟩
  have hplay : ∃ system,
      (twoBytes .stop).play (drainTurns (some readFailure)) twoBytesStart = some system ∧
        (twoBytes .stop).verdict system.main.calls = .stop ∧
        system.main.closeError = none ∧
        system.main.phase = .returned (.result (.error other)) := ⟨_, rfl, rfl, rfl, rfl⟩
  obtain ⟨system, hsystem, hverdict, hclose, hphase⟩ := hplay
  exact ⟨system, other, play_reaches _ hsystem, hverdict, hclose, hphase⟩

theorem receive_none {onEvent : WorkerEvent n → StreamState n} {onClosed : StreamState n}
    (h : receive system onEvent onClosed = none) : system.queues.events = [] := by
  unfold receive recv at h
  split at h
  · rename_i hq
    split at hq
    · cases hq
    · assumption
  · cases h
  · cases h

/-- The loops that wait for every worker, or for every range under way, do not wait in vain:
they can go on, or a worker has a command to handle, or a dead one is yet to be announced. -/
theorem reaches_waits {workerAlive : Fin n → Bool} {queues : PoolQueues n}
    {opened : Fin n → Option Nat} (hi : Expects (poolReading n) queues (fun _ => []))
    (hr : stream.Reaches (initial workerAlive queues opened) system)
    (hw : system.main.phase = .awaitStarted ∨ system.main.phase = .draining ∨
      system.main.phase = .awaitFinished) :
    (stream.mainStep system).isSome ∨
    (∃ worker command rest event opened, system.queues.listening worker = true ∧
      system.queues.commands worker = command :: rest ∧
      Handles stream worker (system.opened worker) command event opened) ∨
    ∃ worker, system.queues.listening worker = false ∧
      system.queues.announced worker = false := by
  have hc := (reaches_settled hi hr).1
  have ht : stream.Told system := by
    clear hw hc
    induction hr with
    | refl => exact fun _ _ => .inr rfl
    | tail hr hs ih => exact told_step ih (reaches_settled hi hr).1 hs
  have hsh := hc.shape
  by_contra hstuck
  rw [not_or, not_or, not_isSome_iff_eq_none] at hstuck
  obtain ⟨hm, hq, hd⟩ := hstuck
  have hx : system.queues.events = [] → ∀ worker, stream.expected system.main worker = [] := by
    intro he worker
    cases hl : system.queues.listening worker with
    | true =>
      obtain ⟨-, told, hto, hx⟩ := hc.transit.live worker hl
      rw [he] at hto
      cases hcm : system.queues.commands worker with
      | nil => rw [← hx, hcm, map_eq_nil_iff.mp hto.symm, map_nil, append_nil]
      | cons command rest =>
        exact absurd ⟨worker, command, rest, _, _, hl, hcm, stream.serve_handles worker none _ _⟩ hq
    | false =>
      have ha : system.queues.announced worker = true := by
        by_contra ha
        exact hd ⟨worker, hl, by simpa using ha⟩
      simpa [he] using ht worker ha
  rcases hw with hp | hp | hp
  · simp only [mainStep, hp, awaitStarted] at hm
    simp only [StreamState.Shape, hp] at hsh
    split at hm
    · have hx := hx (receive_none hm)
      simp only [expected, hp] at hx
      have hle := length_le_of_round hsh.1 hx
      omega
    · cases hm
  · simp only [mainStep, hp, drainRanges] at hm
    split at hm
    · cases hm
    rename_i hj
    have hx := hx (receive_none hm)
    simp only [expected, hp] at hx
    cases hjs : system.main.jobs with
    | nil => exact hj (by rw [hjs]; rfl)
    | cons job jobs => simpa [jobsOf, hjs] using hx job.2
  · simp only [mainStep, hp, awaitFinished] at hm
    simp only [StreamState.Shape, hp] at hsh
    split at hm
    · have hx := hx (receive_none hm)
      simp only [expected, hp] at hx
      have hle := length_le_of_round hsh.1 hx
      omega
    · cases hm

/-- Both workers have been told to open the file, and neither has. -/
theorem reaches_waits_opening : ∃ system, (twoBytes .resume).Reaches twoBytesStart system ∧
    (twoBytes .resume).mainStep system = none ∧
    ∃ worker, system.queues.commands worker ≠ [] := by
  have hplay : ((twoBytes .resume).play [.main, .main, .main] twoBytesStart).isSome := rfl
  obtain ⟨system, hs⟩ := isSome_iff_exists.mp hplay
  have hr := (twoBytes .resume).play_reaches hs
  obtain rfl := some.inj hs
  refine ⟨_, hr, rfl, ?_⟩
  rcases reaches_waits (freshQueues_idle 2) hr (.inl rfl) with h | h | h
  · cases h
  · obtain ⟨worker, command, rest, _, _, -, h, -⟩ := h
    exact ⟨worker, h ▸ cons_ne_nil command rest⟩
  · obtain ⟨_, h, -⟩ := h
    cases h

end Results

end ReadStream

end Vnfs.Nfs
