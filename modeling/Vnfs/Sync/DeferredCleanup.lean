import Mathlib

/-!
The cleanup queue of `SharedBackend`. A dropped handle pushes its close under the
queue's own lock and then raises a flag; it never waits for the backend. Whoever
holds the backend drains the queue: it lowers the flag, takes the queue, attempts
every close, and puts those that failed back before it raises the flag again.

A step is what happens under one lock or in one atomic access, so a run is an
arbitrary interleaving of dropped handles and of one drain at a time. Both
accesses to the flag are to one location and the queue has its own mutex, so the
run has a total order of them. A close is known by the number of its `defer`
call; what an attempt returns is up to the backend. Panics are left out.
-/

namespace Vnfs.Sync.Cleanup

open List Option

/-- Where a drain is: in front of its access to the flag, between that and taking
the queue, at its attempts, or between returning the failures and the flag. -/
inductive Phase where
  | begun
  | swapped
  | closing (rest failed : List Nat)
  | extended
  deriving DecidableEq, Repr

structure Drain (E : Type) where
  /-- `into_backend`, which owns the queue and does not ask the flag. -/
  exclusive : Bool
  phase : Phase
  /-- The first error so far. -/
  first : Option E
  /-- What was attempted, with the error of an attempt that failed. -/
  attempts : List (Nat × Option E)
  /-- The closes this drain has to attempt, fixed when it begins. -/
  owed : List Nat
  deriving Repr

structure DrainRecord (E : Type) where
  owed : List Nat
  attempts : List (Nat × Option E)
  result : Option E
  deriving Repr

structure State (E : Type) where
  /-- How many closes were pushed. -/
  deferred : Nat
  pending : List Nat
  hasPending : Bool
  /-- The `defer` calls between their push and their store. -/
  storing : List Nat
  /-- The thread that holds the backend. -/
  guard : Option Nat
  drain : Option (Drain E)
  attempts : List (Nat × Option E)
  finished : List (DrainRecord E)
  /-- `into_backend` took the backend out. -/
  consumed : Bool
  deriving Repr

variable {E : Type}

namespace State

def new : State E := ⟨0, [], false, [], none, none, [], [], false⟩

variable (s : State E)

/-- The closes that succeeded, once for each attempt that did. -/
def closed : List Nat :=
  s.attempts.filterMap fun attempt => if attempt.2.isNone then some attempt.1 else none

def tried : List Nat := s.attempts.map Prod.fst

/-- What a drain that begins now has to attempt: every close that has not
succeeded and whose `defer` returned or that failed before. -/
def owed : List Nat :=
  (List.range s.deferred).filter fun x => x ∉ s.closed ∧ (x ∉ s.storing ∨ x ∈ s.tried)

/-- Handles exist besides the caller. -/
def Shared : Prop :=
  s.consumed = false ∧ ∀ d, s.drain = some d → d.exclusive = false

def finish (d : Drain E) : State E :=
  {s with drain := none, finished := s.finished ++ [⟨d.owed, d.attempts, d.first⟩]}

def attempt (d : Drain E) (x : Nat) (error : Option E) (rest failed : List Nat) :
    State E :=
  {s with
    attempts := s.attempts ++ [(x, error)]
    drain := some {d with
      phase := .closing rest failed
      first := d.first.or error
      attempts := d.attempts ++ [(x, error)]}}

end State

open State

/-- The steps of `defer`, `lock_without_cleanup`, `drain_cleanup` and
`into_backend`. -/
inductive Step : State E → State E → Prop where
  | deferPush (s : State E) (hshared : s.Shared) :
      Step s {s with
        deferred := s.deferred + 1
        pending := s.pending ++ [s.deferred]
        storing := s.storing ++ [s.deferred]}
  | deferStore (s : State E) (x : Nat) (hx : x ∈ s.storing) :
      Step s {s with storing := s.storing.erase x, hasPending := true}
  | lockWithoutCleanup (s : State E) (thread : Nat) (hshared : s.Shared)
      (hguard : s.guard = none) :
      Step s {s with guard := some thread}
  | unlock (s : State E) (hdrain : s.drain = none) : Step s {s with guard := none}
  | drainCleanup (s : State E) (thread : Nat) (hguard : s.guard = some thread)
      (hdrain : s.drain = none) :
      Step s {s with drain := some ⟨false, .begun, none, [], s.owed⟩}
  | swapLowered (s : State E) (d : Drain E) (hdrain : s.drain = some d)
      (hphase : d.phase = .begun) (hflag : s.hasPending = false) :
      Step s (s.finish d)
  | swapRaised (s : State E) (d : Drain E) (hdrain : s.drain = some d)
      (hphase : d.phase = .begun) (hflag : s.hasPending = true) :
      Step s {s with hasPending := false, drain := some {d with phase := .swapped}}
  | take (s : State E) (d : Drain E) (hdrain : s.drain = some d) (hphase : d.phase = .swapped) :
      Step s {s with pending := [], drain := some {d with phase := .closing s.pending []}}
  | closeOk (s : State E) (d : Drain E) (x : Nat) (rest failed : List Nat)
      (hdrain : s.drain = some d) (hphase : d.phase = .closing (x :: rest) failed) :
      Step s (s.attempt d x none rest failed)
  | closeErr (s : State E) (d : Drain E) (x : Nat) (rest failed : List Nat) (error : E)
      (hdrain : s.drain = some d) (hphase : d.phase = .closing (x :: rest) failed) :
      Step s (s.attempt d x (some error) rest (failed ++ [x]))
  | allClosed (s : State E) (d : Drain E) (hdrain : s.drain = some d)
      (hphase : d.phase = .closing [] []) (hexclusive : d.exclusive = false) :
      Step s (s.finish d)
  | extend (s : State E) (d : Drain E) (failed : List Nat) (hdrain : s.drain = some d)
      (hphase : d.phase = .closing [] failed) (hfailed : failed ≠ [])
      (hexclusive : d.exclusive = false) :
      Step s {s with
        pending := s.pending ++ failed
        drain := some {d with phase := .extended}}
  | restore (s : State E) (d : Drain E) (hdrain : s.drain = some d)
      (hphase : d.phase = .extended) :
      Step s {s.finish d with hasPending := true}
  | intoBackend (s : State E) (hshared : s.Shared) (hguard : s.guard = none)
      (hdrain : s.drain = none) (hstoring : s.storing = []) :
      Step s {s with
        pending := []
        drain := some ⟨true, .closing s.pending [], none, [], s.owed⟩}
  | intoBackendDone (s : State E) (d : Drain E) (failed : List Nat) (hdrain : s.drain = some d)
      (hphase : d.phase = .closing [] failed) (hexclusive : d.exclusive = true) :
      Step s {s.finish d with
        pending := s.pending ++ failed
        hasPending := !(s.pending ++ failed).isEmpty
        consumed := d.first.isNone}

def Reachable (s : State E) : Prop := Relation.ReflTransGen Step State.new s

/-- The closes a drain took out of the queue and has not succeeded at. -/
def Drain.inHand (d : Drain E) : List Nat :=
  match d.phase with
  | .closing rest failed => rest ++ failed
  | _ => []

def State.inHand (s : State E) : List Nat :=
  match s.drain with
  | none => []
  | some d => d.inHand

/-- What a drain owes is still ahead of it: in the queue, in its hand, or
attempted already. -/
def Drain.Keeps (d : Drain E) (pending : List Nat) (hasPending : Bool) : Prop :=
  match d.phase with
  | .begun => d.attempts = [] ∧ ∀ x ∈ d.owed, x ∈ pending ∧ hasPending = true
  | .swapped => ∀ x ∈ d.owed, x ∈ pending
  | .closing rest _ => ∀ x ∈ d.owed, x ∈ rest ∨ x ∈ d.attempts.map Prod.fst
  | .extended => ∀ x ∈ d.owed, x ∈ d.attempts.map Prod.fst

/-- A drain attempts what it owes and reports an error iff an attempt failed. -/
structure DrainRecord.Complete (r : DrainRecord E) : Prop where
  attempted : ∀ x ∈ r.owed, x ∈ r.attempts.map Prod.fst
  reports : r.result.isSome ↔ ∃ attempt ∈ r.attempts, attempt.2.isSome

/-- No drain has lowered the flag with closes in the queue. -/
def State.Settled (s : State E) : Prop :=
  ∀ d, s.drain = some d → d.phase ≠ .swapped ∧ d.phase ≠ .extended

structure Consistent (s : State E) : Prop where
  once : ∀ x, s.pending.count x + s.inHand.count x + s.closed.count x =
    if x < s.deferred then 1 else 0
  tried_lt : ∀ x ∈ s.tried, x < s.deferred
  raised : s.Settled → ∀ x ∈ s.pending, s.hasPending = true ∨ x ∈ s.storing ∧ x ∉ s.tried
  keeps : ∀ d, s.drain = some d → d.Keeps s.pending s.hasPending
  reports : ∀ d, s.drain = some d →
    (d.first.isSome ↔ ∃ attempt ∈ d.attempts, attempt.2.isSome)
  complete : ∀ r ∈ s.finished, r.Complete

namespace Consistent

open State

theorem init : Consistent (State.new : State E) where
  once x := by simp [State.new, inHand, State.closed]
  tried_lt x hx := by simp [State.new, State.tried] at hx
  raised _ x hx := by simp [State.new] at hx
  keeps d hd := by simp [State.new] at hd
  reports d hd := by simp [State.new] at hd
  complete r hr := by simp [State.new] at hr

variable {s : State E} {d : Drain E} (h : Consistent s)
include h

/-- With no drain running, what a drain would owe is queued and the flag is up. -/
theorem owed_pending (hdr : s.drain = none) :
    ∀ x ∈ s.owed, x ∈ s.pending ∧ s.hasPending = true := by
  intro x hx
  obtain ⟨hlt, ho, hre⟩ : x < s.deferred ∧ x ∉ s.closed ∧ (x ∉ s.storing ∨ x ∈ s.tried) := by
    simpa [State.owed] using hx
  have hon := h.once x
  have hh : s.inHand = [] := by simp [inHand, hdr]
  rw [if_pos hlt, hh, count_nil, count_eq_zero.mpr ho] at hon
  have hm : x ∈ s.pending := count_pos_iff.mp (by omega)
  have hse : s.Settled := fun d hd => by simp [hdr] at hd
  refine ⟨hm, ?_⟩
  rcases h.raised hse x hm with hr | ⟨hs, ht⟩
  · exact hr
  · exact absurd hre (by simp [hs, ht])

variable {x : Nat} {pending : List Nat} {hasPending : Bool} {phase : Phase}

theorem not_pending (hx : x ∈ s.inHand) : x ∉ s.pending := by
  intro hp
  have ho := h.once x
  have hh := count_pos_iff.mpr hx
  have hq := count_pos_iff.mpr hp
  split at ho <;> omega

theorem inHand_lt (hx : x ∈ s.inHand) : x < s.deferred := by
  have ho := h.once x
  have hh := count_pos_iff.mpr hx
  by_contra hle
  rw [if_neg hle] at ho
  omega

/-- A drain that returns leaves the queue with what it had in hand put back. -/
theorem finish (hd : s.drain = some d) {consumed : Bool}
    (hc : ∀ x, pending.count x = s.pending.count x + d.inHand.count x)
    (ha : ∀ x ∈ d.owed, x ∈ d.attempts.map Prod.fst)
    (hra : ∀ x ∈ pending, hasPending = true ∨ x ∈ s.storing ∧ x ∉ s.tried) :
    Consistent {s.finish d with
      pending := pending
      hasPending := hasPending
      consumed := consumed} where
  once x := by
    have ho := h.once x
    simp only [inHand, hd] at ho
    change pending.count x + List.count x [] + s.closed.count x = if x < s.deferred then 1 else 0
    rw [hc, count_nil, Nat.add_zero]
    exact ho
  tried_lt := h.tried_lt
  raised _ := hra
  keeps d' hd' := by simp [State.finish] at hd'
  reports d' hd' := by simp [State.finish] at hd'
  complete r hr := by
    rcases mem_append.mp hr with hold | hn
    · exact h.complete r hold
    · obtain rfl := mem_singleton.mp hn
      exact ⟨ha, h.reports d hd⟩

/-- An attempt moves a close out of the drain's hand, or to its failures. -/
theorem attempt (hdr : s.drain = some d) {rest failed failed' : List Nat}
    (hp : d.phase = .closing (x :: rest) failed) {error : Option E}
    (hcn : ∀ y, failed'.count y + (if error.isNone ∧ x = y then 1 else 0) =
      failed.count y + if x = y then 1 else 0) : Consistent (s.attempt d x error rest failed') := by
  have hh : s.inHand = x :: rest ++ failed := by
    simp [inHand, hdr, Drain.inHand, hp]
  have hx : x ∈ s.inHand := by simp [hh]
  refine ⟨fun y => ?_, ?_, ?_, ?_, ?_, h.complete⟩
  · have ho := h.once y
    have hy := hcn y
    rw [hh] at ho
    have hc : (s.attempt d x error rest failed').closed.count y =
        s.closed.count y + if error.isNone ∧ x = y then 1 else 0 := by
      cases error with
      | none => simp [State.attempt, State.closed, filterMap_append, count_singleton]
      | some e => simp [State.attempt, State.closed, filterMap_append]
    simp only [cons_append, count_cons, count_append, beq_iff_eq] at ho
    change s.pending.count y + (rest ++ failed').count y + _ = if y < s.deferred then 1 else 0
    rw [count_append]
    omega
  · intro y hy
    simp only [State.tried, State.attempt, map_append, map_cons, map_nil,
      mem_append, mem_singleton] at hy
    rcases hy with hold | rfl
    · exact h.tried_lt y hold
    · exact h.inHand_lt hx
  · intro _ y hy
    have hse : s.Settled := by
      intro d' hd'
      obtain rfl := some.inj (hdr.symm.trans hd')
      simp [hp]
    have hne : y ≠ x := fun heq => h.not_pending hx (heq ▸ hy)
    rcases h.raised hse y hy with hra | ⟨hs, ht⟩
    · exact .inl hra
    · refine .inr ⟨hs, ?_⟩
      simpa [State.tried, State.attempt, hne] using ht
  · intro d' hd'
    obtain rfl := some.inj hd'
    have hkp := h.keeps d hdr
    simp only [Drain.Keeps, hp] at hkp
    intro y hy
    rcases hkp y hy with hre | hd
    · rcases mem_cons.mp hre with rfl | hl
      · exact .inr (by simp)
      · exact .inl hl
    · exact .inr (by simp only [map_append, mem_append]; exact .inl hd)
  intro d' hd'
  obtain rfl := some.inj hd'
  have hr := h.reports d hdr
  simp only [isSome_or, Bool.or_eq_true, mem_append, mem_singleton]
  constructor
  · rintro (hfs | hn)
    · obtain ⟨a, ha, hf⟩ := hr.mp hfs
      exact ⟨a, .inl ha, hf⟩
    · exact ⟨(x, error), .inr rfl, hn⟩
  · rintro ⟨a, ha | rfl, hf⟩
    · exact .inl (hr.mpr ⟨a, ha, hf⟩)
    · exact .inr hf

/-- The flag speaks for the queue outside the two windows of a drain. -/
theorem raised_of_phase (hd : s.drain = some d) (hs : d.phase ≠ .swapped)
    (he : d.phase ≠ .extended) :
    ∀ x ∈ s.pending, s.hasPending = true ∨ x ∈ s.storing ∧ x ∉ s.tried := by
  refine h.raised fun d' hd' => ?_
  obtain rfl := some.inj (hd.symm.trans hd')
  exact ⟨hs, he⟩

theorem deferPush : Consistent {s with
    deferred := s.deferred + 1
    pending := s.pending ++ [s.deferred]
    storing := s.storing ++ [s.deferred]} where
  once x := by
    have ho := h.once x
    change (s.pending ++ [s.deferred]).count x + s.inHand.count x + s.closed.count x =
      if x < s.deferred + 1 then 1 else 0
    rw [count_append, count_singleton]
    split at ho <;> split <;> split <;> simp_all <;> omega
  tried_lt x hx := Nat.lt_succ_of_lt (h.tried_lt x hx)
  raised hse x hx := by
    rcases mem_append.mp hx with hold | hn
    · rcases h.raised hse x hold with hr | ⟨hs, ht⟩
      · exact .inl hr
      · exact .inr ⟨mem_append_left _ hs, ht⟩
    · obtain rfl := mem_singleton.mp hn
      exact .inr ⟨mem_append_right _ hn, fun ht => Nat.lt_irrefl _ (h.tried_lt _ ht)⟩
  keeps d hd := by
    have hkp := h.keeps d hd
    unfold Drain.Keeps at hkp ⊢
    split at hkp
    · exact ⟨hkp.1, fun x hx => ⟨mem_append_left _ (hkp.2 x hx).1, (hkp.2 x hx).2⟩⟩
    · exact fun x hx => mem_append_left _ (hkp x hx)
    · exact hkp
    · exact hkp
  reports := h.reports
  complete := h.complete

theorem deferStore (x : Nat) :
    Consistent {s with storing := s.storing.erase x, hasPending := true} where
  once := h.once
  tried_lt := h.tried_lt
  raised _ _ _ := .inl rfl
  keeps d hd := by
    have hkp := h.keeps d hd
    unfold Drain.Keeps at hkp ⊢
    split at hkp
    · exact ⟨hkp.1, fun y hy => ⟨(hkp.2 y hy).1, rfl⟩⟩
    · exact hkp
    · exact hkp
    · exact hkp
  reports := h.reports
  complete := h.complete

theorem advance (hd : s.drain = some d)
    (hc : ∀ x, pending.count x + (Drain.inHand {d with phase := phase}).count x =
      s.pending.count x + d.inHand.count x) (hr : phase ≠ .swapped → phase ≠ .extended →
      ∀ x ∈ pending, hasPending = true ∨ x ∈ s.storing ∧ x ∉ s.tried)
    (hkp : Drain.Keeps {d with phase := phase} pending hasPending) :
    Consistent {s with
      pending := pending
      hasPending := hasPending
      drain := some {d with phase := phase}} where
  once x := by
    have ho := h.once x
    simp only [inHand, hd] at ho
    change pending.count x + (Drain.inHand {d with phase := phase}).count x + s.closed.count x =
      if x < s.deferred then 1 else 0
    rw [hc]
    exact ho
  tried_lt := h.tried_lt
  raised hs := hr (hs _ rfl).1 (hs _ rfl).2
  keeps d' hd' := by
    obtain rfl := some.inj hd'
    exact hkp
  reports d' hd' := by
    obtain rfl := some.inj hd'
    exact h.reports d hd
  complete := h.complete

theorem begin (hdr : s.drain = none) {exclusive : Bool} (hc : ∀ x, pending.count x +
      (Drain.inHand (⟨exclusive, phase, none, [], s.owed⟩ : Drain E)).count x =
        s.pending.count x) (hs : ∀ x ∈ pending, x ∈ s.pending)
    (hkp : Drain.Keeps (⟨exclusive, phase, none, [], s.owed⟩ : Drain E) pending s.hasPending) :
    Consistent {s with
      pending := pending
      drain := some ⟨exclusive, phase, none, [], s.owed⟩} where
  once x := by
    have ho := h.once x
    simp only [inHand, hdr, count_nil, Nat.add_zero] at ho
    change pending.count x + (Drain.inHand (⟨exclusive, phase, none, [], s.owed⟩ : Drain E)).count x
      + s.closed.count x = if x < s.deferred then 1 else 0
    rw [hc]
    exact ho
  tried_lt := h.tried_lt
  raised _ x hx := h.raised (fun d hd => by simp [hdr] at hd) x (hs x hx)
  keeps d' hd' := by
    obtain rfl := some.inj hd'
    exact hkp
  reports d' hd' := by
    obtain rfl := some.inj hd'
    simp
  complete := h.complete

theorem step {s' : State E} (hstep : Step s s') : Consistent s' := by
  cases hstep with
  | deferPush hs => exact h.deferPush
  | deferStore x hx => exact h.deferStore x
  | lockWithoutCleanup thread hs hg =>
    exact ⟨h.once, h.tried_lt, h.raised, h.keeps, h.reports, h.complete⟩
  | unlock hd => exact ⟨h.once, h.tried_lt, h.raised, h.keeps, h.reports, h.complete⟩
  | drainCleanup thread hg hd =>
    exact h.begin hd (by simp [Drain.inHand]) (fun x hx => hx) ⟨rfl, h.owed_pending hd⟩
  | swapLowered d hd hp hf =>
    have hkp := h.keeps d hd
    simp only [Drain.Keeps, hp] at hkp
    refine h.finish hd (by simp [Drain.inHand, hp]) (fun x hx => ?_)
      (h.raised_of_phase hd (by simp [hp]) (by simp [hp]))
    -- a lowered flag means that nothing is owed
    exact absurd (hkp.2 x hx).2 (by simp [hf])
  | swapRaised d hd hp hf =>
    have hkp := h.keeps d hd
    simp only [Drain.Keeps, hp] at hkp
    exact h.advance hd (by simp [Drain.inHand, hp])
      (fun hsw => absurd rfl hsw) (fun x hx => (hkp.2 x hx).1)
  | take d hd hp =>
    have hkp := h.keeps d hd
    simp only [Drain.Keeps, hp] at hkp
    exact h.advance hd (by simp [Drain.inHand, hp])
      (fun _ _ x hx => absurd hx not_mem_nil) (fun x hx => .inl (hkp x hx))
  | closeOk d x rest failed hd hp =>
    exact h.attempt hd hp (by simp)
  | closeErr d x rest failed error hd hp =>
    exact h.attempt hd hp (by simp [count_singleton])
  | allClosed d hd hp he =>
    have hkp := h.keeps d hd
    simp only [Drain.Keeps, hp, not_mem_nil, false_or] at hkp
    exact h.finish hd (by simp [Drain.inHand, hp]) hkp
      (h.raised_of_phase hd (by simp [hp]) (by simp [hp]))
  | extend d failed hd hp hfa he =>
    have hkp := h.keeps d hd
    simp only [Drain.Keeps, hp, not_mem_nil, false_or] at hkp
    exact h.advance hd (by simp [Drain.inHand, hp]) (fun _ hex => absurd rfl hex) hkp
  | restore d hd hp =>
    have hkp := h.keeps d hd
    simp only [Drain.Keeps, hp] at hkp
    exact h.finish hd (by simp [Drain.inHand, hp, State.finish]) hkp (fun _ _ => .inl rfl)
  | intoBackend hs hg hd hst =>
    exact h.begin hd (by simp [Drain.inHand]) (by simp) fun x hx => .inl (h.owed_pending hd x hx).1
  | intoBackendDone d failed hd hp he =>
    have hkp := h.keeps d hd
    simp only [Drain.Keeps, hp, not_mem_nil, false_or] at hkp
    refine h.finish hd (by simp [Drain.inHand, hp]) hkp (fun x hx => .inl ?_)
    simpa using ne_nil_of_mem hx

omit h in
theorem of_reachable (hr : Reachable s) : Consistent s := by
  induction hr with
  | refl => exact init
  | tail _ hs ih => exact ih.step hs

end Consistent

/-- Over every interleaving: with no drain running, a deferred close is queued or
was closed by one successful attempt, and never both; a drain attempts every close
that was neither closed nor still on its way into the queue when it began, the
failures of earlier drains among them, and it reports an error iff one of its
attempts failed; and a queue with anything in it has its flag raised whenever no
`defer` is between its push and its store. -/
theorem Reachable.cleanup {s : State E} (hreach : Reachable s) :
    (s.drain = none → ∀ x < s.deferred,
      s.pending.count x = 1 ∧ s.closed.count x = 0 ∨
        s.pending.count x = 0 ∧ s.closed.count x = 1) ∧
    (s.drain = none → s.storing = [] → s.pending ≠ [] → s.hasPending = true) ∧
    (∀ r ∈ s.finished, r.Complete) := by
  have h := Consistent.of_reachable hreach
  refine ⟨fun hdrain x hx => ?_, fun hdrain hstoring hpending => ?_, h.complete⟩
  · have honce := h.once x
    simp only [State.inHand, hdrain, count_nil, if_pos hx] at honce
    omega
  obtain ⟨x, hx⟩ := exists_mem_of_ne_nil _ hpending
  have hsettled : s.Settled := fun d hd => by simp [hdrain] at hd
  rcases h.raised hsettled x hx with hraised | ⟨hmem, -⟩
  · exact hraised
  · exact absurd hmem (by simp [hstoring])

/-- One close was deferred, and the drain of a lock failed at it. -/
def retained : State Unit where
  deferred := 1
  pending := [0]
  hasPending := true
  storing := []
  guard := some 0
  drain := none
  attempts := [(0, some ())]
  finished := [⟨[0], [(0, some ())], some ()⟩]
  consumed := false

theorem retained_reachable : Reachable retained := by
  have hs : (State.new : State Unit).Shared := ⟨rfl, fun d hd => by cases hd⟩
  have hp : Reachable (E := Unit) _ := .tail .refl (.deferPush _ hs)
  have hst := hp.tail (.deferStore _ 0 (mem_singleton_self 0))
  have hl := hst.tail (.lockWithoutCleanup _ 0 hs rfl)
  have hb := hl.tail (.drainCleanup _ 0 rfl rfl)
  have hsw := hb.tail (.swapRaised _ _ rfl rfl rfl)
  have ht := hsw.tail (.take _ _ rfl rfl)
  have hre := ht.tail (.closeErr _ _ 0 [] [] () rfl rfl)
  have he := hre.tail (.extend _ _ [0] rfl rfl (by simp) rfl)
  have hr := he.tail (.restore _ _ rfl rfl)
  exact hr

theorem retained_cleanup : Reachable retained ∧ retained.pending.count 0 = 1 ∧
    retained.hasPending = true ∧ ∀ r ∈ retained.finished, r.Complete := by
  obtain ⟨honce, hflag, hcomplete⟩ := Reachable.cleanup retained_reachable
  refine ⟨retained_reachable, ?_, hflag rfl rfl (by simp [retained]), hcomplete⟩
  rcases honce rfl 0 Nat.one_pos with ⟨hqueued, -⟩ | ⟨-, hclosed⟩
  · exact hqueued
  · exact absurd hclosed (by decide)

end Vnfs.Sync.Cleanup
