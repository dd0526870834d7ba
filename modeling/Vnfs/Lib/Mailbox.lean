import Mathlib

/-!
Workers behind mailboxes. A main thread sends every worker commands through a
queue of its own, and all workers answer through one shared queue of events. A
worker handles its commands in order. It may die at any time: its queue goes
with it, and some time later an event says that it stopped.

What the main thread has asked of a worker and not yet got back is in transit, as
answers on their way or as commands still queued, in the order it was asked. For
a worker that died only the answers are left.
-/

namespace Vnfs

open Function List

structure Mailbox (ω γ ε : Type*) where
  commands : ω → List γ
  events : List ε
  /-- The worker reads its queue. -/
  listening : ω → Bool
  /-- The worker has said that it stopped. -/
  announced : ω → Bool

namespace Mailbox

section

variable {ω γ ε : Type*} [DecidableEq ω] (box : Mailbox ω γ ε)

/-- A send fails once the worker is gone. -/
def send (w : ω) (command : γ) : Option (Mailbox ω γ ε) :=
  if box.listening w then
    some {box with commands := update box.commands w (box.commands w ++ [command])}
  else none

/-- A receive fails once every worker is gone and everything has been read; in
between it waits. -/
inductive Receipt (ω γ ε : Type*) where
  | waiting
  | closed
  | event (event : ε) (rest : Mailbox ω γ ε)

def recv [Fintype ω] : Receipt ω γ ε :=
  match box.events with
  | event :: rest => .event event {box with events := rest}
  | [] => if ∀ w, box.announced w = true then .closed else .waiting

/-- The worker takes a command and answers it. -/
def handled (w : ω) (rest : List γ) (event : ε) : Mailbox ω γ ε :=
  {box with
    commands := update box.commands w rest
    events := box.events ++ [event]}

/-- The worker dies and its queue with it. -/
def died (w : ω) : Mailbox ω γ ε :=
  {box with
    commands := update box.commands w []
    listening := update box.listening w false}

/-- What is left of a dead worker says that it stopped. -/
def announce (w : ω) (event : ε) : Mailbox ω γ ε :=
  {box with
    events := box.events ++ [event]
    announced := update box.announced w true}

end

/-- How commands and events are read: the sender of an event, and what a command
asks and an event answers. An event that answers nothing says that its sender
stopped. -/
structure Reading (ω γ ε τ : Type*) where
  sender : ε → ω
  asks : γ → τ
  answers : ε → Option τ

section

variable {ω γ ε τ : Type*} [DecidableEq ω] (reading : Reading ω γ ε τ)
  {box : Mailbox ω γ ε} {expected : ω → List τ}

/-- The answers of one worker among the events. -/
def Reading.answersOf (w : ω) (events : List ε) : List (Option τ) :=
  (events.filter fun event => reading.sender event = w).map reading.answers

/-- What is in transit is what the main thread expects of each worker. -/
structure Expects (box : Mailbox ω γ ε) (expected : ω → List τ) : Prop where
  live : ∀ w, box.listening w = true → box.announced w = false ∧ ∃ told,
    reading.answersOf w box.events = told.map some ∧
      told ++ (box.commands w).map reading.asks = expected w
  dead : ∀ w, box.listening w = false → box.commands w = [] ∧ ∃ told, told <+: expected w ∧
    (reading.answersOf w box.events = told.map some ∨
      box.announced w = true ∧ reading.answersOf w box.events = told.map some ++ [none])

variable {reading} {w : ω} {event : ε} {command : γ} {events : List ε}

open Reading

theorem Reading.answersOf_append_self (h : reading.sender event = w) (events : List ε) :
    reading.answersOf w (events ++ [event]) =
      reading.answersOf w events ++ [reading.answers event] := by
  simp [answersOf, h]

theorem Reading.answersOf_append_of_ne (h : reading.sender event ≠ w) (events : List ε) :
    reading.answersOf w (events ++ [event]) = reading.answersOf w events := by
  simp [answersOf, h]

theorem Reading.answersOf_cons_self (h : reading.sender event = w) (events : List ε) :
    reading.answersOf w (event :: events) =
      reading.answers event :: reading.answersOf w events := by
  simp [answersOf, h]

theorem Reading.answersOf_cons_of_ne (h : reading.sender event ≠ w) (events : List ε) :
    reading.answersOf w (event :: events) = reading.answersOf w events := by
  simp [answersOf, h]

theorem Expects.send (h : Expects reading box expected) {box' : Mailbox ω γ ε}
    (hs : box.send w command = some box') :
    Expects reading box' (update expected w (expected w ++ [reading.asks command])) := by
  unfold Mailbox.send at hs
  split at hs
  · rename_i hl
    obtain rfl := Option.some.inj hs
    constructor
    · intro v hv
      obtain ⟨ha, told, ht, hq⟩ := h.live v hv
      refine ⟨ha, told, ht, ?_⟩
      dsimp only
      rcases eq_or_ne v w with rfl | hne
      · simp only [update_self, map_append, map_cons, map_nil]
        rw [← hq, append_assoc]
      · rw [update_of_ne hne, update_of_ne hne]
        exact hq
    intro v hv
    have hne : v ≠ w := by
      rintro rfl
      exact absurd (hl.symm.trans hv) (by simp)
    obtain ⟨hq, told, hi, ht⟩ := h.dead v hv
    dsimp only
    rw [update_of_ne hne, update_of_ne hne]
    exact ⟨hq, told, hi, ht⟩
  · cases hs

theorem Expects.handled (h : Expects reading box expected) {rest : List γ}
    (hl : box.listening w = true) (hq : box.commands w = command :: rest)
    (hs : reading.sender event = w) (han : reading.answers event = some (reading.asks command)) :
    Expects reading (box.handled w rest event) expected := by
  constructor
  · intro v hv
    obtain ⟨ha, told, ht, he⟩ := h.live v hv
    refine ⟨ha, ?_⟩
    dsimp only [Mailbox.handled]
    rcases eq_or_ne v w with rfl | hne
    · refine ⟨told ++ [reading.asks command], ?_, ?_⟩
      · rw [answersOf_append_self hs, ht, han, map_append]
        rfl
      · rw [update_self, ← he, hq, append_assoc]
        rfl
    · refine ⟨told, ?_, ?_⟩
      · rw [answersOf_append_of_ne (by rw [hs]; exact hne.symm), ht]
      · rw [update_of_ne hne, he]
  intro v hv
  have hne : v ≠ w := by
    rintro rfl
    exact absurd (hl.symm.trans hv) (by simp)
  dsimp only [Mailbox.handled]
  rw [update_of_ne hne, answersOf_append_of_ne (by rw [hs]; exact hne.symm)]
  exact h.dead v hv

/-- Whatever a worker had queued is not going to be answered. -/
theorem Expects.died (h : Expects reading box expected) (hl : box.listening w = true) :
    Expects reading (box.died w) expected := by
  constructor
  · intro v hv
    have hne : v ≠ w := by
      rintro rfl
      simp [Mailbox.died] at hv
    dsimp only [Mailbox.died] at hv ⊢
    rw [update_of_ne hne] at hv ⊢
    exact h.live v hv
  intro v hv
  dsimp only [Mailbox.died] at hv ⊢
  rcases eq_or_ne v w with rfl | hne
  · obtain ⟨-, told, ht, he⟩ := h.live v hl
    rw [update_self]
    exact ⟨rfl, told, ⟨_, he⟩, .inl ht⟩
  · rw [update_of_ne hne] at hv ⊢
    exact h.dead v hv

theorem Expects.announce (h : Expects reading box expected) (hl : box.listening w = false)
    (han : box.announced w = false) (hs : reading.sender event = w)
    (ha : reading.answers event = none) : Expects reading (box.announce w event) expected := by
  constructor
  · intro v hv
    have hne : v ≠ w := by
      rintro rfl
      exact absurd (hl.symm.trans hv) (by simp)
    dsimp only [Mailbox.announce]
    rw [update_of_ne hne, answersOf_append_of_ne (by rw [hs]; exact hne.symm)]
    exact h.live v hv
  intro v hv
  obtain ⟨hq, told, hi, ht⟩ := h.dead v hv
  refine ⟨hq, told, hi, ?_⟩
  dsimp only [Mailbox.announce]
  rcases eq_or_ne v w with rfl | hne
  · right
    refine ⟨update_self .., ?_⟩
    rcases ht with ht | ⟨htr, -⟩
    · rw [answersOf_append_self hs, ht, ha]
    · exact absurd (han.symm.trans htr) (by simp)
  · rw [update_of_ne hne, answersOf_append_of_ne (by rw [hs]; exact hne.symm)]
    exact ht

theorem Expects.recv {rest : List τ} (h : Expects reading box expected)
    (he : box.events = event :: events) (hl : box.listening (reading.sender event) = true → ∃ told,
      reading.answersOf (reading.sender event) events = told.map some ∧
        told ++ (box.commands (reading.sender event)).map reading.asks = rest)
    (hd : box.listening (reading.sender event) = false → ∃ told, told <+: rest ∧
      (reading.answersOf (reading.sender event) events = told.map some ∨
        box.announced (reading.sender event) = true ∧
          reading.answersOf (reading.sender event) events = told.map some ++ [none])) :
    Expects reading {box with events := events} (update expected (reading.sender event) rest) := by
  have ho : ∀ v, v ≠ reading.sender event →
      reading.answersOf v events = reading.answersOf v box.events := by
    intro v hne
    rw [he, answersOf_cons_of_ne hne.symm]
  constructor
  · intro v hv
    obtain ⟨ha, ht⟩ := h.live v hv
    refine ⟨ha, ?_⟩
    rcases eq_or_ne v (reading.sender event) with rfl | hne
    · rw [update_self]
      exact hl hv
    · rw [update_of_ne hne, ho v hne]
      exact ht
  intro v hv
  obtain ⟨hq, ht⟩ := h.dead v hv
  refine ⟨hq, ?_⟩
  rcases eq_or_ne v (reading.sender event) with rfl | hne
  · rw [update_self]
    exact hd hv
  · rw [update_of_ne hne, ho v hne]
    exact ht

theorem Expects.recv_answer {t : τ} (h : Expects reading box expected)
    (hev : box.events = event :: events) (han : reading.answers event = some t) :
    ∃ rest, expected (reading.sender event) = t :: rest ∧
      Expects reading {box with events := events}
        (update expected (reading.sender event) rest) := by
  have hs : reading.answersOf (reading.sender event) box.events =
      some t :: reading.answersOf (reading.sender event) events := by
    rw [hev, answersOf_cons_self rfl, han]
  cases hl : box.listening (reading.sender event) with
  | true =>
    obtain ⟨-, told, ht, he⟩ := h.live _ hl
    rw [hs] at ht
    cases told with
    | nil => cases ht
    | cons first told =>
      obtain ⟨hf, hr⟩ := List.cons.inj ht
      obtain rfl := Option.some.inj hf
      refine ⟨_, he.symm, h.recv hev (fun _ => ⟨told, hr, rfl⟩) ?_⟩
      intro hfa
      exact absurd (hl.symm.trans hfa) (by simp)
  | false =>
    obtain ⟨-, told, hi, ht⟩ := h.dead _ hl
    rw [hs] at ht
    cases told with
    | nil => rcases ht with ht | ⟨-, ht⟩ <;> cases ht
    | cons first told =>
      obtain ⟨rest, hr⟩ := hi
      obtain ⟨hf, hta⟩ : t = first ∧
          (reading.answersOf (reading.sender event) events = told.map some ∨
            box.announced (reading.sender event) = true ∧
              reading.answersOf (reading.sender event) events = told.map some ++ [none]) := by
        rcases ht with ht | ⟨ha, ht⟩
        · obtain ⟨hf, hr⟩ := List.cons.inj ht
          exact ⟨Option.some.inj hf, .inl hr⟩
        · obtain ⟨hf, hr⟩ := List.cons.inj ht
          exact ⟨Option.some.inj hf, .inr ⟨ha, hr⟩⟩
      obtain rfl := hf
      refine ⟨told ++ rest, hr.symm, h.recv hev ?_ fun _ => ⟨told, ⟨rest, rfl⟩, hta⟩⟩
      intro htr
      exact absurd (hl.symm.trans htr) (by simp)

/-- Nothing comes from a worker behind the event that says it stopped. -/
theorem Expects.recv_stopped (h : Expects reading box expected)
    (he : box.events = event :: events) (ha : reading.answers event = none) :
    box.listening (reading.sender event) = false ∧ Expects reading {box with events := events}
        (update expected (reading.sender event) []) := by
  have hs : reading.answersOf (reading.sender event) box.events =
      none :: reading.answersOf (reading.sender event) events := by
    rw [he, answersOf_cons_self rfl, ha]
  cases hl : box.listening (reading.sender event) with
  | true =>
    obtain ⟨-, told, ht, -⟩ := h.live _ hl
    rw [hs] at ht
    cases told <;> cases ht
  | false =>
    obtain ⟨-, told, -, ht⟩ := h.dead _ hl
    rw [hs] at ht
    have hta : reading.answersOf (reading.sender event) events = [] := by
      cases told with
      | nil =>
        rcases ht with ht | ⟨-, ht⟩
        · cases ht
        · exact (List.cons.inj ht).2
      | cons first told => rcases ht with ht | ⟨-, ht⟩ <;> cases ht
    refine ⟨rfl, h.recv he ?_ fun _ => ⟨[], nil_prefix, .inl hta⟩⟩
    intro htr
    exact absurd (hl.symm.trans htr) (by simp)

theorem Expects.of_closed (h : Expects reading box expected) (he : box.events = [])
    (ha : ∀ w, box.announced w = true) (other : ω → List τ) : Expects reading box other := by
  constructor
  · intro w hw
    exact absurd ((h.live w hw).1.symm.trans (ha w)) (by simp)
  intro w hw
  refine ⟨(h.dead w hw).1, [], nil_prefix, .inl ?_⟩
  rw [he]
  rfl

theorem Expects.idle (h : Expects reading box expected) (hw : expected w = []) :
    box.commands w = [] ∧ ∀ event ∈ box.events, reading.sender event = w →
      reading.answers event = none := by
  have ha : ∀ event ∈ box.events, reading.sender event = w →
      reading.answers event ∈ reading.answersOf w box.events := by
    intro event hev hs
    exact mem_map_of_mem (mem_filter.mpr ⟨hev, by simpa using hs⟩)
  cases hl : box.listening w with
  | true =>
    obtain ⟨-, told, ht, he⟩ := h.live w hl
    rw [hw, append_eq_nil_iff, map_eq_nil_iff] at he
    obtain ⟨rfl, hq⟩ := he
    refine ⟨hq, fun event hev hs => ?_⟩
    have hm := ha event hev hs
    rw [ht] at hm
    cases hm
  | false =>
    obtain ⟨hq, told, hi, ht⟩ := h.dead w hl
    rw [hw, prefix_nil] at hi
    subst hi
    refine ⟨hq, fun event hev hs => ?_⟩
    have hm := ha event hev hs
    rcases ht with ht | ⟨-, ht⟩
    · rw [ht] at hm
      cases hm
    · rw [ht] at hm
      simpa using hm

end

section Round

variable {ω γ ε τ : Type*} [DecidableEq ω] {reading : Reading ω γ ε τ} {box : Mailbox ω γ ε}
  {t : τ} {asked heard : List ω}

/-- What is expected when the same was asked of each of some workers, and some of
them have been heard of. -/
def round (t : τ) (asked heard : List ω) (w : ω) : List τ :=
  if w ∈ asked ∧ w ∉ heard then [t] else []

/-- One more worker has been heard of. -/
def hear (asked heard : List ω) (w : ω) : List ω :=
  if w ∈ asked ∧ w ∉ heard then heard ++ [w] else heard

variable {w : ω} {event : ε} {events : List ε}

theorem round_ask (hw : w ∉ asked) : update (round t asked []) w (round t asked [] w ++ [t]) =
      round t (asked ++ [w]) [] := by
  funext v
  unfold round
  rcases eq_or_ne v w with rfl | hne
  · simp [hw]
  · simp [hne]

theorem mem_hear_of_ne {v : ω} (hne : v ≠ w) : v ∈ hear asked heard w ↔ v ∈ heard := by
  unfold hear
  split <;> simp [hne]

theorem round_hear (w : ω) :
    update (round t asked heard) w [] = round t asked (hear asked heard w) := by
  funext v
  unfold round
  rcases eq_or_ne v w with rfl | hne
  · rw [update_self, if_neg]
    unfold hear
    split <;> simp_all
  · rw [update_of_ne hne]
    simp only [mem_hear_of_ne hne]

theorem hear_nodup (h : heard.Nodup ∧ heard ⊆ asked) (w : ω) :
    (hear asked heard w).Nodup ∧ hear asked heard w ⊆ asked := by
  unfold hear
  split
  · rename_i hw
    refine ⟨nodup_append.mpr ⟨h.1, nodup_singleton w, ?_⟩, ?_⟩
    · rintro v hv v' hv' rfl
      rw [mem_singleton.mp hv'] at hv
      exact hw.2 hv
    · rw [append_subset]
      exact ⟨h.2, by simpa using hw.1⟩
  · exact h

/-- Everybody has been heard of once as many were heard of as were asked. -/
theorem round_done (h : heard.Nodup ∧ heard ⊆ asked) (hl : asked.length ≤ heard.length)
    (t : τ) : round t asked heard = fun _ => [] := by
  funext w
  unfold round
  rw [if_neg]
  rintro ⟨ha, hn⟩
  have hp := (h.1.subperm h.2).perm_of_length_le hl
  exact hn (hp.mem_iff.mpr ha)

theorem round_eq_nil {w : ω} : round t asked heard w = [] ↔ (w ∈ asked → w ∈ heard) := by
  simp [round]

theorem length_le_of_round (hn : asked.Nodup) (h : ∀ w, round t asked heard w = []) :
    asked.length ≤ heard.length :=
  (hn.subperm fun w => round_eq_nil.mp (h w)).length_le

/-- An answer comes from a worker that was asked, and is to what was asked. -/
theorem Expects.round_answer {t' : τ} (h : Expects reading box (round t asked heard))
    (hev : box.events = event :: events) (ha : reading.answers event = some t') :
    t' = t ∧ (reading.sender event ∈ asked ∧ reading.sender event ∉ heard) ∧
      Expects reading {box with events := events}
        (round t asked (hear asked heard (reading.sender event))) := by
  obtain ⟨rest, he, ht⟩ := h.recv_answer hev ha
  unfold round at he
  split at he
  · rename_i hw
    obtain ⟨rfl, rfl⟩ := List.cons.inj he
    rw [round_hear] at ht
    exact ⟨rfl, hw, ht⟩
  · cases he

theorem Expects.round_stopped (h : Expects reading box (round t asked heard))
    (he : box.events = event :: events) (ha : reading.answers event = none) :
    Expects reading {box with events := events}
      (round t asked (hear asked heard (reading.sender event))) := by
  obtain ⟨-, ht⟩ := h.recv_stopped he ha
  rwa [round_hear] at ht

end Round

section

variable {ω γ ε : Type*} [Fintype ω] {box rest : Mailbox ω γ ε}

theorem recv_event {event : ε} (h : box.recv = .event event rest) :
    ∃ events, box.events = event :: events ∧ rest = {box with events := events} := by
  unfold recv at h
  split at h
  · rename_i event' events he
    cases h
    exact ⟨events, he, rfl⟩
  · split at h <;> cases h

theorem recv_closed (h : box.recv = .closed) : box.events = [] ∧ ∀ w, box.announced w = true := by
  unfold recv at h
  split at h
  · cases h
  rename_i he
  split at h
  · rename_i ha
    exact ⟨he, ha⟩
  · cases h

end

end Mailbox

end Vnfs
