import Mathlib

/-!
Items applied one after another until the first that fails. The outcome is the
state behind the items that succeeded and the position of the one that did not; a
batch is in order if its outcome is that one.
-/

namespace Vnfs

variable {σ τ ε ε' : Type*}

def firstFailure (single : σ → τ → Except ε σ) : σ → List τ → σ × Option Nat
  | s, [] => (s, none)
  | s, item :: rest =>
    match single s item with
    | .error _ => (s, some 0)
    | .ok s => ((firstFailure single s rest).1, (firstFailure single s rest).2.map (· + 1))

namespace FirstFailure

variable {single : σ → τ → Except ε σ}
  {s : σ} {item : τ} {t : σ} {front : List τ} {k : Nat} {items : List τ} {τ' : Type*}
  {other : σ → τ' → Except ε' σ} {args : List τ'}

theorem cons_ok {s' : σ} (h : single s item = .ok s') (rest : List τ) :
    firstFailure single s (item :: rest) =
      ((firstFailure single s' rest).1, (firstFailure single s' rest).2.map (· + 1)) := by
  rw [firstFailure, h]

theorem cons_error {e : ε} (h : single s item = .error e) (rest : List τ) :
    firstFailure single s (item :: rest) = (s, some 0) := by
  rw [firstFailure, h]

open Option

theorem append_ok (h : firstFailure single s front = (t, none)) (back : List τ) :
    firstFailure single s (front ++ back) =
      ((firstFailure single t back).1, (firstFailure single t back).2.map (front.length + ·)) := by
  induction front generalizing s with
  | nil =>
    obtain rfl : s = t := congrArg Prod.fst h
    simp
  | cons item front ih =>
    cases hs : single s item with
    | error e =>
      rw [cons_error hs] at h
      cases h
    | ok s' =>
      rw [cons_ok hs, Prod.mk.injEq, map_eq_none_iff] at h
      rw [List.cons_append, cons_ok hs, ih (Prod.ext h.1 h.2)]
      refine Prod.ext rfl ?_
      simp only [map_map, List.length_cons]
      congr 1
      funext k
      simp only [Function.comp_apply]
      omega

theorem append_failed (h : firstFailure single s front = (t, some k)) (back : List τ) :
    firstFailure single s (front ++ back) = (t, some k) := by
  induction front generalizing s k with
  | nil => cases h
  | cons item front ih =>
    cases hs : single s item with
    | error e =>
      rw [cons_error hs] at h
      rw [List.cons_append, cons_error hs, h]
    | ok s' =>
      rw [cons_ok hs, Prod.mk.injEq] at h
      obtain ⟨k', hk', hsu⟩ := map_eq_some_iff.mp h.2
      rw [List.cons_append, cons_ok hs, ih (Prod.ext h.1 hk')]
      simp [hsu]

/-- Only what an item does to the state it finds counts, and whether it fails. -/
theorem congr_along {other : σ → τ → Except ε' σ}
    (h : ∀ front item back t, items = front ++ item :: back →
      firstFailure other s front = (t, none) →
        ∀ t', single t item = .ok t' ↔ other t item = .ok t') :
    firstFailure single s items = firstFailure other s items := by
  induction items generalizing s with
  | nil => rfl
  | cons item rest ih =>
    have hh := h [] item rest s rfl rfl
    cases ho : other s item with
    | ok t =>
      rw [cons_ok ho, cons_ok ((hh t).mpr ho), ih]
      intro front item' back t' hsp hr
      refine h (item :: front) item' back t' (by rw [hsp, List.cons_append]) ?_
      rw [cons_ok ho, hr]
      rfl
    | error e =>
      cases hs : single s item with
      | ok t => exact absurd ((hh t).mp hs) (by simp [ho])
      | error e' => rw [cons_error hs, cons_error ho]

theorem congr {other : σ → τ → Except ε' σ}
    (h : ∀ item ∈ items, ∀ s t, single s item = .ok t ↔ other s item = .ok t) (s : σ) :
    firstFailure single s items = firstFailure other s items :=
  congr_along fun _ item _ t hs _ => h item (by simp [hs]) t

/-- Items that all succeed one way, and hence the other. -/
theorem mono {other : σ → τ → Except ε' σ}
    (h : ∀ s item t, single s item = .ok t → other s item = .ok t)
    (hall : firstFailure single s items = (t, none)) :
    firstFailure other s items = (t, none) := by
  induction items generalizing s with
  | nil => exact hall
  | cons item rest ih =>
    cases hs : single s item with
    | error e =>
      rw [cons_error hs] at hall
      cases hall
    | ok s' =>
      rw [cons_ok hs, Prod.mk.injEq, map_eq_none_iff] at hall
      rw [cons_ok (h s item s' hs), ih (Prod.ext hall.1 hall.2)]
      rfl

theorem invariant {P : σ → Prop}
    (hstep : ∀ item ∈ items, ∀ s t, P s → single s item = .ok t → P t) (hs : P s) :
    P (firstFailure single s items).1 := by
  induction items generalizing s with
  | nil => exact hs
  | cons item rest ih =>
    cases h : single s item with
    | error e =>
      rw [cons_error h]
      exact hs
    | ok t =>
      rw [cons_ok h]
      exact ih (fun item hmem => hstep item (List.mem_cons_of_mem _ hmem))
        (hstep item List.mem_cons_self s t hs h)

theorem of_options {f : τ → Option τ'}
    (h : ∀ {item arg}, f item = some arg → ∀ s t, single s item = .ok t ↔ other s arg = .ok t)
    (ha : items.map f = args.map some) (s : σ) :
    firstFailure single s items = firstFailure other s args := by
  induction items generalizing args s with
  | nil =>
    obtain rfl : args = [] := by simpa using ha.symm
    rfl
  | cons item items ih =>
    cases args with
    | nil => simp at ha
    | cons arg args =>
      rw [List.map_cons, List.map_cons, List.cons.injEq] at ha
      have hh := h ha.1 s
      cases hs : single s item with
      | ok t => rw [cons_ok hs, cons_ok ((hh t).mp hs), ih ha.2]
      | error e =>
        cases ho : other s arg with
        | ok t => exact absurd ((hh t).mpr ho) (by simp [hs])
        | error e' => rw [cons_error hs, cons_error ho]

end FirstFailure

end Vnfs
