import Mathlib

/-!
Reordering a run of actions on a state. Every action carries a key. If two
actions stand in the wrong order of keys only when they commute, then the run
has the effect of performing the actions key by key, each key's own actions in
the order in which the run has them. Actions on a store commute if neither writes what
the other one reads.
-/

namespace Vnfs.Reorder

open List

variable {σ α : Type*} (act : σ → α → σ)

def Commutes (a b : α) : Prop := ∀ s, act (act s a) b = act (act s b) a

def perform (s : σ) (run : List α) : σ := run.foldl act s

@[simp] theorem perform_nil (s : σ) : perform act s [] = s := rfl

@[simp] theorem perform_cons (s : σ) (a : α) (run : List α) :
    perform act s (a :: run) = perform act (act s a) run := rfl

theorem perform_append (s : σ) (run run' : List α) :
    perform act s (run ++ run') = perform act (perform act s run) run' :=
  foldl_append

variable {a : α} {run : List α}

/-- What every action respects may as well be done after the run. -/
theorem perform_map {act act' : σ → α → σ} (f : σ → σ)
    (h : ∀ b ∈ run, ∀ s, act' (f s) b = f (act s b)) (s : σ) :
    perform act' (f s) run = f (perform act s run) := by
  induction run generalizing s with
  | nil => rfl
  | cons b run ih =>
    rw [perform_cons, perform_cons, h b mem_cons_self]
    exact ih (fun c hc => h c (mem_cons_of_mem _ hc)) _

theorem perform_delay (h : ∀ b ∈ run, Commutes act a b) (s : σ) :
    perform act (act s a) run = act (perform act s run) a :=
  perform_map (fun s => act s a) h s

/-- Actions picked out by `late` may run after all others. -/
theorem perform_late (late : α → Bool)
    (h : run.Pairwise fun a b => late a = true → late b = false → Commutes act a b) (s : σ) :
    perform act s run =
      perform act (perform act s (run.filter fun a => !late a)) (run.filter late) := by
  induction run generalizing s with
  | nil => rfl
  | cons a run ih =>
    obtain ⟨hh, ht⟩ := pairwise_cons.mp h
    rw [perform_cons, ih ht]
    cases hl : late a with
    | false => simp [hl]
    | true =>
      have hc : ∀ b ∈ run.filter (fun a => !late a), Commutes act a b := by
        intro b hb
        obtain ⟨hm, he⟩ := mem_filter.mp hb
        exact hh b hm hl (by simpa using he)
      simp only [filter_cons, hl, Bool.not_true, if_true, perform_cons]
      rw [perform_delay act hc]
      rfl

/-- A run whose inversions commute is performed key by key. -/
theorem perform_by_key (key : α → Nat)
    (h : run.Pairwise fun a b => key b < key a → Commutes act a b) {bound : Nat}
    (hbn : ∀ a ∈ run, key a < bound) (s : σ) :
    perform act s run =
      (List.range bound).foldl (fun s k => perform act s (run.filter fun a => key a = k)) s := by
  induction bound generalizing run with
  | zero =>
    cases run with
    | nil => rfl
    | cons a run => exact absurd (hbn a (by simp)) (Nat.not_lt_zero _)
  | succ bound ih =>
    have hl : run.Pairwise fun a b => decide (key a = bound) = true →
        decide (key b = bound) = false → Commutes act a b := by
      apply h.imp_of_mem
      intro a b _ hb hab ha hb'
      have hlt := hbn b hb
      have heq : key a = bound := by simpa using ha
      have hne : key b ≠ bound := by simpa using hb'
      exact hab (by omega)
    have hbe := ih (h.filter fun a => !decide (key a = bound)) (by
      intro a ha
      obtain ⟨hm, hne⟩ := mem_filter.mp ha
      have hlt := hbn a hm
      have : key a ≠ bound := by simpa using hne
      omega)
    rw [perform_late act (fun a => decide (key a = bound)) hl, hbe, range_succ, foldl_append]
    have hs : (List.range bound).foldl (fun s k => perform act s
          ((run.filter fun a => !decide (key a = bound)).filter fun a => decide (key a = k))) s =
        (List.range bound).foldl
          (fun s k => perform act s (run.filter fun a => decide (key a = k))) s := by
      apply foldl_ext
      intro s k hk
      have hlt := mem_range.mp hk
      rw [filter_filter]
      congr 1
      apply filter_congr
      intro a _
      by_cases hke : key a = k
      · have : key a ≠ bound := by omega
        simp [hke, Nat.ne_of_lt hlt]
      · simp [hke]
    rw [hs]
    rfl

/-- One action of a run is extended by `more`. If `more` commutes with every
action behind it, that is the run followed by `more`. -/
theorem perform_extend {act act' : σ → α → σ} (more : σ → σ) {front back : List α}
    (he : ∀ s, act' s a = more (act s a)) (hfr : ∀ b ∈ front, ∀ s, act' s b = act s b)
    (hb : ∀ b ∈ back, ∀ s, act' s b = act s b)
    (hc : ∀ b ∈ back, ∀ s, act (more s) b = more (act s b)) (s : σ) :
    perform act' s (front ++ a :: back) = more (perform act s (front ++ a :: back)) := by
  have hs : ∀ run : List α, (∀ b ∈ run, ∀ s, act' s b = act s b) → ∀ s,
      perform act' s run = perform act s run := fun run hr => perform_map id hr
  rw [perform_append, perform_append, perform_cons, perform_cons, hs front hfr, he,
    hs back hb, perform_map more hc]

/-- If different actions commute, the order of a run does not matter. -/
theorem perform_perm {run run' : List α} (hr : run.Perm run')
    (h : ∀ a ∈ run, ∀ b ∈ run, a ≠ b → Commutes act a b) (s : σ) :
    perform act s run = perform act s run' := by
  apply hr.foldl_eq'
  intro a ha b hb s
  by_cases heq : a = b
  · rw [heq]
  · exact h a ha b hb heq s

section Footprint

variable {κ V O : Type*}

/-- An action on a store with an outcome, which writes inside `writes` only and looks at
`reads` only. -/
structure Footprint (action : (κ → V) → O × (κ → V)) (reads writes : κ → Prop) : Prop where
  frame : ∀ s k, ¬writes k → (action s).2 k = s k
  outcome : ∀ s s', (∀ k, reads k → s k = s' k) → (action s).1 = (action s').1
  effect : ∀ s s', (∀ k, reads k → s k = s' k) → ∀ k, writes k → (action s).2 k = (action s').2 k

variable {a b : (κ → V) → O × (κ → V)} {reads writes reads' writes' : κ → Prop}

theorem Footprint.outcome_after (ha : Footprint a reads writes) (hb : Footprint b reads' writes')
    (hap : ∀ k, writes k → ¬reads' k) (s : κ → V) : (b (a s).2).1 = (b s).1 :=
  hb.outcome _ _ fun k hk => ha.frame s k fun hw => hap k hw hk

theorem Footprint.effect_after (ha : Footprint a reads writes) (hb : Footprint b reads' writes')
    (hap : ∀ k, writes k → ¬reads' k) (s : κ → V) (k : κ) (hk : writes' k) :
    (b (a s).2).2 k = (b s).2 k :=
  hb.effect _ _ (fun k hk => ha.frame s k fun hw => hap k hw hk) k hk

/-- Two actions neither of which writes what the other reads or writes. -/
theorem Footprint.comm (ha : Footprint a reads writes) (hb : Footprint b reads' writes')
    (hab : ∀ k, writes k → ¬reads' k) (hba : ∀ k, writes' k → ¬reads k)
    (hs : ∀ k, writes' k → reads' k) (s : κ → V) : (b (a s).2).2 = (a (b s).2).2 := by
  funext k
  by_cases hk : writes k
  · rw [hb.frame _ k fun hk' => hab k hk (hs k hk'), hb.effect_after ha hba s k hk]
  · rw [ha.frame _ k hk]
    by_cases hk' : writes' k
    · exact ha.effect_after hb hab s k hk'
    · rw [hb.frame _ k hk', hb.frame _ k hk', ha.frame _ k hk]

end Footprint

end Vnfs.Reorder
