import Mathlib

/-!
Loops as step functions. A step either goes around again with a new state or
leaves with a result; a variant that falls on every round makes the loop a total
function. An invariant is proved once per step and holds at the exit.
-/

namespace Vnfs.Loop

variable {σ ρ α : Type*} [WellFoundedRelation α]

/-- A loop body with its variant. -/
structure Body (σ ρ α : Type*) [WellFoundedRelation α] where
  step : σ → σ ⊕ ρ
  variant : σ → α
  decreases : ∀ s s', step s = .inl s' → WellFoundedRelation.rel (variant s') (variant s)

def run (body : Body σ ρ α) (s : σ) : ρ :=
  match _hstep : body.step s with
  | .inl s' => run body s'
  | .inr r => r
termination_by body.variant s
decreasing_by exact body.decreases s s' _hstep

variable (body : Body σ ρ α) {s : σ} {ε β : Type*} {index : Nat} {ys : List β}

theorem run_of_inl {s' : σ} (h : body.step s = .inl s') : run body s = run body s' := by
  rw [run]
  split <;> simp_all

theorem run_of_inr {r : ρ} (h : body.step s = .inr r) : run body s = r := by
  rw [run]
  split <;> simp_all

theorem run_invariant {P : σ → Prop} {Q : ρ → Prop}
    (hround : ∀ s s', P s → body.step s = .inl s' → P s')
    (he : ∀ s r, P s → body.step s = .inr r → Q r) (hs : P s) : Q (run body s) := by
  induction s using run.induct body with
  | case1 s s' hst ih =>
    rw [run_of_inl body hst]
    exact ih (hround s s' hs hst)
  | case2 s r hst =>
    rw [run_of_inr body hst]
    exact he s r hs hst

/-- The states a loop passes through, its first one included. -/
def Visits : σ → σ → Prop := Relation.ReflTransGen fun s s' => body.step s = .inl s'

section Visits

variable {body} {t : σ}

theorem Visits.run_eq (h : Visits body s t) : run body s = run body t := by
  induction h with
  | refl => rfl
  | tail _ hstep ih => exact ih.trans (run_of_inl body hstep)

/-- A loop that leaves at once has only its first state. -/
theorem Visits.eq_of_isRight (h : Visits body s t) (hend : (body.step s).isRight = true) :
    t = s := by
  rcases h.cases_head with heq | ⟨next, hnext, -⟩
  · exact heq.symm
  · rw [hnext] at hend
    cases hend

variable (body) in
theorem exists_last (s : σ) : ∃ last, Visits body s last ∧ body.step last = .inr (run body s) := by
  induction s using run.induct body with
  | case1 s s' hs ih =>
    obtain ⟨last, hvisits, hlast⟩ := ih
    exact ⟨last, .head hs hvisits, (run_of_inl body hs).symm ▸ hlast⟩
  | case2 s r hs => exact ⟨s, .refl, (run_of_inr body hs).symm ▸ hs⟩

end Visits

/-- A loop whose variant falls only in states that satisfy its invariant runs on
those states. -/
def Body.within {P : σ → Prop} (step : σ → σ ⊕ ρ) (variant : σ → Nat)
    (hround : ∀ s s', P s → step s = .inl s' → P s')
    (hless : ∀ s s', P s → step s = .inl s' → variant s' < variant s) :
    Body {s // P s} ρ Nat where
  step s :=
    match hstep : step s.1 with
    | .inl s' => .inl ⟨s', hround s.1 s' s.2 hstep⟩
    | .inr r => .inr r
  variant s := variant s.1
  decreases := by
    rintro ⟨s, hs⟩ ⟨s', hs'⟩ h
    split at h
    · rename_i next hstep
      obtain rfl : next = s' := by simpa using h
      exact hless s next hs hstep
    · cases h

section

variable {P : σ → Prop} {step : σ → σ ⊕ ρ} {variant : σ → Nat}
  {hround : ∀ s s', P s → step s = .inl s' → P s'}
  {hless : ∀ s s', P s → step s = .inl s' → variant s' < variant s}

theorem within_step_inl {s s' : {s // P s}}
    (h : (Body.within step variant hround hless).step s = .inl s') : step s.1 = .inl s'.1 := by
  dsimp only [Body.within] at h
  split at h
  · rename_i next hs
    rw [hs, ← Sum.inl.inj h]
  · cases h

theorem within_step_inr {s : {s // P s}} {r : ρ}
    (h : (Body.within step variant hround hless).step s = .inr r) : step s.1 = .inr r := by
  dsimp only [Body.within] at h
  split at h
  · cases h
  · rename_i r' hs
    rw [hs, Sum.inr.inj h]

end

def rounds (s : σ) : Nat :=
  match _hstep : body.step s with
  | .inl s' => rounds s' + 1
  | .inr _ => 0
termination_by body.variant s
decreasing_by exact body.decreases s s' _hstep

theorem rounds_le_variant (body : Body σ ρ Nat) (s : σ) : rounds body s ≤ body.variant s := by
  induction s using rounds.induct body with
  | case1 s s' hs ih =>
    have hless : body.variant s' < body.variant s := body.decreases s s' hs
    rw [rounds]
    split
    · rename_i next hn
      obtain rfl : next = s' := Sum.inl.inj (hn.symm.trans hs)
      omega
    · exact Nat.zero_le _
  | case2 s r hs =>
    rw [rounds]
    split
    · rename_i next hn
      exact absurd (hn.symm.trans hs) (by simp)
    · exact Nat.zero_le _

/-- The result after at most `fuel` rounds, for evaluating a loop on an input. -/
def runFor : Nat → σ → Option ρ
  | 0, _ => none
  | fuel + 1, s =>
    match body.step s with
    | .inl s' => runFor fuel s'
    | .inr r => some r

theorem run_of_runFor (fuel : Nat) {τ : Type*} (f : ρ → τ) {t : τ}
    (h : (runFor body fuel s).map f = some t) : f (run body s) = t := by
  induction fuel generalizing s with
  | zero => cases h
  | succ fuel ih =>
    unfold runFor at h
    cases hs : body.step s with
    | inl s' =>
      rw [run_of_inl body hs]
      apply ih
      simpa [hs] using h
    | inr r =>
      rw [run_of_inr body hs]
      simpa [hs] using h

/-- A `for` loop over enumerated items that collects results and stops at the
first error. -/
def forEach {ε α β : Type*} (f : Nat → α → Except ε β) : Nat → List α → Except ε (List β)
  | _, [] => .ok []
  | index, x :: xs => do
      let y ← f index x
      let ys ← forEach f (index + 1) xs
      .ok (y :: ys)

theorem forEach_ok {α : Type*} {f : Nat → α → Except ε β} {xs : List α}
    (h : forEach f index xs = .ok ys) :
    ys.length = xs.length ∧
      ∀ k x, xs[k]? = some x → ∃ y, ys[k]? = some y ∧ f (index + k) x = .ok y := by
  induction xs generalizing index ys with
  | nil =>
    obtain rfl := Except.ok.inj h
    exact ⟨rfl, by simp⟩
  | cons x xs ih =>
    unfold forEach at h
    cases hy : f index x with
    | error e => simp [hy, bind, Except.bind] at h
    | ok y =>
      cases hys : forEach f (index + 1) xs with
      | error e => simp [hy, hys, bind, Except.bind] at h
      | ok ys' =>
        simp only [hy, hys, bind, Except.bind, Except.ok.injEq] at h
        subst h
        obtain ⟨hl, hit⟩ := ih hys
        refine ⟨by simp [hl], ?_⟩
        intro k item hi
        cases k with
        | zero =>
          obtain rfl : x = item := by simpa using hi
          exact ⟨y, by simp, by simpa using hy⟩
        | succ k =>
          obtain ⟨y', hg, hf⟩ := hit k item (by simpa using hi)
          refine ⟨y', by simpa using hg, ?_⟩
          rwa [Nat.add_right_comm, Nat.add_assoc] at hf

theorem forEach_eq_map {α : Type*} {f : Nat → α → Except ε β} {g : α → β}
    (hf : ∀ k x y, f k x = .ok y → y = g x) {xs : List α} (h : forEach f index xs = .ok ys) :
    ys = xs.map g := by
  obtain ⟨hl, hi⟩ := forEach_ok h
  apply List.ext_getElem?
  intro k
  rw [List.getElem?_map]
  cases hx : xs[k]? with
  | none =>
    have hlt := List.getElem?_eq_none_iff.mp hx
    exact List.getElem?_eq_none_iff.mpr (by omega)
  | some x =>
    obtain ⟨y, hy, hfy⟩ := hi k x hx
    rw [hy, hf _ _ _ hfy]
    rfl

end Vnfs.Loop
