import Mathlib

/-!
Entries that are registered in a table one after another, each under a name that
was vacant, with a list of outcomes: names for the entries that got one, and at
most one error, at the end. Lists of outcomes of successive registrations compose.
-/

namespace Vnfs.Registration

open List Function

variable {ι ε α : Type*}

/-- `results` are the outcomes of registering the entries that `entries` places at
each position; the table was `before` and is `after`. An entry without a name comes
behind an error that is `Full`. -/
structure Registered (Full : ε → Prop) (before after : ι → Option α) (entries : Nat → α → Prop)
    (results : List (Except ε ι)) : Prop where
  failed_last : ∀ (i : Nat) (e : ε), results[i]? = some (.error e) → i + 1 = results.length
  fresh : ∀ (i : Nat) (name : ι), results[i]? = some (.ok name) →
    before name = none ∧ ∃ a, after name = some a ∧ entries i a
  distinct : ∀ (i j : Nat) (name : ι), results[i]? = some (.ok name) →
    results[j]? = some (.ok name) → i = j
  others : ∀ name, (∀ i : Nat, results[i]? ≠ some (.ok name)) → after name = before name
  covers : ∀ (i : Nat) (a : α), entries i a →
    (∃ name, results[i]? = some (.ok name) ∧ after name = some a) ∨
    ∃ k ≤ i, ∃ e, results[k]? = some (.error e) ∧ Full e

variable {Full : ε → Prop} {before mid after : ι → Option α} {entries entries' : Nat → α → Prop}
  {results suffix : List (Except ε ι)}

namespace Registered

theorem nil (table : ι → Option α) :
    Registered Full table table (fun _ _ => False) ([] : List (Except ε ι)) where
  failed_last i e h := by simp at h
  fresh i name h := by simp at h
  distinct i j name h := by simp at h
  others _ _ := rfl
  covers i a h := h.elim

theorem single_error_getElem {e e' : ε} {i : Nat}
    (h : [(.error e : Except ε ι)][i]? = some (.error e')) : i = 0 ∧ e' = e := by
  cases i with
  | zero => exact ⟨rfl, (Except.error.inj (Option.some.inj h)).symm⟩
  | succ i => simp at h

theorem error (table : ι → Option α) (e : ε) (hc : ∀ i a, entries i a → Full e) :
    Registered Full table table entries [(.error e : Except ε ι)] where
  failed_last i e' h := by rw [(single_error_getElem h).1]; rfl
  fresh i name h := by cases i <;> simp at h
  distinct i j name h := by cases i <;> simp at h
  others _ _ := rfl
  covers i a h := .inr ⟨0, Nat.zero_le i, e, rfl, hc i a h⟩

theorem ok [DecidableEq ι] {name : ι} (hv : before name = none) (a : α) :
    Registered Full before (update before name (some a)) (fun i b => i = 0 ∧ b = a) [.ok name] where
  failed_last i e h := by cases i <;> simp at h
  fresh i other h := by
    cases i with
    | zero =>
      obtain rfl := Except.ok.inj (Option.some.inj h)
      exact ⟨hv, a, update_self .., rfl, rfl⟩
    | succ i => simp at h
  distinct i j other h h' := by
    cases i with
    | zero =>
      cases j with
      | zero => rfl
      | succ j => simp at h'
    | succ i => simp at h
  others other h := update_of_ne (fun heq => h 0 (by rw [heq]; rfl)) ..
  covers i b h := by
    obtain ⟨rfl, rfl⟩ := h
    exact .inl ⟨name, rfl, update_self ..⟩

theorem congr (h : Registered Full before after entries results)
    (hi : ∀ i a, entries i a ↔ entries' i a) : Registered Full before after entries' results := by
  have heq : entries = entries' := funext fun i => funext fun a => propext (hi i a)
  exact heq ▸ h

theorem append (h : Registered Full before mid entries results)
    (hok : ∀ (i : Nat) (e : ε), results[i]? ≠ some (.error e))
    (h' : Registered Full mid after entries' suffix) :
    Registered Full before after
      (fun i a => entries i a ∨ results.length ≤ i ∧ entries' (i - results.length) a)
      (results ++ suffix) := by
  have hear : ∀ (i : Nat) (name : ι), results[i]? = some (.ok name) → after name = mid name := by
    intro i name hi
    apply h'.others
    intro j hj
    obtain ⟨-, a, hm, -⟩ := h.fresh i name hi
    rw [(h'.fresh j name hj).1] at hm
    cases hm
  have hl : ∀ (j : Nat) (name : ι), suffix[j]? = some (.ok name) →
      ∀ i : Nat, results[i]? ≠ some (.ok name) := by
    intro j name hj i hi
    obtain ⟨-, a, hm, -⟩ := h.fresh i name hi
    rw [(h'.fresh j name hj).1] at hm
    cases hm
  refine ⟨?_, ?_, ?_, ?_, ?_⟩
  · intro i e hi
    rcases Nat.lt_or_ge i results.length with hlt | hge
    · rw [getElem?_append_left hlt] at hi
      exact absurd hi (hok i e)
    rw [getElem?_append_right hge] at hi
    have := h'.failed_last _ e hi
    rw [length_append]
    omega
  · intro i name hi
    rcases Nat.lt_or_ge i results.length with hlt | hge
    · rw [getElem?_append_left hlt] at hi
      obtain ⟨hb, a, hm, ha⟩ := h.fresh i name hi
      exact ⟨hb, a, (hear i name hi).trans hm, .inl ha⟩
    · rw [getElem?_append_right hge] at hi
      obtain ⟨hm, a, haf, ha⟩ := h'.fresh _ name hi
      exact ⟨(h.others name (hl _ name hi)).symm.trans hm, a, haf, .inr ⟨hge, ha⟩⟩
  · intro i j name hi hj
    rcases Nat.lt_or_ge i results.length with hlt | hge <;>
      rcases Nat.lt_or_ge j results.length with hlt' | hge'
    · rw [getElem?_append_left hlt] at hi
      rw [getElem?_append_left hlt'] at hj
      exact h.distinct i j name hi hj
    · rw [getElem?_append_left hlt] at hi
      rw [getElem?_append_right hge'] at hj
      exact absurd hi (hl _ name hj i)
    · rw [getElem?_append_right hge] at hi
      rw [getElem?_append_left hlt'] at hj
      exact absurd hj (hl _ name hi j)
    rw [getElem?_append_right hge] at hi
    rw [getElem?_append_right hge'] at hj
    have := h'.distinct _ _ name hi hj
    omega
  · intro name hn
    have hs : ∀ j : Nat, suffix[j]? ≠ some (.ok name) := by
      intro j hj
      apply hn (results.length + j)
      rw [getElem?_append_right (Nat.le_add_right ..), Nat.add_sub_cancel_left, hj]
    have hfs : ∀ i : Nat, results[i]? ≠ some (.ok name) := by
      intro i hi
      have hlt := (List.getElem?_eq_some_iff.mp hi).1
      exact hn i ((getElem?_append_left hlt).trans hi)
    exact (h'.others name hs).trans (h.others name hfs)
  rintro i a (ha | ⟨hge, ha⟩)
  · rcases h.covers i a ha with ⟨name, hi, hm⟩ | ⟨k, -, e, hk, -⟩
    · have hlt := (List.getElem?_eq_some_iff.mp hi).1
      exact .inl ⟨name, (getElem?_append_left hlt).trans hi, (hear i name hi).trans hm⟩
    · exact absurd hk (hok k e)
  rcases h'.covers _ a ha with ⟨name, hi, haf⟩ | ⟨k, hk, e, hke, hf⟩
  · exact .inl ⟨name, (getElem?_append_right hge).trans hi, haf⟩
  · refine .inr ⟨results.length + k, by omega, e, ?_, hf⟩
    rw [getElem?_append_right (Nat.le_add_right ..), Nat.add_sub_cancel_left, hke]

theorem dropLast_ok (h : Registered Full before after entries results) (i : Nat) (e : ε) :
    results.dropLast[i]? ≠ some (.error e) := by
  intro hi
  have hlt := (List.getElem?_eq_some_iff.mp hi).1
  rw [getElem?_dropLast] at hi
  rw [length_dropLast] at hlt
  rw [if_pos hlt] at hi
  have := h.failed_last i e hi
  omega

/-- A last error that left no entry out can be taken back. -/
theorem dropLast (h : Registered Full before after entries results) {e : ε}
    (hl : results.getLast? = some (.error e)) (hf : ¬ Full e) :
    Registered Full before after entries results.dropLast := by
  have he : results[results.length - 1]? = some (.error e) := by
    rw [← getLast?_eq_getElem?, hl]
  have hg : ∀ (i : Nat) (name : ι),
      results.dropLast[i]? = some (.ok name) ↔ results[i]? = some (.ok name) := by
    intro i name
    rw [getElem?_dropLast]
    constructor
    · intro hi
      split at hi
      · exact hi
      · cases hi
    intro hi
    have hlt := (List.getElem?_eq_some_iff.mp hi).1
    have hne : i ≠ results.length - 1 := by
      rintro rfl
      rw [he] at hi
      cases hi
    rw [if_pos (by omega), hi]
  refine ⟨fun i e' hi => absurd hi (h.dropLast_ok i e'), ?_, ?_, ?_, ?_⟩
  · intro i name hi
    exact h.fresh i name ((hg i name).mp hi)
  · intro i j name hi hj
    exact h.distinct i j name ((hg i name).mp hi) ((hg j name).mp hj)
  · intro name hn
    exact h.others name fun i hi => hn i ((hg i name).mpr hi)
  intro i a ha
  rcases h.covers i a ha with ⟨name, hi, haf⟩ | ⟨k, -, e', hk, hf'⟩
  · exact .inl ⟨name, (hg i name).mpr hi, haf⟩
  have hs := h.failed_last k e' hk
  obtain rfl : k = results.length - 1 := by omega
  rw [he] at hk
  obtain rfl := Except.error.inj (Option.some.inj hk)
  exact absurd hf' hf

theorem mapError (h : Registered Full before after entries results) {g : ε → ε}
    (hf : ∀ e, Full e → Full (g e)) :
    Registered Full before after entries (results.map (Except.mapError g)) := by
  have hg : ∀ (i : Nat) (name : ι), (results.map (Except.mapError g))[i]? = some (.ok name) ↔
      results[i]? = some (.ok name) := by
    intro i name
    rw [getElem?_map]
    rcases results[i]? with _ | (e | other) <;> simp [Except.mapError]
  refine ⟨?_, ?_, ?_, ?_, ?_⟩
  · intro i e hi
    rw [getElem?_map] at hi
    obtain ⟨r, hr, heq⟩ := Option.map_eq_some_iff.mp hi
    cases r with
    | error e' =>
      rw [length_map]
      exact h.failed_last i e' hr
    | ok name => cases heq
  · intro i name hi
    exact h.fresh i name ((hg i name).mp hi)
  · intro i j name hi hj
    exact h.distinct i j name ((hg i name).mp hi) ((hg j name).mp hj)
  · intro name hn
    exact h.others name fun i hi => hn i ((hg i name).mpr hi)
  intro i a ha
  rcases h.covers i a ha with ⟨name, hi, haf⟩ | ⟨k, hk, e, hke, he⟩
  · exact .inl ⟨name, (hg i name).mpr hi, haf⟩
  · exact .inr ⟨k, hk, g e, by rw [getElem?_map, hke]; rfl, hf e he⟩

end Registered

end Vnfs.Registration
