import Mathlib

/-!
Lists in which a thing is opened and closed, never twice in a row, with nothing
between that would disturb it. A scan from left to right keeps only whether
something is open.
-/

namespace Vnfs

inductive Bracket where
  | opens
  | closes
  /-- Not allowed while something is open. -/
  | disturbs
  | keeps
  deriving DecidableEq, Repr

namespace Bracket

/-- Whether something is open behind an element; `none` if it is out of place. -/
def next : Bracket → Bool → Option Bool
  | .opens, false => some true
  | .closes, true => some false
  | .disturbs, false => some false
  | .keeps, isOpen => some isOpen
  | _, _ => none

variable {α : Type*} (kind : α → Bracket)

def scan : Bool → List α → Option Bool
  | isOpen, [] => some isOpen
  | isOpen, a :: rest => ((kind a).next isOpen).bind fun isOpen => scan isOpen rest

theorem scan_append (isOpen : Bool) (front back : List α) : scan kind isOpen (front ++ back) =
      (scan kind isOpen front).bind fun isOpen => scan kind isOpen back := by
  induction front generalizing isOpen with
  | nil => rfl
  | cons a front ih =>
    rw [List.cons_append, scan, scan]
    cases (kind a).next isOpen with
    | none => rfl
    | some isOpen => exact ih isOpen

variable {list : List α}

theorem scan_keeps (isOpen : Bool) (h : ∀ a ∈ list, kind a = .keeps) :
    scan kind isOpen list = some isOpen := by
  induction list with
  | nil => rfl
  | cons a list ih =>
    rw [scan, h a List.mem_cons_self]
    exact ih fun a ha => h a (List.mem_cons_of_mem _ ha)

theorem scan_closed (h : ∀ a ∈ list, kind a = .keeps ∨ kind a = .disturbs) :
    scan kind false list = some false := by
  induction list with
  | nil => rfl
  | cons a list ih =>
    have hr := ih fun a ha => h a (List.mem_cons_of_mem _ ha)
    rw [scan]
    rcases h a List.mem_cons_self with hkp | hd
    · rw [hkp]
      exact hr
    · rw [hd]
      exact hr

/-- What is opened is closed once before anything is opened again, and undisturbed
until then. -/
def Matched (list : List α) : Prop :=
  ∀ (i : Nat) (a : α), list[i]? = some a → kind a = .opens →
    ∃ (j : Nat) (c : α), i < j ∧ list[j]? = some c ∧ kind c = .closes ∧
      (∀ (m : Nat) (b : α), i < m → m < j → list[m]? = some b → kind b = .keeps) ∧
      ∀ (j' : Nat) (c' : α), i < j' → list[j']? = some c' → kind c' = .closes → j' = j ∨
        ∃ (m : Nat) (b : α), j < m ∧ m < j' ∧ list[m]? = some b ∧ kind b = .opens

theorem scan_true (h : scan kind true list = some false) :
    ∃ j c, list[j]? = some c ∧ kind c = .closes ∧
      (∀ m b, m < j → list[m]? = some b → kind b = .keeps) ∧
      scan kind false (list.drop (j + 1)) = some false := by
  induction list with
  | nil => cases h
  | cons a list ih =>
    rw [scan] at h
    cases hk : kind a with
    | opens => rw [hk] at h; cases h
    | disturbs => rw [hk] at h; cases h
    | closes =>
      rw [hk] at h
      exact ⟨0, a, rfl, hk, fun m b hm => absurd hm (Nat.not_lt_zero m), h⟩
    | keeps =>
      rw [hk] at h
      obtain ⟨j, c, hc, hcl, hbe, hr⟩ := ih h
      refine ⟨j + 1, c, hc, hcl, ?_, hr⟩
      intro m b hm hb
      cases m with
      | zero =>
        obtain rfl := Option.some.inj hb
        exact hk
      | succ m => exact hbe m b (Nat.lt_of_succ_lt_succ hm) hb

theorem scan_false {last : Bool} (h : scan kind false list = some last) {j : Nat} {c : α}
    (hc : list[j]? = some c) (hcl : kind c = .closes) :
    ∃ m b, m < j ∧ list[m]? = some b ∧ kind b = .opens := by
  induction list generalizing j with
  | nil => cases hc
  | cons a list ih =>
    rw [scan] at h
    have hn : scan kind false list = some last → ∃ m b, m < j ∧ (a :: list)[m]? = some b ∧
        kind b = .opens := by
      intro hs
      cases j with
      | zero =>
        obtain rfl := Option.some.inj hc
        rw [hcl] at h
        cases h
      | succ j =>
        obtain ⟨m, b, hm, hb, ho⟩ := ih hs hc
        exact ⟨m + 1, b, Nat.succ_lt_succ hm, hb, ho⟩
    cases hk : kind a with
    | opens =>
      refine ⟨0, a, ?_, rfl, hk⟩
      apply Nat.pos_of_ne_zero
      rintro rfl
      obtain rfl := Option.some.inj hc
      rw [hcl] at hk
      cases hk
    | closes => rw [hk] at h; cases h
    | disturbs => rw [hk] at h; exact hn h
    | keeps => rw [hk] at h; exact hn h

theorem matched_of_scan (h : scan kind false list = some false) : Matched kind list := by
  intro i a ha ho
  have hsp : list = list.take i ++ a :: list.drop (i + 1) := by
    obtain ⟨_, rfl⟩ := List.getElem?_eq_some_iff.mp ha
    rw [List.getElem_cons_drop, List.take_append_drop]
  rw [hsp, scan_append, Option.bind_eq_some_iff] at h
  obtain ⟨isOpen, -, hr⟩ := h
  rw [scan, ho] at hr
  cases isOpen with
  | true => cases hr
  | false =>
    obtain ⟨j, c, hc, hcl, hbe, hbeh⟩ := scan_true kind hr
    have hs : ∀ k, (list.drop (i + 1))[k]? = list[i + 1 + k]? := fun k => by
      rw [List.getElem?_drop]
    rw [hs] at hc
    refine ⟨i + 1 + j, c, by omega, hc, hcl, ?_, ?_⟩
    · intro m b him hmj hb
      apply hbe (m - (i + 1)) b (by omega)
      rw [hs, Nat.add_sub_cancel' (by omega)]
      exact hb
    intro j' c' hij' hc' hcl'
    rcases Nat.lt_trichotomy j' (i + 1 + j) with hlt | heq | hgt
    · have hkp := hbe (j' - (i + 1)) c' (by omega) (by
        rw [hs, Nat.add_sub_cancel' (by omega)]
        exact hc')
      rw [hcl'] at hkp
      cases hkp
    · exact .inl heq
    right
    have hg : ∀ k, ((list.drop (i + 1)).drop (j + 1))[k]? = list[i + 1 + (j + 1) + k]? := by
      intro k
      rw [List.getElem?_drop, hs]
      congr 1
      omega
    have hl : ((list.drop (i + 1)).drop (j + 1))[j' - (i + 1 + (j + 1))]? = some c' := by
      rw [hg, Nat.add_sub_cancel' (by omega)]
      exact hc'
    obtain ⟨m, b, hm, hb, ho'⟩ := scan_false kind hbeh hl hcl'
    rw [hg] at hb
    exact ⟨i + 1 + (j + 1) + m, b, by omega, by omega, hb, ho'⟩

end Bracket

end Vnfs
