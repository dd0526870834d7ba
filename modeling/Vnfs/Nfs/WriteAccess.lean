import Vnfs.Lib.SortedMap

/-!
`WriteWaveAccess`: what one WRITE wave already does to one file. A request joins
only if it and everything before it are positional and no bytes are shared. The
first range is kept apart; the others are indexed by their start, so that only
the last one beginning before a new range's end can overlap it.
-/

namespace Vnfs.Nfs

structure WriteWaveAccess where
  positional : Bool
  first : Nat × Nat
  additional : SortedMap Nat Nat

namespace WriteWaveAccess

def new (range : Nat × Nat) (positional : Bool) : WriteWaveAccess := ⟨positional, range, .empty⟩

/-- `admit`: the access with the range, or `none` where the source returns
false. -/
def admits (access : WriteWaveAccess) (range : Nat × Nat) (positional : Bool) :
    Option WriteWaveAccess :=
  if !access.positional || !positional then none
  else if range.2 ≤ range.1 then some access
  else if access.first.1 < access.first.2 ∧ range.1 < access.first.2 ∧ access.first.1 < range.2 then
    none
  else if (access.additional.lastLT range.2).any fun entry => entry.2 > range.1 then none
  else some {access with additional := access.additional.insert range.1 range.2}

/-- Two half-open ranges without a common element. -/
def Apart (range other : Nat × Nat) : Prop :=
  range.2 ≤ range.1 ∨ other.2 ≤ other.1 ∨ range.2 ≤ other.1 ∨ other.2 ≤ range.1

/-- The access knows the members of a wave: while all are positional, every
range with bytes is the first one or indexed. -/
structure Knows (access : WriteWaveAccess) (members : List ((Nat × Nat) × Bool)) : Prop where
  positional : access.positional = true → ∀ m ∈ members, m.2 = true
  indexed : access.positional = true → ∀ m ∈ members, m.1.1 < m.1.2 →
    m.1 = access.first ∨ m.1 ∈ access.additional.entries
  nonempty : ∀ entry ∈ access.additional.entries, entry.1 < entry.2
  apart : ∀ entry ∈ access.additional.entries, ∀ other ∈ access.additional.entries,
    entry.1 < other.1 → entry.2 ≤ other.1

theorem knows_new (range : Nat × Nat) (positional : Bool) :
    Knows (new range positional) [(range, positional)] where
  positional := by simp [new]
  indexed := by simp [new]
  nonempty := by simp [new]
  apart := by simp [new]

section

variable {access access' : WriteWaveAccess} {members : List ((Nat × Nat) × Bool)}
  {range : Nat × Nat} {positional : Bool}

/-- Only the last indexed range that begins before `range.2` could overlap. -/
theorem Knows.apart_indexed (h : Knows access members)
    (hla : ¬ (access.additional.lastLT range.2).any (fun entry => entry.2 > range.1) = true)
    {entry : Nat × Nat} (he : entry ∈ access.additional.entries) :
    entry.2 ≤ range.1 ∨ range.2 ≤ entry.1 := by
  cases hf : access.additional.lastLT range.2 with
  | none => exact .inr (SortedMap.lastLT_eq_none hf entry he)
  | some last =>
    obtain ⟨hm, hlt, hma⟩ := SortedMap.lastLT_eq_some hf
    have hs : last.2 ≤ range.1 := by simpa [hf] using hla
    rcases Nat.lt_or_ge entry.1 range.2 with hb | hbe
    · left
      have hle := hma entry he hb
      rcases Nat.lt_or_eq_of_le hle with hl | heq
      · have := h.apart entry he last hm hl
        have := h.nonempty last hm
        omega
      · rw [SortedMap.entry_unique he hm heq]
        exact hs
    · exact .inr hbe

/-- Nothing indexed begins where an admitted range does, so nothing is replaced. -/
theorem Knows.mem_insert (h : Knows access members)
    (hl : ¬ (access.additional.lastLT range.2).any (fun entry => entry.2 > range.1) = true)
    (hb : range.1 < range.2) (entry : Nat × Nat) :
    entry ∈ (access.additional.insert range.1 range.2).entries ↔
      entry = range ∨ entry ∈ access.additional.entries := by
  rw [SortedMap.mem_insert]
  constructor
  · rintro (hn | ⟨hold, -⟩)
    · exact .inl hn
    · exact .inr hold
  rintro (hn | hold)
  · exact .inl hn
  · have := h.apart_indexed hl hold
    have := h.nonempty entry hold
    exact .inr ⟨hold, by omega⟩

theorem Knows.insert (h : Knows access members) (ha : access.positional = true)
    (hb : range.1 < range.2)
    (hl : ¬ (access.additional.lastLT range.2).any (fun entry => entry.2 > range.1) = true) :
    Knows {access with additional := access.additional.insert range.1 range.2}
      (members ++ [(range, true)]) := by
  have hap : ∀ entry ∈ access.additional.entries,
      entry.2 ≤ range.1 ∨ range.2 ≤ entry.1 := fun entry => h.apart_indexed hl
  have hme := h.mem_insert hl hb
  refine ⟨?_, ?_, ?_, ?_⟩
  · intro _ m hm
    rcases List.mem_append.mp hm with hold | hn
    · exact h.positional ha m hold
    · rw [List.mem_singleton.mp hn]
  · intro _ m hm hmb
    rcases List.mem_append.mp hm with hold | hn
    · rcases h.indexed ha m hold hmb with hf | hi
      · exact .inl hf
      · exact .inr ((hme _).mpr (.inr hi))
    · rw [List.mem_singleton.mp hn]
      exact .inr ((hme _).mpr (.inl rfl))
  · intro entry he
    rcases (hme entry).mp he with rfl | hold
    · exact hb
    · exact h.nonempty entry hold
  intro entry he other ho hlt
  rcases (hme entry).mp he with rfl | hold <;>
    rcases (hme other).mp ho with rfl | hold'
  · exact absurd hlt (Nat.lt_irrefl _)
  · have := hap other hold'
    have := h.nonempty other hold'
    omega
  · have := hap entry hold
    omega
  · exact h.apart entry hold other hold' hlt

/-- Whoever is admitted, and everyone admitted before, is positional, and no
bytes are shared. -/
theorem admits_eq_some (h : Knows access members)
    (had : access.admits range positional = some access') :
    positional = true ∧ (∀ m ∈ members, m.2 = true ∧ Apart m.1 range) ∧
      Knows access' (members ++ [(range, positional)]) := by
  unfold admits at had
  split at had
  · cases had
  rename_i hp
  obtain ⟨ha, rfl⟩ : access.positional = true ∧ positional = true := by
    simpa using hp
  have hal := h.positional ha
  have hmems : ∀ m ∈ members ++ [(range, true)], m.2 = true := by
    intro m hm
    rcases List.mem_append.mp hm with hold | hn
    · exact hal m hold
    · rw [List.mem_singleton.mp hn]
  split at had
  · rename_i he
    obtain rfl := Option.some.inj had
    refine ⟨rfl, fun m hm => ⟨hal m hm, .inr (.inl he)⟩, fun _ => hmems, ?_, h.nonempty, h.apart⟩
    intro hpo m hm hb
    rcases List.mem_append.mp hm with hold | hn
    · exact h.indexed hpo m hold hb
    · rw [List.mem_singleton.mp hn] at hb
      exact absurd hb (Nat.not_lt.mpr he)
  rename_i hb
  split at had
  · cases had
  split at had
  · cases had
  rename_i hl
  obtain rfl := Option.some.inj had
  refine ⟨rfl, ?_, h.insert ha (Nat.not_le.mp hb) hl⟩
  intro m hm
  refine ⟨hal m hm, ?_⟩
  rcases Nat.lt_or_ge m.1.1 m.1.2 with hmb | hme
  · rcases h.indexed ha m hm hmb with hm | hm
    · rw [hm] at hmb ⊢
      unfold Apart
      omega
    · have := h.apart_indexed hl hm
      unfold Apart
      omega
  · exact .inl hme

end

end WriteWaveAccess

end Vnfs.Nfs
