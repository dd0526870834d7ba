import Vnfs.Planner.Adaptive

/-!
What the learned windows guarantee after any history of observations. A window
stays between one operation and its ceiling; a ceiling begins at the negotiated
count and only ever falls, so a size the server refused as too many operations is
not tried again, however many successes follow.
-/

namespace Vnfs

namespace AdaptiveBatchSizer

/-- A window of at least one operation, below its ceiling. -/
structure Valid (sizer : AdaptiveBatchSizer) : Prop where
  current_pos : 1 ≤ sizer.current
  current_le : sizer.current ≤ sizer.ceiling

theorem new_valid (conservativeStart negotiatedCapacity : Nat) :
    (new conservativeStart negotiatedCapacity).Valid := by
  constructor
  · simp only [new]
    omega
  · exact Nat.min_le_right ..

variable {sizer : AdaptiveBatchSizer}

theorem Valid.succeeded (h : sizer.Valid) (attempted : Nat) (moreWork : Bool) :
    (sizer.succeeded attempted moreWork).Valid := by
  have hp := h.current_pos
  have hle := h.current_le
  unfold AdaptiveBatchSizer.succeeded
  split
  · exact h
  dsimp only
  split
  · constructor
    · simp only [saturatingAdd, usizeMax]
      omega
    · exact Nat.min_le_right ..
  · exact ⟨hp, hle⟩

theorem Valid.resourceRejected (h : sizer.Valid) (attempted : Nat) :
    (sizer.resourceRejected attempted).Valid := by
  have hp := h.current_pos
  have hle := h.current_le
  constructor
  · simp only [AdaptiveBatchSizer.resourceRejected]
    omega
  · exact Nat.le_trans (Nat.min_le_left ..) hle

theorem Valid.opLimitRejected (h : sizer.Valid) (attempted : Nat) :
    (sizer.opLimitRejected attempted).Valid := by
  have hp := h.current_pos
  have hle := h.current_le
  unfold AdaptiveBatchSizer.opLimitRejected
  split
  · constructor
    · dsimp only
      omega
    · dsimp only
      omega
  · exact h

end AdaptiveBatchSizer

namespace AdaptiveCompoundLimits

section Record

variable {sizer : AdaptiveBatchSizer}

theorem record_valid (h : sizer.Valid) (sentOps : Nat) (status : Status) :
    (record sizer sentOps status).Valid := by
  unfold record
  split
  · exact h.succeeded sentOps true
  split
  · exact h.resourceRejected sentOps
  · split
    · exact h.opLimitRejected sentOps
    · exact h

theorem record_ceiling_le (sizer : AdaptiveBatchSizer) (sentOps : Nat) (status : Status) :
    (record sizer sentOps status).ceiling ≤ sizer.ceiling := by
  unfold record
  split
  · unfold AdaptiveBatchSizer.succeeded
    split
    · exact Nat.le_refl _
    · dsimp only
      split <;> exact Nat.le_refl _
  split
  · exact Nat.le_refl _
  split
  · unfold AdaptiveBatchSizer.opLimitRejected
    split
    · exact Nat.min_le_left ..
    · exact Nat.le_refl _
  · exact Nat.le_refl _

theorem record_tooManyOps_ceiling (sizer : AdaptiveBatchSizer) {sentOps : Nat}
    (hm : 1 < sentOps) : (record sizer sentOps .tooManyOps).ceiling < sentOps := by
  have hr : record sizer sentOps .tooManyOps = sizer.opLimitRejected sentOps := rfl
  rw [hr, AdaptiveBatchSizer.opLimitRejected, if_pos hm]
  dsimp only
  omega

theorem record_resource_current (sizer : AdaptiveBatchSizer) {sentOps : Nat}
    (hm : 1 < sentOps) : (record sizer sentOps .resource).current < sentOps := by
  have hr : record sizer sentOps .resource = sizer.resourceRejected sentOps := rfl
  rw [hr, AdaptiveBatchSizer.resourceRejected]
  dsimp only
  omega

end Record

/-- The window of a shape, as it is or as the first observation makes it. -/
def known (limits : AdaptiveCompoundLimits) (tag : Tag) : AdaptiveBatchSizer :=
  (limits.shapes tag).getD (.new (startingOps tag limits.negotiatedOps) limits.negotiatedOps)

/-- Every window is valid and below the negotiated count. -/
structure Valid (limits : AdaptiveCompoundLimits) : Prop where
  negotiated_pos : 1 ≤ limits.negotiatedOps
  known_valid : ∀ tag, (limits.known tag).Valid
  ceiling_le : ∀ tag, (limits.known tag).ceiling ≤ limits.negotiatedOps

variable {limits : AdaptiveCompoundLimits}

theorem observe_known (limits : AdaptiveCompoundLimits) (tag other : Tag) (sentOps : Nat)
    (status : Status) :
    (limits.observe tag sentOps status).known other =
      if other = tag then record (limits.known tag) sentOps status else limits.known other := by
  simp only [known, observe]
  split
  · rfl
  · rfl

theorem observe_limit_of_ne (limits : AdaptiveCompoundLimits) {tag other : Tag} (sentOps : Nat)
    (status : Status) (ho : other ≠ tag) :
    (limits.observe tag sentOps status).limit other = limits.limit other := by
  simp only [limit, observe, if_neg ho]

theorem startingOps_pos (tag : Tag) {negotiatedOps : Nat} (h : 1 ≤ negotiatedOps) :
    1 ≤ startingOps tag negotiatedOps := by
  unfold startingOps
  split <;> omega

theorem limit_le_current (h : 1 ≤ limits.negotiatedOps) (tag : Tag) :
    limits.limit tag ≤ (limits.known tag).current := by
  unfold limit known
  cases limits.shapes tag with
  | none =>
    simp only [Option.getD_none, AdaptiveBatchSizer.new]
    omega
  | some size => exact Nat.min_le_right ..

theorem Valid.limit_pos (h : limits.Valid) (tag : Tag) : 1 ≤ limits.limit tag := by
  have hst := startingOps_pos tag h.negotiated_pos
  have hn := h.negotiated_pos
  have hc := (h.known_valid tag).current_pos
  unfold limit
  unfold known at hc
  cases hsh : limits.shapes tag with
  | none =>
    dsimp only
    omega
  | some size =>
    rw [hsh, Option.getD_some] at hc
    simp only [AdaptiveBatchSizer.next, if_pos, usizeMax]
    omega

theorem Valid.limit_le_ceiling (h : limits.Valid) (tag : Tag) :
    limits.limit tag ≤ (limits.known tag).ceiling :=
  Nat.le_trans (limit_le_current h.negotiated_pos tag) (h.known_valid tag).current_le

theorem new_valid {negotiatedOps : Nat} (h : 1 ≤ negotiatedOps) : (new negotiatedOps).Valid where
  negotiated_pos := h
  known_valid tag := AdaptiveBatchSizer.new_valid _ _
  ceiling_le tag := by
    change max negotiatedOps 1 ≤ negotiatedOps
    omega

theorem Valid.observe (h : limits.Valid) (tag : Tag) (sentOps : Nat) (status : Status) :
    (limits.observe tag sentOps status).Valid where
  negotiated_pos := h.negotiated_pos
  known_valid other := by
    rw [observe_known]
    split
    · exact record_valid (h.known_valid tag) sentOps status
    · exact h.known_valid other
  ceiling_le other := by
    rw [observe_known]
    split
    · exact Nat.le_trans (record_ceiling_le ..) (h.ceiling_le tag)
    · exact h.ceiling_le other

/-- A compound of a shape, its size, and the status of the reply. -/
structure Observation where
  tag : Tag
  sentOps : Nat
  status : Status

def observeAll (limits : AdaptiveCompoundLimits) (history : List Observation) :
    AdaptiveCompoundLimits :=
  history.foldl (fun limits seen => limits.observe seen.tag seen.sentOps seen.status) limits

theorem Valid.observeAll (h : limits.Valid) (history : List Observation) :
    (limits.observeAll history).Valid := by
  induction history generalizing limits with
  | nil => exact h
  | cons seen rest ih => exact ih (h.observe seen.tag seen.sentOps seen.status)

theorem observeAll_ceiling_le (limits : AdaptiveCompoundLimits) (history : List Observation)
    (tag : Tag) : ((limits.observeAll history).known tag).ceiling ≤ (limits.known tag).ceiling := by
  induction history generalizing limits with
  | nil => exact Nat.le_refl _
  | cons seen rest ih =>
    refine Nat.le_trans (ih (limits.observe seen.tag seen.sentOps seen.status)) ?_
    rw [observe_known]
    split
    · rename_i hs
      rw [hs]
      exact record_ceiling_le ..
    · exact Nat.le_refl _

/-- A refused size stays above the ceiling, whatever is observed behind it. -/
theorem observeAll_ceiling_lt (limits : AdaptiveCompoundLimits) {history : List Observation}
    {tag : Tag} {sentOps : Nat} (hm : 1 < sentOps) (hre : ⟨tag, sentOps, .tooManyOps⟩ ∈ history) :
    ((limits.observeAll history).known tag).ceiling < sentOps := by
  induction history generalizing limits with
  | nil => cases hre
  | cons seen rest ih =>
    rcases List.mem_cons.mp hre with rfl | hr
    · refine Nat.lt_of_le_of_lt (observeAll_ceiling_le _ rest tag) ?_
      rw [observe_known, if_pos rfl]
      exact record_tooManyOps_ceiling _ hm
    · exact ih (limits.observe seen.tag seen.sentOps seen.status) hr

/-- The limits of a session after any history of observations: they stay between
one operation and the negotiated count, a size refused as too many operations is
never reached again, a resource rejection makes the next compound smaller, and
the shapes do not affect each other. -/
theorem observeAll_limits {negotiatedOps : Nat} (h : 1 ≤ negotiatedOps)
    (history : List Observation) :
    let limits := (new negotiatedOps).observeAll history
    (∀ tag, 1 ≤ limits.limit tag ∧ limits.limit tag ≤ negotiatedOps) ∧
    (∀ tag sentOps, 1 < sentOps → ⟨tag, sentOps, .tooManyOps⟩ ∈ history →
      limits.limit tag < sentOps) ∧
    (∀ tag sentOps, 1 < sentOps →
      (limits.observe tag sentOps .resource).limit tag < sentOps ∧
      (sentOps ≤ limits.limit tag →
        (limits.observe tag sentOps .resource).limit tag < limits.limit tag)) ∧
    ∀ tag other sentOps status, other ≠ tag →
      (limits.observe tag sentOps status).limit other = limits.limit other := by
  intro limits
  have hvalid : limits.Valid := (new_valid h).observeAll history
  have hceiling (tag : Tag) : (limits.known tag).ceiling ≤ negotiatedOps := by
    refine Nat.le_trans (observeAll_ceiling_le (new negotiatedOps) history tag) ?_
    exact (new_valid h).ceiling_le tag
  have hsmaller (tag : Tag) {sentOps : Nat} (hmany : 1 < sentOps) :
      (limits.observe tag sentOps .resource).limit tag < sentOps := by
    have hafter := (hvalid.observe tag sentOps .resource).negotiated_pos
    refine Nat.lt_of_le_of_lt (limit_le_current hafter tag) ?_
    rw [observe_known, if_pos rfl]
    exact record_resource_current _ hmany
  refine ⟨?_, ?_, ?_, ?_⟩
  · intro tag
    exact ⟨hvalid.limit_pos tag, Nat.le_trans (hvalid.limit_le_ceiling tag) (hceiling tag)⟩
  · intro tag sentOps hmany hrejected
    exact Nat.lt_of_le_of_lt (hvalid.limit_le_ceiling tag)
      (observeAll_ceiling_lt (new negotiatedOps) hmany hrejected)
  · intro tag sentOps hmany
    exact ⟨hsmaller tag hmany, Nat.lt_of_lt_of_le (hsmaller tag hmany)⟩
  · intro tag other sentOps status hother
    exact limits.observe_limit_of_ne sentOps status hother

/-- A session of 32 operations that refused a compound of 20 REMOVEs. -/
theorem observeAll_limits_refused :
    1 ≤ ((new 32).observeAll [⟨"removev", 20, .tooManyOps⟩]).limit "removev" ∧
      ((new 32).observeAll [⟨"removev", 20, .tooManyOps⟩]).limit "removev" < 20 :=
  ⟨((observeAll_limits (by decide) [⟨"removev", 20, .tooManyOps⟩]).1 "removev").1,
    (observeAll_limits (by decide) [⟨"removev", 20, .tooManyOps⟩]).2.1 "removev" 20 (by decide)
      (List.mem_singleton.mpr rfl)⟩

/-- What a refused compound of as many operations as the window makes of it. -/
def refused (sizer : AdaptiveBatchSizer) (tooMany : Bool) : AdaptiveBatchSizer :=
  record sizer sizer.current (if tooMany then .tooManyOps else .resource)

theorem refused_current (sizer : AdaptiveBatchSizer) (tooMany : Bool) :
    (refused sizer tooMany).current ≤ max 1 (sizer.current / 2) := by
  cases tooMany with
  | false =>
    change min sizer.current (max (sizer.current / 2) 1) ≤ _
    omega
  | true =>
    change (sizer.opLimitRejected sizer.current).current ≤ _
    unfold AdaptiveBatchSizer.opLimitRejected
    split
    · dsimp only
      omega
    · omega

/-- Every refusal halves the window, down to one operation, whichever of the two statuses the
server refuses with. -/
theorem foldl_refused_current (sizer : AdaptiveBatchSizer) (refusals : List Bool) :
    (refusals.foldl refused sizer).current ≤ max 1 (sizer.current / 2 ^ refusals.length) := by
  induction refusals using List.reverseRecOn with
  | nil => simp
  | append_singleton refusals tooMany ih =>
    have hs := refused_current (refusals.foldl refused sizer) tooMany
    rw [List.foldl_concat, List.length_append, pow_add, ← Nat.div_div_eq_div_mul]
    simp only [List.length_singleton, pow_one]
    omega

end AdaptiveCompoundLimits

end Vnfs
