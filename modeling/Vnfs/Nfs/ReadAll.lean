import Vnfs.Core
import Vnfs.Lib.Loop

/-!
`vread_all_with_options_impl`: whole files under one budget of bytes. Every round
reads a window of each file of a cohort; a file leaves when its READ reports the
end. Once the budget is used up a round probes a single byte of a single file, so
that files which fit exactly are told from files that do not.

The vector read below is a parameter: it answers every request of a round with
some bytes of the file at that offset, as many as it likes up to the window. The
wrapper that repeats the call after a reconnect is left out.
-/

namespace Vnfs.Nfs.ReadAll

open Function
open List hiding max min

/-- The sizes the client negotiated: `read_per_op_bytes`, `max_response_bytes` and
`read_compound_bytes`. -/
structure ReadLimits where
  perOpBytes : Nat
  maxResponseBytes : Nat
  compoundBytes : Nat

def ReadLimits.compoundBudget (limits : ReadLimits) : Nat :=
  if limits.maxResponseBytes > 0 then limits.compoundBytes - 128 else limits.perOpBytes * 4

def ReadLimits.maxWindow (limits : ReadLimits) : Nat :=
  limits.perOpBytes * max (limits.compoundBudget / limits.perOpBytes) 1

/-- A `usize` has 64 bits here. -/
structure ReadAllOptions where
  maxTotalBytes : Nat
  le_max : maxTotalBytes ≤ u64Max

structure ReadOp (F : Type) where
  file : F
  offset : Nat
  length : Nat

structure ReadResult where
  offset : Nat
  data : Bytes
  eof : Bool

def efbig : Nat := 27

def transport (index : Option Nat) (message : String) : VfError :=
  .transportWithKind index .other message

def remapActiveError {n : Nat} (error : VfError) (active : List (Fin n)) : VfError :=
  match error.index.bind (active[·]?) with
  | some original => error.withIndex original
  | none => error

def boundedReadAllvBatch {α : Type} (active : List α) (remaining compoundBudget maxWindow : Nat) :
    List α × Nat :=
  let cohortLen := if remaining = 0 then 1 else min active.length remaining
  let cohort := active.take cohortLen
  if remaining = 0 then (cohort, 1)
  else
    let protocolWindow := max (min (compoundBudget / cohortLen - 128) maxWindow) 1
    let allocationWindow := max (remaining / cohortLen) 1
    (cohort, min protocolWindow allocationWindow)

/-- What was read of every file. -/
structure Held (n : Nat) where
  out : Fin n → Bytes
  offsets : Fin n → Nat
  total : Nat

variable {F : Type} {n : Nat}

def mergeResult (maxTotalBytes : Nat) (held : Held n) (result : ReadResult) (original : Fin n) :
    VfResult (Held n) :=
  if result.data.isEmpty ∧ result.eof = false then
    .error (transport (some original) "NFS READ made no progress without reporting EOF")
  else if held.total + result.data.length > maxTotalBytes then
    .error (.errno (some original) efbig)
  else
    match checkedAdd result.offset result.data.length with
    | none => .error (.errno (some original) VfError.eoverflow)
    | some offset =>
      .ok {
        out := update held.out original (held.out original ++ result.data)
        offsets := update held.offsets original offset
        total := held.total + result.data.length}

/-- The loop of `merge_read_allv_round`; it returns the files that go on. -/
def mergeResults (maxTotalBytes : Nat) :
    List (ReadResult × Fin n) → Held n → VfResult (Held n × List (Fin n))
  | [], held => .ok (held, [])
  | (result, original) :: rest, held =>
    match mergeResult maxTotalBytes held result original with
    | .error e => .error e
    | .ok held =>
      match mergeResults maxTotalBytes rest held with
      | .error e => .error e
      | .ok (held, next) => .ok (held, if result.eof then next else original :: next)

def mergeReadAllvRound (maxTotalBytes : Nat) (active : List (Fin n)) (results : List ReadResult)
    (held : Held n) : VfResult (Held n × List (Fin n)) :=
  if results.length ≠ active.length then
    .error (transport none ("NFS readv returned " ++ toString results.length ++ " results for " ++
      toString active.length ++ " active files"))
  else mergeResults maxTotalBytes (results.zip active) held

structure ReadAllState (n : Nat) where
  held : Held n
  active : List (Fin n)
  /-- For every round the bytes held in front of it and those it asked for. -/
  rounds : List (Nat × Nat)

structure ReadAllDone (n : Nat) where
  result : VfResult (Fin n → Bytes)
  rounds : List (Nat × Nat)

/-- The vector read: what the n-th one of the call returns. -/
abbrev VectorRead (F : Type) := Nat → List (ReadOp F) → VfResult (List ReadResult)

section

variable (vread : VectorRead F) (limits : ReadLimits) (options : ReadAllOptions)
  (files : Fin n → F)

namespace ReadAllState

def cohort (st : ReadAllState n) : List (Fin n) × Nat :=
  boundedReadAllvBatch st.active (options.maxTotalBytes - st.held.total) limits.compoundBudget
    limits.maxWindow

def reads (st : ReadAllState n) : List (ReadOp F) :=
  (st.cohort limits options).1.map fun i =>
    ⟨files i, st.held.offsets i, (st.cohort limits options).2⟩

end ReadAllState

def readAllStep (st : ReadAllState n) : ReadAllState n ⊕ ReadAllDone n :=
  if st.active.isEmpty then .inr ⟨.ok st.held.out, st.rounds⟩
  else
    let batchActive := (st.cohort limits options).1
    let reads := st.reads limits options files
    let rounds := st.rounds ++ [(st.held.total, (reads.map ReadOp.length).sum)]
    match vread st.rounds.length reads with
    | .error e => .inr ⟨.error (remapActiveError e batchActive), rounds⟩
    | .ok results =>
      match mergeReadAllvRound options.maxTotalBytes batchActive results st.held with
      | .error e => .inr ⟨.error e, rounds⟩
      | .ok (held, next) => .inl ⟨held, st.active.drop batchActive.length ++ next, rounds⟩

variable {α : Type} {maxTotalBytes : Nat} {held held' : Held n} {st st' : ReadAllState n}

/-- A cohort and its window are not empty, and the windows fit the budget but for
one byte. -/
theorem boundedReadAllvBatch_bounds {active : List α} (hactive : active ≠ [])
    (remaining compoundBudget maxWindow : Nat) :
    0 < (boundedReadAllvBatch active remaining compoundBudget maxWindow).1.length ∧
      0 < (boundedReadAllvBatch active remaining compoundBudget maxWindow).2 ∧
      (boundedReadAllvBatch active remaining compoundBudget maxWindow).1.length *
          (boundedReadAllvBatch active remaining compoundBudget maxWindow).2 ≤
        max remaining 1 := by
  have hpos := length_pos_iff.mpr hactive
  unfold boundedReadAllvBatch
  by_cases hzero : remaining = 0
  · simp only [if_pos hzero, length_take]
    omega
  simp only [if_neg hzero, length_take]
  have hlength : min (min active.length remaining) active.length = min active.length remaining := by
    omega
  rw [hlength]
  refine ⟨by omega, by omega, ?_⟩
  have hshare : 1 ≤ remaining / min active.length remaining :=
    (Nat.one_le_div_iff (by omega)).mpr (Nat.min_le_right _ _)
  calc min active.length remaining * min _ (max (remaining / min active.length remaining) 1)
      ≤ min active.length remaining * (remaining / min active.length remaining) :=
        Nat.mul_le_mul_left _ (by omega)
    _ ≤ remaining := Nat.mul_div_le _ _
    _ ≤ max remaining 1 := Nat.le_max_left _ _

private theorem boundedReadAllvBatch_take (active : List α)
    (remaining compoundBudget maxWindow : Nat) :
    ∃ count, (boundedReadAllvBatch active remaining compoundBudget maxWindow).1 =
      active.take count := by
  unfold boundedReadAllvBatch
  split <;> exact ⟨_, rfl⟩

/-- A result is merged only if it makes progress within the budget. -/
theorem mergeResult_ok {result : ReadResult} {original : Fin n}
    (h : mergeResult maxTotalBytes held result original = .ok held') :
    (result.data ≠ [] ∨ result.eof = true) ∧
      held.total + result.data.length ≤ maxTotalBytes ∧ held' = {
        out := update held.out original (held.out original ++ result.data)
        offsets := update held.offsets original (result.offset + result.data.length)
        total := held.total + result.data.length} := by
  unfold mergeResult at h
  split at h
  · cases h
  rename_i hp
  split at h
  · cases h
  rename_i hf
  split at h
  · cases h
  rename_i offset ho
  cases h
  rw [checkedAdd_eq_some ho]
  refine ⟨?_, Nat.le_of_not_lt hf, rfl⟩
  by_contra hn
  push Not at hn
  exact hp ⟨by simp [hn.1], by simpa using hn.2⟩

/-- Every file that goes on has added a byte, and the budget holds behind a round. -/
theorem mergeResults_total {pairs : List (ReadResult × Fin n)} {next : List (Fin n)}
    (h : mergeResults maxTotalBytes pairs held = .ok (held', next)) :
    held.total + next.length ≤ held'.total ∧ next.length ≤ pairs.length ∧
      (pairs ≠ [] ∨ held.total ≤ maxTotalBytes → held'.total ≤ maxTotalBytes) := by
  induction pairs generalizing held held' next with
  | nil =>
    cases h
    simp
  | cons pair rest ih =>
    rw [mergeResults] at h
    split at h
    · cases h
    rename_i held₁ hfirst
    split at h
    · cases h
    rename_i held₂ next₂ hr
    cases h
    obtain ⟨hp, hf, rfl⟩ := mergeResult_ok hfirst
    obtain ⟨htotal, hl, hb⟩ := ih hr
    dsimp only at htotal hb
    have hs : pair.1.eof = false → 0 < pair.1.data.length := by
      intro he
      rcases hp with hd | ht
      · exact length_pos_iff.mpr hd
      · simp [he] at ht
    refine ⟨?_, ?_, fun _ => hb (.inr hf)⟩
    · split
      · omega
      rename_i he
      have := hs (by simpa using he)
      rw [length_cons]
      omega
    split
    · rw [length_cons]
      omega
    · rw [length_cons, length_cons]
      omega

private theorem mergeReadAllvRound_ok {active : List (Fin n)} {results : List ReadResult}
    {next : List (Fin n)}
    (h : mergeReadAllvRound maxTotalBytes active results held = .ok (held', next)) :
    results.length = active.length ∧
      mergeResults maxTotalBytes (results.zip active) held = .ok (held', next) := by
  unfold mergeReadAllvRound at h
  split at h
  · cases h
  · rename_i hl
    exact ⟨not_not.mp hl, h⟩

variable {vread limits options files}

/-- One round that goes on: what it asked for, what it merged and who is left. -/
theorem readAllStep_inl (h : readAllStep vread limits options files st = .inl st') :
    st.active ≠ [] ∧ ∃ results,
      vread st.rounds.length (st.reads limits options files) = .ok results ∧
      results.length = (st.cohort limits options).1.length ∧ ∃ next,
        mergeResults options.maxTotalBytes (results.zip (st.cohort limits options).1) st.held =
          .ok (st'.held, next) ∧
        st'.active = st.active.drop (st.cohort limits options).1.length ++ next ∧
        st'.rounds = st.rounds ++
          [(st.held.total, ((st.reads limits options files).map ReadOp.length).sum)] := by
  unfold readAllStep at h
  split at h
  · cases h
  rename_i ha
  dsimp only at h
  split at h
  · cases h
  rename_i results hr
  split at h
  · cases h
  rename_i held next hm
  cases h
  obtain ⟨hl, hm⟩ := mergeReadAllvRound_ok hm
  exact ⟨by simpa using ha, results, hr, hl, next, hm, rfl, rfl⟩

/-- One round ends a file or takes bytes of the budget. -/
theorem readAllStep_decreases (h : readAllStep vread limits options files st = .inl st') :
    options.maxTotalBytes - st'.held.total + st'.active.length <
      options.maxTotalBytes - st.held.total + st.active.length := by
  obtain ⟨ha, results, -, hl, next, hm, hn, -⟩ := readAllStep_inl h
  obtain ⟨ht, hle, hb⟩ := mergeResults_total hm
  have hp := (boundedReadAllvBatch_bounds ha (options.maxTotalBytes - st.held.total)
    limits.compoundBudget limits.maxWindow).1
  change 0 < (st.cohort limits options).1.length at hp
  have hcohort : (st.cohort limits options).1.length ≤ st.active.length := by
    obtain ⟨count, hc⟩ := boundedReadAllvBatch_take st.active
      (options.maxTotalBytes - st.held.total) limits.compoundBudget limits.maxWindow
    rw [ReadAllState.cohort, hc, length_take]
    omega
  have hz : (results.zip (st.cohort limits options).1).length =
      (st.cohort limits options).1.length := by
    rw [length_zip, hl, Nat.min_self]
  have hf := hb (.inl (ne_nil_of_length_pos (hz ▸ hp)))
  rw [hn, length_append, length_drop]
  omega

variable (vread limits options files) in
/-- The loop ends whatever the vector read returns: a file leaves, or the budget
shrinks. -/
def readAllBody : Loop.Body (ReadAllState n) (ReadAllDone n) Nat where
  step := readAllStep vread limits options files
  variant st := options.maxTotalBytes - st.held.total + st.active.length
  decreases _ _ h := readAllStep_decreases h

variable (vread limits options files) in
def vreadAllWithOptionsImpl : ReadAllDone n :=
  Loop.run (readAllBody vread limits options files)
    ⟨⟨fun _ => [], fun _ => 0, 0⟩, finRange n, []⟩

end

section

/-- The answer to one READ of an unchanging file: some bytes at the offset, at
most as many as asked for; none only at the end of the file, and the end is
reported only where it is. -/
structure Answers (content : Bytes) (op : ReadOp F) (result : ReadResult) : Prop where
  offset_eq : result.offset = op.offset
  data_eq : result.data = (content.drop op.offset).take result.data.length
  length_le : result.data.length ≤ op.length
  progress : 0 < op.length → result.data = [] → result.eof = true
  eof_at_end : result.eof = true → content.length ≤ op.offset + result.data.length

/-- A server of files that do not change, whatever schedule of short READs it
follows. -/
def Serves (contents : F → Bytes) (vread : VectorRead F) : Prop :=
  ∀ round reads, ∃ results, vread round reads = .ok results ∧
    Forall₂ (fun op result => Answers (contents op.file) op result) reads results

variable {contents : F → Bytes} {files : Fin n → F} {maxTotalBytes : Nat}

def totalSize (contents : F → Bytes) (files : Fin n → F) : Nat :=
  ∑ i, (contents (files i)).length

structure Held.Partial (contents : F → Bytes) (files : Fin n → F) (held : Held n) : Prop where
  out_eq : ∀ i, held.out i = (contents (files i)).take (held.offsets i)
  offset_le : ∀ i, held.offsets i ≤ (contents (files i)).length
  total_eq : held.total = ∑ i, held.offsets i

variable {held : Held n} {i : Fin n} {length : Nat} {result : ReadResult}
  {results : List ReadResult}

theorem Held.Partial.total_le (h : held.Partial contents files) :
    held.total ≤ totalSize contents files := by
  rw [h.total_eq]
  exact Finset.sum_le_sum fun i _ => h.offset_le i

private theorem sum_update_add (f : Fin n → Nat) (i : Fin n) (k : Nat) :
    ∑ j, update f i (f i + k) j = (∑ j, f j) + k := by
  rw [Finset.sum_update_of_mem (Finset.mem_univ i)]
  have hs := Finset.add_sum_erase Finset.univ f (Finset.mem_univ i)
  rw [← Finset.erase_eq]
  omega

/-- An answer at the offset of its file makes the held part longer. -/
theorem Held.Partial.extend (h : held.Partial contents files)
    (hanswer : Answers (contents (files i)) ⟨files i, held.offsets i, length⟩ result) :
    Held.Partial contents files {
      out := update held.out i (held.out i ++ result.data)
      offsets := update held.offsets i (result.offset + result.data.length)
      total := held.total + result.data.length} := by
  have hoffset : result.offset = held.offsets i := hanswer.offset_eq
  have hdata := hanswer.data_eq
  dsimp only at hdata
  have hle : held.offsets i + result.data.length ≤ (contents (files i)).length := by
    have hlength := congrArg List.length hdata
    rw [length_take, length_drop] at hlength
    have := h.offset_le i
    omega
  rw [hoffset]
  refine ⟨fun j => ?_, fun j => ?_, ?_⟩
  · by_cases hj : j = i
    · subst hj
      dsimp only
      rw [update_self, update_self, h.out_eq, take_add, ← hdata]
    · dsimp only
      rw [update_of_ne hj, update_of_ne hj, h.out_eq]
  · by_cases hj : j = i
    · subst hj
      dsimp only
      rw [update_self]
      exact hle
    · dsimp only
      rw [update_of_ne hj]
      exact h.offset_le j
  · dsimp only
    rw [sum_update_add, h.total_eq]

/-- The files are larger than the budget, and one of them is charged with it. -/
def TooBig (contents : F → Bytes) (files : Fin n → F) (maxTotalBytes : Nat) (error : VfError) :
    Prop :=
  maxTotalBytes < totalSize contents files ∧
    ∃ i : Fin n, error = .errno (some i.val) efbig

/-- The only error of a serving server is the budget's. -/
theorem mergeResult_error (h : held.Partial contents files) (hmax : maxTotalBytes ≤ u64Max)
    (hlength : 0 < length)
    (hanswer : Answers (contents (files i)) ⟨files i, held.offsets i, length⟩ result)
    {error : VfError} (herror : mergeResult maxTotalBytes held result i = .error error) :
    TooBig contents files maxTotalBytes error := by
  unfold mergeResult at herror
  split at herror
  · rename_i hstuck
    have hend := hanswer.progress hlength (List.isEmpty_iff.mp hstuck.1)
    simp [hend] at hstuck
  split at herror
  · rename_i hover
    obtain rfl := Except.error.inj herror
    have hle := (h.extend hanswer).total_le
    dsimp only at hle
    exact ⟨by omega, i, rfl⟩
  split at herror
  · rename_i hoverflow
    have hoffset : held.offsets i ≤ held.total := by
      rw [h.total_eq]
      exact Finset.single_le_sum (fun j _ => Nat.zero_le _) (Finset.mem_univ i)
    have hstart : result.offset = held.offsets i := hanswer.offset_eq
    unfold checkedAdd at hoverflow
    rw [if_pos (by omega)] at hoverflow
    cases hoverflow
  · cases herror

structure Merged (contents : F → Bytes) (files : Fin n → F) (asked : List (Fin n))
    (held held' : Held n) (next : List (Fin n)) : Prop where
  holds : held'.Partial contents files
  next_sublist : next.Sublist asked
  ended : ∀ i ∈ asked, i ∉ next → held'.offsets i = (contents (files i)).length
  others : ∀ i, i ∉ asked → held'.offsets i = held.offsets i

/-- A round over distinct files, answered as asked. -/
theorem mergeResults_answers {pairs : List (ReadResult × Fin n)} (h : held.Partial contents files)
    (hmax : maxTotalBytes ≤ u64Max) (hlength : 0 < length) (hnodup : (pairs.map Prod.snd).Nodup)
    (hanswers : ∀ pair ∈ pairs, Answers (contents (files pair.2))
      ⟨files pair.2, held.offsets pair.2, length⟩ pair.1) :
    match mergeResults maxTotalBytes pairs held with
    | .ok (held', next) => Merged contents files (pairs.map Prod.snd) held held' next
    | .error error => TooBig contents files maxTotalBytes error := by
  induction pairs generalizing held with
  | nil => exact ⟨h, Sublist.refl _, by simp, fun _ _ => rfl⟩
  | cons pair rest ih =>
    obtain ⟨result, i⟩ := pair
    rw [map_cons, nodup_cons] at hnodup
    have hfirstAnswer := hanswers (result, i) mem_cons_self
    rw [mergeResults]
    cases hmerge : mergeResult maxTotalBytes held result i with
    | error error => exact mergeResult_error h hmax hlength hfirstAnswer hmerge
    | ok held₁ =>
      obtain ⟨-, -, rfl⟩ := mergeResult_ok hmerge
      have hother {j : Fin n} (hj : j ∈ rest.map Prod.snd) : j ≠ i := fun heq => hnodup.1 (heq ▸ hj)
      -- the files behind this one are still where they were asked for
      have hrest : ∀ pair ∈ rest, Answers (contents (files pair.2)) ⟨files pair.2,
          update held.offsets i (result.offset + result.data.length) pair.2,
          length⟩ pair.1 := by
        intro pair hp
        rw [update_of_ne (hother (mem_map_of_mem hp))]
        exact hanswers pair (mem_cons_of_mem _ hp)
      have hlater := ih (h.extend hfirstAnswer) hnodup.2 hrest
      dsimp only
      cases hmerged : mergeResults maxTotalBytes rest _ with
      | error error =>
        rw [hmerged] at hlater
        exact hlater
      | ok merged =>
        obtain ⟨held', next⟩ := merged
        rw [hmerged] at hlater
        have hstart : result.offset = held.offsets i := hfirstAnswer.offset_eq
        have hh : held'.offsets i = held.offsets i + result.data.length := by
          rw [hlater.others i hnodup.1, ← hstart]
          exact update_self i _ held.offsets
        refine ⟨hlater.holds, ?_, fun j hj hn => ?_, fun j hj => ?_⟩
        · split
          · exact hlater.next_sublist.cons i
          · exact hlater.next_sublist.cons_cons i
        · rcases mem_cons.mp hj with rfl | hl
          · have he : result.eof = true := by
              by_contra ho
              rw [if_neg ho] at hn
              exact hn mem_cons_self
            have hend := hfirstAnswer.eof_at_end he
            have hle := hlater.holds.offset_le j
            dsimp only at hend
            omega
          refine hlater.ended j hl fun hmember => hn ?_
          split
          · exact hmember
          · exact mem_cons_of_mem _ hmember
        · rw [map_cons, mem_cons, not_or] at hj
          rw [hlater.others j hj.2]
          exact update_of_ne hj.1 _ _

/-- The invariant of the loop under a server of unchanging files. -/
structure Reading (contents : F → Bytes) (files : Fin n → F) (st : ReadAllState n) : Prop where
  holds : st.held.Partial contents files
  active_nodup : st.active.Nodup
  ended : ∀ i, i ∉ st.active → st.held.offsets i = (contents (files i)).length

/-- The whole files, or the error of a budget that is too small. -/
def Outcome (contents : F → Bytes) (files : Fin n → F) (maxTotalBytes : Nat)
    (result : VfResult (Fin n → Bytes)) : Prop :=
  match result with
  | .ok out => out = (fun i => contents (files i)) ∧ totalSize contents files ≤ maxTotalBytes
  | .error error => TooBig contents files maxTotalBytes error

variable {vread : VectorRead F} {limits : ReadLimits} {options : ReadAllOptions}
  {st st' : ReadAllState n}

private theorem answers_zip (hserves : Serves contents vread)
    (hread : vread st.rounds.length (st.reads limits options files) = .ok results) :
    results.length = (st.cohort limits options).1.length ∧
      ∀ pair ∈ results.zip (st.cohort limits options).1, Answers (contents (files pair.2))
        ⟨files pair.2, st.held.offsets pair.2, (st.cohort limits options).2⟩ pair.1 := by
  obtain ⟨results', hr', hanswers⟩ := hserves st.rounds.length (st.reads limits options files)
  obtain rfl : results = results' := Except.ok.inj (hread.symm.trans hr')
  have hlength := hanswers.length_eq
  rw [ReadAllState.reads, length_map] at hlength
  refine ⟨hlength.symm, fun pair hp => ?_⟩
  obtain ⟨k, hk, rfl⟩ := mem_iff_getElem.mp hp
  rw [length_zip] at hk
  have hg := (forall₂_iff_get.mp hanswers).2 k (by rw [hanswers.length_eq]; omega) (by omega)
  simpa [ReadAllState.reads] using hg

private theorem cohort_append (limits : ReadLimits) (options : ReadAllOptions)
    (st : ReadAllState n) :
    (st.cohort limits options).1 ++ st.active.drop (st.cohort limits options).1.length =
      st.active := by
  obtain ⟨count, hc⟩ := boundedReadAllvBatch_take st.active
    (options.maxTotalBytes - st.held.total) limits.compoundBudget limits.maxWindow
  rw [ReadAllState.cohort, hc, length_take]
  rcases Nat.le_total count st.active.length with hle | hle
  · rw [Nat.min_eq_left hle, take_append_drop]
  · rw [Nat.min_eq_right hle, take_of_length_le hle, drop_length, append_nil]

/-- What one round merges, from the invariant. -/
theorem Reading.merged (h : Reading contents files st) (hserves : Serves contents vread)
    (hactive : st.active ≠ [])
    (hread : vread st.rounds.length (st.reads limits options files) = .ok results) :
    match mergeResults options.maxTotalBytes (results.zip (st.cohort limits options).1) st.held with
    | .ok (held', next) => Merged contents files (st.cohort limits options).1 st.held held' next
    | .error error => TooBig contents files options.maxTotalBytes error := by
  obtain ⟨hlength, hanswers⟩ := answers_zip hserves hread
  have hasked : (results.zip (st.cohort limits options).1).map Prod.snd =
      (st.cohort limits options).1 := map_snd_zip (Nat.le_of_eq hlength.symm)
  have hdistinct : (st.cohort limits options).1.Nodup := by
    have hnodup := h.active_nodup
    rw [← cohort_append limits options st] at hnodup
    exact hnodup.of_append_left
  have hwindow : 0 < (st.cohort limits options).2 := (boundedReadAllvBatch_bounds hactive _ _ _).2.1
  have hmerge := mergeResults_answers h.holds options.le_max hwindow (hasked.symm ▸ hdistinct)
    hanswers
  rwa [hasked] at hmerge

/-- No round holds and asks for more than one byte over the budget. -/
def Budgeted (maxTotalBytes : Nat) (rounds : List (Nat × Nat)) : Prop :=
  ∀ round ∈ rounds, round.1 + round.2 ≤ maxTotalBytes + 1

variable (files limits) in
private theorem budgeted_round (hactive : st.active ≠ [])
    (htotal : st.held.total ≤ options.maxTotalBytes)
    (hrounds : Budgeted options.maxTotalBytes st.rounds) :
    Budgeted options.maxTotalBytes (st.rounds ++
      [(st.held.total, ((st.reads limits options files).map ReadOp.length).sum)]) := by
  have hbound := (boundedReadAllvBatch_bounds hactive (options.maxTotalBytes - st.held.total)
    limits.compoundBudget limits.maxWindow).2.2
  have hsum : ((st.reads limits options files).map ReadOp.length).sum =
      (st.cohort limits options).1.length * (st.cohort limits options).2 := by
    simp [ReadAllState.reads, Function.comp_def]
  intro round hmember
  rcases mem_append.mp hmember with hold | hnew
  · exact hrounds round hold
  obtain rfl := mem_singleton.mp hnew
  change (st.cohort limits options).1.length * (st.cohort limits options).2 ≤ _ at hbound
  omega

/-- The files that go on behind a round are distinct, and all others have ended. -/
theorem Reading.next (h : Reading contents files st) {held' : Held n} {next : List (Fin n)}
    (hmerged : Merged contents files (st.cohort limits options).1 st.held held' next)
    (rounds : List (Nat × Nat)) :
    Reading contents files
      ⟨held', st.active.drop (st.cohort limits options).1.length ++ next, rounds⟩ := by
  have hnodup := h.active_nodup
  rw [← cohort_append limits options st] at hnodup
  obtain ⟨-, hrest, hdisjoint⟩ := nodup_append'.mp hnodup
  refine ⟨hmerged.holds, ?_, fun i hi => ?_⟩
  · refine nodup_append'.mpr ⟨hrest, ?_, fun i hi hn => ?_⟩
    · exact hmerged.next_sublist.nodup hnodup.of_append_left
    · exact hdisjoint (hmerged.next_sublist.subset hn) hi
  rw [mem_append, not_or] at hi
  by_cases hasked : i ∈ (st.cohort limits options).1
  · exact hmerged.ended i hasked hi.2
  have hactive : i ∉ st.active := by
    rw [← cohort_append limits options st, mem_append, not_or]
    exact ⟨hasked, hi.1⟩
  exact (hmerged.others i hasked).trans (h.ended i hactive)

/-- When no file is left, all of them are held. -/
theorem Reading.finished (h : Reading contents files st) (hactive : st.active = [])
    (htotal : st.held.total ≤ maxTotalBytes) :
    Outcome contents files maxTotalBytes (.ok st.held.out) := by
  have hended (i : Fin n) : st.held.offsets i = (contents (files i)).length :=
    h.ended i (by simp [hactive])
  refine ⟨funext fun i => ?_, ?_⟩
  · rw [h.holds.out_eq, hended, take_length]
  · rw [h.holds.total_eq] at htotal
    simpa only [totalSize, hended] using htotal

/-- One round keeps the invariant. -/
theorem Reading.step_inl (h : Reading contents files st) (hserves : Serves contents vread)
    (htotal : st.held.total ≤ options.maxTotalBytes)
    (hstep : readAllStep vread limits options files st = .inl st') :
    Reading contents files st' ∧ st'.held.total ≤ options.maxTotalBytes := by
  obtain ⟨hne, results, hread, -, next, hmerge, hnext, -⟩ := readAllStep_inl hstep
  have hmerged := h.merged hserves hne hread
  rw [hmerge] at hmerged
  have hreading := h.next hmerged st'.rounds
  rw [← hnext] at hreading
  exact ⟨hreading, (mergeResults_total hmerge).2.2 (.inr htotal)⟩

/-- The round that ends the call returns the outcome. -/
theorem Reading.step_inr (h : Reading contents files st) (hserves : Serves contents vread)
    (htotal : st.held.total ≤ options.maxTotalBytes)
    (hrounds : Budgeted options.maxTotalBytes st.rounds)
    {done : ReadAllDone n} (hstep : readAllStep vread limits options files st = .inr done) :
    Outcome contents files options.maxTotalBytes done.result ∧
      Budgeted options.maxTotalBytes done.rounds := by
  unfold readAllStep at hstep
  split at hstep
  · rename_i hactive
    cases hstep
    exact ⟨h.finished (List.isEmpty_iff.mp hactive) htotal, hrounds⟩
  rename_i hactive
  have hbudgeted := budgeted_round files limits (by simpa using hactive) htotal hrounds
  dsimp only at hstep
  split at hstep
  · rename_i error herror
    obtain ⟨results, hread, -⟩ := hserves st.rounds.length (st.reads limits options files)
    rw [hread] at herror
    cases herror
  rename_i results hread
  have hlength := (answers_zip hserves hread).1
  have hmerged := h.merged hserves (by simpa using hactive) hread
  unfold mergeReadAllvRound at hstep
  rw [if_neg (not_not.mpr hlength)] at hstep
  split at hstep
  · rename_i error herror
    cases hstep
    rw [herror] at hmerged
    exact ⟨hmerged, hbudgeted⟩
  · cases hstep

end

section

variable (contents : F → Bytes) (limits : ReadLimits) (options : ReadAllOptions)
  (files : Fin n → F) (vread : VectorRead F)

theorem vreadAllWithOptionsImpl_outcome (hserves : Serves contents vread) :
    Outcome contents files options.maxTotalBytes
        (vreadAllWithOptionsImpl vread limits options files).result ∧
      Budgeted options.maxTotalBytes
        (vreadAllWithOptionsImpl vread limits options files).rounds := by
  refine Loop.run_invariant _ (P := fun st => Reading contents files st ∧
      st.held.total ≤ options.maxTotalBytes ∧ Budgeted options.maxTotalBytes st.rounds)
    (Q := fun done : ReadAllDone n => Outcome contents files options.maxTotalBytes done.result ∧
      Budgeted options.maxTotalBytes done.rounds) ?_ ?_ ?_
  · rintro st st' ⟨hstart, htotal, hrounds⟩ hstep
    obtain ⟨hactive, -, -, -, -, -, -, hlog⟩ := readAllStep_inl hstep
    obtain ⟨hnext, ht'⟩ := hstart.step_inl hserves htotal hstep
    exact ⟨hnext, ht', hlog ▸ budgeted_round files limits hactive htotal hrounds⟩
  · rintro st done ⟨hstart, htotal, hrounds⟩ hstep
    exact hstart.step_inr hserves htotal hrounds hstep
  refine ⟨⟨⟨fun i => rfl, fun i => Nat.zero_le _, by simp⟩, nodup_finRange n, ?_⟩,
    Nat.zero_le _, fun round hrounds => absurd hrounds not_mem_nil⟩
  intro i hi
  exact absurd (mem_finRange i) hi

/-- Whatever schedule of short READs the server follows, the call returns the
whole files iff they fit the budget together and EFBIG if they do not, and no
round holds and asks for more than one byte over the budget. -/
theorem vreadAllWithOptionsImpl_exact (hserves : Serves contents vread) :
    ((vreadAllWithOptionsImpl vread limits options files).result =
        .ok (fun i => contents (files i)) ↔
      totalSize contents files ≤ options.maxTotalBytes) ∧
    (options.maxTotalBytes < totalSize contents files → ∃ i : Fin n,
      (vreadAllWithOptionsImpl vread limits options files).result =
        .error (.errno (some i.val) efbig)) ∧
    ∀ round ∈ (vreadAllWithOptionsImpl vread limits options files).rounds,
      round.1 + round.2 ≤ options.maxTotalBytes + 1 := by
  obtain ⟨houtcome, hrounds⟩ :=
    vreadAllWithOptionsImpl_outcome contents limits options files vread hserves
  cases hresult : (vreadAllWithOptionsImpl vread limits options files).result with
  | ok out =>
    rw [hresult] at houtcome
    obtain ⟨rfl, hfits⟩ := houtcome
    exact ⟨⟨fun _ => hfits, fun _ => rfl⟩, fun hbig => absurd hfits (Nat.not_le_of_lt hbig),
      hrounds⟩
  | error error =>
    rw [hresult] at houtcome
    obtain ⟨hbig, i, rfl⟩ := houtcome
    exact ⟨⟨fun h => (by cases h), fun hfits => absurd hfits (Nat.not_le_of_lt hbig)⟩,
      fun _ => ⟨i, rfl⟩, hrounds⟩

end

/-- A server that never returns more than one byte, and notices the end of a file
with its last byte. -/
def oneByteServer (contents : F → Bytes) : VectorRead F := fun _ reads =>
  .ok (reads.map fun op =>
    let data := ((contents op.file).drop op.offset).take (min op.length 1)
    ⟨op.offset, data, decide ((contents op.file).length ≤ op.offset + data.length)⟩)

theorem oneByteServer_serves (contents : F → Bytes) : Serves contents (oneByteServer contents) := by
  intro round reads
  refine ⟨_, rfl, forall₂_map_right_iff.mpr (forall₂_same.mpr fun op _ => ?_)⟩
  refine ⟨rfl, ?_, ?_, fun hl hd => ?_, fun he => by simpa using he⟩
  · simp
  · simp only [length_take]
    omega
  have hempty := congrArg List.length hd
  simp only [length_take, length_drop, length_nil] at hempty
  simp only [decide_eq_true_eq]
  omega

theorem vreadAllWithOptionsImpl_exact_oneByte :
    Serves id (oneByteServer id) ∧
      (vreadAllWithOptionsImpl (oneByteServer id) ⟨1, 0, 0⟩ ⟨3, by decide⟩
        ![[1, 2], [3]]).result = .ok (fun i => ![[1, 2], [3]] i) :=
  ⟨oneByteServer_serves id, (vreadAllWithOptionsImpl_exact id ⟨1, 0, 0⟩ ⟨3, by decide⟩
    ![[1, 2], [3]] (oneByteServer id) (oneByteServer_serves id)).1.mpr (by decide)⟩

end Vnfs.Nfs.ReadAll
