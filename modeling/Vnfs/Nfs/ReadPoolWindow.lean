import Vnfs.Nfs.ReadPool

/-!
The ranges of a stream. Every index below the next job has been handed to the
callback, waits for it, or is still being read; what waits or is being read lies
in the window ahead of the next delivery. The callback has seen the ranges below
that, in order, and each with the bytes of the file.
-/

namespace Vnfs.Nfs

open List hiding min

section ReadRange

variable {file : Bytes} {vread : Nat → Nat → VfResult Bytes} {path : Bytes}
  {offset length : Nat}

theorem fillRange_ok (h : ReadsFile file vread) {fuel : Nat} {data result : Bytes}
    (hd : data = (file.drop offset).take data.length) (hle : data.length ≤ length)
    (hf : length ≤ data.length + fuel)
    (hru : fillRange vread path offset length fuel data = .ok result) :
    result = (file.drop offset).take length ∧ result.length = length := by
  induction fuel generalizing data with
  | zero =>
    obtain rfl := Except.ok.inj hru
    have hl : data.length = length := by omega
    exact ⟨hl ▸ hd, hl⟩
  | succ fuel ih =>
    unfold fillRange at hru
    split at hru
    · rename_i hs
      split at hru
      · cases hru
      rename_i current hc
      obtain rfl := checkedAdd_eq_some hc
      split at hru
      · cases hru
      rename_i bytes hr
      split at hru
      · cases hru
      rename_i hb
      obtain ⟨hcn, hsl⟩ := h _ _ _ hr
      have hp : 0 < bytes.length := by
        cases bytes with
        | nil => exact absurd rfl hb
        | cons byte rest => simp
      apply ih _ (by simp; omega) (by simp; omega) hru
      rw [length_append, take_add, ← hd, drop_drop]
      congr 1
    · obtain rfl := Except.ok.inj hru
      have hl : data.length = length := by omega
      exact ⟨hl ▸ hd, hl⟩

theorem readRange_ok (h : ReadsFile file vread) {data : Bytes}
    (hr : readRange vread path offset length = .ok data) :
    data = (file.drop offset).take length ∧ data.length = length :=
  fillRange_ok h (by simp) (Nat.zero_le _) (by simp) hr

end ReadRange

namespace ReadStream

variable {n : Nat} (stream : ReadStream n)

def slice (index : Nat) : Bytes :=
  (stream.file.drop (index * stream.options.chunkSize)).take stream.options.chunkSize

def call (index : Nat) : Nat × Bytes := (index * stream.options.chunkSize, stream.slice index)

theorem offset_lt_of_lt_total {index : Nat} (h : index < stream.totalRanges stream.file.length) :
    index * stream.options.chunkSize < stream.file.length := by
  have hc := stream.options.chunkSize_pos
  unfold totalRanges at h
  split at h
  · omega
  have hle : (index + 1) * stream.options.chunkSize ≤
      stream.file.length + stream.options.chunkSize - 1 :=
    (Nat.le_div_iff_mul_le hc).mp h
  rw [Nat.add_mul] at hle
  omega

theorem file_length_le_total : stream.file.length ≤
    stream.totalRanges stream.file.length * stream.options.chunkSize := by
  have hc := stream.options.chunkSize_pos
  unfold totalRanges
  split
  · omega
  · have hlt := Nat.lt_div_mul_add (a := stream.file.length + stream.options.chunkSize - 1) hc
    omega

theorem offsetOf_eq {index : Nat} (h : index < stream.totalRanges stream.file.length) :
    stream.offsetOf index = index * stream.options.chunkSize := by
  have hlt := stream.offset_lt_of_lt_total h
  have hle := stream.file_le
  unfold offsetOf
  omega

theorem slice_length (index : Nat) : (stream.slice index).length =
    min (stream.file.length - index * stream.options.chunkSize) stream.options.chunkSize := by
  simp [slice, Nat.min_comm]

/-- The ranges of a stream that are not delivered yet. -/
structure Window (nextJob nextDelivery : Nat) (jobs : List (Nat × Fin n))
    (pending : List (Nat × Bytes)) (calls : List (Nat × Bytes)) : Prop where
  delivered : calls = (List.range nextDelivery).map stream.call
  ordered : nextDelivery ≤ nextJob
  ahead : nextJob ≤ nextDelivery + stream.inFlight
  within : nextJob ≤ stream.totalRanges stream.file.length
  jobs_ordered : jobs.Pairwise fun job later => job.1 < later.1
  jobs_within : ∀ job ∈ jobs, nextDelivery ≤ job.1 ∧ job.1 < nextJob
  assigned : ∀ job ∈ jobs, job.2 = stream.workerOf job.1
  pending_distinct : (pending.map Prod.fst).Nodup
  pending_within : ∀ held ∈ pending, nextDelivery ≤ held.1 ∧ held.1 < nextJob
  pending_data : ∀ held ∈ pending, held.2 = stream.slice held.1
  apart : ∀ job ∈ jobs, ∀ held ∈ pending, job.1 ≠ held.1

variable {stream} {nextJob nextDelivery : Nat} {jobs : List (Nat × Fin n)}
  {pending calls : List (Nat × Bytes)}

theorem window_start (stream : ReadStream n) : stream.Window 0 0 [] [] [] where
  delivered := rfl
  ordered := Nat.le_refl _
  ahead := Nat.zero_le _
  within := Nat.zero_le _
  jobs_ordered := .nil
  jobs_within := by simp
  assigned := by simp
  pending_distinct := .nil
  pending_within := by simp
  pending_data := by simp
  apart := by simp

theorem Window.schedule (h : stream.Window nextJob nextDelivery jobs pending calls)
    (ht : nextJob < stream.totalRanges stream.file.length)
    (hr : nextJob - nextDelivery < stream.inFlight) :
    stream.Window (nextJob + 1) nextDelivery (jobs ++ [(nextJob, stream.workerOf nextJob)])
      pending calls where
  delivered := h.delivered
  ordered := Nat.le_succ_of_le h.ordered
  ahead := by
    omega
  within := ht
  jobs_ordered := by
    refine pairwise_append.mpr ⟨h.jobs_ordered, pairwise_singleton .., ?_⟩
    intro job hj later hl
    rw [mem_singleton.mp hl]
    exact (h.jobs_within job hj).2
  jobs_within := by
    intro job hj
    rcases mem_append.mp hj with hold | hn
    · exact ⟨(h.jobs_within job hold).1, Nat.lt_succ_of_lt (h.jobs_within job hold).2⟩
    · rw [mem_singleton.mp hn]
      exact ⟨h.ordered, Nat.lt_succ_self _⟩
  assigned := by
    intro job hj
    rcases mem_append.mp hj with hold | hn
    · exact h.assigned job hold
    · rw [mem_singleton.mp hn]
  pending_distinct := h.pending_distinct
  pending_within held hh :=
    ⟨(h.pending_within held hh).1, Nat.lt_succ_of_lt (h.pending_within held hh).2⟩
  pending_data := h.pending_data
  apart := by
    intro job hj held hh
    rcases mem_append.mp hj with hold | hn
    · exact h.apart job hold held hh
    · rw [mem_singleton.mp hn]
      exact Nat.ne_of_gt (h.pending_within held hh).2

/-- Ranges that are given up, or answered, are not read any more. -/
theorem Window.lose (h : stream.Window nextJob nextDelivery jobs pending calls)
    {fewer : List (Nat × Fin n)} (hf : fewer.Sublist jobs) :
    stream.Window nextJob nextDelivery fewer pending calls :=
  {h with
    jobs_ordered := h.jobs_ordered.sublist hf
    jobs_within := fun job hj => h.jobs_within job (hf.subset hj)
    assigned := fun job hj => h.assigned job (hf.subset hj)
    apart := fun job hj => h.apart job (hf.subset hj)}

theorem Window.arrive (h : stream.Window nextJob nextDelivery jobs pending calls) {index : Nat}
    (hin : nextDelivery ≤ index ∧ index < nextJob) (hjo : ∀ job ∈ jobs, job.1 ≠ index)
    (hp : ∀ held ∈ pending, held.1 ≠ index) :
    stream.Window nextJob nextDelivery jobs (pending ++ [(index, stream.slice index)]) calls :=
  {h with
    pending_distinct := by
      rw [map_append, nodup_append]
      refine ⟨h.pending_distinct, by simp, ?_⟩
      intro held hh other ho
      obtain ⟨entry, he, rfl⟩ := mem_map.mp hh
      obtain rfl : other = index := by simpa using ho
      exact hp entry he
    pending_within := by
      intro held hh
      rcases mem_append.mp hh with hold | hn
      · exact h.pending_within held hold
      · rw [mem_singleton.mp hn]
        exact hin
    pending_data := by
      intro held hh
      rcases mem_append.mp hh with hold | hn
      · exact h.pending_data held hold
      · rw [mem_singleton.mp hn]
    apart := by
      intro job hj held hh
      rcases mem_append.mp hh with hold | hn
      · exact h.apart job hj held hold
      · rw [mem_singleton.mp hn]
        exact hjo job hj}

theorem Window.deliver (h : stream.Window nextJob nextDelivery jobs pending calls)
    {data : Bytes} (hh : (nextDelivery, data) ∈ pending) :
    stream.Window nextJob (nextDelivery + 1) jobs (pending.filter fun held => held.1 ≠ nextDelivery)
      (calls ++ [(nextDelivery * stream.options.chunkSize, data)]) where
  delivered := by
    have hd : data = stream.slice nextDelivery := h.pending_data _ hh
    rw [h.delivered, range_succ, map_append, hd]
    rfl
  ordered := (h.pending_within _ hh).2
  ahead := Nat.le_trans h.ahead (by omega)
  within := h.within
  jobs_ordered := h.jobs_ordered
  jobs_within := by
    intro job hj
    have hne : job.1 ≠ nextDelivery := h.apart job hj _ hh
    have hin := h.jobs_within job hj
    omega
  assigned := h.assigned
  pending_distinct := h.pending_distinct.sublist (filter_sublist.map _)
  pending_within := by
    intro held hh'
    obtain ⟨hm, hne⟩ := mem_filter.mp hh'
    have hin := h.pending_within held hm
    have : held.1 ≠ nextDelivery := by simpa using hne
    omega
  pending_data held hh' := h.pending_data held (mem_of_mem_filter hh')
  apart job hj held hh' := h.apart job hj held (mem_of_mem_filter hh')

end ReadStream

/-- The bytes that are being read or wait for the callback. -/
def ReadStream.bufferedBytes {n : Nat} (stream : ReadStream n) (s : StreamState n) : Nat :=
  (s.jobs.map fun job => (stream.slice job.1).length).sum +
    (s.pending.map fun held => held.2.length).sum

namespace ReadStream

variable {n : Nat} {stream : ReadStream n} {nextJob nextDelivery : Nat}
  {jobs : List (Nat × Fin n)} {pending calls : List (Nat × Bytes)}

theorem Window.count_le (h : stream.Window nextJob nextDelivery jobs pending calls) :
    jobs.length + pending.length ≤ stream.inFlight := by
  have hnd : (jobs.map Prod.fst ++ pending.map Prod.fst).Nodup := by
    rw [nodup_append]
    refine ⟨?_, h.pending_distinct, ?_⟩
    · rw [Nodup, pairwise_map]
      exact h.jobs_ordered.imp fun hlt => Nat.ne_of_lt hlt
    intro index hi other ho
    obtain ⟨job, hj, rfl⟩ := mem_map.mp hi
    obtain ⟨held, hh, rfl⟩ := mem_map.mp ho
    exact h.apart job hj held hh
  have hs : jobs.map Prod.fst ++ pending.map Prod.fst ⊆ range' nextDelivery stream.inFlight := by
    intro index hi
    have ha := h.ahead
    rw [mem_range'_1]
    rcases mem_append.mp hi with hr | hw
    · obtain ⟨job, hj, rfl⟩ := mem_map.mp hr
      have := h.jobs_within job hj
      omega
    · obtain ⟨held, hh, rfl⟩ := mem_map.mp hw
      have := h.pending_within held hh
      omega
  have hl := (subperm_of_subset hnd hs).length_le
  simpa using hl

theorem sum_map_le {α : Type} (f : α → Nat) (bound : Nat) (xs : List α)
    (h : ∀ x ∈ xs, f x ≤ bound) : (xs.map f).sum ≤ xs.length * bound := by
  have hle := sum_le_card_nsmul (xs.map f) bound (by simpa using h)
  simpa using hle

theorem Window.bufferedBytes_le {s : StreamState n}
    (h : stream.Window s.nextJob s.nextDelivery s.jobs s.pending s.calls) :
    stream.bufferedBytes s ≤ stream.options.maxBufferedBytes := by
  have hs : ∀ index, (stream.slice index).length ≤ stream.options.chunkSize := by
    intro index
    rw [slice_length]
    exact Nat.min_le_right ..
  have hj := sum_map_le (fun job => (stream.slice job.1).length) stream.options.chunkSize s.jobs
    fun job _ => hs job.1
  have hp := sum_map_le (fun held => held.2.length) stream.options.chunkSize s.pending (by
    intro held hh
    rw [h.pending_data held hh]
    exact hs held.1)
  have hc := Nat.mul_le_mul_right stream.options.chunkSize h.count_le
  obtain ⟨-, hw, -⟩ := stream.inFlight_eq
  have hb : stream.inFlight * stream.options.chunkSize ≤ stream.options.maxBufferedBytes := by
    rw [hw]
    refine Nat.le_trans (Nat.mul_le_mul_right _ (Nat.min_le_right ..)) ?_
    exact Nat.div_mul_le_self ..
  rw [Nat.add_mul] at hc
  unfold bufferedBytes
  omega

end ReadStream

end Vnfs.Nfs
