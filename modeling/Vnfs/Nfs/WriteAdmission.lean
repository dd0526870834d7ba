import Vnfs.Nfs.WriteWave

/-!
Whole runs of `WriteWaveAccess::admit`, over any files. The index answers an overlap
question by looking at two of its ranges only. That this is enough rests on what every
call keeps: the ranges it holds are exactly the admitted ones with bytes, and they are
apart.
-/

namespace Vnfs.Nfs

open List Function
open WriteSession (joinWave)

namespace WriteWaveAccess

/-- The ranges with bytes that the access holds. -/
def stored (access : WriteWaveAccess) : List (Nat × Nat) :=
  (if access.first.1 < access.first.2 then [access.first] else []) ++ access.additional.entries

/-- The access holds its members' ranges and no others. -/
structure Stores (access : WriteWaveAccess) (members : List ((Nat × Nat) × Bool)) : Prop
    extends Knows access members where
  ne_nil : members ≠ []
  dependent : access.positional = false → ∃ m ∈ members, m.2 = false
  holds : ∀ range, range ∈ access.stored ↔ range.1 < range.2 ∧ ∃ flag, (range, flag) ∈ members
  first_apart : access.first.1 < access.first.2 →
    ∀ entry ∈ access.additional.entries, Apart access.first entry

/-- Neither request of one file has to wait for the other. -/
def Compatible (m : (Nat × Nat) × Bool) (range : Nat × Nat) (positional : Bool) : Prop :=
  m.2 = true ∧ positional = true ∧ Apart m.1 range

theorem mem_stored {access : WriteWaveAccess} {range : Nat × Nat} : range ∈ access.stored ↔
      (access.first.1 < access.first.2 ∧ range = access.first) ∨
        range ∈ access.additional.entries := by
  unfold stored
  split
  · rename_i hb
    simp [hb]
  · rename_i he
    simp [he]

theorem stores_new (range : Nat × Nat) (positional : Bool) :
    Stores (new range positional) [(range, positional)] where
  toKnows := knows_new range positional
  ne_nil := cons_ne_nil _ _
  dependent := by simp [new]
  holds := by
    intro other
    rw [mem_stored]
    simp only [new, SortedMap.mem_empty, or_false, mem_singleton, Prod.mk.injEq, exists_and_left]
    constructor
    · rintro ⟨hb, rfl⟩
      exact ⟨hb, rfl, positional, rfl⟩
    · rintro ⟨hb, rfl, -⟩
      exact ⟨hb, rfl⟩
  first_apart := by simp [new]

section

variable {access access' : WriteWaveAccess} {members : List ((Nat × Nat) × Bool)}
  {range : Nat × Nat} {positional : Bool}

/-- The ranges held are apart: the indexed ones begin in increasing order. -/
theorem Stores.pairwise (h : Stores access members) : access.stored.Pairwise Apart := by
  have he : access.additional.entries.Pairwise Apart := by
    refine access.additional.sorted.imp_of_mem ?_
    intro entry other hen ho hlt
    exact .inr (.inr (.inl (h.apart entry hen other ho hlt)))
  unfold stored
  split
  · rename_i hb
    exact pairwise_cons.mpr ⟨h.first_apart hb, he⟩
  · exact he

theorem Stores.admits_eq_none (h : Stores access members)
    (had : access.admits range positional = none) :
    ∃ m ∈ members, ¬ Compatible m range positional := by
  -- A range that is held is some member's.
  have hh : ∀ held ∈ access.stored, ¬ Apart held range →
      ∃ m ∈ members, ¬ Compatible m range positional := by
    intro held hme hmeets
    obtain ⟨-, flag, hmb⟩ := (h.holds held).mp hme
    exact ⟨_, hmb, fun hc => hmeets hc.2.2⟩
  unfold admits at had
  split at had
  · rename_i hd
    cases ha : access.positional with
    | false =>
      obtain ⟨m, hm, hfl⟩ := h.dependent ha
      exact ⟨m, hm, fun hc => by simp [Compatible, hfl] at hc⟩
    | true =>
      have hp : positional = false := by simpa [ha] using hd
      obtain ⟨m, hm⟩ := exists_mem_of_ne_nil members h.ne_nil
      exact ⟨m, hm, fun hc => by simp [Compatible, hp] at hc⟩
  split at had
  · cases had
  split at had
  · rename_i hfs
    refine hh access.first (mem_stored.mpr (.inl ⟨hfs.1, rfl⟩)) ?_
    unfold Apart
    omega
  split at had
  · rename_i hl
    cases hf : access.additional.lastLT range.2 with
    | none => simp [hf] at hl
    | some last =>
      obtain ⟨hme, hlt, -⟩ := SortedMap.lastLT_eq_some hf
      have hs : range.1 < last.2 := by simpa [hf] using hl
      have hne := h.nonempty last hme
      refine hh last (mem_stored.mpr (.inr hme)) ?_
      unfold Apart
      omega
  · cases had

theorem Stores.admits_eq_some (h : Stores access members)
    (had : access.admits range positional = some access') :
    (∀ m ∈ members, Compatible m range positional) ∧
      Stores access' (members ++ [(range, positional)]) := by
  obtain ⟨rfl, hme, hk⟩ := WriteWaveAccess.admits_eq_some h.toKnows had
  refine ⟨fun m hm => ⟨(hme m hm).1, rfl, (hme m hm).2⟩, ?_⟩
  unfold admits at had
  split at had
  · cases had
  rename_i hp
  have ha : access.positional = true := by simpa using hp
  split at had
  · rename_i hem
    obtain rfl := Option.some.inj had
    refine ⟨hk, by simp, by simp [ha], ?_, h.first_apart⟩
    intro other
    rw [h.holds other]
    refine and_congr_right fun hb => exists_congr fun flag => ?_
    have ho : other ≠ range := by
      rintro rfl
      omega
    simp [ho]
  rename_i hb
  split at had
  · cases had
  split at had
  · cases had
  rename_i hl
  obtain rfl := Option.some.inj had
  have hmem := h.mem_insert hl (Nat.not_le.mp hb)
  refine ⟨hk, by simp, by simp [ha], ?_, ?_⟩
  · intro other
    rw [mem_stored]
    dsimp only
    rw [hmem other, or_left_comm, ← mem_stored, h.holds other]
    simp only [mem_append, mem_singleton, Prod.mk.injEq, exists_or, and_or_left]
    constructor
    · rintro (rfl | hold)
      · exact .inr ⟨Nat.not_le.mp hb, true, rfl, rfl⟩
      · exact .inl hold
    · rintro (hold | ⟨-, -, rfl, -⟩)
      · exact .inr hold
      · exact .inl rfl
  intro hf entry he
  rcases (hmem entry).mp he with rfl | hold
  · obtain ⟨-, flag, hmb⟩ := (h.holds access.first).mp (mem_stored.mpr (.inl ⟨hf, rfl⟩))
    exact (hme _ hmb).2
  · exact h.first_apart hf entry hold

end

end WriteWaveAccess

/-- A request as the index sees it: its file, its byte range and whether it is positional. -/
structure WaveRequest where
  fh : NfsFh
  range : Nat × Nat
  positional : Bool
deriving DecidableEq

/-- The requests of a wave admitted so far, and the accesses of their files. -/
structure Admission where
  admitted : List WaveRequest
  activeFiles : NfsFh → Option WriteWaveAccess

namespace Admission

def start : Admission := ⟨[], fun _ => none⟩

/-- One request asks to join; a refused one leaves everything as it is. -/
def offer (st : Admission) (request : WaveRequest) : Admission :=
  match joinWave st.activeFiles request.fh request.range request.positional with
  | none => st
  | some access =>
    ⟨st.admitted ++ [request], Function.update st.activeFiles request.fh (some access)⟩

def members (st : Admission) (fh : NfsFh) : List ((Nat × Nat) × Bool) :=
  (st.admitted.filter (·.fh = fh)).map fun request => (request.range, request.positional)

def held (st : Admission) (fh : NfsFh) : List (Nat × Nat) :=
  ((st.activeFiles fh).map WriteWaveAccess.stored).getD []

/-- Every file's access stores what was admitted of that file. -/
def Tracks (st : Admission) : Prop :=
  ∀ fh, match st.activeFiles fh with
    | none => st.members fh = []
    | some access => access.Stores (st.members fh)

theorem mem_members {st : Admission} {fh : NfsFh} {m : (Nat × Nat) × Bool} :
    m ∈ st.members fh ↔ ⟨fh, m.1, m.2⟩ ∈ st.admitted := by
  simp only [members, mem_map, mem_filter, decide_eq_true_eq]
  constructor
  · rintro ⟨request, ⟨hm, rfl⟩, rfl⟩
    exact hm
  · intro hm
    exact ⟨_, ⟨hm, rfl⟩, rfl⟩

section

variable {st : Admission} (h : st.Tracks)

include h

/-- Who may join, and what the file's access stores from then on. -/
theorem Tracks.joinWave_isSome (request : WaveRequest) :
    (joinWave st.activeFiles request.fh request.range request.positional).isSome ↔
      ∀ m ∈ st.members request.fh,
        WriteWaveAccess.Compatible m request.range request.positional := by
  have hf := h request.fh
  unfold joinWave
  cases ha : st.activeFiles request.fh with
  | none =>
    rw [ha] at hf
    simp [hf]
  | some access =>
    rw [ha] at hf
    dsimp only at hf ⊢
    cases had : access.admits request.range request.positional with
    | none =>
      obtain ⟨m, hm, hc⟩ := hf.admits_eq_none had
      exact ⟨fun hs => (by cases hs), fun hal => absurd (hal m hm) hc⟩
    | some access' => exact ⟨fun _ => (hf.admits_eq_some had).1, fun _ => rfl⟩

theorem Tracks.offer (request : WaveRequest) : (st.offer request).Tracks := by
  unfold Admission.offer
  split
  · exact h
  rename_i access hj
  intro fh
  by_cases hfh : fh = request.fh
  · subst hfh
    have hf := h request.fh
    have hm : members ⟨st.admitted ++ [request],
        update st.activeFiles request.fh (some access)⟩ request.fh =
        st.members request.fh ++ [(request.range, request.positional)] := by
      simp [members]
    rw [hm]
    simp only [update_self]
    unfold joinWave at hj
    split at hj
    · rename_i hn
      obtain rfl := Option.some.inj hj
      rw [hn] at hf
      rw [hf]
      exact WriteWaveAccess.stores_new _ _
    · rename_i access₀ hs
      rw [hs] at hf
      exact (hf.admits_eq_some hj).2
  have hm : members ⟨st.admitted ++ [request],
      update st.activeFiles request.fh (some access)⟩ fh = st.members fh := by
    simp [members, Ne.symm hfh]
  rw [hm]
  simp only [update_of_ne hfh]
  exact h fh

end

theorem tracks_foldl (calls : List WaveRequest) : (calls.foldl offer start).Tracks := by
  induction calls using reverseRecOn with
  | nil =>
    intro fh
    rfl
  | append_singleton calls request ih =>
    rw [foldl_append]
    exact ih.offer request

/-- After any calls, for any files, the next request joins exactly if it and every admitted
request of its file are positional and share no bytes, and what is held of a file is its
admitted ranges with bytes, pairwise apart. -/
theorem joinWave_iff_compatible (calls : List WaveRequest) :
    (∀ request : WaveRequest,
      (joinWave (calls.foldl offer start).activeFiles request.fh request.range
          request.positional).isSome ↔
        ∀ earlier ∈ (calls.foldl offer start).admitted, earlier.fh = request.fh →
          earlier.positional = true ∧ request.positional = true ∧
            WriteWaveAccess.Apart earlier.range request.range) ∧
      ∀ fh, (∀ range, range ∈ (calls.foldl offer start).held fh ↔ range.1 < range.2 ∧
          ∃ flag, ⟨fh, range, flag⟩ ∈ (calls.foldl offer start).admitted) ∧
        ((calls.foldl offer start).held fh).Pairwise WriteWaveAccess.Apart := by
  have htracks := tracks_foldl calls
  generalize calls.foldl offer start = st at htracks ⊢
  refine ⟨?_, ?_⟩
  · intro request
    rw [htracks.joinWave_isSome request]
    constructor
    · intro hall earlier hmem hfh
      exact hall (earlier.range, earlier.positional) (mem_members.mpr (by rw [← hfh]; exact hmem))
    · intro hall m hm
      exact hall ⟨request.fh, m.1, m.2⟩ (mem_members.mp hm) rfl
  intro fh
  have hfile := htracks fh
  unfold held
  cases hactive : st.activeFiles fh with
  | none =>
    rw [hactive] at hfile
    refine ⟨?_, .nil⟩
    intro range
    simp only [Option.map_none, Option.getD_none, not_mem_nil, false_iff, not_and]
    rintro - ⟨flag, hmem⟩
    have hmember : (range, flag) ∈ st.members fh := mem_members.mpr hmem
    rw [hfile] at hmember
    cases hmember
  | some access =>
    rw [hactive] at hfile
    refine ⟨?_, hfile.pairwise⟩
    intro range
    refine (hfile.holds range).trans (and_congr_right fun _ => exists_congr fun flag => ?_)
    exact mem_members

end Admission

end Vnfs.Nfs
