import Vnfs.Nfs.WriteWave

/-!
The wave loop of `vwrite_batch_nfs`. What one wave can do is said once, step by
step: activation, the pass that picks wire operations, the results, and the pass
that moves on. From it follow that every wave sends something, that every round
leaves less to send, and with that the loop itself.
-/

namespace Vnfs.Nfs.WriteSession

open Function List

variable {σ : Type} {session : WriteSession σ} {items : List BatchItem}

/-- Activation fixes one offset and changes nothing else but the session. -/
structure Activated (session : WriteSession σ) (st : BatchWaves σ items.length)
    (index : Fin items.length) (st' : BatchWaves σ items.length) : Prop where
  progress : st'.progress = st.progress
  complete : st'.complete = st.complete
  nextChunks : st'.nextChunks = st.nextChunks
  completePrefix : st'.completePrefix = st.completePrefix
  done : st'.done = st.done
  stable : st'.stable = st.stable
  history : st'.history = st.history
  openFiles : st'.fs.openFiles = st.fs.openFiles
  activated : st'.activated = update st.activated index true
  offset : (st'.offsets = st.offsets ∧ st'.fs = st.fs ∧ (st.activated index = true ∨
      ((items.get index).predecessor && !(items.get index).positional) = false)) ∨
    (st.activated index = false ∧ ∃ offset,
      st'.offsets = update st.offsets index offset ∧
      session.writeOffset st.fs (items.get index).fd (items.get index).offset =
        (.ok offset, st'.fs))

theorem activate_ok {st st' : BatchWaves σ items.length} {index : Fin items.length}
    (h : session.activate items st index = (.ok (), st')) : Activated session st index st' := by
  unfold activate at h
  split at h
  · rename_i ha
    cases h
    refine ⟨rfl, rfl, rfl, rfl, rfl, rfl, rfl, rfl, ?_, .inl ⟨rfl, rfl, .inl ha⟩⟩
    rw [← ha, update_eq_self]
  rename_i ha
  have hn : st.activated index = false := by simpa using ha
  dsimp only at h
  split at h
  · cases h
  rename_i offset hr
  split at h
  · cases h
  cases h
  by_cases hd : ((items.get index).predecessor && !(items.get index).positional) = true
  · rw [if_pos hd] at hr ⊢
    have ho := writeOffset_openFiles session st.fs (items.get index).fd (items.get index).offset
    refine ⟨rfl, rfl, rfl, rfl, rfl, rfl, rfl, ho, rfl, .inr ⟨hn, offset, rfl, ?_⟩⟩
    exact Prod.ext hr rfl
  rw [if_neg hd] at hr ⊢
  obtain rfl := Except.ok.inj hr
  refine ⟨rfl, rfl, rfl, rfl, rfl, rfl, rfl, rfl, rfl, .inl ⟨?_, rfl, .inr ?_⟩⟩
  · exact update_eq_self ..
  · simpa using hd

variable (session) in
theorem selectChunks_spec (st : BatchWaves σ items.length) (index : Fin items.length)
    (chunks : List Nat) (selection : Selection items.length) :
    ∃ picked : List Nat, (session.selectChunks items st index chunks selection).1.selected =
        selection.selected ++ picked.map (fun chunk => (index, chunk)) ∧
      picked.Sublist chunks ∧ (∀ chunk ∈ picked, st.complete (index, chunk) = false) ∧
      ((session.selectChunks items st index chunks selection).2 = true ∨
        (∃ chunk ∈ chunks, st.complete (index, chunk) = false) →
          (session.selectChunks items st index chunks selection).1.selected ≠ []) := by
  induction chunks generalizing selection with
  | nil => exact ⟨[], by simp [selectChunks], Sublist.refl _, by simp, by simp [selectChunks]⟩
  | cons chunk rest ih =>
    unfold selectChunks
    split
    · rename_i hc
      obtain ⟨picked, hs, hsu, hp, hne⟩ := ih selection
      refine ⟨picked, hs, hsu.cons _, hp, ?_⟩
      rintro (hf | ⟨other, ho, hn⟩)
      · exact hne (.inl hf)
      rcases mem_cons.mp ho with rfl | hr
      · rw [hc] at hn
        cases hn
      · exact hne (.inr ⟨other, hr, hn⟩)
    rename_i hp
    dsimp only
    split
    · rename_i hf
      refine ⟨[], by simp, nil_sublist _, by simp, ?_⟩
      intro _
      simpa using hf.1
    obtain ⟨picked, hs, hsu, hr, -⟩ := ih
      ⟨selection.selected ++ [(index, chunk)], saturatingAdd selection.bytes (saturatingAdd
        (session.chunkLength items (index, chunk) - st.progress (index, chunk)) 256)⟩
    refine ⟨chunk :: picked, ?_, hsu.cons_cons _, ?_, ?_⟩
    · rw [hs]
      simp
    · intro other ho
      rcases mem_cons.mp ho with rfl | hm
      · simpa using hp
      · exact hr other hm
    · intro _
      rw [hs]
      simp

variable {active : NfsFh → Option WriteWaveAccess} {result : Nat × UInt32}

/-- The rule for the pass that picks a wave: what holds at its start and survives
a request that is done and one that joins, holds where it ends. -/
theorem selectWave_rule
    {P : List (Fin items.length) → (NfsFh → Option WriteWaveAccess) → Selection items.length →
      BatchWaves σ items.length → Prop}
    (hd : ∀ index rest active selection st, P (index :: rest) active selection st →
      st.done index = true → P rest active selection st)
    (hj : ∀ index rest active selection st access st',
      P (index :: rest) active selection st → st.done index = false →
      joinWave active (items.get index).fh (rangeOf items st index) (items.get index).positional =
        some access → Activated session st index st' →
      P rest (update active (items.get index).fh (some access))
        (session.selectChunks items st' index (range' (st'.nextChunks index)
          (chunkCount session.perOpBytes (items.get index) - st'.nextChunks index))
          selection).1 st')
    {indices : List (Fin items.length)} {selection selection' : Selection items.length}
    {st st' : BatchWaves σ items.length} (hst : P indices active selection st)
    (h : session.selectWave items indices active selection st = (.ok selection', st')) :
    ∃ rest active', P rest active' selection' st' ∧ (rest = [] ∨ selection'.selected ≠ [] ∨
      ∃ fh, (active' fh).isSome) := by
  induction indices generalizing active selection st with
  | nil =>
    cases h
    exact ⟨[], active, hst, .inl rfl⟩
  | cons index rest ih =>
    unfold selectWave at h
    split at h
    · rename_i hi
      exact ih (hd index rest active selection st hst hi) h
    rename_i hi
    dsimp only at h
    split at h
    · rename_i hr
      cases h
      refine ⟨index :: rest, active, hst, .inr (.inr ⟨(items.get index).fh, ?_⟩)⟩
      unfold joinWave at hr
      split at hr
      · cases hr
      · rename_i access hac
        rw [hac]
        rfl
    rename_i access hacc
    split at h
    · cases h
    rename_i middle ha
    have hact := activate_ok ha
    have hn := hj index rest active selection st access middle hst (by simpa using hi) hacc hact
    obtain ⟨picked, -, -, -, hne⟩ := selectChunks_spec session middle index
       (range' (middle.nextChunks index) (chunkCount session.perOpBytes
        (items.get index) - middle.nextChunks index)) selection
    split at h
    · rename_i chosen hc
      cases h
      rw [hc] at hn hne
      exact ⟨rest, _, hn, .inr (.inl (hne (.inl rfl)))⟩
    · rename_i chosen hc
      rw [hc] at hn
      exact ih hn h

/-- A request that is not done has an incomplete wire operation where it stands,
and nothing is acknowledged beyond its length. -/
structure Pending (session : WriteSession σ) (st : BatchWaves σ items.length) : Prop where
  next : ∀ index, st.done index = false →
    st.nextChunks index < chunkCount session.perOpBytes (items.get index) ∧
      st.complete (index, st.nextChunks index) = false
  progress_le : ∀ wire, st.progress wire ≤ session.chunkLength items wire

/-- The state `st` and the selection while a wave is picked from `before`. -/
structure Picking (session : WriteSession σ) (before : BatchWaves σ items.length)
    (rest : List (Fin items.length)) (active : NfsFh → Option WriteWaveAccess)
    (selection : Selection items.length) (st : BatchWaves σ items.length) : Prop where
  progress : st.progress = before.progress
  complete : st.complete = before.complete
  nextChunks : st.nextChunks = before.nextChunks
  completePrefix : st.completePrefix = before.completePrefix
  done : st.done = before.done
  stable : st.stable = before.stable
  history : st.history = before.history
  openFiles : st.fs.openFiles = before.fs.openFiles
  wires : ∀ wire ∈ selection.selected, st.activated wire.1 = true ∧ before.done wire.1 = false ∧
    before.nextChunks wire.1 ≤ wire.2 ∧
    wire.2 < chunkCount session.perOpBytes (items.get wire.1) ∧ before.complete wire = false
  nodup : selection.selected.Nodup
  owners : ∀ wire ∈ selection.selected, wire.1 ∉ rest
  fresh : rest.Nodup
  active : ∀ fh, (active fh).isSome → selection.selected ≠ []
  passed : selection.selected = [] → ∀ index, index ∉ rest → before.done index = true

theorem Picking.pass {before st : BatchWaves σ items.length} {index : Fin items.length}
    {rest : List (Fin items.length)} {selection : Selection items.length}
    (h : Picking session before (index :: rest) active selection st) (hd : st.done index = true) :
    Picking session before rest active selection st := by
  obtain ⟨hi, hf⟩ := nodup_cons.mp h.fresh
  refine {h with fresh := hf, owners := ?_, passed := ?_}
  · intro wire hw hr
    exact h.owners wire hw (mem_cons_of_mem _ hr)
  intro he other ho
  by_cases heq : other = index
  · rw [heq, ← h.done]
    exact hd
  · exact h.passed he other (by simp [heq, ho])

theorem Picking.join {before st st' : BatchWaves σ items.length} {index : Fin items.length}
    {rest : List (Fin items.length)} {selection : Selection items.length} {access : WriteWaveAccess}
    (hpe : Pending session before) (h : Picking session before (index :: rest) active selection st)
    (hd : st.done index = false) (hac : Activated session st index st') :
    Picking session before rest (update active (items.get index).fh (some access))
      (session.selectChunks items st' index (range' (st'.nextChunks index)
        (chunkCount session.perOpBytes (items.get index) - st'.nextChunks index)) selection).1
      st' := by
  obtain ⟨hi, hfr⟩ := nodup_cons.mp h.fresh
  obtain ⟨picked, hs, hsu, hpa, hne⟩ := selectChunks_spec session st'
    index (range' (st'.nextChunks index)
      (chunkCount session.perOpBytes (items.get index) - st'.nextChunks index)) selection
  have hf : st'.complete = before.complete := hac.complete.trans h.complete
  have hnext : st'.nextChunks = before.nextChunks := hac.nextChunks.trans h.nextChunks
  have hb : before.done index = false := by rw [← h.done, hd]
  have hp : ∀ chunk ∈ picked, before.nextChunks index ≤ chunk ∧
      chunk < chunkCount session.perOpBytes (items.get index) := by
    intro chunk hc
    have hrn := mem_range'_1.mp (hsu.subset hc)
    rw [hnext] at hrn
    omega
  have hso : (session.selectChunks items st' index (range' (st'.nextChunks index)
      (chunkCount session.perOpBytes (items.get index) - st'.nextChunks index))
      selection).1.selected ≠ [] := by
    obtain ⟨hlt, hno⟩ := hpe.next index hb
    apply hne
    right
    refine ⟨before.nextChunks index, mem_range'_1.mpr ?_, by rw [hf]; exact hno⟩
    rw [hnext]
    omega
  refine ⟨hac.progress.trans h.progress, hf, hnext,
    hac.completePrefix.trans h.completePrefix, hac.done.trans h.done,
    hac.stable.trans h.stable, hac.history.trans h.history,
    hac.openFiles.trans h.openFiles, ?_, ?_, ?_, hfr, fun _ _ => hso,
    fun he => absurd he hso⟩
  · intro wire hw
    rw [hs] at hw
    rw [hac.activated]
    rcases mem_append.mp hw with hold | hn
    · obtain ⟨ha, hr⟩ := h.wires wire hold
      refine ⟨?_, hr⟩
      by_cases heq : wire.1 = index
      · simp [heq]
      · rw [update_of_ne heq]
        exact ha
    obtain ⟨chunk, hc, rfl⟩ := mem_map.mp hn
    refine ⟨by simp, hb, (hp chunk hc).1, (hp chunk hc).2, ?_⟩
    rw [← hf]
    exact hpa chunk hc
  · rw [hs, nodup_append]
    refine ⟨h.nodup, ?_, ?_⟩
    · apply Nodup.map (fun a b hab => (Prod.mk.inj hab).2)
      exact hsu.nodup nodup_range'
    · rintro wire hold _ hn rfl
      obtain ⟨chunk, -, rfl⟩ := mem_map.mp hn
      exact h.owners _ hold (by simp)
  intro wire hw hr
  rw [hs] at hw
  rcases mem_append.mp hw with hold | hn
  · exact h.owners wire hold (mem_cons_of_mem _ hr)
  · obtain ⟨chunk, -, rfl⟩ := mem_map.mp hn
    exact hi hr

theorem selectWave_ok {before st : BatchWaves σ items.length} {selection : Selection items.length}
    (hpe : Pending session before) (hn : ¬ ∀ index, before.done index = true)
    (h : session.selectWave items (finRange items.length) (fun _ => none) ⟨[], 0⟩ before =
      (.ok selection, st)) :
    (∃ rest active, Picking session before rest active selection st) ∧ selection.selected ≠ [] := by
  have hs : Picking session before (finRange items.length) (fun _ => none) ⟨[], 0⟩ before :=
    ⟨rfl, rfl, rfl, rfl, rfl, rfl, rfl, rfl, by simp, nodup_nil, by simp,
      nodup_finRange _, by simp, by simp⟩
  obtain ⟨rest, active, hp, he⟩ := selectWave_rule
    (fun index rest active selection st hst hd => hst.pass hd)
    (fun index rest active selection st access st' hst hd _ ha =>
      hst.join hpe hd ha) hs h
  refine ⟨⟨rest, active, hp⟩, ?_⟩
  rcases he with rfl | hso | ⟨fh, hfh⟩
  · intro hem
    exact hn fun index => hp.passed hem index (by simp)
  · exact hso
  · exact hp.active fh hfh

structure Acked (session : WriteSession σ) (st : BatchWaves σ items.length)
    (wire : Fin items.length × Nat) (result : Nat × UInt32) (st' : BatchWaves σ items.length) :
    Prop where
  count_le : result.1 ≤ session.chunkLength items wire - st.progress wire
  count_pos : result.1 = 0 → session.chunkLength items wire - st.progress wire = 0
  state : st' = {st with
    progress := update st.progress wire (st.progress wire + result.1)
    complete := update st.complete wire
      (st.progress wire + result.1 = session.chunkLength items wire)
    stable := update st.stable wire.1 (st.stable wire.1 && result.2 = fileSync)}

theorem acknowledge_cons_ok {wire : Fin items.length × Nat}
    {rest : List ((Fin items.length × Nat) × (Nat × UInt32))} {st st' : BatchWaves σ items.length}
    (h : session.acknowledge items ((wire, result) :: rest) st = .ok st') :
    ∃ middle, Acked session st wire result middle ∧
      session.acknowledge items rest middle = .ok st' := by
  unfold acknowledge at h
  dsimp only at h
  split at h
  · cases h
  · rename_i hv
    exact ⟨_, ⟨by omega, by omega, rfl⟩, h⟩

variable (session) in
/-- Bytes not taken yet, and one for each incomplete wire operation. -/
def outstanding (st : BatchWaves σ items.length) : Nat :=
  ∑ index, ∑ chunk ∈ Finset.range (chunkCount session.perOpBytes (items.get index)),
    (session.chunkLength items (index, chunk) - st.progress (index, chunk) +
      if st.complete (index, chunk) then 0 else 1)

theorem Acked.outstanding_lt {wire : Fin items.length × Nat} {st st' : BatchWaves σ items.length}
    (h : Acked session st wire result st') (hb : st.progress wire ≤ session.chunkLength items wire)
    (hw : wire.2 < chunkCount session.perOpBytes (items.get wire.1))
    (hpa : st.complete wire = false) : outstanding session st' < outstanding session st := by
  obtain ⟨index, chunk⟩ := wire
  have hc := h.count_le
  have hp := h.count_pos
  have ho : ∀ other, other ≠ (index, chunk) →
      session.chunkLength items other - st'.progress other + (if st'.complete other then 0 else 1) =
      session.chunkLength items other - st.progress other +
        (if st.complete other then 0 else 1) := by
    intro other ho
    rw [h.state]
    simp only [update_of_ne ho]
  have hs : session.chunkLength items (index, chunk) - st'.progress (index, chunk) +
      (if st'.complete (index, chunk) then 0 else 1) <
      session.chunkLength items (index, chunk) - st.progress (index, chunk) +
        (if st.complete (index, chunk) then 0 else 1) := by
    rw [h.state]
    simp only [update_self, hpa, Bool.false_eq_true, if_false, decide_eq_true_eq]
    split <;> omega
  have hle : ∀ other : Fin items.length × Nat,
      session.chunkLength items other - st'.progress other + (if st'.complete other then 0 else 1) ≤
      session.chunkLength items other - st.progress other +
        (if st.complete other then 0 else 1) := by
    intro other
    by_cases heq : other = (index, chunk)
    · rw [heq]
      exact Nat.le_of_lt hs
    · exact Nat.le_of_eq (ho other heq)
  apply Finset.sum_lt_sum
  · intro i _
    exact Finset.sum_le_sum fun k _ => hle (i, k)
  refine ⟨index, Finset.mem_univ _, ?_⟩
  apply Finset.sum_lt_sum
  · exact fun k _ => hle (index, k)
  · exact ⟨chunk, Finset.mem_range.mpr hw, hs⟩

/-- A wave of acknowledged wire operations, each once. -/
structure AckedAll (session : WriteSession σ) (st : BatchWaves σ items.length)
    (pairs : List ((Fin items.length × Nat) × (Nat × UInt32)))
    (st' : BatchWaves σ items.length) : Prop where
  fs : st'.fs = st.fs
  offsets : st'.offsets = st.offsets
  nextChunks : st'.nextChunks = st.nextChunks
  completePrefix : st'.completePrefix = st.completePrefix
  done : st'.done = st.done
  activated : st'.activated = st.activated
  history : st'.history = st.history
  other : ∀ wire, wire ∉ pairs.map Prod.fst →
    st'.progress wire = st.progress wire ∧ st'.complete wire = st.complete wire
  each : ∀ pair ∈ pairs, pair.2.1 ≤ session.chunkLength items pair.1 - st.progress pair.1 ∧
    (pair.2.1 = 0 → session.chunkLength items pair.1 - st.progress pair.1 = 0) ∧
    st'.progress pair.1 = st.progress pair.1 + pair.2.1 ∧
    st'.complete pair.1 = (st.progress pair.1 + pair.2.1 = session.chunkLength items pair.1)

theorem acknowledge_ok {pairs : List ((Fin items.length × Nat) × (Nat × UInt32))}
    {st st' : BatchWaves σ items.length} (hnd : (pairs.map Prod.fst).Nodup)
    (h : session.acknowledge items pairs st = .ok st') : AckedAll session st pairs st' := by
  induction pairs generalizing st with
  | nil =>
    obtain rfl := Except.ok.inj h
    exact ⟨rfl, rfl, rfl, rfl, rfl, rfl, rfl, by simp, by simp⟩
  | cons pair rest ih =>
    obtain ⟨wire, result⟩ := pair
    obtain ⟨middle, hfs, hr⟩ := acknowledge_cons_ok h
    rw [map_cons, nodup_cons] at hnd
    have ha := ih hnd.2 hr
    have hm := hfs.state
    have hmiddle_other : ∀ other, other ≠ wire → middle.progress other = st.progress other ∧
          middle.complete other = st.complete other := by
      intro other hne
      rw [hm]
      exact ⟨update_of_ne hne .., update_of_ne hne ..⟩
    refine ⟨by rw [ha.fs, hm], by rw [ha.offsets, hm],
      by rw [ha.nextChunks, hm], by rw [ha.completePrefix, hm],
      by rw [ha.done, hm], by rw [ha.activated, hm],
      by rw [ha.history, hm], ?_, ?_⟩
    · intro other ho
      rw [map_cons, mem_cons, not_or] at ho
      obtain ⟨hp, hf⟩ := ha.other other ho.2
      obtain ⟨hp', hf'⟩ := hmiddle_other other ho.1
      exact ⟨hp.trans hp', hf.trans hf'⟩
    intro other ho
    rcases mem_cons.mp ho with rfl | hme
    · obtain ⟨hp, hf⟩ := ha.other wire hnd.1
      refine ⟨hfs.count_le, hfs.count_pos, ?_, ?_⟩
      · rw [hp, hm]
        exact update_self ..
      · rw [hf, hm]
        simp
    have hne : other.1 ≠ wire := fun heq => hnd.1 (mem_map.mpr ⟨other, hme, heq⟩)
    obtain ⟨hp', -⟩ := hmiddle_other other.1 hne
    have he := ha.each other hme
    rwa [hp'] at he

theorem acknowledge_outstanding {pairs : List ((Fin items.length × Nat) × (Nat × UInt32))}
    {st st' : BatchWaves σ items.length} (hnd : (pairs.map Prod.fst).Nodup)
    (hb : ∀ wire, st.progress wire ≤ session.chunkLength items wire)
    (hwi : ∀ wire ∈ pairs.map Prod.fst,
      wire.2 < chunkCount session.perOpBytes (items.get wire.1) ∧ st.complete wire = false)
    (h : session.acknowledge items pairs st = .ok st') :
    outstanding session st' ≤ outstanding session st ∧
      (pairs ≠ [] → outstanding session st' < outstanding session st) := by
  induction pairs generalizing st with
  | nil =>
    obtain rfl := Except.ok.inj h
    exact ⟨Nat.le_refl _, fun h => absurd rfl h⟩
  | cons pair rest ih =>
    obtain ⟨wire, result⟩ := pair
    obtain ⟨middle, hf, hr⟩ := acknowledge_cons_ok h
    rw [map_cons, nodup_cons] at hnd
    obtain ⟨hw, hp⟩ := hwi wire (by simp)
    have hl := hf.outstanding_lt (hb wire) hw hp
    have hle := (ih hnd.2 (by
      intro other
      rw [hf.state]
      by_cases heq : other = wire
      · have := hf.count_le
        have := hb wire
        simp only [heq, update_self]
        omega
      · simp only [update_of_ne heq]
        exact hb other) (by
      intro other ho
      have hne : other ≠ wire := fun heq => hnd.1 (heq ▸ ho)
      rw [hf.state]
      simp only [update_of_ne hne]
      exact hwi other (by simp [ho])) hr).1
    have ha := Nat.lt_of_le_of_lt hle hl
    exact ⟨Nat.le_of_lt ha, fun _ => ha⟩

theorem advanceChunks_spec (session : WriteSession σ) (st : BatchWaves σ items.length)
    (index : Fin items.length) (fuel next done : Nat) :
    let pos := session.advanceChunks items st index fuel (next, done)
    next ≤ pos.1 ∧ pos.1 ≤ next + fuel ∧
      (∀ chunk, next ≤ chunk → chunk < pos.1 → st.complete (index, chunk) = true) ∧
      (pos.1 < next + fuel → st.complete (index, pos.1) = false) ∧
      pos.2 + ∑ chunk ∈ Finset.range next, session.chunkLength items (index, chunk) =
        done + ∑ chunk ∈ Finset.range pos.1, session.chunkLength items (index, chunk) := by
  induction fuel generalizing next done with
  | zero =>
    refine ⟨Nat.le_refl _, Nat.le_refl _, ?_, ?_, rfl⟩
    · intro chunk hl hh
      exact absurd hh (Nat.not_lt.mpr hl)
    · exact fun hlt => absurd hlt (Nat.lt_irrefl _)
  | succ fuel ih =>
    unfold advanceChunks
    split
    · rename_i hf
      obtain ⟨hle, hfu, hp, hs, hsu⟩ := ih (next + 1)
        (done + session.chunkLength items (index, next))
      refine ⟨by omega, by omega, ?_, ?_, ?_⟩
      · intro chunk hl hh
        rcases Nat.eq_or_lt_of_le hl with rfl | hlt
        · exact hf
        · exact hp chunk hlt hh
      · intro hlt
        exact hs (by omega)
      · rw [Finset.sum_range_succ] at hsu
        omega
    rename_i hpa
    refine ⟨Nat.le_refl _, by omega, ?_, ?_, rfl⟩
    · intro chunk hl hh
      omega
    · intro _
      simpa using hpa

variable (session) in
/-- Where a request stands after a wave, if it is under way. -/
theorem advanced_spec (st : BatchWaves σ items.length) (index : Fin items.length)
    (hn : st.nextChunks index ≤ chunkCount session.perOpBytes (items.get index)) :
    st.nextChunks index ≤ (session.advanced items st index).1 ∧
      (session.advanced items st index).1 ≤ chunkCount session.perOpBytes (items.get index) ∧
      (∀ chunk, st.nextChunks index ≤ chunk → chunk < (session.advanced items st index).1 →
        st.complete (index, chunk) = true) ∧
      ((session.advanced items st index).1 < chunkCount session.perOpBytes (items.get index) →
        st.complete (index, (session.advanced items st index).1) = false) ∧
      (session.advanced items st index).2 + ∑ chunk ∈ Finset.range (st.nextChunks index),
          session.chunkLength items (index, chunk) = st.completePrefix index +
        ∑ chunk ∈ Finset.range (session.advanced items st index).1,
          session.chunkLength items (index, chunk) := by
  obtain ⟨hle, hf, hp, hs, hsu⟩ := advanceChunks_spec session st index
    (chunkCount session.perOpBytes (items.get index) - st.nextChunks index)
    (st.nextChunks index) (st.completePrefix index)
  refine ⟨hle, ?_, hp, fun hlt => hs ?_, hsu⟩
  · change (session.advanceChunks ..).1 ≤ _
    omega
  · change (session.advanceChunks ..).1 < _ at hlt
    omega

structure WaveRound (session : WriteSession σ) (before : BatchWaves σ items.length)
    (selected : List (Fin items.length × Nat)) (st : BatchWaves σ items.length)
    (results : List (Nat × UInt32)) (nfs : σ) (acked : BatchWaves σ items.length) : Prop where
  selectWave : ∃ bytes, session.selectWave items (finRange items.length) (fun _ => none)
    ⟨[], 0⟩ before = (.ok ⟨selected, bytes⟩, st)
  picking : ∃ rest active bytes, Picking session before rest active ⟨selected, bytes⟩ st
  nonempty : selected ≠ []
  writev : session.writev st.fs.nfs (selected.map (session.wireOp items st)) = (.ok results, nfs)
  length_eq : results.length = selected.length
  acknowledge : session.acknowledge items (selected.zip results) {st with
    fs := {st.fs with nfs}
    history := st.history ++
      session.sentWrites items st selected (results.map Prod.fst)} = .ok acked

theorem waveStep_inl {before after : BatchWaves σ items.length} (hpe : Pending session before)
    (h : session.waveStep items before = .inl after) :
    ∃ selected st results nfs acked, WaveRound session before selected st results nfs acked ∧
        after = session.finishWave items acked := by
  unfold waveStep at h
  split at h
  · cases h
  rename_i hn
  split at h
  · cases h
  rename_i selection st hs
  obtain ⟨⟨rest, active, hp⟩, hso⟩ := selectWave_ok hpe hn hs
  dsimp only at h
  split at h
  · cases h
  rename_i results nfs hw
  split at h
  · cases h
  rename_i hl
  split at h
  · cases h
  rename_i acked ha
  exact ⟨selection.selected, st, results, nfs, acked,
    ⟨⟨selection.bytes, hs⟩, ⟨rest, active, selection.bytes, hp⟩, hso, hw,
      not_not.mp hl, ha⟩, (Sum.inl.inj h).symm⟩

theorem waveStep_inr_ok {st final : BatchWaves σ items.length}
    (h : session.waveStep items st = .inr (.ok (), final)) :
    (∀ index, st.done index = true) ∧ final = st := by
  unfold waveStep at h
  split at h
  · rename_i hd
    cases h
    exact ⟨hd, rfl⟩
  split at h
  · cases h
  dsimp only at h
  split at h
  · cases h
  · split at h
    · cases h
    · split at h <;> cases h

section

variable {before st acked : BatchWaves σ items.length} {selected : List (Fin items.length × Nat)}
  {results : List (Nat × UInt32)} {nfs : σ}

theorem WaveRound.pairs_fst (h : WaveRound session before selected st results nfs acked) :
    (selected.zip results).map Prod.fst = selected :=
  map_fst_zip (Nat.le_of_eq h.length_eq.symm)

theorem WaveRound.ackedAll (h : WaveRound session before selected st results nfs acked) :
    AckedAll session {st with
      fs := {st.fs with nfs}
      history := st.history ++ session.sentWrites items st selected (results.map Prod.fst)}
      (selected.zip results) acked := by
  obtain ⟨rest, active, bytes, hp⟩ := h.picking
  apply acknowledge_ok _ h.acknowledge
  rw [h.pairs_fst]
  exact hp.nodup

theorem WaveRound.progress_le (h : WaveRound session before selected st results nfs acked)
    (hpe : Pending session before) (wire : Fin items.length × Nat) :
    acked.progress wire ≤ session.chunkLength items wire := by
  obtain ⟨rest, active, bytes, hpi⟩ := h.picking
  have ha := h.ackedAll
  have hb := hpe.progress_le wire
  rw [← hpi.progress] at hb
  by_cases hm : wire ∈ selected
  · rw [← h.pairs_fst] at hm
    obtain ⟨pair, hpa, rfl⟩ := mem_map.mp hm
    obtain ⟨hc, -, hp, -⟩ := ha.each pair hpa
    rw [hp]
    dsimp only at hc ⊢
    omega
  · obtain ⟨hp, -⟩ := ha.other wire (by rwa [h.pairs_fst])
    rw [hp]
    exact hb

/-- What was complete stays so; only wire operations of the wave change. -/
theorem WaveRound.complete_of_not_mem (h : WaveRound session before selected st results nfs acked)
    {wire : Fin items.length × Nat} (hm : wire ∉ selected) :
    acked.complete wire = before.complete wire ∧ acked.progress wire = before.progress wire := by
  obtain ⟨rest, active, bytes, hp⟩ := h.picking
  obtain ⟨hpr, hf⟩ := h.ackedAll.other wire (by rwa [h.pairs_fst])
  rw [hp.progress] at hpr
  rw [hp.complete] at hf
  exact ⟨hf, hpr⟩

theorem WaveRound.pending (h : WaveRound session before selected st results nfs acked)
    (hpe : Pending session before) : Pending session (session.finishWave items acked) := by
  obtain ⟨rest, active, bytes, hp⟩ := h.picking
  have ha := h.ackedAll
  have hn : acked.nextChunks = before.nextChunks := ha.nextChunks.trans hp.nextChunks
  have hd : acked.done = before.done := ha.done.trans hp.done
  refine ⟨?_, h.progress_le hpe⟩
  intro index hi
  by_cases hl : (acked.activated index && !acked.done index) = true
  · have hb : before.done index = false := by
      rw [← hd]
      simpa using (Bool.and_eq_true_iff.mp hl).2
    obtain ⟨hlt, -⟩ := hpe.next index hb
    rw [← hn] at hlt
    obtain ⟨-, hle, -, hs, -⟩ := advanced_spec session acked index (Nat.le_of_lt hlt)
    simp only [finishWave, hl, if_true, decide_eq_false_iff_not] at hi ⊢
    have hless : (session.advanced items acked index).1 <
        chunkCount session.perOpBytes (items.get index) := Nat.lt_of_le_of_ne hle hi
    exact ⟨hless, hs hless⟩
  simp only [finishWave, hl, Bool.false_eq_true, if_false] at hi ⊢
  have hb : before.done index = false := by rw [← hd, hi]
  obtain ⟨hlt, hpa⟩ := hpe.next index hb
  rw [hn]
  refine ⟨hlt, ?_⟩
  -- Only wire operations of activated requests are in the wave.
  have hm : (index, before.nextChunks index) ∉ selected := by
    intro hm
    obtain ⟨hac, -⟩ := hp.wires _ hm
    have hack : acked.activated index = true := by
      rw [ha.activated]
      exact hac
    simp [hack, hi] at hl
  rw [(h.complete_of_not_mem hm).1]
  exact hpa

theorem WaveRound.outstanding_lt (h : WaveRound session before selected st results nfs acked)
    (hpe : Pending session before) :
    outstanding session (session.finishWave items acked) < outstanding session before := by
  obtain ⟨rest, active, bytes, hp⟩ := h.picking
  have hb := hpe.progress_le
  rw [← hp.progress] at hb
  have hwi : ∀ wire ∈ (selected.zip results).map Prod.fst,
      wire.2 < chunkCount session.perOpBytes (items.get wire.1) ∧ st.complete wire = false := by
    intro wire hw
    rw [h.pairs_fst] at hw
    obtain ⟨-, -, -, hlt, hpa⟩ := hp.wires wire hw
    rw [← hp.complete] at hpa
    exact ⟨hlt, hpa⟩
  have hnd : ((selected.zip results).map Prod.fst).Nodup := by
    rw [h.pairs_fst]
    exact hp.nodup
  have hs : selected.zip results ≠ [] := by
    intro hn
    have := h.pairs_fst
    rw [hn] at this
    exact h.nonempty this.symm
  have hl := (acknowledge_outstanding hnd (by exact hb) (by exact hwi) h.acknowledge).2 hs
  have hsa : outstanding session {st with
      fs := {st.fs with nfs}
      history := st.history ++ session.sentWrites items st selected (results.map Prod.fst)} =
      outstanding session before := by
    simp only [outstanding, hp.progress, hp.complete]
  rw [hsa] at hl
  exact hl

end

variable (session items)

/-- The wave loop. Every round leaves fewer bytes or fewer wire operations. -/
def waveBody : Loop.Body {st : BatchWaves σ items.length // Pending session st}
    (VfResult Unit × BatchWaves σ items.length) Nat :=
  Loop.Body.within (session.waveStep items) (outstanding session)
    (by
      intro st st' hpending hstep
      obtain ⟨selected, middle, results, nfs, acked, hround, rfl⟩ := waveStep_inl hpending hstep
      exact hround.pending hpending)
    (by
      intro st st' hpending hstep
      obtain ⟨selected, middle, results, nfs, acked, hround, rfl⟩ := waveStep_inl hpending hstep
      exact hround.outstanding_lt hpending)

variable (fs : NfsFs σ)

def firstWave : BatchWaves σ items.length where
  fs := fs
  offsets index := (items.get index).initial
  progress _ := 0
  complete _ := false
  nextChunks _ := 0
  completePrefix _ := 0
  done _ := false
  activated _ := false
  stable _ := true
  history := []

theorem firstWave_pending : Pending session (firstWave items fs) where
  next index _ := by
    have hp := session.perOpBytes_pos
    refine ⟨Nat.div_pos ?_ hp, rfl⟩
    omega
  progress_le _ := Nat.zero_le _

def runWaves : VfResult Unit × BatchWaves σ items.length :=
  Loop.run (session.waveBody items) ⟨firstWave items fs, firstWave_pending session items fs⟩

def waveResults (st : BatchWaves σ items.length) : List WriteResult :=
  (finRange items.length).map fun index =>
    ⟨(items.get index).file, st.offsets index, (items.get index).data.length, st.stable index⟩

def vwriteBatchNfs (writes : List WriteRequest) :
    VfResult (List WriteResult) × NfsFs σ :=
  match session.validateWrites fs [] 0 writes with
  | (.error error, fs) => (.error error, fs)
  | (.ok items, fs) =>
    let (outcome, st) := session.runWaves items fs
    (outcome.map fun _ => waveResults items st, st.fs)

end Vnfs.Nfs.WriteSession
