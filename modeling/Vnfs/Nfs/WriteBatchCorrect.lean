import Vnfs.Nfs.WriteBatchOrder

/-!
A whole wave keeps the requests serial: the results add to what the files hold,
and the pass behind them moves on and leaves each cursor behind the last `Cur`
write that is done. At the end everything is done, and the files, cursors and
results are those of the writes one after another. What was sent is recorded on
the way: nothing acknowledged is sent a second time.
-/

namespace Vnfs.Nfs.WriteSession

open ByteFile SameOpens Function Loop
open List hiding min

variable {σ : Type} {session : WriteSession σ} {items : List BatchItem}

section Acknowledge

variable {files : NfsFh → Bytes} {st st' : BatchWaves σ items.length}

/-- The results of a wave, one WRITE after another, are what the files hold. -/
theorem acknowledge_contents {pairs : List ((Fin items.length × Nat) × (Nat × UInt32))}
    (st₀ : BatchWaves σ items.length) (hnd : (pairs.map Prod.fst).Nodup)
    (hwi : ∀ wire ∈ pairs.map Prod.fst, st.activated wire.1 = true ∧ st.done wire.1 = false ∧
      wire.2 < chunkCount session.perOpBytes (items.get wire.1) ∧
      session.wireOp items st₀ wire = session.wireOp items st wire)
    (hbn : ∀ wire, st.progress wire ≤ session.chunkLength items wire)
    (hc : ∀ index, st.done index = false → ∀ later, index < later →
      (items.get later).fh = (items.get index).fh → st.activated later = true →
      WriteWaveAccess.Apart (rangeOf items st index) (rangeOf items st later))
    (hb : ∀ wire, 0 < st.progress wire → st.activated wire.1 = true)
    (h : session.acknowledge items pairs st = .ok st') :
    pairs.foldl (fun files pair => writeTo files (session.wireOp items st₀ pair.1).fh
        (session.wireOp items st₀ pair.1).offset
        ((session.wireOp items st₀ pair.1).data.take pair.2.1)) (contents session files st) =
      contents session files st' := by
  induction pairs generalizing st with
  | nil =>
    obtain rfl := Except.ok.inj h
    rfl
  | cons pair rest ih =>
    obtain ⟨wire, result⟩ := pair
    obtain ⟨middle, hf, hr⟩ := acknowledge_cons_ok h
    rw [map_cons, nodup_cons] at hnd
    obtain ⟨hac, hdo, hw, hop⟩ := hwi wire (by simp)
    have hm := hf.state
    have hot : ∀ other, other ≠ wire → middle.progress other = st.progress other := by
      intro other hne
      rw [hm]
      exact update_of_ne hne ..
    have hs : middle.progress wire = st.progress wire + result.1 := by
      rw [hm]
      exact update_self ..
    have ho : middle.offsets = st.offsets := by rw [hm]
    have ha : middle.activated = st.activated := by rw [hm]
    have hd : middle.done = st.done := by rw [hm]
    have hc' : Clear st wire.1 := by
      rintro later hlt hfh ⟨chunk, hp⟩
      exact hc wire.1 hdo later hlt hfh (hb _ hp)
    have hg : contents session files middle = writeTo (contents session files st)
        (session.wireOp items st wire).fh (session.wireOp items st wire).offset
        ((session.wireOp items st wire).data.take result.1) :=
      contents_grow hw hc' (hbn wire) ho (by rw [hm])
    rw [foldl_cons]
    rw [hop, ← hg]
    apply ih hnd.2 _ _ _ _ hr
    · intro other hme
      have hne : other ≠ wire := fun heq => hnd.1 (heq ▸ hme)
      obtain ⟨hact, hn, hlt, hsa⟩ := hwi other (by simp [hme])
      rw [ha, hd]
      refine ⟨hact, hn, hlt, hsa.trans ?_⟩
      simp only [wireOp, ho, hot other hne]
    · intro other
      by_cases heq : other = wire
      · have := hf.count_le
        have := hbn wire
        rw [heq, hs]
        omega
      · rw [hot other heq]
        exact hbn other
    · unfold rangeOf
      rw [hd, ha, ho]
      exact hc
    intro other hp
    rw [ha]
    by_cases heq : other = wire
    · rw [heq]
      exact hac
    · rw [hot other heq] at hp
      exact hb other hp

end Acknowledge

section Finish

/-- A pass that sets some cursors, in input order. -/
private def setCursors {n : Nat} (fds : Fin n → Int) (ends : Fin n → Nat) (moves : Fin n → Prop)
    [DecidablePred moves] (openFiles : Int → Option NfsOpenState) (indices : List (Fin n)) :
    Int → Option NfsOpenState :=
  indices.foldl (fun openFiles index =>
    if moves index then advanceOffset openFiles (fds index) (ends index) else openFiles) openFiles

variable {n : Nat} {fds : Fin n → Int} {ends : Fin n → Nat} {moves : Fin n → Prop}
  [DecidablePred moves] (openFiles : Int → Option NfsOpenState)

theorem sameOpens_setCursors (indices : List (Fin n)) :
    SameOpens openFiles (setCursors fds ends moves openFiles indices) := by
  unfold setCursors
  induction indices generalizing openFiles with
  | nil => exact refl _
  | cons index rest ih =>
    rw [foldl_cons]
    apply trans _ (ih _)
    split
    · exact SameOpens.advanceOffset openFiles _ _
    · exact refl _

theorem setCursors_of_ne {indices : List (Fin n)} {fd : Int}
    (hfd : ∀ index ∈ indices, moves index → fds index ≠ fd) :
    setCursors fds ends moves openFiles indices fd = openFiles fd := by
  unfold setCursors
  induction indices generalizing openFiles with
  | nil => rfl
  | cons index rest ih =>
    rw [foldl_cons, ih _ fun other ho => hfd other (mem_cons_of_mem _ ho)]
    split
    · rename_i hm
      have hne := hfd index (mem_cons_self ..) hm
      rw [advanceOffset, update_of_ne fun h => hne h.symm]
    · rfl

theorem setCursors_last {last : Fin n} (hl : moves last)
    (hma : ∀ index, moves index → fds index = fds last → index ≤ last) :
    setCursors fds ends moves openFiles (finRange n) (fds last) =
      (openFiles (fds last)).map fun opened => {opened with curOffset := ends last} := by
  obtain ⟨front, back, hsp⟩ := append_of_mem (mem_finRange last)
  have hs := pairwise_lt_finRange n
  rw [hsp, pairwise_append, pairwise_cons] at hs
  have hb : ∀ index ∈ back, moves index → fds index ≠ fds last := by
    intro index hi hm hfd
    exact absurd (hs.2.1.1 index hi) (not_lt_of_ge (hma index hm hfd))
  rw [hsp]
  have hc : setCursors fds ends moves openFiles (front ++ last :: back) =
      setCursors fds ends moves (advanceOffset (setCursors fds ends moves openFiles front)
        (fds last) (ends last)) back := by
    simp only [setCursors, foldl_append, foldl_cons, hl, if_true]
  rw [hc, setCursors_of_ne _ hb, advanceOffset, update_self,
    ← (sameOpens_setCursors openFiles front).set]

variable {files : σ → NfsFh → Bytes} {s : FileState} {st : BatchWaves σ items.length}

/-- The requests the pass looks at. -/
private def Live (st : BatchWaves σ items.length) (index : Fin items.length) : Prop :=
  (st.activated index && !st.done index) = true

private instance (st : BatchWaves σ items.length) : DecidablePred (Live st) :=
  fun index => inferInstanceAs (Decidable ((st.activated index && !st.done index) = true))

variable (session) in
theorem finishWave_not_live {index : Fin items.length} (hl : ¬ Live st index) :
    (session.finishWave items st).nextChunks index = st.nextChunks index ∧
      (session.finishWave items st).completePrefix index = st.completePrefix index ∧
      (session.finishWave items st).done index = st.done index := by
  unfold Live at hl
  simp only [WriteSession.finishWave, hl, Bool.false_eq_true, if_false, and_self]

variable (session) in
theorem finishWave_live {index : Fin items.length} (hl : Live st index) :
    (session.finishWave items st).nextChunks index = (session.advanced items st index).1 ∧
      (session.finishWave items st).completePrefix index = (session.advanced items st index).2 ∧
      ((session.finishWave items st).done index = true ↔ (session.advanced items st index).1 =
        chunkCount session.perOpBytes (items.get index)) := by
  unfold Live at hl
  simp only [WriteSession.finishWave, hl, if_true, decide_eq_true_eq, and_self]

variable (session) in
theorem finishWave_openFiles (st : BatchWaves σ items.length) : ∃ ends : Fin items.length → Nat,
    (session.finishWave items st).fs.openFiles = setCursors (fun index => (items.get index).fd) ends
      (fun index => Live st index ∧ (items.get index).offset = .cur) st.fs.openFiles
      (finRange items.length) ∧
    ∀ index, (session.finishWave items st).done index = true →
      ends index = st.offsets index + (session.finishWave items st).completePrefix index := by
  refine ⟨_, rfl, ?_⟩
  intro index hd
  change st.offsets index + ((session.finishWave items st).completePrefix index +
    if (session.finishWave items st).done index = true then 0 else _) = _
  rw [if_pos hd, Nat.add_zero]

theorem sum_chunkLength (session : WriteSession σ) (index : Fin items.length) :
    ∑ chunk ∈ Finset.range (chunkCount session.perOpBytes (items.get index)),
      session.chunkLength items (index, chunk) = (items.get index).data.length := by
  have hs := sum_chunkData_length session.perOpBytes (items.get index)
    (chunkCount session.perOpBytes (items.get index))
  rw [Nat.min_eq_right (chunkCount_mul _ _ session.perOpBytes_pos)] at hs
  exact hs

theorem Serial.finishWave_counters (h : Serial session files s st)
    (hn : ∀ index, st.done index = false →
      st.nextChunks index ≤ chunkCount session.perOpBytes (items.get index))
    (index : Fin items.length) :
    ((session.finishWave items st).done index = true → st.activated index = true ∧
      (session.finishWave items st).nextChunks index =
        chunkCount session.perOpBytes (items.get index)) ∧
    (∀ chunk, chunk < (session.finishWave items st).nextChunks index →
      st.complete (index, chunk) = true) ∧
    (session.finishWave items st).completePrefix index =
      ∑ chunk ∈ Finset.range ((session.finishWave items st).nextChunks index),
        session.chunkLength items (index, chunk) := by
  by_cases hl : Live st index
  · obtain ⟨hn', hcount', hd'⟩ := finishWave_live session hl
    obtain ⟨ha, hd⟩ : st.activated index = true ∧ st.done index = false := by
      simpa [Live] using hl
    obtain ⟨hle, -, hp, -, hs⟩ := advanced_spec session st index (hn index hd)
    rw [hn', hcount', hd']
    refine ⟨fun heq => ⟨ha, heq⟩, ?_, ?_⟩
    · intro chunk hc
      rcases Nat.lt_or_ge chunk (st.nextChunks index) with hlt | hge
      · exact h.passed index chunk hlt
      · exact hp chunk hge hc
    · have := h.counted index
      omega
  · obtain ⟨hn', hcount', hd'⟩ := finishWave_not_live session hl
    rw [hn', hcount', hd']
    exact ⟨h.finished index, h.passed index, h.counted index⟩

theorem Serial.finishWave (h : Serial session files s st) (hch : Checked s items)
    (hne : ∀ index, st.done index = false →
      st.nextChunks index ≤ chunkCount session.perOpBytes (items.get index)) :
    Serial session files s (session.finishWave items st) := by
  obtain ⟨ends, ho, he⟩ := finishWave_openFiles session st
  have hc := h.finishWave_counters hne
  have hl : ∀ index, Live st index → st.activated index = true ∧ st.done index = false := by
    intro index hi
    simpa [Live] using hi
  have hu : ∀ index, (session.finishWave items st).done index = false → st.done index = false := by
    intro index hd
    by_cases hi : Live st index
    · exact (hl index hi).2
    · rwa [(finishWave_not_live session hi).2.2] at hd
  refine ⟨?_, h.contents, h.placed, h.initial, h.begun, fun index => (hc index).1,
    h.complete, fun index => (hc index).2.1, fun index => (hc index).2.2, ?_, ?_, ?_⟩
  · rw [ho]
    exact h.opens.trans (sameOpens_setCursors _ _)
  · intro earlier index hlt hfh ha hd
    exact h.order earlier index hlt hfh ha (hu earlier hd)
  · intro fd hn
    rw [ho, setCursors_of_ne]
    · exact h.unmoved fd hn
    rintro index - ⟨hi, hcu⟩ hfd
    have := hn index hfd hcu
    rw [show (session.finishWave items st).activated index = true from (hl index hi).1] at this
    cases this
  intro last hcu hd hm
  rw [ho]
  by_cases hla : Live st last
  · rw [setCursors_last _ ⟨hla, hcu⟩ (by
      rintro index ⟨hi, hcu'⟩ hfd
      exact hm index hfd hcu' (hl index hi).1)]
    obtain ⟨hf, -, hco⟩ := hc last
    rw [he last hd, hco, (hf hd).2, sum_chunkLength, h.opens.set]
    rfl
  have hb : st.done last = true := by
    rwa [(finishWave_not_live session hla).2.2] at hd
  rw [setCursors_of_ne]
  · exact h.moved last hcu hb hm
  -- A `Cur` write still under way would have kept this one waiting.
  rintro index - ⟨hi, hcu'⟩ hfd
  obtain ⟨ha, hu'⟩ := hl index hi
  have hlt : index < last := by
    apply lt_of_le_of_ne (hm index hfd hcu' ha)
    rintro rfl
    exact hla hi
  obtain ⟨-, hp, -⟩ := h.order index last hlt (hch.same_fh hfd) (h.finished last hb).1 hu'
  obtain ⟨opened, -, -, -, hpo⟩ := hch.described last
  have := (hpo hp).2
  rw [hcu] at this
  cases this

end Finish

section Round

variable {files : σ → NfsFh → Bytes} {s : FileState} {before st acked : BatchWaves σ items.length}
  {selected : List (Fin items.length × Nat)} {results : List (Nat × UInt32)} {nfs : σ}

theorem Serial.acknowledged_files (h : Serial session files s st) (hch : Checked s items)
    (hh : session.Honest files) (hpe : Pending session before)
    (hr : WaveRound session before selected st results nfs acked) :
    files nfs = WriteSession.contents session s.files acked := by
  obtain ⟨rest, active, bytes, hp⟩ := hr.picking
  have hal := hr.ackedAll
  have hb := hpe.progress_le
  rw [← hp.progress] at hb
  have hz : (selected.map (session.wireOp items st)).zip results =
      (selected.zip results).map fun pair => (session.wireOp items st pair.1, pair.2) := by
    rw [zip_map_left]
    rfl
  have hw := hh.writev _ _ _ _ hr.writev (by simp [hr.length_eq]) (by
    intro pair hpa
    rw [hz] at hpa
    obtain ⟨origin, ho, rfl⟩ := mem_map.mp hpa
    obtain ⟨hc, -⟩ := hal.each origin ho
    simpa [wireOp, chunkLength] using hc)
  rw [hz, foldl_map, h.contents] at hw
  rw [hw]
  apply acknowledge_contents st _ _ _ _ _ hr.acknowledge
  · rw [hr.pairs_fst]
    exact hp.nodup
  · intro wire hwi
    rw [hr.pairs_fst] at hwi
    obtain ⟨ha, hd, -, hlt, -⟩ := hp.wires wire hwi
    rw [← hp.done] at hd
    exact ⟨ha, hd, hlt, rfl⟩
  · exact hb
  · intro index hd later hlt hfh ha
    obtain ⟨hpo, hpo', hap⟩ := h.order index later hlt hfh.symm ha hd
    unfold rangeOf
    rw [h.offset_positional hch hpo, h.offset_positional hch hpo']
    exact hap
  · exact h.begun

theorem Serial.acknowledged (h : Serial session files s st) (hchk : Checked s items)
    (hh : session.Honest files) (hpe : Pending session before)
    (hr : WaveRound session before selected st results nfs acked) :
    Serial session files s acked := by
  obtain ⟨rest, active, bytes, hpi⟩ := hr.picking
  have ha := hr.ackedAll
  have hk : ∀ wire, st.complete wire = true → wire ∉ selected := by
    intro wire hc hm
    obtain ⟨-, -, -, -, hpa⟩ := hpi.wires wire hm
    rw [← hpi.complete, hc] at hpa
    cases hpa
  have ho : ∀ wire, wire ∉ selected →
      acked.progress wire = st.progress wire ∧ acked.complete wire = st.complete wire := by
    intro wire hm
    exact ha.other wire (by rwa [hr.pairs_fst])
  have hfs : acked.fs = {st.fs with nfs} := ha.fs
  refine ⟨?_, ?_, ?_, ?_, ?_, ?_, ?_, ?_, ?_, ?_, ?_, ?_⟩
  · rw [hfs]
    exact h.opens
  · rw [hfs]
    exact h.acknowledged_files hchk hh hpe hr
  · rw [ha.activated, ha.offsets]
    exact h.placed
  · rw [ha.activated, ha.offsets]
    exact h.initial
  · intro wire hp
    rw [ha.activated]
    by_cases hm : wire ∈ selected
    · exact (hpi.wires wire hm).1
    · rw [(ho wire hm).1] at hp
      exact h.begun wire hp
  · rw [ha.done, ha.activated, ha.nextChunks]
    exact h.finished
  · intro wire hc
    by_cases hm : wire ∈ selected
    · rw [← hr.pairs_fst] at hm
      obtain ⟨pair, hpair, rfl⟩ := mem_map.mp hm
      obtain ⟨-, -, hp, hf⟩ := ha.each pair hpair
      rw [hf] at hc
      rw [hp]
      simpa using hc
    obtain ⟨hp, hs⟩ := ho wire hm
    rw [hs] at hc
    rw [hp]
    exact h.complete wire hc
  · intro index chunk hch
    rw [ha.nextChunks] at hch
    have hc := h.passed index chunk hch
    rw [(ho _ (hk _ hc)).2]
    exact hc
  · rw [ha.completePrefix, ha.nextChunks]
    exact h.counted
  · rw [ha.activated, ha.done]
    exact h.order
  · rw [hfs, ha.activated]
    exact h.unmoved
  · rw [hfs, ha.activated, ha.done, ha.offsets]
    exact h.moved

theorem Serial.round {after : BatchWaves σ items.length} (h : Serial session files s before)
    (hc : Checked s items) (hh : session.Honest files) (hpe : Pending session before)
    (hst : session.waveStep items before = .inl after) : Serial session files s after := by
  obtain ⟨selected, st, results, nfs, acked, hr, rfl⟩ := waveStep_inl hpe hst
  obtain ⟨rest, active, bytes, hp⟩ := hr.picking
  obtain ⟨bytes', hs⟩ := hr.selectWave
  have hpi := h.selectWave hc hh hs
  have hac := hpi.acknowledged hc hh hpe hr
  apply hac.finishWave hc
  intro index hd
  have ha := hr.ackedAll
  have hb : before.done index = false := by
    rw [← hp.done]
    rw [ha.done] at hd
    exact hd
  rw [ha.nextChunks]
  rw [hp.nextChunks]
  exact Nat.le_of_lt (hpe.next index hb).1

end Round

section History

/-- No byte that the server acknowledged for `earlier` is part of `later`. -/
def Fresh {n : Nat} (earlier later : SentWrite n) : Prop :=
  earlier.index = later.index → ∀ byte, earlier.first ≤ byte →
    byte < earlier.first + earlier.count →
    ¬ (later.first ≤ byte ∧ byte < later.first + later.length)

/-- Everything acknowledged is part of the progress of its chunk. -/
structure Recorded (session : WriteSession σ) (st : BatchWaves σ items.length) : Prop where
  taken : ∀ sent ∈ st.history, ∃ chunk, chunk * session.perOpBytes ≤ sent.first ∧
    sent.first + sent.count ≤ chunk * session.perOpBytes + st.progress (sent.index, chunk)
  fresh : st.history.Pairwise Fresh

variable {st acked before : BatchWaves σ items.length} {selected : List (Fin items.length × Nat)}
  {results : List (Nat × UInt32)} {nfs : σ}

theorem chunk_eq_of_byte (per chunk chunk' byte : Nat) (hl : chunk * per ≤ byte)
    (hh : byte < chunk * per + per) (hl' : chunk' * per ≤ byte)
    (hh' : byte < chunk' * per + per) : chunk = chunk' := by
  rcases Nat.lt_trichotomy chunk chunk' with hlt | heq | hlt
  · have := Nat.mul_le_mul_right per hlt
    rw [Nat.succ_mul] at this
    omega
  · exact heq
  · have := Nat.mul_le_mul_right per hlt
    rw [Nat.succ_mul] at this
    omega

theorem chunkLength_le (session : WriteSession σ) (wire : Fin items.length × Nat) :
    session.chunkLength items wire ≤ session.perOpBytes := by
  unfold chunkLength
  rw [chunkData_length]
  exact Nat.min_le_left ..

/-- A wave sends nothing that is acknowledged, and nothing twice. -/
theorem Recorded.sends (h : Recorded session st)
    (hb : ∀ wire, st.progress wire ≤ session.chunkLength items wire)
    (hnd : selected.Nodup) (counts : List Nat) :
    (st.history ++ session.sentWrites items st selected counts).Pairwise Fresh := by
  rw [pairwise_append]
  refine ⟨h.fresh, ?_, ?_⟩
  · unfold sentWrites
    rw [pairwise_map]
    have hw : ((selected.zip (counts ++ replicate selected.length 0)).map
        Prod.fst).Pairwise (· ≠ ·) := by
      rw [map_fst_zip (by simp)]
      exact hnd
    rw [pairwise_map] at hw
    refine hw.imp ?_
    rintro ⟨⟨index, chunk⟩, count⟩ ⟨⟨index', chunk'⟩, count'⟩ hne hi byte hl hh ⟨hl', hh'⟩
    obtain rfl : index = index' := hi
    have := chunkLength_le session (index, chunk)
    have := chunkLength_le session (index, chunk')
    dsimp only [sentWrite] at hl hh hl' hh'
    apply hne
    rw [chunk_eq_of_byte session.perOpBytes chunk chunk' byte (by omega) (by omega) (by omega)
      (by omega)]
  intro sent hs later hla hi byte hl hh
  rintro ⟨hl', hh'⟩
  obtain ⟨chunk, hf, hlast⟩ := h.taken sent hs
  obtain ⟨⟨⟨index, chunk'⟩, count⟩, -, rfl⟩ := mem_map.mp hla
  obtain rfl : sent.index = index := hi
  have := chunkLength_le session (sent.index, chunk)
  have := chunkLength_le session (sent.index, chunk')
  have := hb (sent.index, chunk)
  dsimp only [sentWrite] at hl' hh'
  obtain rfl := chunk_eq_of_byte session.perOpBytes chunk chunk' byte (by omega) (by omega)
    (by omega) (by omega)
  omega

theorem Recorded.picked (h : Recorded session before) (hp : st.progress = before.progress)
    (hh : st.history = before.history) : Recorded session st := by
  refine ⟨?_, ?_⟩
  · rw [hp, hh]
    exact h.taken
  · rw [hh]
    exact h.fresh

theorem Recorded.round {after : BatchWaves σ items.length} (h : Recorded session before)
    (hpe : Pending session before) (hst : session.waveStep items before = .inl after) :
    Recorded session after := by
  obtain ⟨selected, st, results, nfs, acked, hr, rfl⟩ := waveStep_inl hpe hst
  obtain ⟨rest, active, bytes, hp⟩ := hr.picking
  have ha := hr.ackedAll
  have hpi := h.picked hp.progress hp.history
  have hb := hpe.progress_le
  rw [← hp.progress] at hb
  have hg : ∀ wire, st.progress wire ≤ acked.progress wire := by
    intro wire
    by_cases hm : wire ∈ selected
    · rw [← hr.pairs_fst] at hm
      obtain ⟨pair, hpa, rfl⟩ := mem_map.mp hm
      obtain ⟨-, -, hpr, -⟩ := ha.each pair hpa
      rw [hpr]
      exact Nat.le_add_right ..
    · exact Nat.le_of_eq (ha.other wire (by rwa [hr.pairs_fst])).1.symm
  have hh : (session.finishWave items acked).history =
      st.history ++ session.sentWrites items st selected (results.map Prod.fst) := ha.history
  constructor
  · intro sent hs
    rw [hh] at hs
    change ∃ chunk, _ ∧ _ ≤ _ + acked.progress (sent.index, chunk)
    rcases mem_append.mp hs with hold | hn
    · obtain ⟨chunk, hf, hl⟩ := hpi.taken sent hold
      exact ⟨chunk, hf, Nat.le_trans hl (Nat.add_le_add_left (hg _) _)⟩
    unfold sentWrites at hn
    have hz : selected.zip (results.map Prod.fst ++ replicate selected.length 0) =
        selected.zip (results.map Prod.fst) := by
      have hle : selected.length = (results.map Prod.fst).length := by
        rw [length_map, hr.length_eq]
      conv_lhs => rw [← append_nil selected, zip_append hle, zip_nil_left, append_nil]
    rw [hz, zip_map_right, map_map] at hn
    obtain ⟨⟨⟨index, chunk⟩, result⟩, hpa, rfl⟩ := mem_map.mp hn
    obtain ⟨-, -, hpr, -⟩ := ha.each _ hpa
    dsimp only at hpr
    refine ⟨chunk, Nat.le_add_right .., ?_⟩
    dsimp only [comp, sentWrite, Prod.map, id]
    omega
  · rw [hh]
    exact hpi.sends hb hp.nodup _

theorem activate_history (session : WriteSession σ) (st : BatchWaves σ items.length)
    (index : Fin items.length) : (session.activate items st index).2.history = st.history := by
  unfold activate
  split
  · rfl
  dsimp only
  split
  · rfl
  · split <;> rfl

theorem selectWave_history (session : WriteSession σ) (indices : List (Fin items.length))
    (active : NfsFh → Option WriteWaveAccess) (selection : Selection items.length)
    (st : BatchWaves σ items.length) :
    (session.selectWave items indices active selection st).2.history = st.history := by
  induction indices generalizing active selection st with
  | nil => rfl
  | cons index rest ih =>
    have ha := activate_history session st index
    unfold selectWave
    split
    · exact ih ..
    dsimp only
    split
    · rfl
    split
    · rename_i heq
      rw [heq] at ha
      exact ha
    rename_i heq
    rw [heq] at ha
    split
    · exact ha
    · rw [ih]
      exact ha

theorem Recorded.exit {outcome : VfResult Unit} {final : BatchWaves σ items.length}
    (h : Recorded session before) (hpe : Pending session before)
    (hst : session.waveStep items before = .inr (outcome, final)) :
    final.history.Pairwise Fresh := by
  unfold waveStep at hst
  split at hst
  · cases hst
    exact h.fresh
  rename_i hn
  split at hst
  · rename_i hse
    have hh := selectWave_history session (finRange items.length) (fun _ => none) ⟨[], 0⟩ before
    rw [hse] at hh
    cases hst
    rw [hh]
    exact h.fresh
  rename_i selection st hse
  obtain ⟨⟨rest, active, hp⟩, -⟩ := selectWave_ok hpe hn hse
  have hpi := h.picked hp.progress hp.history
  have hb := hpe.progress_le
  rw [← hp.progress] at hb
  have hs := hpi.sends hb hp.nodup
  dsimp only at hst
  split at hst
  · cases hst
    exact hs []
  split at hst
  · cases hst
    exact hs _
  split at hst
  · cases hst
    exact hs _
  · cases hst

end History

section Run

variable {files : σ → NfsFh → Bytes} {fs fs' : NfsFs σ} {writes : List WriteRequest} {s : FileState}

theorem checked_of_validateWrites (hh : session.Honest files)
    (h : session.validateWrites fs [] 0 writes = (.ok items, fs')) :
    Checked (view files fs) items := by
  obtain ⟨hd, -, hpw, -⟩ := hh.validateWrites_ok h
  refine ⟨?_, ?_⟩
  · intro index
    obtain ⟨hl, hg⟩ := forall₂_iff_get.mp hd
    exact (hg index.val (by rw [hl]; exact index.isLt) index.isLt).described
  · intro index hf earlier hlt
    exact pairwise_iff_get.mp hpw earlier index hlt hf

theorem firstWave_serial (h : view files fs = s) : Serial session files s (firstWave items fs) := by
  subst h
  refine ⟨refl _, ?_, by simp [firstWave], fun _ _ => rfl, by simp [firstWave],
    by simp [firstWave], by simp [firstWave], by simp [firstWave], by simp [firstWave],
    by simp [firstWave], fun _ _ => rfl, by simp [firstWave]⟩
  have hn : ∀ fh, (files fs.nfs) fh =
      WriteSession.contents session (files fs.nfs) (firstWave items fs) fh := by
    intro fh
    unfold WriteSession.contents
    induction cells session items with
    | nil => rfl
    | cons wire rest ih =>
      simpa [writeCell, firstWave] using ih
  exact funext hn

/-- When the waves end well, everything is done, in input order. -/
theorem runWaves_ok (hh : session.Honest files) (hc : Checked s items) (hv : view files fs = s)
    {final : BatchWaves σ items.length} (h : session.runWaves items fs = (.ok (), final)) :
    Serial session files s final ∧ ∀ index, final.done index = true := by
  have he := run_invariant (session.waveBody items) (P := fun st => Serial session files s st.1)
    (Q := fun r => r.1 = .ok () → Serial session files s r.2 ∧ ∀ index, r.2.done index = true)
    (fun st st' hst hs =>
      hst.round hc hh st.2 (within_step_inl hs))
    (fun st r hst hs hok => by
      obtain ⟨outcome, last⟩ := r
      obtain rfl := hok
      obtain ⟨hd, rfl⟩ := waveStep_inr_ok (within_step_inr hs)
      exact ⟨hst, hd⟩)
    (s := ⟨firstWave items fs, firstWave_pending session items fs⟩) (firstWave_serial hv)
  unfold runWaves at h
  rw [h] at he
  exact he rfl

theorem runWaves_fresh (session : WriteSession σ) (items : List BatchItem) (fs : NfsFs σ) :
    (session.runWaves items fs).2.history.Pairwise Fresh := by
  apply run_invariant (session.waveBody items) (P := fun st => Recorded session st.1)
    (Q := fun r => r.2.history.Pairwise Fresh)
  · intro st st' hst hs
    exact hst.round st.2 (within_step_inl hs)
  · intro st r hst hs
    exact hst.exit st.2 (within_step_inr hs)
  · exact ⟨by simp [firstWave], by simp [firstWave]⟩

/-- The waves are at most as many as bytes and wire operations. -/
theorem rounds_le (session : WriteSession σ) (items : List BatchItem) (fs : NfsFs σ) :
    rounds (session.waveBody items) ⟨firstWave items fs, firstWave_pending session items fs⟩ ≤
      ∑ index, ((items.get index).data.length +
        chunkCount session.perOpBytes (items.get index)) := by
  have hr := rounds_le_variant (session.waveBody items)
    ⟨firstWave items fs, firstWave_pending session items fs⟩
  have hv : outstanding session (firstWave items fs) = ∑ index, ((items.get index).data.length +
        chunkCount session.perOpBytes (items.get index)) := by
    apply Finset.sum_congr rfl
    intro index _
    simp only [firstWave, Nat.sub_zero, Bool.false_eq_true, if_false]
    rw [Finset.sum_add_distrib, sum_chunkLength, ← Finset.card_eq_sum_ones, Finset.card_range]
  exact hv ▸ hr

/-- On success the vector has done what its requests do one at a time. -/
theorem vwriteBatchNfs_ok (hh : session.Honest files) {results : List WriteResult}
    (h : session.vwriteBatchNfs fs writes = (.ok results, fs')) :
    (view files fs).writeInOrder writes = some (view files fs',
      results.map fun result => (result.file, result.offset, result.bytesWritten)) := by
  unfold vwriteBatchNfs at h
  split at h
  · cases h
  rename_i items middle hv
  obtain ⟨hd, -, -, hvi⟩ := hh.validateWrites_ok hv
  have hc := checked_of_validateWrites hh hv
  cases hr : session.runWaves items middle with
  | mk outcome final =>
    rw [hr] at h
    cases outcome with
    | error error => cases h
    | ok u =>
      cases h
      obtain ⟨hs, hdo⟩ := runWaves_ok hh hc hvi hr
      have ha := fun index => (hs.finished index (hdo index)).1
      have hb : ∀ index : Fin items.length, items.length ≤ index.val →
          final.activated index = false :=
        fun index hle => absurd index.isLt (Nat.not_lt.mpr hle)
      have hfs : (view files fs).inOrder items items.length = view files final.fs := by
        apply FileState.ext
        · funext fd
          exact (hs.cursor_settled (Nat.le_refl _) (fun index _ _ => hdo index)
            fun index hle _ => hb index hle).symm
        · funext fh
          exact (hs.settled (Nat.le_refl _) (fun index _ _ => hdo index)
            fun index hle _ => hb index hle).symm
      rw [FileState.writeInOrder_items hd (refl _), hfs, waveResults, map_map]
      congr 2
      apply map_congr_left
      intro index _
      simp only [comp, hs.placed index (ha index)]

/-- For every vector of writes through descriptors and every honest server: on
success the files, the cursors and the reported offsets and counts are those of
the complete writes one at a time, in input order. Whatever the outcome, no byte
the server acknowledged is sent again, and there are at most as many waves as
bytes and wire operations. -/
theorem vwriteBatchNfs_sequential (session : WriteSession σ) (files : σ → NfsFh → Bytes)
    (hhonest : session.Honest files) (fs : NfsFs σ) (writes : List WriteRequest) :
    (∀ results fs', session.vwriteBatchNfs fs writes = (.ok results, fs') →
      (view files fs).writeInOrder writes = some (view files fs',
        results.map fun result => (result.file, result.offset, result.bytesWritten))) ∧
    ∀ items fs', session.validateWrites fs [] 0 writes = (.ok items, fs') →
      (session.runWaves items fs').2.history.Pairwise Fresh ∧
      Loop.rounds (session.waveBody items)
          ⟨firstWave items fs', firstWave_pending session items fs'⟩ ≤
        ∑ index, ((items.get index).data.length +
          chunkCount session.perOpBytes (items.get index)) := by
  constructor
  · intro results fs' h
    exact vwriteBatchNfs_ok hhonest h
  · intro items fs' _
    exact ⟨runWaves_fresh session items fs', rounds_le session items fs'⟩

theorem vwriteBatchNfs_of_runFor (session : WriteSession σ) (fuel : Nat) {items : List BatchItem}
    {outcome : VfResult (List WriteResult)}
    (hv : session.validateWrites fs [] 0 writes = (.ok items, fs'))
    (h : (runFor (session.waveBody items) fuel
        ⟨firstWave items fs', firstWave_pending session items fs'⟩).map
      (fun r => r.1.map fun _ => waveResults items r.2) = some outcome) :
    (session.vwriteBatchNfs fs writes).1 = outcome := by
  unfold vwriteBatchNfs
  rw [hv]
  exact run_of_runFor (session.waveBody items) fuel
    (fun r => r.1.map fun _ => waveResults items r.2) h

/-- A server that takes one byte of each WRITE. -/
private def oneByteSession : WriteSession (NfsFh → Bytes) where
  maxRequestArgBytes := 1027
  fileSize files fh := (.ok (files fh).length, files)
  writev files ops :=
    let results := ops.map fun op => (min 1 op.data.length, fileSync)
    (.ok results, (ops.zip results).foldl (fun files pair =>
      writeTo files pair.1.fh pair.1.offset (pair.1.data.take pair.2.1)) files)

theorem oneByteSession_honest : oneByteSession.Honest fun files => files where
  fileSize files fh size files' h := by
    cases h
    exact ⟨rfl, rfl⟩
  writev files ops results files' h _ _ := by
    cases h
    rfl

/-- One file, open twice: at its beginning, and for appending. -/
private def openTwice : NfsFs (NfsFh → Bytes) where
  openFiles fd := if fd = 3 then some ⟨⟨[1]⟩, specialStateid, 0, false⟩
    else if fd = 4 then some ⟨⟨[1]⟩, specialStateid, 0, true⟩ else none
  nfs _ := []

private def alternating : List WriteRequest :=
  [⟨.fd 3, .cur, [97, 98], false, false⟩, ⟨.fd 4, .pos 0, [99], false, false⟩,
    ⟨.fd 3, .cur, [100], false, false⟩]

theorem vwriteBatchNfs_sequential_alternating :
    ∃ results fs', oneByteSession.vwriteBatchNfs openTwice alternating = (.ok results, fs') ∧
      results = [⟨.fd 3, 0, 2, true⟩, ⟨.fd 4, 2, 1, true⟩, ⟨.fd 3, 2, 1, true⟩] ∧
      fs'.nfs ⟨[1]⟩ = [97, 98, 100] := by
  have hresults : (oneByteSession.vwriteBatchNfs openTwice alternating).1 =
      .ok [⟨.fd 3, 0, 2, true⟩, ⟨.fd 4, 2, 1, true⟩, ⟨.fd 3, 2, 1, true⟩] := by
    apply vwriteBatchNfs_of_runFor oneByteSession 5 rfl
    decide +kernel
  have hrun : oneByteSession.vwriteBatchNfs openTwice alternating =
      (.ok [⟨.fd 3, 0, 2, true⟩, ⟨.fd 4, 2, 1, true⟩, ⟨.fd 3, 2, 1, true⟩],
        (oneByteSession.vwriteBatchNfs openTwice alternating).2) :=
    Prod.ext hresults rfl
  refine ⟨_, _, hrun, rfl, ?_⟩
  have hfiles := (vwriteBatchNfs_sequential oneByteSession (fun files => files)
    oneByteSession_honest openTwice alternating).1 _ _ hrun
  have hexpected : ((view (fun files => files) openTwice).writeInOrder alternating).map
      (fun pair => pair.1.files ⟨[1]⟩) = some [97, 98, 100] := by
    decide +kernel
  rw [hfiles] at hexpected
  exact Option.some.inj hexpected

end Run

end Vnfs.Nfs.WriteSession
