import Vnfs.Nfs.WriteContents

/-!
The waves of `vwrite_batch_nfs` are serialisable in input order. Only positional
requests without common bytes overtake one another, so that a chunk that grows
out of turn commutes with everything behind it. A request whose position depends
on others asks for it when everything before it on its file is done and nothing
behind it has begun, and so gets the position it has in input order.
-/

namespace Vnfs.Nfs.WriteSession

open ByteFile Function FileState Option

variable {σ : Type} {session : WriteSession σ} {items : List BatchItem}

/-- The items are what the checks leave behind in the state `s`. -/
structure Checked (s : FileState) (items : List BatchItem) : Prop where
  described : ∀ index, ∃ opened, s.openFiles (items.get index).fd = some opened ∧
    opened.fh = (items.get index).fh ∧
    (items.get index).initial = s.place opened (items.get index).offset ∧
    ((items.get index).positional = true → opened.append = false ∧
      (items.get index).offset = .pos (items.get index).initial)
  first : ∀ index, (items.get index).predecessor = false → ∀ earlier, earlier < index →
    (items.get earlier).fh ≠ (items.get index).fh

def fixedRange (items : List BatchItem) (index : Fin items.length) : Nat × Nat :=
  ((items.get index).initial, (items.get index).initial + (items.get index).data.length)

section Places

variable {s s' : FileState} {index : Fin items.length}

theorem Checked.same_fh (h : Checked s items) {other : Fin items.length}
    (hfd : (items.get index).fd = (items.get other).fd) :
    (items.get index).fh = (items.get other).fh := by
  obtain ⟨opened, ho, hfh, -⟩ := h.described index
  obtain ⟨opened', ho', hfh', -⟩ := h.described other
  rw [hfd, ho'] at ho
  rw [← hfh, ← hfh', Option.some.inj ho]

theorem Checked.placeItem_initial (h : Checked s items) (index : Fin items.length) :
    s.placeItem (items.get index) = (items.get index).initial := by
  obtain ⟨opened, ho, -, hi, -⟩ := h.described index
  simp only [placeItem, ho, map_some, getD_some, hi]

/-- The place of a positional request does not depend on the state. -/
theorem Checked.placeItem_positional (h : Checked s items)
    (hpo : (items.get index).positional = true) (hopn : SameOpens s.openFiles s'.openFiles) :
    s'.placeItem (items.get index) = (items.get index).initial := by
  obtain ⟨opened, ho, -, -, hp⟩ := h.described index
  obtain ⟨ha, hof⟩ := hp hpo
  obtain ⟨cursor, ho'⟩ := hopn.some ho
  simp only [placeItem, ho', map_some, getD_some, place,
    ha, Bool.false_eq_true, if_false, hof, position]

theorem Checked.placeInOrder_positional (h : Checked s items)
    (hp : (items.get index).positional = true) :
    s.placeInOrder items index = (items.get index).initial :=
  h.placeItem_positional hp (s.sameOpens_inOrder items index)

/-- The place of a request that comes first on its file is the one checked. -/
theorem Checked.placeInOrder_first (h : Checked s items)
    (hf : (items.get index).predecessor = false) :
    s.placeInOrder items index = (items.get index).initial := by
  obtain ⟨opened, ho, hfh, -⟩ := h.described index
  have hne := h.first index hf
  rw [← h.placeItem_initial index]
  apply placeItem_congr ho hfh
  · rcases s.openFiles_inOrder items (items.get index).fd index (Nat.le_of_lt index.isLt) with
      ⟨-, hopn⟩ | ⟨last, hlt, hfd, -⟩
    · exact hopn
    · exact absurd (h.same_fh hfd) (hne last hlt)
  · exact s.files_inOrder_of_ne (Nat.le_of_lt index.isLt) hne

end Places

/-- What the wave loop keeps: the files hold what is acknowledged, and what is
acknowledged of a request is where input order would have it. -/
structure Serial (session : WriteSession σ) (files : σ → NfsFh → Bytes) (s : FileState)
    (st : BatchWaves σ items.length) : Prop where
  opens : SameOpens s.openFiles st.fs.openFiles
  contents : files st.fs.nfs = contents session s.files st
  placed : ∀ index, st.activated index = true → st.offsets index = s.placeInOrder items index
  initial : ∀ index, st.activated index = false → st.offsets index = (items.get index).initial
  begun : ∀ wire, 0 < st.progress wire → st.activated wire.1 = true
  finished : ∀ index, st.done index = true → st.activated index = true ∧
    st.nextChunks index = chunkCount session.perOpBytes (items.get index)
  complete : ∀ wire, st.complete wire = true → st.progress wire = session.chunkLength items wire
  passed : ∀ index chunk, chunk < st.nextChunks index → st.complete (index, chunk) = true
  counted : ∀ index, st.completePrefix index =
    ∑ chunk ∈ Finset.range (st.nextChunks index), session.chunkLength items (index, chunk)
  /-- Only positional requests without common bytes overtake one another. -/
  order : ∀ earlier index, earlier < index →
    (items.get earlier).fh = (items.get index).fh → st.activated index = true →
    st.done earlier = false → (items.get earlier).positional = true ∧
      (items.get index).positional = true ∧
      WriteWaveAccess.Apart (fixedRange items earlier) (fixedRange items index)
  unmoved : ∀ fd, (∀ index, (items.get index).fd = fd → (items.get index).offset = .cur →
    st.activated index = false) → st.fs.openFiles fd = s.openFiles fd
  moved : ∀ last, (items.get last).offset = .cur → st.done last = true →
    (∀ index, (items.get index).fd = (items.get last).fd → (items.get index).offset = .cur →
      st.activated index = true → index ≤ last) →
    st.fs.openFiles (items.get last).fd = (s.openFiles (items.get last).fd).map fun opened =>
      {opened with curOffset := st.offsets last + (items.get last).data.length}

namespace Serial

variable {files : σ → NfsFh → Bytes} {s : FileState} {st st' : BatchWaves σ items.length}
  {index : Fin items.length} {count : Nat}

theorem offset_positional (h : Serial session files s st) (hc : Checked s items)
    (hp : (items.get index).positional = true) : st.offsets index = (items.get index).initial := by
  cases ha : st.activated index with
  | true => rw [h.placed index ha, hc.placeInOrder_positional hp]
  | false => exact h.initial index ha

theorem all_acknowledged (h : Serial session files s st) (hd : st.done index = true)
    {chunk : Nat} (hc : chunk < chunkCount session.perOpBytes (items.get index)) :
    st.progress (index, chunk) = session.chunkLength items (index, chunk) := by
  apply h.complete
  apply h.passed
  rw [(h.finished index hd).2]
  exact hc

theorem none_acknowledged (h : Serial session files s st) (ha : st.activated index = false)
    (chunk : Nat) : st.progress (index, chunk) = 0 := by
  apply Nat.eq_zero_of_not_pos
  intro hp
  have := h.begun _ hp
  rw [ha] at this
  cases this

/-- The file and the cursors between two requests, if everything before is done
and nothing behind has begun. -/
theorem settled (h : Serial session files s st) (hc : count ≤ items.length) {fh : NfsFh}
    (hb : ∀ index : Fin items.length, index.val < count → (items.get index).fh = fh →
      st.done index = true)
    (hbe : ∀ index : Fin items.length, count ≤ index.val → (items.get index).fh = fh →
      st.activated index = false) : files st.fs.nfs fh = (s.inOrder items count).files fh := by
  rw [h.contents]
  apply contents_settled hc
  · intro index hi hfh
    have hd := hb index hi hfh
    exact ⟨h.placed index (h.finished index hd).1, fun chunk => h.all_acknowledged hd⟩
  · intro index hi hfh
    exact h.none_acknowledged (hbe index hi hfh)

theorem cursor_settled (h : Serial session files s st) (hcn : count ≤ items.length) {fd : Int}
    (hb : ∀ index : Fin items.length, index.val < count → (items.get index).fd = fd →
      st.done index = true)
    (hbe : ∀ index : Fin items.length, count ≤ index.val → (items.get index).fd = fd →
      st.activated index = false) : st.fs.openFiles fd = (s.inOrder items count).openFiles fd := by
  have hac : ∀ index, (items.get index).fd = fd → st.activated index = true →
      index.val < count := by
    intro index hfd ha
    rcases Nat.lt_or_ge index.val count with hlt | hge
    · exact hlt
    · rw [hbe index hge hfd] at ha
      cases ha
  rcases s.openFiles_inOrder items fd count hcn with
    ⟨hn, ho⟩ | ⟨last, hlt, hfd, hc, hma, ho⟩
  · rw [ho]
    apply h.unmoved
    intro index hfd hc
    cases ha : st.activated index with
    | false => rfl
    | true => exact absurd hc (hn index (hac index hfd ha) hfd)
  have hd := hb last hlt hfd
  have hm := h.moved last hc hd (by
    intro index hi hc' ha
    rw [hfd] at hi
    exact hma index (hac index hi ha) hi hc')
  rw [hfd] at hm
  rw [hm, ho, h.placed last (h.finished last hd).1]

/-- A request that depends on others, with all before it done, finds its place. -/
theorem place_settled (h : Serial session files s st) (hc : Checked s items)
    (hp : (items.get index).positional = false) (hd : st.done index = false)
    (ha : st.activated index = false)
    (hbe : ∀ earlier, earlier < index → (items.get earlier).fh = (items.get index).fh →
      st.done earlier = true) :
    (view files st.fs).placeItem (items.get index) = s.placeInOrder items index := by
  have hb : ∀ later : Fin items.length, index.val ≤ later.val →
      (items.get later).fh = (items.get index).fh → st.activated later = false := by
    intro later hle hfh
    rcases Nat.eq_or_lt_of_le hle with heq | hlt
    · rw [← Fin.ext heq]
      exact ha
    cases hl : st.activated later with
    | false => rfl
    | true =>
      have ho := h.order index later hlt hfh.symm hl hd
      rw [hp] at ho
      cases ho.1
  have hlt := Nat.le_of_lt index.isLt
  obtain ⟨opened, hopen, hfh, -⟩ := hc.described index
  obtain ⟨cursor, hopen'⟩ := (s.sameOpens_inOrder items index).some hopen
  apply placeItem_congr hopen' hfh
  · apply h.cursor_settled hlt
    · exact fun earlier hear hfd => hbe earlier hear (hc.same_fh hfd)
    · exact fun later hl hfd => hb later hl (hc.same_fh hfd)
  · exact h.settled hlt hbe hb

theorem activated_offset (h : Serial session files s st) (hc : Checked s items)
    (hh : session.Honest files) (hs : Activated session st index st') (hd : st.done index = false)
    (hj : ∀ earlier, earlier < index → (items.get earlier).fh = (items.get index).fh →
      st.done earlier = false → (items.get index).positional = true) :
    view files st'.fs = view files st.fs ∧
      st'.offsets = update st.offsets index (s.placeInOrder items index) := by
  rcases hs.offset with ⟨ho, hfs, hf⟩ | ⟨ha, offset, ho, hr⟩
  · refine ⟨by rw [hfs], ?_⟩
    have hpl : st.offsets index = s.placeInOrder items index := by
      cases ha : st.activated index with
      | true => exact h.placed index ha
      | false =>
        rw [h.initial index ha]
        symm
        cases hp : (items.get index).positional with
        | true => exact hc.placeInOrder_positional hp
        | false =>
          apply hc.placeInOrder_first
          rw [ha, hp, Bool.not_false, Bool.and_true] at hf
          exact hf.resolve_left Bool.false_ne_true
    rw [ho, ← hpl, update_eq_self]
  obtain ⟨opened, hopen, -⟩ := hc.described index
  obtain ⟨cursor, hopen'⟩ := h.opens.some hopen
  obtain ⟨hpl, hv⟩ := hh.writeOffset_ok hopen' hr
  refine ⟨hv, ?_⟩
  have hi : offset = (view files st.fs).placeItem (items.get index) := by
    rw [hpl]
    simp only [placeItem, view, hopen', map_some, getD_some]
  rw [ho, hi]
  congr 1
  cases hp : (items.get index).positional with
  | true =>
    rw [hc.placeInOrder_positional hp]
    exact hc.placeItem_positional hp h.opens
  | false =>
    apply h.place_settled hc hp hd ha
    intro earlier hlt hfh
    cases hear : st.done earlier with
    | true => rfl
    | false =>
      have := hj earlier hlt hfh hear
      rw [hp] at this
      cases this

/-- A request joins a wave: nothing before it on its file is under way, or only
positional requests without common bytes are. -/
theorem activate (h : Serial session files s st) (hch : Checked s items) (hh : session.Honest files)
    (hst : Activated session st index st') (hd : st.done index = false)
    (hj : ∀ earlier, earlier < index → (items.get earlier).fh = (items.get index).fh →
      st.done earlier = false → (items.get earlier).positional = true ∧
        (items.get index).positional = true ∧
        WriteWaveAccess.Apart (fixedRange items earlier) (fixedRange items index)) :
    Serial session files s st' := by
  obtain ⟨hv, hof⟩ := h.activated_offset hch hh hst hd
    fun earlier hlt hfh hear => (hj earlier hlt hfh hear).2.1
  have hopn : st'.fs.openFiles = st.fs.openFiles := congrArg openFiles hv
  have hfs : files st'.fs.nfs = files st.fs.nfs := congrArg FileState.files hv
  have hs : st'.activated index = true := by rw [hst.activated, update_self]
  have ho : ∀ other, other ≠ index → st'.activated other = st.activated other ∧
      st'.offsets other = st.offsets other := by
    intro other hne
    rw [hst.activated, hof, update_of_ne hne, update_of_ne hne]
    exact ⟨rfl, rfl⟩
  have hm : ∀ other, st.activated other = true → st'.activated other = true := by
    intro other ha
    by_cases heq : other = index
    · rw [heq, hs]
    · rw [(ho other heq).1, ha]
  have hu : ∀ other, st'.activated other = false → st.activated other = false := by
    intro other ha
    cases hb : st.activated other with
    | false => rfl
    | true => rw [hm other hb] at ha; cases ha
  -- A new offset moves nothing: of the request nothing is acknowledged.
  have hco : ∀ fh, writeCell session st' fh = writeCell session st fh := by
    intro fh
    funext file wire
    simp only [writeCell, hst.progress]
    by_cases heq : wire.1 = index
    · cases ha : st.activated index with
      | true => rw [hof, heq, update_self, h.placed index ha]
      | false =>
        have hn : st.progress wire = 0 := by
          have := h.none_acknowledged ha wire.2
          rwa [← heq] at this
        rw [hn, List.take_zero, pwrite_nil, pwrite_nil]
    · rw [(ho wire.1 heq).2]
  refine ⟨?_, ?_, ?_, ?_, ?_, ?_, ?_, ?_, ?_, ?_, ?_, ?_⟩
  · rw [hopn]
    exact h.opens
  · rw [hfs, h.contents]
    funext fh
    unfold WriteSession.contents
    rw [hco]
  · intro other ha
    by_cases heq : other = index
    · rw [heq, hof, update_self]
    obtain ⟨hac, hoff⟩ := ho other heq
    rw [hoff]
    rw [hac] at ha
    exact h.placed other ha
  · intro other ha
    have hne : other ≠ index := by
      rintro rfl
      rw [hs] at ha
      cases ha
    rw [(ho other hne).2]
    exact h.initial other (hu other ha)
  · intro wire hp
    rw [hst.progress] at hp
    exact hm _ (h.begun wire hp)
  · intro other ho
    rw [hst.done] at ho
    rw [hst.nextChunks]
    exact ⟨hm _ (h.finished other ho).1, (h.finished other ho).2⟩
  · rw [hst.complete, hst.progress]
    exact h.complete
  · rw [hst.complete, hst.nextChunks]
    exact h.passed
  · rw [hst.completePrefix, hst.nextChunks]
    exact h.counted
  · intro earlier other hlt hfh ha hear
    rw [hst.done] at hear
    by_cases heq : other = index
    · rw [heq] at hlt hfh ⊢
      exact hj earlier hlt hfh hear
    · rw [(ho other heq).1] at ha
      exact h.order earlier other hlt hfh ha hear
  · intro fd hn
    rw [hopn]
    exact h.unmoved fd fun other hfd hc => hu other (hn other hfd hc)
  intro last hc hl hma
  rw [hst.done] at hl
  have hne : last ≠ index := by
    rintro rfl
    rw [hd] at hl
    cases hl
  rw [hopn, (ho last hne).2]
  exact h.moved last hc hl fun other hfd hc' hac =>
    hma other hfd hc' (hm other hac)

end Serial

/-- The pass that picks a wave: its index knows every request it has passed that
is still under way. -/
structure Gathering (session : WriteSession σ) (files : σ → NfsFh → Bytes) (s : FileState)
    (rest : List (Fin items.length)) (active : NfsFh → Option WriteWaveAccess)
    (st : BatchWaves σ items.length) : Prop where
  serial : Serial session files s st
  sorted : rest.Pairwise (· < ·)
  passed : ∀ index, index ∉ rest → ∀ later ∈ rest, index < later
  alone : ∀ index, index ∉ rest → active (items.get index).fh = none → st.done index = true
  known : ∀ fh access, active fh = some access → ∃ members, access.Knows members ∧
    ∀ index, index ∉ rest → (items.get index).fh = fh → st.done index = false →
      ∃ range, (range, (items.get index).positional) ∈ members ∧
        ((items.get index).positional = true → range = fixedRange items index)

section Gathering

variable {files : σ → NfsFh → Bytes} {s : FileState} {st st' : BatchWaves σ items.length}
  {index : Fin items.length} {rest : List (Fin items.length)}
  {active : NfsFh → Option WriteWaveAccess} {access : WriteWaveAccess}

theorem Gathering.pass (h : Gathering session files s (index :: rest) active st)
    (hd : st.done index = true) : Gathering session files s rest active st := by
  obtain ⟨hi, hs⟩ := List.pairwise_cons.mp h.sorted
  refine ⟨h.serial, hs, ?_, ?_, ?_⟩
  · intro other ho later hl
    by_cases heq : other = index
    · rw [heq]
      exact hi later hl
    · exact h.passed other (by simp [heq, ho]) later (List.mem_cons_of_mem _ hl)
  · intro other ho hn
    by_cases heq : other = index
    · rw [heq]
      exact hd
    · exact h.alone other (by simp [heq, ho]) hn
  intro fh access ha
  obtain ⟨members, hk, hm⟩ := h.known fh access ha
  refine ⟨members, hk, ?_⟩
  intro other ho hfh ho'
  by_cases heq : other = index
  · rw [heq, hd] at ho'
    cases ho'
  · exact hm other (by simp [heq, ho]) hfh ho'

/-- What the index says when a request joins, and what it knows then. -/
theorem Gathering.joins (h : Gathering session files s (index :: rest) active st)
    (hc : Checked s items) (hac : joinWave active (items.get index).fh (rangeOf items st index)
      (items.get index).positional = some access) :
    (∀ earlier, earlier < index → (items.get earlier).fh = (items.get index).fh →
      st.done earlier = false → (items.get earlier).positional = true ∧
        (items.get index).positional = true ∧
        WriteWaveAccess.Apart (fixedRange items earlier) (fixedRange items index)) ∧
    ∃ members, access.Knows members ∧
      (rangeOf items st index, (items.get index).positional) ∈ members ∧
      ∀ earlier, earlier ∉ index :: rest → (items.get earlier).fh = (items.get index).fh →
        st.done earlier = false → ∃ range, (range, (items.get earlier).positional) ∈ members ∧
          ((items.get earlier).positional = true → range = fixedRange items earlier) := by
  have hpa : ∀ earlier, earlier < index → earlier ∉ index :: rest := by
    intro earlier hlt hm
    rcases List.mem_cons.mp hm with rfl | hre
    · exact absurd hlt (lt_irrefl _)
    · exact absurd hlt (lt_asymm ((List.pairwise_cons.mp h.sorted).1 earlier hre))
  unfold joinWave at hac
  split at hac
  · rename_i hn
    obtain rfl := Option.some.inj hac
    refine ⟨?_, _, WriteWaveAccess.knows_new _ _, by simp, ?_⟩
    · intro earlier hlt hfh hd
      rw [h.alone earlier (hpa earlier hlt) (by rw [hfh, hn])] at hd
      cases hd
    · intro earlier hear hfh hd
      rw [h.alone earlier hear (by rw [hfh, hn])] at hd
      cases hd
  rename_i access₀ hs
  obtain ⟨members, hk, hme⟩ := h.known _ access₀ hs
  obtain ⟨hp, ha, hk'⟩ := WriteWaveAccess.admits_eq_some hk hac
  refine ⟨?_, _, hk', by simp, ?_⟩
  · intro earlier hlt hfh hd
    obtain ⟨range, hm, hr⟩ := hme earlier (hpa earlier hlt) hfh hd
    obtain ⟨hpo, hap⟩ := ha _ hm
    refine ⟨hpo, hp, ?_⟩
    rw [hr hpo] at hap
    unfold rangeOf at hap
    rwa [h.serial.offset_positional hc hp] at hap
  · intro earlier hear hfh hd
    obtain ⟨range, hm, hr⟩ := hme earlier hear hfh hd
    exact ⟨range, List.mem_append_left _ hm, hr⟩

theorem Gathering.join (h : Gathering session files s (index :: rest) active st)
    (hc : Checked s items) (hh : session.Honest files) (hd : st.done index = false)
    (ha : joinWave active (items.get index).fh (rangeOf items st index)
      (items.get index).positional = some access) (hst : Activated session st index st') :
    Gathering session files s rest (update active (items.get index).fh (some access)) st' := by
  obtain ⟨hj, members, hk, hmb, hm⟩ := h.joins hc ha
  obtain ⟨hi, hs⟩ := List.pairwise_cons.mp h.sorted
  have hr : (items.get index).positional = true →
      rangeOf items st index = fixedRange items index := by
    intro hp
    unfold rangeOf
    rw [h.serial.offset_positional hc hp]
    rfl
  refine ⟨h.serial.activate hc hh hst hd hj, hs, ?_, ?_, ?_⟩
  · intro other ho later hl
    by_cases heq : other = index
    · rw [heq]
      exact hi later hl
    · exact h.passed other (by simp [heq, ho]) later (List.mem_cons_of_mem _ hl)
  · intro other ho hn
    have hfh : (items.get other).fh ≠ (items.get index).fh := by
      intro heq
      rw [heq, update_self] at hn
      cases hn
    rw [update_of_ne hfh] at hn
    rw [hst.done]
    exact h.alone other (by simp [ne_of_apply_ne (fun i => (items.get i).fh) hfh, ho]) hn
  intro fh access' ha'
  rw [hst.done]
  by_cases hfh : fh = (items.get index).fh
  · rw [hfh, update_self] at ha'
    obtain rfl := Option.some.inj ha'
    refine ⟨members, hk, ?_⟩
    intro other ho hfh' ho'
    by_cases heq : other = index
    · rw [heq]
      exact ⟨_, hmb, hr⟩
    · exact hm other (by simp [heq, ho]) (hfh'.trans hfh) ho'
  rw [update_of_ne hfh] at ha'
  obtain ⟨members', hk', hm'⟩ := h.known fh access' ha'
  refine ⟨members', hk', ?_⟩
  intro other ho hfh' ho'
  have hne : other ≠ index := by
    rintro rfl
    exact hfh hfh'.symm
  exact hm' other (by simp [hne, ho]) hfh' ho'

theorem Serial.selectWave (h : Serial session files s st) (hc : Checked s items)
    (hh : session.Honest files) {selection : Selection items.length}
    (hse : session.selectWave items (List.finRange items.length) (fun _ => none) ⟨[], 0⟩ st =
      (.ok selection, st')) : Serial session files s st' := by
  have hs : Gathering session files s (List.finRange items.length) (fun _ => none) st :=
    ⟨h, List.pairwise_lt_finRange _, by simp, by simp, by simp⟩
  obtain ⟨rest, active, hg, -⟩ := selectWave_rule
    (P := fun rest active _ st => Gathering session files s rest active st)
    (fun index rest active selection st hst hd => hst.pass hd)
    (fun index rest active selection st access st' hst hd ha hstep =>
      hst.join hc hh hd ha hstep) hs hse
  exact hg.serial

end Gathering

end Vnfs.Nfs.WriteSession
