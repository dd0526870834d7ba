import Vnfs.Nfs.ServerCopyOrder

/-!
The batches of a copy. A batch without aliases, or one pair of a batch with aliases,
gives what its pairs give one after another; so do the batches, and the pairs that the
client copies itself after a fallback.
-/

namespace Vnfs.Nfs.Copy

open ByteFile List Function

variable {P F : Type} [DecidableEq F] {server : CopyServer} {identity : P → F}

/-- No destination is the object of another pair. -/
structure Apart (identity : P → F) (pairs : List (ExtentPair P)) : Prop where
  destinations : (pairs.map fun pair => identity pair.dstPath).Nodup
  sources : ∀ pair ∈ pairs, ∀ other ∈ pairs, identity pair.srcPath ≠ identity other.dstPath

variable {store : F → Bytes} {pair : ExtentPair P} {file : F} {items : List (CopyItem P F)}
  {w : CopyWorld F} {pairs : List (Nat × ExtentPair P)} {w' : CopyWorld F}
  {result : Option (Except CopyBatchFailure Unit)} {fuel : Nat}

theorem copied_of_ne (h : file ≠ identity pair.dstPath) :
    pair.copied identity store file = store file :=
  update_of_ne h _ _

omit [DecidableEq F] in
theorem Apart.tail {pair : ExtentPair P} {rest : List (ExtentPair P)}
    (h : Apart identity (pair :: rest)) : Apart identity rest where
  destinations := (nodup_cons.mp h.destinations).2
  sources a ha b hb := h.sources a (mem_cons_of_mem _ ha) b (mem_cons_of_mem _ hb)

theorem copiedInTurn_others {pairs : List (ExtentPair P)}
    (h : ∀ pair ∈ pairs, file ≠ identity pair.dstPath) :
    copiedInTurn identity store pairs file = store file := by
  induction pairs generalizing store with
  | nil => rfl
  | cons pair rest ih =>
    obtain ⟨hp, hr⟩ := forall_mem_cons.mp h
    exact (ih hr).trans (copied_of_ne hp)

/-- Pairs without common objects are copied as if each were the only one. -/
theorem copiedInTurn_apart {pairs : List (ExtentPair P)} (h : Apart identity pairs)
    (hp : pair ∈ pairs) :
    copiedInTurn identity store pairs (identity pair.dstPath) =
      truncate (pwrite (store (identity pair.dstPath)) pair.dstOffset (pair.extent identity store))
        (pair.dstOffset + (pair.extent identity store).length) := by
  induction pairs generalizing store with
  | nil => cases hp
  | cons first rest ih =>
    change copiedInTurn identity (first.copied identity store) rest _ = _
    have hnd := nodup_cons.mp h.destinations
    rcases mem_cons.mp hp with rfl | hr
    · have ho : ∀ other ∈ rest, identity pair.dstPath ≠ identity other.dstPath := by
        intro other hot heq
        exact hnd.1 (mem_map.mpr ⟨other, hot, heq.symm⟩)
      rw [copiedInTurn_others ho]
      exact update_self _ _ _
    have hs : first.copied identity store (identity pair.srcPath) = store (identity pair.srcPath) :=
      copied_of_ne (h.sources pair hp first mem_cons_self)
    have hd : first.copied identity store (identity pair.dstPath) =
        store (identity pair.dstPath) := by
      apply copied_of_ne
      intro heq
      exact hnd.1 (mem_map.mpr ⟨pair, hr, heq⟩)
    have he : pair.extent identity (first.copied identity store) = pair.extent identity store := by
      rw [pair.extent_eq identity, pair.extent_eq identity, hs]
    rw [ih h.tail hr, hd, he]

theorem setattrMany_copies (items : List (CopyItem P F)) (w : CopyWorld F) :
    (setattrMany items w).copies = w.copies := by
  induction items generalizing w with
  | nil => rfl
  | cons item rest ih => exact ih _

theorem setattrMany_others (h : ∀ item ∈ items, file ≠ item.destination) :
    (setattrMany items w).store file = w.store file := by
  induction items generalizing w with
  | nil => rfl
  | cons item rest ih =>
    obtain ⟨hi, hr⟩ := forall_mem_cons.mp h
    exact (ih hr).trans (update_of_ne hi _ _)

theorem setattrMany_apart (h : (items.map CopyItem.destination).Nodup) {item : CopyItem P F}
    (hi : item ∈ items) :
    (setattrMany items w).store item.destination =
      truncate (w.store item.destination) (item.pair.dstOffset + item.total) := by
  induction items generalizing w with
  | nil => cases hi
  | cons first rest ih =>
    have hnd := nodup_cons.mp h
    rcases mem_cons.mp hi with rfl | hr
    · have ho : ∀ other ∈ rest, item.destination ≠ other.destination := by
        intro other hot heq
        exact hnd.1 (heq ▸ mem_map_of_mem hot)
      rw [setattrMany, setattrMany_others ho]
      exact update_self _ _ _
    rw [setattrMany, ih hnd.2 hr]
    have hne : item.destination ≠ first.destination := by
      intro heq
      exact hnd.1 (heq ▸ mem_map_of_mem hr)
    change truncate (update w.store first.destination _ item.destination) _ = _
    rw [update_of_ne hne]

/-- A finished batch, cut to size, is what its pairs give one after another. -/
theorem Copying.finished {base : F → Bytes} (h : Copying identity base items w.store)
    (hd : ∀ item ∈ items, item.pending = false) (hap : Apart identity (items.map CopyItem.pair)) :
    (setattrMany items w).store = copiedInTurn identity base (items.map CopyItem.pair) := by
  funext file
  by_cases hf : ∃ item ∈ items, file = item.destination
  · obtain ⟨item, hi, rfl⟩ := hf
    have hg := h.good item hi
    rw [setattrMany_apart h.apart hi, h.written item hi, hg.done (hd item hi), take_length]
    have hp : item.pair ∈ items.map CopyItem.pair := mem_map_of_mem hi
    rw [hg.destination, copiedInTurn_apart hap hp]
  have ho : ∀ item ∈ items, file ≠ item.destination := fun item hi heq => hf ⟨item, hi, heq⟩
  rw [setattrMany_others ho, h.others file ho, copiedInTurn_others]
  intro pair hp
  obtain ⟨item, hi, rfl⟩ := mem_map.mp hp
  rw [← (h.good item hi).destination]
  exact ho item hi

theorem aliasFrom_false {seen : List F} {pairs : List (F × F)}
    (hne : ∀ pair ∈ pairs, pair.1 ≠ pair.2) (h : aliasFrom seen pairs = false) :
    (pairs.map Prod.snd).Nodup ∧ (∀ pair ∈ pairs, ∀ other ∈ pairs, pair.1 ≠ other.2) ∧
      ∀ pair ∈ pairs, pair.1 ∉ seen ∧ pair.2 ∉ seen := by
  induction pairs generalizing seen with
  | nil => simp
  | cons pair rest ih =>
    obtain ⟨source, destination⟩ := pair
    have ho : source ≠ destination := hne _ mem_cons_self
    rw [aliasFrom] at h
    split at h
    · cases h
    rename_i hsr
    split at h
    · cases h
    rename_i hd
    obtain ⟨hnd, hap, hf⟩ := ih (fun p hp => hne p (mem_cons_of_mem _ hp)) h
    have hfr : destination ∉ seen := by
      intro hm
      exact hd ⟨ho, mem_cons_of_mem _ hm⟩
    refine ⟨?_, ?_, ?_⟩
    · rw [map_cons, nodup_cons]
      refine ⟨?_, hnd⟩
      intro hm
      obtain ⟨other, hot, heq⟩ := mem_map.mp hm
      exact (hf other hot).2 (by simp [heq])
    · intro first hfs second hs
      rcases mem_cons.mp hfs with rfl | hfs <;>
        rcases mem_cons.mp hs with rfl | hs
      · exact ho
      · intro heq
        exact (hf second hs).2 (by simp [← heq])
      · intro heq
        exact (hf first hfs).1 (by simp [heq])
      · exact hap first hfs second hs
    intro p hp
    rcases mem_cons.mp hp with rfl | hp
    · exact ⟨hsr, hfr⟩
    · have hp' := hf p hp
      simp only [mem_cons, not_or] at hp'
      exact ⟨hp'.1.2.2, hp'.2.2.2⟩

theorem apart_of_no_alias
    (hne : ∀ pair ∈ pairs.map Prod.snd, identity pair.srcPath ≠ identity pair.dstPath)
    (h : copyPairsAlias (objects identity pairs) = false) :
    Apart identity (pairs.map Prod.snd) := by
  have ho : ∀ pair ∈ objects identity pairs, pair.1 ≠ pair.2 := by
    intro pair hp
    obtain ⟨item, hi, rfl⟩ := mem_map.mp hp
    exact hne item.2 (mem_map_of_mem hi)
  unfold copyPairsAlias at h
  split at h
  · rename_i hsh
    match pairs, hsh with
    | [], _ => exact ⟨by simp, by simp⟩
    | [pair], _ =>
      refine ⟨by simp, ?_⟩
      intro first hf second hs
      rw [mem_singleton.mp hf, mem_singleton.mp hs]
      exact hne pair.2 (by simp)
  obtain ⟨hnd, hap, -⟩ := aliasFrom_false ho h
  refine ⟨?_, ?_⟩
  · rw [map_map]
    rw [objects, map_map] at hnd
    exact hnd
  intro first hf second hs
  obtain ⟨item, hi, rfl⟩ := mem_map.mp hf
  obtain ⟨item', hi', rfl⟩ := mem_map.mp hs
  exact hap _ (mem_map_of_mem hi) _ (mem_map_of_mem hi')

omit [DecidableEq F] in
theorem effectiveLength_some {w : CopyWorld F} {pair : ExtentPair P} {l : Nat}
    (h : effectiveLength identity w pair = some l) : l = (pair.extent identity w.store).length := by
  obtain ⟨length, hl, rfl⟩ := Option.map_eq_some_iff.mp h
  rw [pair.extent_eq identity, hl, limited, length_take, length_drop]
  split <;> omega

omit [DecidableEq F] in
variable (identity) in
theorem copyItems_pairs (w : CopyWorld F) (slot : Nat) (pairs : List (Nat × ExtentPair P)) :
    (copyItems identity w slot pairs).map CopyItem.pair = pairs.map Prod.snd ∧
      (copyItems identity w slot pairs).map CopyItem.number = pairs.map Prod.fst := by
  induction pairs generalizing slot with
  | nil => exact ⟨rfl, rfl⟩
  | cons pair rest ih =>
    obtain ⟨hp, hn⟩ := ih (slot + 1)
    exact ⟨congrArg (pair.2 :: ·) hp, congrArg (pair.1 :: ·) hn⟩

omit [DecidableEq F] in
theorem copyItems_good {w : CopyWorld F} {slot : Nat} {pairs : List (Nat × ExtentPair P)}
    {item : CopyItem P F} (h : item ∈ copyItems identity w slot pairs) :
    item.Good identity w.store ∧ item.total = 0 := by
  induction pairs generalizing slot with
  | nil => cases h
  | cons pair rest ih =>
    rcases mem_cons.mp h with rfl | hr
    · refine ⟨⟨rfl, rfl, rfl, rfl, fun l hl => effectiveLength_some hl, ?_, Nat.zero_le _, ?_, ?_⟩,
        rfl⟩
      · intro hn
        exact Option.map_eq_none_iff.mp hn
      · intro hi
        have hz : effectiveLength identity w pair.2 = some 0 := by simpa using hi
        exact effectiveLength_some hz
      intro hp l hl
      have hne : effectiveLength identity w pair.2 ≠ some 0 := by simpa using hp
      apply Nat.pos_of_ne_zero
      rintro rfl
      exact hne hl
    · exact ih hr

omit [DecidableEq F] in
theorem copying_start (hap : Apart identity (pairs.map Prod.snd)) :
    Copying identity w.store (copyItems identity w 0 pairs) w.store := by
  have hp := (copyItems_pairs identity w 0 pairs).1
  have hd : (copyItems identity w 0 pairs).map CopyItem.destination =
      (pairs.map Prod.snd).map fun pair => identity pair.dstPath := by
    rw [← hp, map_map]
    apply map_congr_left
    intro item hi
    exact (copyItems_good hi).1.destination
  have hm : ∀ item ∈ copyItems identity w 0 pairs, item.pair ∈ pairs.map Prod.snd := by
    intro item hi
    rw [← hp]
    exact mem_map_of_mem hi
  refine ⟨fun item hi => (copyItems_good hi).1, ?_, ?_, ?_, fun _ _ => rfl⟩
  · rw [hd]
    exact hap.destinations
  · intro item hi other ho
    rw [(copyItems_good hi).1.source, (copyItems_good ho).1.destination]
    exact hap.sources _ (hm item hi) _ (hm other ho)
  · intro item hi
    rw [(copyItems_good hi).2, take_zero, pwrite_nil]

omit [DecidableEq F] in
theorem checkSizes_error {items : List (CopyItem P F)} {error : VfError}
    (h : checkSizes items = .error error) : rawCode error = VfError.eoverflow := by
  induction items with
  | nil => cases h
  | cons item rest ih =>
    rw [checkSizes] at h
    split at h
    · rw [← Except.error.inj h]
      rfl
    · exact ih h

structure BatchDone (identity : P → F) (pairs : List (Nat × ExtentPair P)) (w w' : CopyWorld F)
    (result : Option (Except CopyBatchFailure Unit)) : Prop where
  requests : ∃ requests, w'.copies = w.copies ++ requests ∧
    Asked (pairs.map Prod.fst) requests ∧
    ∀ failure, result = some (.error failure) → failure.fallbackSafe = true →
      Quiet requests ∧ w'.store = w.store
  store : result = some (.ok ()) → w'.store = copiedInTurn identity w.store (pairs.map Prod.snd)

theorem BatchDone.after {w'' : CopyWorld F} (h : BatchDone identity pairs w' w'' result)
    (hsa : w.Same w') : BatchDone identity pairs w w'' result := by
  obtain ⟨hr, hs⟩ := h
  rw [hsa.2, hsa.1] at hr
  rw [hsa.1] at hs
  exact ⟨hr, hs⟩

theorem batchDone_early {failure : CopyBatchFailure} (h : w.Same w') :
    BatchDone identity pairs w w' (some (.error failure)) :=
  ⟨⟨[], by simp [h.2], by simp [Asked], fun _ _ _ => ⟨by simp [Quiet], h.1⟩⟩, fun h => by cases h⟩

theorem copyOpened_done (hap : Apart identity (pairs.map Prod.snd))
    (h : copyOpened server identity fuel pairs w = (w', result)) :
    BatchDone identity pairs w w' result := by
  unfold copyOpened at h
  have hsi : ∀ sized answer, sourceSizes server pairs w = (sized, answer) → w.Same sized := by
    intro sized answer hs
    unfold sourceSizes at hs
    split at hs
    · exact call_same hs
    · obtain ⟨rfl, -⟩ := Prod.mk.inj hs
      exact ⟨rfl, rfl⟩
  split at h
  · rename_i sized error hs
    obtain ⟨rfl, rfl⟩ := Prod.mk.inj h
    exact batchDone_early (hsi _ _ hs)
  rename_i sized hs
  obtain ⟨hst, hcps⟩ := hsi _ _ hs
  cases hrn : copyRounds server fuel (copyItems identity sized 0 pairs) sized with
  | mk next rounds =>
  obtain ⟨requests, hr, ha, hd⟩ := copyRounds_spec (copying_start hap) hrn
  obtain ⟨hp, hn⟩ := copyItems_pairs identity sized 0 pairs
  rw [hn] at ha
  rw [hcps] at hr
  rw [hrn] at h
  cases rounds with
  | none =>
    obtain ⟨rfl, rfl⟩ := Prod.mk.inj h
    exact ⟨⟨requests, hr, ha, fun _ h => by cases h⟩, fun h => by cases h⟩
  | some rounds =>
  cases rounds with
  | error failure =>
    obtain ⟨rfl, rfl⟩ := Prod.mk.inj h
    refine ⟨⟨requests, hr, ha, ?_⟩, fun h => by cases h⟩
    intro failure' heq hsa
    cases heq
    obtain ⟨-, hq, hsame⟩ := hd hsa
    exact ⟨hq, hsame.trans hst⟩
  | ok items =>
    dsimp only at h
    split at h
    · rename_i error hch
      obtain ⟨rfl, rfl⟩ := Prod.mk.inj h
      refine ⟨⟨requests, hr, ha, ?_⟩, fun h => by cases h⟩
      intro failure heq hsa
      cases heq
      rw [CopyBatchFailure.ofError, checkSizes_error hch] at hsa
      cases hsa
    split at h
    · rename_i called error hc
      obtain ⟨rfl, rfl⟩ := Prod.mk.inj h
      rw [← (call_same hc).2] at hr
      refine ⟨⟨requests, hr, ha, ?_⟩, fun h => by cases h⟩
      intro failure heq hsa
      cases heq
      cases hsa
    rename_i called hc
    obtain ⟨rfl, rfl⟩ := Prod.mk.inj h
    rw [← (call_same hc).2] at hr
    obtain ⟨hcp, hi, hsame⟩ := hd
    refine ⟨⟨requests, by rw [setattrMany_copies, hr], ha, fun _ h => by cases h⟩, fun _ => ?_⟩
    rw [← (call_same hc).1] at hcp
    rw [hp] at hsame
    rw [hcp.finished hi (by rw [hsame]; exact hap), hsame, hst]

theorem copySingle_done {pair : Nat × ExtentPair P}
    (hne : identity pair.2.srcPath ≠ identity pair.2.dstPath)
    (h : copySingle server identity fuel pair w = (w', result)) :
    BatchDone identity [pair] w w' result := by
  unfold copySingle at h
  split at h
  · rename_i ho
    obtain ⟨rfl, rfl⟩ := Prod.mk.inj h
    exact batchDone_early (openBatch_same ho)
  rename_i opened ho
  have hap : Apart identity ([pair].map Prod.snd) := by
    refine ⟨by simp, ?_⟩
    intro first hf second hs
    rw [mem_singleton.mp hf, mem_singleton.mp hs]
    exact hne
  exact (copyOpened_done hap h).after (openBatch_same ho)

theorem copyEach_done {index : Nat}
    (hne : ∀ pair ∈ pairs, identity pair.2.srcPath ≠ identity pair.2.dstPath)
    (h : copyEach server identity fuel index pairs w = (w', result)) :
    BatchDone identity pairs w w' result ∧
      ∀ failure, result = some (.error failure) → failure.fallbackSafe = true → index = 0 := by
  induction pairs generalizing index w with
  | nil =>
    obtain ⟨rfl, rfl⟩ := Prod.mk.inj h
    refine ⟨⟨⟨[], by simp, by simp [Asked], fun _ h => by cases h⟩, fun _ => rfl⟩, ?_⟩
    exact fun _ h => by cases h
  | cons pair rest ih =>
    rw [copyEach] at h
    cases hpa : copySingle server identity fuel pair w with
    | mk next single =>
    obtain ⟨⟨requests, hr, ha, hq⟩, hst⟩ := copySingle_done (hne pair mem_cons_self) hpa
    have ha' : Asked ((pair :: rest).map Prod.fst) requests := ha.mono fun number hn => by simp_all
    rw [hpa] at h
    cases single with
    | none =>
      obtain ⟨rfl, rfl⟩ := Prod.mk.inj h
      exact ⟨⟨⟨requests, hr, ha', fun _ h => by cases h⟩, fun h => by cases h⟩,
        fun _ h => by cases h⟩
    | some single =>
    cases single with
    | error failure =>
      obtain ⟨rfl, rfl⟩ := Prod.mk.inj h
      refine ⟨⟨⟨requests, hr, ha', ?_⟩, fun h => by cases h⟩, ?_⟩
      · intro failure' heq hs
        cases heq
        exact hq failure rfl (Bool.and_eq_true_iff.mp hs).1
      · intro failure' heq hs
        cases heq
        simpa using (Bool.and_eq_true_iff.mp hs).2
    | ok =>
      obtain ⟨⟨⟨more, hm, hask'', -⟩, hrest⟩, hi⟩ := ih (fun p hp => hne p (mem_cons_of_mem _ hp)) h
      -- Behind a pair that was copied no failure allows a fallback.
      have hre : ∀ failure, result = some (.error failure) → failure.fallbackSafe ≠ true := by
        intro failure heq hs
        cases hi failure heq hs
      refine ⟨⟨⟨requests ++ more, by rw [hm, hr, append_assoc], ?_, ?_⟩, ?_⟩, ?_⟩
      · exact ha'.append (hask''.mono fun number hn => by simp_all)
      · exact fun failure heq hs => absurd hs (hre failure heq)
      · intro hok
        rw [hrest hok, hst rfl]
        rfl
      · exact fun failure heq hs => absurd hs (hre failure heq)

/-- `copy_extents_server_side` gives what its pairs give one after another, and allows a
fallback only if no byte was acknowledged. -/
theorem copyExtentsServerSide_done
    (hne : ∀ pair ∈ pairs, identity pair.2.srcPath ≠ identity pair.2.dstPath)
    (h : copyExtentsServerSide server identity fuel pairs w = (w', result)) :
    BatchDone identity pairs w w' result := by
  unfold copyExtentsServerSide at h
  split at h
  · rename_i ho
    obtain ⟨rfl, rfl⟩ := Prod.mk.inj h
    exact batchDone_early (openBatch_same ho)
  rename_i opened ho
  apply BatchDone.after _ (openBatch_same ho)
  split at h
  · exact (copyEach_done hne h).1
  rename_i hn
  apply copyOpened_done _ h
  apply apart_of_no_alias _ (by simpa using hn)
  intro pair hp
  obtain ⟨item, hi, rfl⟩ := mem_map.mp hp
  exact hne item hi

omit [DecidableEq F] in
theorem numbered_spec (start : Nat) (pairs : List (ExtentPair P)) :
    (numbered start pairs).map Prod.snd = pairs ∧ ∀ number ∈ (numbered start pairs).map Prod.fst,
        start ≤ number ∧ number < start + pairs.length := by
  induction pairs generalizing start with
  | nil => exact ⟨rfl, by simp [numbered]⟩
  | cons pair rest ih =>
    obtain ⟨hp, hn⟩ := ih (start + 1)
    refine ⟨congrArg (pair :: ·) hp, ?_⟩
    intro number hnu
    rw [length_cons]
    rcases mem_cons.mp hnu with rfl | hm
    · exact ⟨Nat.le_refl _, by simp only [Nat.lt_add_right_iff_pos]; omega⟩
    · have := hn number hm
      omega

structure RunDone (identity : P → F) (start : Nat) (pairs : List (ExtentPair P)) (w : CopyWorld F)
    (run : CopyRun F) : Prop where
  store : run.result = some (.ok ()) → run.world.store = copiedInTurn identity w.store pairs
  requests : ∃ requests, run.world.copies = w.copies ++ requests ∧
    (∀ request ∈ requests, (request.explicit = true → request.count ≠ 0) ∧
      start ≤ request.number) ∧
    ∀ first, run.fallback = some first → start ≤ first ∧
      ∀ request ∈ requests, first ≤ request.number →
        request.acked = none ∨ request.acked = some 0

theorem copyBatches_done {start : Nat} {pairs : List (ExtentPair P)}
    (hne : ∀ pair ∈ pairs, identity pair.srcPath ≠ identity pair.dstPath) :
    RunDone identity start pairs w (copyBatches server identity fuel start pairs w) := by
  induction hlen : pairs.length using Nat.strongRecOn generalizing start pairs w with
  | ind length ih =>
  cases pairs with
  | nil =>
    rw [copyBatches]
    exact ⟨fun _ => rfl, ⟨[], by simp, by simp, fun _ h => by cases h⟩⟩
  | cons pair rest =>
    rw [copyBatches]
    obtain ⟨hpr, hnums⟩ := numbered_spec start (pair :: rest.take 7)
    have hsp : pair :: rest = (pair :: rest.take 7) ++ rest.drop 7 := by
      rw [cons_append, take_append_drop]
    have hsh : (pair :: rest.take 7).length ≤ 8 := by
      rw [length_cons, length_take]
      omega
    have hb : ∀ item ∈ numbered start (pair :: rest.take 7),
        identity item.2.srcPath ≠ identity item.2.dstPath := by
      intro item hi
      apply hne
      rw [hsp]
      apply mem_append_left
      exact hpr ▸ mem_map_of_mem hi
    cases hco : copyExtentsServerSide server identity fuel
        (numbered start (pair :: rest.take 7)) w with
    | mk next result =>
    obtain ⟨⟨requests, hre, ha, hq⟩, hst⟩ := copyExtentsServerSide_done hb hco
    have hn : ∀ request ∈ requests, (request.explicit = true → request.count ≠ 0) ∧
        start ≤ request.number := by
      intro request hr
      obtain ⟨hc, hnu⟩ := ha request hr
      exact ⟨hc, (hnums _ hnu).1⟩
    cases result with
    | none => exact ⟨(fun h => by cases h), requests, hre, hn, fun _ h => by cases h⟩
    | some result =>
    cases result with
    | error failure =>
      dsimp only
      split
      · rename_i hs
        have hcp := vcopyDataImpl_copies server identity fuel 0 (pair :: rest) next
        cases hcl : vcopyDataImpl server identity fuel 0 (pair :: rest) next with
        | mk final outcome =>
        rw [hcl] at hcp
        refine ⟨?_, requests, hcp.trans hre, hn, ?_⟩
        · intro hok
          obtain ⟨outcome', rfl, hm⟩ := Option.map_eq_some_iff.mp hok
          obtain error | _ := outcome'
          · cases hm
          · rw [vcopyDataImpl_ok hne hcl, (hq failure rfl hs).2]
        rintro first hfs
        obtain rfl := Option.some.inj hfs
        exact ⟨Nat.le_refl _, fun request hr _ =>
          (hq failure rfl hs).1 request hr⟩
      · exact ⟨(fun h => by cases h), requests, hre, hn, fun _ h => by cases h⟩
    | ok =>
      have hl : (rest.drop 7).length < length := by
        rw [← hlen, length_drop, length_cons]
        omega
      have hla : ∀ p ∈ rest.drop 7, identity p.srcPath ≠ identity p.dstPath := by
        intro p hp
        exact hne p (mem_cons_of_mem _ (mem_of_mem_drop hp))
      have hru : RunDone identity (start + 8) (rest.drop 7) next
          (copyBatches server identity fuel (start + 8) (rest.drop 7) next) :=
        ih _ hl hla rfl
      obtain ⟨hrest, more, hmore, hmo, hf⟩ := hru
      refine ⟨?_, requests ++ more, by rw [hmore, hre, append_assoc], ?_, ?_⟩
      · intro hok
        rw [hrest hok, hst rfl, hpr, hsp]
        exact (foldl_append ..).symm
      · intro request hr
        rcases mem_append.mp hr with hold | hnew
        · exact hn request hold
        · obtain ⟨hc, hle⟩ := hmo request hnew
          exact ⟨hc, by omega⟩
      intro first hfs
      obtain ⟨hle, hq'⟩ := hf first hfs
      refine ⟨by omega, ?_⟩
      intro request hr hnu
      rcases mem_append.mp hr with hold | hnew
      · have := (hnums _ (ha request hold).2).2
        omega
      · exact hq' request hnew hnu

/-- A copy that succeeds gives what its pairs give one after another, whatever counts the
server answers and wherever it refuses COPY. No COPY asks for count zero on behalf of an
explicit length, and the client takes over only from a pair on from which no byte was
acknowledged. -/
theorem vcopyDataNfs_copied (server : CopyServer) (identity : P → F) (serverCopyEnabled : Bool)
    (fuel : Nat) (pairs : List (ExtentPair P)) (w : CopyWorld F)
    (hne : ∀ pair ∈ pairs, identity pair.srcPath ≠ identity pair.dstPath) :
    RunDone identity 0 pairs w
      (vcopyDataNfs server identity serverCopyEnabled fuel pairs w) := by
  unfold vcopyDataNfs
  split
  · exact copyBatches_done hne
  have hcopies := vcopyDataImpl_copies server identity fuel 0 pairs w
  cases hclient : vcopyDataImpl server identity fuel 0 pairs w with
  | mk final outcome =>
  rw [hclient] at hcopies
  refine ⟨?_, [], by simpa using hcopies, by simp, fun _ h => by cases h⟩
  rintro rfl
  exact vcopyDataImpl_ok hne hclient

/-- A server that copies one byte for each COPY. -/
def byteServer : CopyServer where
  grant _ := 1
  refusal _ := none
  fault _ := none
  served _ := 1
  eager _ := false

/-- Three files, of which the third is still to be created. -/
def threeFiles : CopyWorld Nat where
  store file := if file = 0 then [1, 2, 3] else if file = 1 then [7, 7, 7, 7, 7] else []
  present file := file < 2
  copies := []
  calls := 0

/-- From file 0 into the middle of file 1, and from there to file 2. -/
def twoPairs : List (ExtentPair Nat) := [⟨0, 1, 1, 1, some 9⟩, ⟨1, 2, 0, 0, none⟩]

theorem vcopyDataNfs_copied_chain :
    (vcopyDataNfs byteServer id true 9 twoPairs threeFiles).result = some (.ok ()) ∧
      (vcopyDataNfs byteServer id true 9 twoPairs threeFiles).world.store 2 = [7, 2, 3] := by
  have hok : (vcopyDataNfs byteServer id true 9 twoPairs threeFiles).result = some (.ok ()) := by
    have hbatch : (copyExtentsServerSide byteServer id 9 (numbered 0 twoPairs) threeFiles).2 =
        some (.ok ()) := rfl
    unfold vcopyDataNfs
    rw [if_pos rfl, twoPairs, copyBatches]
    cases hcopy : copyExtentsServerSide byteServer id 9 (numbered 0 twoPairs) threeFiles with
    | mk next result =>
    obtain rfl : result = some (.ok ()) := by rw [hcopy] at hbatch; exact hbatch
    rw [show numbered 0 (_ :: List.take 7 _) = numbered 0 twoPairs from rfl, hcopy]
    dsimp only
    rw [drop_of_length_le (by decide), copyBatches]
  refine ⟨hok, ?_⟩
  rw [(vcopyDataNfs_copied byteServer id true 9 twoPairs threeFiles (by decide)).store hok]
  decide

end Vnfs.Nfs.Copy
