import Vnfs.Nfs.DescriptorReadsServed

/-!
The two engines of descriptor reads agree, and neither moves a cursor when it fails.
`read_with_recovery` repeats a failed read after a reconnect; as the cursors are where
they were, the repeated call asks for the same ranges.
-/

namespace Vnfs.Nfs.DescriptorReads

open List hiding min

section Frame

variable {σ : Type} (session : ReadSession σ) (fs : NfsFs σ) (reads : List ReadOp)

/-- A failed vector leaves the descriptor table alone, whatever the server does. -/
theorem vreadBatchNfs_error {e : VfError} (h : (vreadBatchNfs session fs reads).1 = .error e) :
    (vreadBatchNfs session fs reads).2.openFiles = fs.openFiles := by
  have hp := descriptorReadPlan_openFiles session none 0 fs reads
  unfold vreadBatchNfs at h ⊢
  split at h
  · rename_i heq
    rw [heq] at hp
    exact hp
  rename_i heq
  rw [heq] at hp
  split at h
  · exact hp
  · split at h
    · exact hp
    · cases h

theorem vreadBatchIntoNfs_error {buffers : List Bytes} {e : VfError}
    (h : (vreadBatchIntoNfs session fs reads buffers).1 = .error e) :
    (vreadBatchIntoNfs session fs reads buffers).2.openFiles = fs.openFiles := by
  have hp := descriptorReadPlan_openFiles session (some buffers) 0 fs reads
  unfold vreadBatchIntoNfs at h ⊢
  split at h
  · rename_i heq
    rw [heq] at hp
    exact hp
  rename_i heq
  rw [heq] at hp
  split at h
  · exact hp
  · split at h
    · exact hp
    · cases h

end Frame

section Outcome

variable {σ : Type} {session : ReadSession σ} {contents : NfsFh → Bytes} {fs fs₁ : NfsFs σ}
  {reads : List ReadOp} {plan : DescriptorReadPlan} {places : List (NfsFh × Nat)}

/-- How far each result moves a cursor. -/
def ReadResult.extent (result : ReadResult) : Nat × Nat := (result.offset, result.data.length)

theorem drop_packReads (limit : Nat) (ops : List WireRead) :
    ops.drop 0 = (packReads limit WireRead.count ops).flatten := by
  rw [flatten_packReads]
  rfl

theorem vreadBatchNfs_planned (hs : Serves session contents)
    (hpl : descriptorReadPlan session none 0 fs reads = (.ok plan, fs₁))
    (hp : Planned 0 reads plan places) :
    match firstRefused session.byteBudget 0
      (packReads (byteLimit session) WireRead.count plan.ops) with
    | some (start, k) => (vreadBatchNfs session fs reads).1 = .error (remapDescriptorChunkError
        (errorFromRpcIndexed (.op k Status.repTooBig)) start plan.owners)
    | none => (vreadBatchNfs session fs reads).1 = .ok (readResults contents reads places) ∧
        (vreadBatchNfs session fs reads).2.openFiles = advanceCursors fs.openFiles reads
          ((readResults contents reads places).map ReadResult.extent) := by
  have ht := descriptorReadPlan_openFiles session none 0 fs reads
  rw [hpl] at ht
  have hr := readCompounds_serves (fun _ => ReadSession.owned)
    (fun start group rest _ => owned_decoder contents group)
    ⟨fun _ _ _ _ _ => trivial, fun _ _ _ _ _ _ => trivial⟩ hs plan.owners (s := fs₁.nfs)
    (b := ()) trivial (drop_packReads (byteLimit session) plan.ops)
  unfold vreadBatchNfs
  rw [hpl]
  dsimp only
  generalize readCompounds _ plan.owners fs₁.nfs () 0
    (packReads (byteLimit session) WireRead.count plan.ops) = done at hr ⊢
  obtain ⟨result, s₁⟩ := done
  cases hre : firstRefused session.byteBudget 0
    (packReads (byteLimit session) WireRead.count plan.ops) with
  | some refusal =>
    rw [hre] at hr
    subst hr
    rfl
  | none =>
    rw [hre, flatten_packReads] at hr
    obtain ⟨items, rs, b, hi, hres, hrs, -⟩ := hr
    rw [map_id] at hrs
    subst hres hrs
    have hf := charge_le_of_firstRefused hre
    rw [flatten_packReads] at hf
    have hg := gatherOwned_planned hs hp hi hf s₁
    dsimp only
    generalize gatherOwned session s₁ 0 (reads.zip plan.offsets) (plan.wires.zip rs) = done at hg ⊢
    obtain ⟨result, s₂⟩ := done
    subst hg
    rw [ht]
    exact ⟨rfl, rfl⟩

variable {k : Nat} {result : ReadResult} {buffers : List Bytes}

theorem readResults_getElem? (h : (readResults contents reads places)[k]? = some result) :
    ∃ read fh off, reads[k]? = some read ∧ places[k]? = some (fh, off) ∧
      result.data = ((contents fh).drop off).take read.length := by
  induction reads generalizing places k with
  | nil => cases h
  | cons read reads ih =>
    cases places with
    | nil => cases h
    | cons place places =>
      cases k with
      | zero =>
        obtain rfl := Option.some.inj h
        exact ⟨read, place.1, place.2, rfl, rfl, rfl⟩
      | succ k => exact ih h

theorem take_of_rightAt (hlens : buffers.map List.length = reads.map ReadOp.length)
    (hre : (readResults contents reads places)[k]? = some result)
    (hrt : ∀ p < result.data.length, RightAt contents places buffers k p) :
    ∃ buffer, buffers[k]? = some buffer ∧ buffer.take result.data.length = result.data := by
  obtain ⟨read, fh, off, hr, hpl, hd⟩ := readResults_getElem? hre
  obtain ⟨buffer, hb, hl⟩ : ∃ buffer, buffers[k]? = some buffer ∧ buffer.length = read.length := by
    have hk := congrArg (·[k]?) hlens
    simp only [getElem?_map, hr] at hk
    exact Option.map_eq_some_iff.mp hk
  have hle : result.data.length ≤ read.length := by
    rw [hd, length_take]
    exact Nat.min_le_left _ _
  refine ⟨buffer, hb, ByteFile.ext_byte ?_ fun p => ?_⟩
  · rw [length_take]
    omega
  rcases Nat.lt_or_ge p result.data.length with hp | hp
  · obtain ⟨fh', off', buffer', hpl', hb', hby⟩ := hrt p hp
    rw [hpl] at hpl'
    obtain ⟨rfl, rfl⟩ := Prod.mk.inj (Option.some.inj hpl')
    rw [hb] at hb'
    obtain rfl := Option.some.inj hb'
    have ht := byte_take_drop buffer 0 result.data.length p hp
    rw [drop_zero, Nat.zero_add] at ht
    rw [ht, hby, hd, byte_take_drop _ _ _ _ (by omega)]
  · simp [ByteFile.byte, getD_eq_getElem?_getD, hp]

theorem vreadBatchIntoNfs_planned (hsr : Serves session contents)
    (hb : buffers.map List.length = reads.map ReadOp.length)
    (hplan : descriptorReadPlan session (some buffers) 0 fs reads = (.ok plan, fs₁))
    (hpl : Planned 0 reads plan places) :
    match firstRefused session.byteBudget 0
      (packReads (byteLimit session) WireRead.count plan.ops) with
    | some (start, k) => (vreadBatchIntoNfs session fs reads buffers).1 =
        .error (remapDescriptorChunkError (errorFromRpcIndexed (.op k Status.repTooBig)) start
          plan.owners)
    | none => ∃ buffers' : List Bytes, (vreadBatchIntoNfs session fs reads buffers).1 =
          .ok ((readResults contents reads places).map ReadResult.into, buffers') ∧
        (∀ (k : Nat) (result : ReadResult), (readResults contents reads places)[k]? = some result →
          ∃ buffer : Bytes, buffers'[k]? = some buffer ∧
            buffer.take result.data.length = result.data) ∧
        (vreadBatchIntoNfs session fs reads buffers).2.openFiles = advanceCursors fs.openFiles reads
            ((readResults contents reads places).map ReadResult.extent) := by
  have ht := descriptorReadPlan_openFiles session (some buffers) 0 fs reads
  rw [hplan] at ht
  have hr := readCompounds_serves (intoBuffer plan)
    (fun start group rest ho => intoBuffer_decoder hpl ho)
    (wireFilled_storage plan places _) hsr plan.owners (s := fs₁.nfs) (b := buffers)
    ⟨hb, hb, fun _ _ hrt => hrt⟩ (drop_packReads (byteLimit session) plan.ops)
  unfold vreadBatchIntoNfs
  rw [hplan]
  dsimp only
  generalize readCompounds _ plan.owners fs₁.nfs buffers 0
    (packReads (byteLimit session) WireRead.count plan.ops) = done at hr ⊢
  obtain ⟨result, s₁⟩ := done
  cases href : firstRefused session.byteBudget 0
    (packReads (byteLimit session) WireRead.count plan.ops) with
  | some refusal =>
    rw [href] at hr
    subst hr
    rfl
  | none =>
    rw [href, flatten_packReads] at hr
    obtain ⟨items, rs, buffers₁, hit, hre, hrs, hs, -, hfi⟩ := hr
    subst hre hrs
    have hf := charge_le_of_firstRefused href
    rw [flatten_packReads] at hf
    have hwi : plan.wires.zip (items.map fun item => (item.1.length, item.2)) =
        (plan.wires.zip items).map received := by
      rw [zip_map_right]
      rfl
    obtain ⟨buffers₂, hg, hs₂, hrt⟩ := gatherInto_planned hsr hpl hit hf rfl rfl hs.2.1
      (fun wire hw fh off hp => by
        obtain ⟨j, hj⟩ := mem_iff_getElem?.mp hw
        obtain ⟨hw, hi⟩ := getElem?_zip_eq_some.mp hj
        obtain ⟨hown, hop⟩ := getElem?_zip_eq_some.mp hw
        have := hfi j wire.2 hi
        rw [Nat.zero_add] at this
        exact this wire.1.1 wire.1.2 fh off hown hop hp) s₁
    dsimp only
    rw [hwi]
    generalize gatherInto session s₁ 0 buffers₁ (reads.zip plan.offsets)
      ((plan.wires.zip items).map received) = done at hg ⊢
    obtain ⟨result, s₂⟩ := done
    subst hg
    dsimp only at ht ⊢
    refine ⟨buffers₂, rfl, fun k result hre => ?_, ?_⟩
    · have hk := hrt k result hre
      rw [Nat.zero_add] at hk
      exact take_of_rightAt hs₂.2.1 hre hk
    · rw [ht, map_map]
      rfl

end Outcome

/-- The two calls returned the same: equal errors, or for every request the same offset,
length and end flag, and buffers that begin with the owned data; and the cursors are
the same. -/
def Agree {σ τ : Type} (owned : VfResult (List ReadResult) × NfsFs σ)
    (into : VfResult (List ReadIntoResult × List Bytes) × NfsFs τ) : Prop :=
  owned.2.openFiles = into.2.openFiles ∧
    match owned.1, into.1 with
    | .ok out, .ok (results, buffers) => results = out.map ReadResult.into ∧
        ∀ (k : Nat) (result : ReadResult), out[k]? = some result →
          ∃ buffer : Bytes, buffers[k]? = some buffer ∧
            buffer.take result.data.length = result.data
    | .error e, .error e' => e = e'
    | _, _ => False

structure SameLimits {σ τ : Type} (session : ReadSession σ) (other : ReadSession τ) : Prop where
  request : session.maxRequestArgBytes = other.maxRequestArgBytes
  response : session.maxResponseBytes = other.maxResponseBytes

section Agreement

variable {σ τ : Type} {session : ReadSession σ} {other : ReadSession τ}

namespace SameLimits

variable (h : SameLimits session other)
include h

theorem readCompoundBytes : session.readCompoundBytes = other.readCompoundBytes := by
  unfold ReadSession.readCompoundBytes
  rw [h.response]

theorem readPerOpBytes : session.readPerOpBytes = other.readPerOpBytes := by
  unfold ReadSession.readPerOpBytes WriteSession.perOpBytes
  rw [h.readCompoundBytes, h.request]

theorem byteBudget : session.byteBudget = other.byteBudget := by
  unfold ReadSession.byteBudget
  rw [h.readCompoundBytes]

theorem byteLimit : byteLimit session = DescriptorReads.byteLimit other := by
  unfold DescriptorReads.byteLimit
  rw [h.readCompoundBytes, h.response]

end SameLimits

theorem vreadBatch_agree {contents : NfsFh → Bytes} (hsr : Serves session contents)
    (hot : Serves other contents) (hl : SameLimits session other)
    (openFiles : Int → Option NfsOpenState) (s : σ) (t : τ) {reads : List ReadOp}
    {buffers : List Bytes} (hb : buffers.map List.length = reads.map ReadOp.length) :
    Agree (vreadBatchNfs session ⟨openFiles, s⟩ reads)
      (vreadBatchIntoNfs other ⟨openFiles, t⟩ reads buffers) := by
  have hp : (descriptorReadPlan session none 0 ⟨openFiles, s⟩ reads).1 =
      (descriptorReadPlan other (some buffers) 0 ⟨openFiles, t⟩ reads).1 :=
    descriptorReadPlan_agree hsr hot hl.readPerOpBytes rfl hb
  have he {e : VfError} (ho : (vreadBatchNfs session ⟨openFiles, s⟩ reads).1 = .error e)
      (hi : (vreadBatchIntoNfs other ⟨openFiles, t⟩ reads buffers).1 = .error e) :
      Agree (vreadBatchNfs session ⟨openFiles, s⟩ reads)
        (vreadBatchIntoNfs other ⟨openFiles, t⟩ reads buffers) := by
    refine ⟨(vreadBatchNfs_error session _ reads ho).trans
      (vreadBatchIntoNfs_error other _ reads hi).symm, ?_⟩
    rw [ho, hi]
  cases ho : descriptorReadPlan session none 0 ⟨openFiles, s⟩ reads with
  | mk planned fs₁ =>
    cases hi : descriptorReadPlan other (some buffers) 0 ⟨openFiles, t⟩ reads with
    | mk planned' fs₁' =>
      rw [ho, hi] at hp
      subst hp
      cases planned with
      | error e =>
        refine he (e := e) ?_ ?_
        · unfold vreadBatchNfs
          rw [ho]
        · unfold vreadBatchIntoNfs
          rw [hi]
      | ok plan =>
        obtain ⟨places, hpl, -⟩ := descriptorReadPlan_planned ho
        have hf := vreadBatchNfs_planned hsr ho hpl
        have hs := vreadBatchIntoNfs_planned hot hb hi hpl
        rw [hl.byteBudget, hl.byteLimit] at hf
        cases hr : firstRefused other.byteBudget 0
          (packReads (byteLimit other) WireRead.count plan.ops) with
        | some refusal =>
          rw [hr] at hf hs
          exact he hf hs
        | none =>
          rw [hr] at hf hs
          obtain ⟨hre, ht⟩ := hf
          obtain ⟨buffers', hre', hfi, ht'⟩ := hs
          refine ⟨ht.trans ht'.symm, ?_⟩
          rw [hre, hre']
          exact ⟨rfl, hfi⟩

end Agreement

/-- Two descriptor tables with the same files at the same positions. -/
def SameCursors (openFiles openFiles' : Int → Option NfsOpenState) : Prop :=
  ∀ fd, (openFiles fd).map (fun opened => (opened.fh, opened.curOffset)) =
    (openFiles' fd).map fun opened => (opened.fh, opened.curOffset)

/-- `read_with_recovery`: one retry behind a reconnect. -/
def readWithRecovery {φ α : Type} (autoReconnect : Bool) (needsRecovery : VfError → Bool)
    (reconnect : φ → VfResult Unit × φ) (operation : φ → VfResult α × φ) (fs : φ) :
    VfResult α × φ :=
  match operation fs with
  | (.error e, fs) =>
    if autoReconnect ∧ needsRecovery e then
      match reconnect fs with
      | (.error e, fs) => (.error e, fs)
      | (.ok _, fs) => operation fs
    else (.error e, fs)
  | (.ok result, fs) => (.ok result, fs)

def DescriptorReadPlan.ranges (plan : DescriptorReadPlan) : List (NfsFh × Nat × Nat) :=
  plan.ops.map fun op => (op.fh, op.offset, op.count)

section Replay

variable {σ : Type} {session : ReadSession σ} {contents : NfsFh → Bytes}

theorem chunkReads_ranges {opened opened' : NfsOpenState} (hfh : opened.fh = opened'.fh)
    (off per fuel remaining chunkOff : Nat) :
    (chunkReads opened off per fuel remaining chunkOff).map (fun op => (op.fh, op.offset, op.count))
      = (chunkReads opened' off per fuel remaining chunkOff).map
        fun op => (op.fh, op.offset, op.count) := by
  induction fuel generalizing remaining chunkOff with
  | zero => simp [chunkReads, hfh]
  | succ fuel ih =>
    unfold chunkReads
    simp only [map_cons, hfh, List.cons.injEq, true_and]
    split_ifs
    · rfl
    · exact ih _ _

variable {fs fs' : NfsFs σ} {buffers : Option (List Bytes)} {i : Nat} {reads : List ReadOp}
  {plan : DescriptorReadPlan}

theorem resolveOffset_same
    (hs : ∀ s fh n, (session.fileSize s fh).1 = .ok n → n = (contents fh).length)
    (ht : SameCursors fs.openFiles fs'.openFiles) {fd : Int} {offset : VfOffset}
    {off off' : Nat} (h : (session.resolveOffset fs fd offset).1 = .ok off)
    (h' : (session.resolveOffset fs' fd offset).1 = .ok off') : off = off' := by
  have hf := ht fd
  unfold WriteSession.resolveOffset at h h'
  cases offset with
  | pos o => exact (Except.ok.inj h).symm.trans (Except.ok.inj h')
  | cur =>
    cases ho : fs.openFiles fd <;> cases ho' : fs'.openFiles fd <;>
      simp_all
  | eof =>
    dsimp only at h h'
    split at h
    · cases h
    split at h'
    · cases h'
    rename_i opened ho _ opened' ho'
    rw [ho, ho', Option.map_some, Option.map_some, Option.some.injEq, Prod.mk.injEq] at hf
    rw [hs _ _ _ h, hs _ _ _ h', hf.1]

theorem descriptorReadPlan_cons {op : ReadOp}
    (h : (descriptorReadPlan session buffers i fs (op :: reads)).1 = .ok plan) :
    ∃ off fs₁ opened rest, session.resolveOffset fs op.fd op.offset = (.ok off, fs₁) ∧
      fs₁.openFiles op.fd = some opened ∧
      (descriptorReadPlan session buffers (i + 1) fs₁ reads).1 = .ok rest ∧
      plan.ops = chunkReads opened off session.readPerOpBytes op.length op.length 0 ++
        rest.ops := by
  unfold descriptorReadPlan at h
  split at h
  · cases h
  split at h
  · cases h
  rename_i off fs₁ hr
  split at h
  · cases h
  split at h
  · cases h
  rename_i opened ho
  split at h
  · cases h
  · rename_i rest fs₂ hre
    obtain rfl := Except.ok.inj h
    exact ⟨off, fs₁, opened, rest, hr, ho, by rw [hre], rfl⟩

/-- A plan made again over the same files and positions asks for the same ranges. -/
theorem descriptorReadPlan_ranges
    (hs : ∀ s fh n, (session.fileSize s fh).1 = .ok n → n = (contents fh).length)
    (ht : SameCursors fs.openFiles fs'.openFiles) {plan' : DescriptorReadPlan}
    (h : (descriptorReadPlan session buffers i fs reads).1 = .ok plan)
    (h' : (descriptorReadPlan session buffers i fs' reads).1 = .ok plan') :
    plan.ranges = plan'.ranges := by
  induction reads generalizing i fs fs' plan plan' with
  | nil =>
    cases h
    cases h'
    rfl
  | cons op reads ih =>
    obtain ⟨off, fs₁, opened, rest, hr, ho, hre, hops⟩ := descriptorReadPlan_cons h
    obtain ⟨off', fs₁', opened', rest', hr', ho', hre', hops'⟩ := descriptorReadPlan_cons h'
    obtain rfl : off = off' := resolveOffset_same hs ht
      (congrArg Prod.fst hr) (congrArg Prod.fst hr')
    have hk := session.resolveOffset_openFiles fs op.fd op.offset
    have hk' := session.resolveOffset_openFiles fs' op.fd op.offset
    rw [hr] at hk
    rw [hr'] at hk'
    have hn : SameCursors fs₁.openFiles fs₁'.openFiles := by
      rw [hk, hk']
      exact ht
    have hf := hn op.fd
    rw [ho, ho', Option.map_some, Option.map_some, Option.some.injEq, Prod.mk.injEq] at hf
    have hrg := ih hn hre hre'
    unfold DescriptorReadPlan.ranges at hrg ⊢
    rw [hops, hops', map_append, map_append, hrg, chunkReads_ranges hf.1]

/-- What `read_with_recovery` comes to if a failed operation leaves the table alone and
a reconnect keeps files and positions. -/
theorem readWithRecovery_replays {α : Type} (autoReconnect : Bool) (needsRecovery : VfError → Bool)
    {reconnect : NfsFs σ → VfResult Unit × NfsFs σ}
    (hr : ∀ fs, SameCursors fs.openFiles (reconnect fs).2.openFiles)
    {operation : NfsFs σ → VfResult α × NfsFs σ}
    (hfr : ∀ e, (operation fs).1 = .error e → (operation fs).2.openFiles = fs.openFiles) :
    readWithRecovery autoReconnect needsRecovery reconnect operation fs = operation fs ∨
      (∃ e, (readWithRecovery autoReconnect needsRecovery reconnect operation fs).1 = .error e) ∨
      ∃ fs', SameCursors fs.openFiles fs'.openFiles ∧
        readWithRecovery autoReconnect needsRecovery reconnect operation fs = operation fs' := by
  unfold readWithRecovery
  cases hf : operation fs with
  | mk result fs₁ =>
    cases result with
    | ok result => exact .inl rfl
    | error e =>
      have hk := hfr e (by rw [hf])
      rw [hf] at hk
      dsimp only at hk ⊢
      split_ifs
      · have hs := hr fs₁
        cases ha : reconnect fs₁ with
        | mk reconnected fs₂ =>
          rw [ha, hk] at hs
          cases reconnected with
          | error e => exact .inr (.inl ⟨e, rfl⟩)
          | ok _ => exact .inr (.inr ⟨fs₂, hs, rfl⟩)
      · exact .inl rfl

end Replay

/-- A call under `read_with_recovery` returns what the call returns, fails, or returns
what the call returns from a table with the same cursors, and there it asks for the
same ranges. -/
def Replays {σ α : Type} (session : ReadSession σ) (buffers : Option (List Bytes))
    (reads : List ReadOp) (operation : NfsFs σ → VfResult α × NfsFs σ) (fs : NfsFs σ) : Prop :=
  ∀ autoReconnect needsRecovery reconnect,
    (∀ fs, SameCursors fs.openFiles (reconnect fs).2.openFiles) →
    readWithRecovery autoReconnect needsRecovery reconnect operation fs = operation fs ∨
      (∃ e, (readWithRecovery autoReconnect needsRecovery reconnect operation fs).1 = .error e) ∨
      ∃ fs', SameCursors fs.openFiles fs'.openFiles ∧
        readWithRecovery autoReconnect needsRecovery reconnect operation fs = operation fs' ∧
        ∀ plan plan', (descriptorReadPlan session buffers 0 fs reads).1 = .ok plan →
          (descriptorReadPlan session buffers 0 fs' reads).1 = .ok plan' →
            plan.ranges = plan'.ranges

theorem replays_of_frame {σ α : Type} {session : ReadSession σ} {contents : NfsFh → Bytes}
    (hsi : ∀ s fh n, (session.fileSize s fh).1 = .ok n → n = (contents fh).length)
    (buffers : Option (List Bytes)) (reads : List ReadOp)
    {operation : NfsFs σ → VfResult α × NfsFs σ} {fs : NfsFs σ}
    (hfr : ∀ e, (operation fs).1 = .error e → (operation fs).2.openFiles = fs.openFiles) :
    Replays session buffers reads operation fs := by
  intro autoReconnect needsRecovery reconnect hr
  rcases readWithRecovery_replays autoReconnect needsRecovery hr hfr with
    hfs | hf | ⟨fs', hs, ha⟩
  · exact .inl hfs
  · exact .inr (.inl hf)
  · exact .inr (.inr ⟨fs', hs, ha, fun plan plan' hp hp' =>
      descriptorReadPlan_ranges hsi hs hp hp'⟩)

/-- Over files that do not change, both engines return the same for every vector of
descriptor reads, whatever short READs their servers reply with. With any server, a
call that fails leaves the descriptor table as it was, so that a replay asks for the
same ranges. -/
theorem vreadBatchNfs_vreadBatchIntoNfs_agree {σ τ : Type} (session : ReadSession σ)
    (other : ReadSession τ) (contents : NfsFh → Bytes) (openFiles : Int → Option NfsOpenState)
    (s : σ) (t : τ) (reads : List ReadOp) (buffers : List Bytes) :
    (Serves session contents → Serves other contents → SameLimits session other →
      buffers.map List.length = reads.map ReadOp.length →
        Agree (vreadBatchNfs session ⟨openFiles, s⟩ reads)
          (vreadBatchIntoNfs other ⟨openFiles, t⟩ reads buffers)) ∧
    (∀ e, (vreadBatchNfs session ⟨openFiles, s⟩ reads).1 = .error e →
      (vreadBatchNfs session ⟨openFiles, s⟩ reads).2.openFiles = openFiles) ∧
    (∀ e, (vreadBatchIntoNfs other ⟨openFiles, t⟩ reads buffers).1 = .error e →
      (vreadBatchIntoNfs other ⟨openFiles, t⟩ reads buffers).2.openFiles = openFiles) ∧
    ((∀ s fh n, (session.fileSize s fh).1 = .ok n → n = (contents fh).length) →
      Replays session none reads (fun fs => vreadBatchNfs session fs reads) ⟨openFiles, s⟩) ∧
    ((∀ t fh n, (other.fileSize t fh).1 = .ok n → n = (contents fh).length) →
      Replays other (some buffers) reads (fun fs => vreadBatchIntoNfs other fs reads buffers)
        ⟨openFiles, t⟩) := by
  refine ⟨fun hserves hother hlimits hbuffers =>
    vreadBatch_agree hserves hother hlimits openFiles s t hbuffers,
    fun e he => vreadBatchNfs_error session _ reads he,
    fun e he => vreadBatchIntoNfs_error other _ reads he, fun hsize => ?_, fun hsize => ?_⟩
  · exact replays_of_frame hsize none reads fun e he => vreadBatchNfs_error session _ reads he
  · exact replays_of_frame hsize (some buffers) reads
      fun e he => vreadBatchIntoNfs_error other _ reads he

/-- A server that returns at most `limit` bytes for a READ. -/
def shortServer (limit : Nat) (contents : NfsFh → Bytes) : ReadSession Unit where
  maxRequestArgBytes := 1048576
  fileSize s fh := (.ok (contents fh).length, s)
  writev s _ := (.ok [], s)
  maxResponseBytes := 1048576
  readBatch s ops := ((ops.map fun op =>
    let data := ((contents op.fh).drop op.offset).take (min op.count limit)
    (data, decide ((contents op.fh).length ≤ op.offset + data.length)), none), s)

theorem shortServer_serves {limit : Nat} (hli : 0 < limit) (contents : NfsFh → Bytes) :
    Serves (shortServer limit contents) contents where
  size _ _ := rfl
  answers s ops := by
    refine ⟨_, rfl, forall₂_map_right_iff.mpr (forall₂_same.mpr fun op _ => ?_)⟩
    refine ⟨?_, ?_, fun hc hi hn => ?_, decide_eq_true_iff⟩
    · dsimp only
      rw [take_eq_take_iff, length_take]
      omega
    · dsimp only
      rw [length_take]
      omega
    · have hl := congrArg List.length hn
      rw [length_take, length_drop, length_nil] at hl
      omega

/-- One server replies byte by byte, the other two bytes at a time. -/
theorem vreadBatchNfs_vreadBatchIntoNfs_agree_short :
    let contents : NfsFh → Bytes := fun _ => [97, 98, 99, 100, 101]
    let openFiles : Int → Option NfsOpenState := fun fd =>
      if fd = 3 then some ⟨⟨[1]⟩, ⟨1, []⟩, 2, false⟩ else none
    let reads : List ReadOp := [⟨3, .cur, 2⟩, ⟨3, .pos 0, 4⟩, ⟨3, .cur, 9⟩, ⟨3, .eof, 1⟩]
    let buffers : List Bytes := [[0, 0], [0, 0, 0, 0], replicate 9 0, [0]]
    Agree (vreadBatchNfs (shortServer 1 contents) ⟨openFiles, ()⟩ reads)
      (vreadBatchIntoNfs (shortServer 2 contents) ⟨openFiles, ()⟩ reads buffers) := by
  intro contents openFiles reads buffers
  exact (vreadBatchNfs_vreadBatchIntoNfs_agree (shortServer 1 contents) (shortServer 2 contents)
    contents openFiles () () reads buffers).1 (shortServer_serves Nat.one_pos contents)
    (shortServer_serves Nat.two_pos contents) ⟨rfl, rfl⟩ rfl

end Vnfs.Nfs.DescriptorReads
