import Vnfs.Nfs.DescriptorReadsAgree

/-!
Several reads through one cursor. The local backend takes a vector of descriptor reads
one at a time as soon as two of them use the same cursor, and so always gets what one
call for each read would get. The NFS batch fixes every offset before the first READ:
a second `Cur` read starts where the first one did, and it is the last one that places
the cursor.
-/

namespace Vnfs.Nfs.DescriptorReads

open List Function

abbrev Table := Int → Option NfsOpenState

section Local

variable (contents : NfsFh → Bytes)

variable (table : Table) (op : ReadOp) (reads : List ReadOp)

/-- The bytes `read_at` finds in a file that does not change, with their offset. -/
def readAt (place : NfsFh × Nat) : Nat × Bytes :=
  (place.2, ((contents place.1).drop place.2).take op.length)

/-- The checks of a read, the same in `prepare_read` and `readv_one_into`. -/
def prepareRead (index : Nat) (op : ReadOp) : VfResult (NfsFh × Nat) :=
  match placeOf contents table op with
  | none => .error (.errno (some index) VfError.errEbadf)
  | some place =>
    match checkedAdd place.2 op.length with
    | none => .error (.errno (some index) VfError.eoverflow)
    | some _ => .ok place

def moveCursor (result : Nat × Bytes) : Table :=
  if op.offset = .cur then advanceOffset table op.fd (result.1 + result.2.length) else table

/-- `readv_one_into` of a descriptor. The check of the new cursor cannot fail behind
that of the whole range. -/
def readvOne : VfResult ((Nat × Bytes) × Table) :=
  match prepareRead contents table 0 op with
  | .error e => .error e
  | .ok place => .ok (readAt contents op place, moveCursor table op (readAt contents op place))

/-- The sequential loop of `vread_into_impl`: the reads one at a time, in order. -/
def readvEach : Nat → Table → List ReadOp → VfResult (List (Nat × Bytes) × Table)
  | _, table, [] => .ok ([], table)
  | i, table, op :: reads =>
    match readvOne contents table op with
    | .error e => .error (e.withIndex i)
    | .ok (result, table) =>
      match readvEach (i + 1) table reads with
      | .error e => .error e
      | .ok (results, table) => .ok (result :: results, table)

def independentReads : List Int → List ReadOp → Bool
  | _, [] => true
  | cursors, op :: reads =>
    if op.offset = .cur then !cursors.contains op.fd && independentReads (op.fd :: cursors) reads
    else independentReads cursors reads

def prepareReads (table : Table) : Nat → List ReadOp → VfResult (List (NfsFh × Nat))
  | _, [] => .ok []
  | i, op :: reads =>
    match prepareRead contents table i op with
    | .error e => .error e
    | .ok place =>
      match prepareReads table (i + 1) reads with
      | .error e => .error e
      | .ok places => .ok (place :: places)

def moveCursors (results : List (Nat × Bytes)) : Table :=
  advanceCursors table reads (results.map fun result => (result.1, result.2.length))

/-- `vread_impl` of the local backend for descriptors. -/
def vreadLocal : VfResult (List (Nat × Bytes) × Table) :=
  if independentReads [] reads then
    match prepareReads contents table 0 reads with
    | .error e => .error e
    | .ok places =>
      let results := zipWith (readAt contents) reads places
      .ok (results, moveCursors table reads results)
  else readvEach contents 0 table reads

end Local

section Sequential

variable {contents : NfsFh → Bytes} {table : Table} {op later : ReadOp} {place : NfsFh × Nat}
  {reads : List ReadOp} {places : List (NfsFh × Nat)}

/-- The later read does not depend on what the earlier one finds. -/
def Unmoved (contents : NfsFh → Bytes) (op : ReadOp) (place : NfsFh × Nat) (later : ReadOp) :
    Prop :=
  op.offset = .cur → later.offset = .cur → op.fd = later.fd →
    op.length = 0 ∨ (contents place.1).length ≤ place.2

variable {i : Nat} {opened : NfsOpenState} {results : List (Nat × Bytes)} {table' : Table}

theorem prepareRead_ok (h : prepareRead contents table i op = .ok place) :
    placeOf contents table op = some place ∧ place.2 + op.length ≤ u64Max := by
  unfold prepareRead at h
  split at h
  · cases h
  rename_i found hf
  split at h
  · cases h
  rename_i total ht
  cases h
  unfold checkedAdd at ht
  split at ht
  · exact ⟨hf, by assumption⟩
  · cases ht

theorem prepareRead_of_place (i : Nat) (hp : placeOf contents table op = some place)
    (hr : place.2 + op.length ≤ u64Max) : prepareRead contents table i op = .ok place := by
  unfold prepareRead checkedAdd
  rw [hp]
  dsimp only
  rw [if_pos hr]

theorem placeOf_cur (hp : placeOf contents table op = some place) (hc : op.offset = .cur) :
    ∃ opened, table op.fd = some opened ∧ place = (opened.fh, opened.curOffset) := by
  obtain ⟨opened, ho, rfl⟩ := Option.map_eq_some_iff.mp hp
  exact ⟨opened, ho, by rw [hc]⟩

/-- A read moves the place of a later one only through a common cursor. -/
theorem placeOf_moveCursor (hp : placeOf contents table op = some place)
    (hu : Unmoved contents op place later) :
    placeOf contents (moveCursor table op (readAt contents op place)) later =
      placeOf contents table later := by
  unfold moveCursor
  split
  · rename_i hc
    obtain ⟨opened, ho, rfl⟩ := placeOf_cur hp hc
    unfold placeOf advanceOffset
    by_cases hfd : later.fd = op.fd
    · rw [hfd, update_self, ho]
      cases hof : later.offset with
      | pos offset => rfl
      | eof => rfl
      | cur =>
        have hn : (readAt contents op (opened.fh, opened.curOffset)).2.length = 0 := by
          have hb := hu hc hof hfd.symm
          dsimp only at hb
          simp only [readAt, length_take, length_drop]
          omega
        rw [hn]
        rfl
    · rw [update_of_ne hfd]
  · rfl

theorem moveCursor_le (hp : placeOf contents table op = some place) {fd : Int}
    (ho : table fd = some opened) :
    ∃ opened', moveCursor table op (readAt contents op place) fd = some opened' ∧
      opened.curOffset ≤ opened'.curOffset := by
  unfold moveCursor
  split
  · rename_i hc
    obtain ⟨found, hf, rfl⟩ := placeOf_cur hp hc
    unfold advanceOffset
    by_cases hfd : fd = op.fd
    · subst hfd
      rw [update_self, ho]
      obtain rfl := Option.some.inj (hf.symm.trans ho)
      exact ⟨_, rfl, Nat.le_add_right _ _⟩
    · rw [update_of_ne hfd]
      exact ⟨opened, ho, Nat.le_refl _⟩
  · exact ⟨opened, ho, Nat.le_refl _⟩

theorem readvEach_cons (h : readvEach contents i table (op :: reads) = .ok (results, table')) :
    ∃ place rest, prepareRead contents table 0 op = .ok place ∧
      results = readAt contents op place :: rest ∧
      readvEach contents (i + 1) (moveCursor table op (readAt contents op place)) reads =
        .ok (rest, table') := by
  unfold readvEach readvOne at h
  cases hp : prepareRead contents table 0 op with
  | error e => simp [hp] at h
  | ok place =>
    rw [hp] at h
    dsimp only at h
    split at h
    · cases h
    · rename_i rest table₁ hr
      cases h
      exact ⟨place, rest, rfl, rfl, hr⟩

/-- A `Cur` read, whatever came before it, begins no earlier than the cursor was. -/
theorem readvEach_ge (h : readvEach contents i table reads = .ok (results, table'))
    (ho : table later.fd = some opened) {k : Nat} (hre : reads[k]? = some later)
    (hc : later.offset = .cur) {result : Nat × Bytes} (hres : results[k]? = some result) :
    opened.curOffset ≤ result.1 := by
  induction reads generalizing i table results opened k with
  | nil => cases hre
  | cons op reads ih =>
    obtain ⟨place, rest, hpr, rfl, hr⟩ := readvEach_cons h
    obtain ⟨hp, -⟩ := prepareRead_ok hpr
    cases k with
    | zero =>
      obtain rfl := Option.some.inj hre
      obtain rfl := Option.some.inj hres
      obtain ⟨found, hf, rfl⟩ := placeOf_cur hp hc
      obtain rfl := Option.some.inj (hf.symm.trans ho)
      exact Nat.le_refl _
    | succ k =>
      obtain ⟨opened', ho', hle⟩ := moveCursor_le hp ho
      exact hle.trans (ih hr ho' hre hres)

/-- With the places fixed beforehand, the reads one at a time find the same exactly if no
read moves the cursor of a later one. -/
theorem readvEach_iff_unmoved (i : Nat)
    (hpl : Forall₂ (fun op place => placeOf contents table op = some place ∧
      place.2 + op.length ≤ u64Max) reads places) :
    readvEach contents i table reads = .ok (zipWith (readAt contents) reads places,
        moveCursors table reads (zipWith (readAt contents) reads places)) ↔
      (reads.zip places).Pairwise fun earlier later =>
        Unmoved contents earlier.1 earlier.2 later.1 := by
  induction reads generalizing i table places with
  | nil =>
    cases hpl
    exact ⟨fun _ => .nil, fun _ => rfl⟩
  | cons op reads ih =>
    obtain _ | @⟨_, place, _, places, hp, hre⟩ := hpl
    obtain ⟨hle, hz⟩ := forall₂_iff_zip.mp hre
    have hmv : (∀ later ∈ reads.zip places, Unmoved contents op place later.1) →
        Forall₂ (fun op' place' =>
          placeOf contents (moveCursor table op (readAt contents op place)) op' = some place' ∧
            place'.2 + op'.length ≤ u64Max) reads places := by
      intro hu
      refine forall₂_iff_zip.mpr ⟨hle, fun hm => ⟨?_, (hz hm).2⟩⟩
      rw [placeOf_moveCursor hp.1 (hu _ hm)]
      exact (hz hm).1
    rw [zip_cons_cons, pairwise_cons]
    constructor
    · intro h
      obtain ⟨place', rest, hpr, hress, he⟩ := readvEach_cons h
      obtain rfl := Option.some.inj ((prepareRead_ok hpr).1.symm.trans hp.1)
      obtain ⟨-, rfl⟩ := List.cons.inj hress
      have hu : ∀ later ∈ reads.zip places, Unmoved contents op place' later.1 := by
        intro later hm hc hl hfd
        by_contra hb
        obtain ⟨k, hk⟩ := mem_iff_getElem?.mp hm
        obtain ⟨hr, hf⟩ := getElem?_zip_eq_some.mp hk
        obtain ⟨opened, ho, hp'⟩ := placeOf_cur hp.1 hc
        obtain ⟨opened', ho', hl'⟩ := placeOf_cur (hz hm).1 hl
        rw [← hfd, ho] at ho'
        obtain rfl := Option.some.inj ho'
        have hf' : moveCursor table op (readAt contents op place') later.1.fd = some {opened with
              curOffset := place'.2 + (readAt contents op place').2.length} := by
          unfold moveCursor advanceOffset
          rw [if_pos hc, ← hfd, update_self, ho]
          rfl
        have hge := readvEach_ge he hf' hr hl (by rw [getElem?_zipWith, hr, hf])
        simp only [readAt, length_take, length_drop, hl', hp'] at hge hb
        omega
      exact ⟨hu, (ih (i + 1) (hmv hu)).mp he⟩
    rintro ⟨hu, hpw⟩
    have he := (ih (i + 1) (hmv hu)).mpr hpw
    unfold readvEach readvOne
    rw [prepareRead_of_place 0 hp.1 hp.2]
    dsimp only
    rw [he]
    rfl

end Sequential

section Independent

variable {contents : NfsFh → Bytes} {table : Table}

theorem prepareRead_index (i : Nat) (op : ReadOp) : prepareRead contents table i op =
      (prepareRead contents table 0 op).mapError (·.withIndex i) := by
  unfold prepareRead
  split
  · rfl
  · split <;> rfl

variable {reads : List ReadOp} {cursors : List Int}

theorem prepareReads_congr {table' : Table} (i : Nat)
    (h : ∀ op ∈ reads, placeOf contents table' op = placeOf contents table op) :
    prepareReads contents table' i reads = prepareReads contents table i reads := by
  induction reads generalizing i with
  | nil => rfl
  | cons op reads ih =>
    unfold prepareReads prepareRead
    rw [h op mem_cons_self, ih (i + 1) fun later hl => h later (mem_cons_of_mem _ hl)]

theorem independentReads_mem {op : ReadOp} (h : independentReads cursors reads = true)
    (hm : op ∈ reads) (hc : op.offset = .cur) : op.fd ∉ cursors := by
  induction reads generalizing cursors with
  | nil => cases hm
  | cons first reads ih =>
    unfold independentReads at h
    split at h
    · obtain ⟨hn, hr⟩ := Bool.and_eq_true_iff.mp h
      rcases mem_cons.mp hm with rfl | hl
      · simpa using hn
      · exact fun hold => ih hr hl (mem_cons_of_mem _ hold)
    rename_i ho
    rcases mem_cons.mp hm with rfl | hl
    · exact absurd hc ho
    · exact ih h hl

theorem readvEach_of_independent (i : Nat) (h : independentReads cursors reads = true) :
    readvEach contents i table reads = (prepareReads contents table i reads).map fun places =>
        (zipWith (readAt contents) reads places,
          moveCursors table reads (zipWith (readAt contents) reads places)) := by
  induction reads generalizing cursors i table with
  | nil => rfl
  | cons op reads ih =>
    unfold readvEach readvOne prepareReads
    rw [prepareRead_index i]
    cases hp : prepareRead contents table 0 op with
    | error e => rfl
    | ok place =>
      have hpl : ∀ later ∈ reads, placeOf contents
          (moveCursor table op (readAt contents op place)) later =
            placeOf contents table later := by
        intro later hl
        refine placeOf_moveCursor (prepareRead_ok hp).1 ?_
        intro hc hc' hfd
        unfold independentReads at h
        rw [if_pos hc, Bool.and_eq_true] at h
        exact absurd (hfd ▸ mem_cons_self) (independentReads_mem h.2 hl hc')
      have hr : ∃ cursors', independentReads cursors' reads = true := by
        unfold independentReads at h
        split at h
        · exact ⟨_, (Bool.and_eq_true_iff.mp h).2⟩
        · exact ⟨_, h⟩
      obtain ⟨cursors', hr⟩ := hr
      dsimp only [Except.mapError]
      rw [ih (i + 1) hr, prepareReads_congr (i + 1) hpl]
      cases prepareReads contents table (i + 1) reads with
      | error e => rfl
      | ok places => rfl

/-- The local backend reads as if one at a time, whatever the vector. -/
theorem vreadLocal_eq_readvEach (reads : List ReadOp) :
    vreadLocal contents table reads = readvEach contents 0 table reads := by
  unfold vreadLocal
  split
  · rename_i hi
    rw [readvEach_of_independent 0 hi]
    cases prepareReads contents table 0 reads with
    | error e => rfl
    | ok places => rfl
  · rfl

end Independent

section Batch

variable {σ : Type} {session : ReadSession σ} {contents : NfsFh → Bytes} {openFiles : Table}
  {s : σ} {reads : List ReadOp}

theorem Planned.range {i : Nat} {plan : DescriptorReadPlan} {places : List (NfsFh × Nat)}
    (h : Planned i reads plan places) {op : ReadOp} {place : NfsFh × Nat}
    (hm : (op, place) ∈ reads.zip places) : place.2 + op.length ≤ u64Max := by
  induction h with
  | nil => cases hm
  | cons hr _ _ _ ih =>
    rcases mem_cons.mp hm with heq | hl
    · obtain ⟨rfl, rfl⟩ := Prod.mk.inj heq
      exact hr
    · exact ih hl

theorem readResults_eq_readAt (places : List (NfsFh × Nat)) :
    (readResults contents reads places).map (fun result => (result.offset, result.data)) =
      zipWith (readAt contents) reads places := by
  induction reads generalizing places with
  | nil => rfl
  | cons op reads ih =>
    cases places with
    | nil => rfl
    | cons place places => exact congrArg (List.cons _) (ih places)

/-- What the batch returns: every read at the place its cursor had at the start. -/
theorem vreadBatchNfs_ok (hs : Serves session contents) {results : List ReadResult}
    (hok : (vreadBatchNfs session ⟨openFiles, s⟩ reads).1 = .ok results) :
    ∃ places, Forall₂ (fun op place => placeOf contents openFiles op = some place ∧
        place.2 + op.length ≤ u64Max) reads places ∧
      results.map (fun result => (result.offset, result.data)) =
        zipWith (readAt contents) reads places ∧
      (vreadBatchNfs session ⟨openFiles, s⟩ reads).2.openFiles =
        moveCursors openFiles reads (zipWith (readAt contents) reads places) := by
  cases hpl : descriptorReadPlan session none 0 ⟨openFiles, s⟩ reads with
  | mk result fs₁ =>
    cases result with
    | error e =>
      unfold vreadBatchNfs at hok
      rw [hpl] at hok
      cases hok
    | ok plan =>
      obtain ⟨places, hp, hplcs⟩ := descriptorReadPlan_planned hpl
      have hd := vreadBatchNfs_planned hs hpl hp
      split at hd
      · rw [hok] at hd
        cases hd
      obtain ⟨hr, ht⟩ := hd
      obtain rfl := Except.ok.inj (hok.symm.trans hr)
      refine ⟨places, ?_, readResults_eq_readAt places, ?_⟩
      · obtain ⟨hl, hz⟩ := forall₂_iff_zip.mp (hplcs contents hs)
        exact forall₂_iff_zip.mpr ⟨hl, fun hm => ⟨hz hm, hp.range hm⟩⟩
      · rw [ht, ← readResults_eq_readAt, moveCursors, map_map]
        rfl

end Batch

/-- The earlier read leaves the cursor of the later one where it is. -/
def KeepsCursor (contents : NfsFh → Bytes) (openFiles : Table) (earlier later : ReadOp) : Prop :=
  earlier.offset = .cur → later.offset = .cur → earlier.fd = later.fd →
    earlier.length = 0 ∨ ∀ opened, openFiles earlier.fd = some opened →
      (contents opened.fh).length ≤ opened.curOffset

/-- The local backend's vector of reads is its reads one at a time. An NFS batch that
succeeds returns the same data and offsets and leaves the same cursors exactly if no
`Cur` read finds bytes before another `Cur` read of the same descriptor. -/
theorem vreadBatchNfs_readvEach_iff {σ : Type} (session : ReadSession σ)
    (contents : NfsFh → Bytes) (hserves : Serves session contents) (openFiles : Table) (s : σ)
    (reads : List ReadOp) (results : List ReadResult)
    (hok : (vreadBatchNfs session ⟨openFiles, s⟩ reads).1 = .ok results) :
    vreadLocal contents openFiles reads = readvEach contents 0 openFiles reads ∧
    (readvEach contents 0 openFiles reads =
        .ok (results.map fun result => (result.offset, result.data),
          (vreadBatchNfs session ⟨openFiles, s⟩ reads).2.openFiles) ↔
      reads.Pairwise (KeepsCursor contents openFiles)) := by
  refine ⟨vreadLocal_eq_readvEach reads, ?_⟩
  obtain ⟨places, hplaces, hresults, htable⟩ := vreadBatchNfs_ok hserves hok
  obtain ⟨hlengths, hzip⟩ := forall₂_iff_zip.mp hplaces
  rw [hresults, htable, readvEach_iff_unmoved 0 hplaces]
  have hkeeps : (reads.zip places).Pairwise
        (fun earlier later => Unmoved contents earlier.1 earlier.2 later.1) ↔
      ((reads.zip places).map Prod.fst).Pairwise (KeepsCursor contents openFiles) := by
    rw [pairwise_map]
    refine List.Pairwise.iff_of_mem fun {earlier later} hearlier _ => ?_
    refine forall_congr' fun hcur => forall_congr' fun _ => forall_congr' fun _ => ?_
    obtain ⟨opened, hopened, hplace⟩ := placeOf_cur (hzip hearlier).1 hcur
    rw [hopened, hplace]
    simp
  rwa [map_fst_zip (Nat.le_of_eq hlengths)] at hkeeps

/-- One descriptor at the start of the text `abcde`. -/
def text : NfsFh → Bytes := fun _ => [97, 98, 99, 100, 101]

def oneOpen : Table := fun fd => if fd = 3 then some ⟨⟨[1]⟩, ⟨1, []⟩, 0, false⟩ else none

/-- The batch reads the first two bytes twice, also where both reads use the cursor. -/
theorem vreadBatchNfs_twice {offset : VfOffset} (h : offset = .cur ∨ offset = .pos 0) :
    (vreadBatchNfs (shortServer 8 text) ⟨oneOpen, ()⟩ [⟨3, .cur, 2⟩, ⟨3, offset, 2⟩]).1 =
      .ok [⟨3, 0, [97, 98], false⟩, ⟨3, 0, [97, 98], false⟩] := by
  have hs := shortServer_serves (by decide : 0 < 8) text
  have hplc : placeOf text oneOpen ⟨3, offset, 2⟩ = some (⟨[1]⟩, 0) := by
    rcases h with rfl | rfl <;> rfl
  obtain ⟨plan, fs, hpl, hf⟩ : ∃ plan fs, descriptorReadPlan (shortServer 8 text) none 0
        ⟨oneOpen, ()⟩ [⟨3, .cur, 2⟩, ⟨3, offset, 2⟩] = (.ok plan, fs) ∧
      firstRefused (shortServer 8 text).byteBudget 0
        (packReads (byteLimit (shortServer 8 text)) WireRead.count plan.ops) = none := by
    rcases h with rfl | rfl <;> exact ⟨_, _, rfl, by decide +kernel⟩
  obtain ⟨places, hp, hplcs⟩ := descriptorReadPlan_planned hpl
  have hd := vreadBatchNfs_planned hs hpl hp
  rw [hf] at hd
  obtain _ | ⟨hfs, hr⟩ := hplcs text hs
  obtain _ | ⟨hsn, hn⟩ := hr
  cases hn
  obtain rfl := Option.some.inj (hplc.symm.trans hsn)
  obtain rfl := Option.some.inj hfs
  exact hd.1

/-- Two reads of two bytes through one cursor: the local backend reads on, the NFS batch
reads the same bytes again. -/
theorem vreadBatchNfs_rereads :
    (vreadBatchNfs (shortServer 8 text) ⟨oneOpen, ()⟩ [⟨3, .cur, 2⟩, ⟨3, .cur, 2⟩]).1 =
        .ok [⟨3, 0, [97, 98], false⟩, ⟨3, 0, [97, 98], false⟩] ∧
      (vreadLocal text oneOpen [⟨3, .cur, 2⟩, ⟨3, .cur, 2⟩]).map Prod.fst =
        .ok [(0, [97, 98]), (2, [99, 100])] :=
  ⟨vreadBatchNfs_twice (.inl rfl), rfl⟩

/-- A read through the cursor and one at a fixed offset. -/
theorem vreadBatchNfs_readvEach_iff_mixed :
    readvEach text 0 oneOpen [⟨3, .cur, 2⟩, ⟨3, .pos 0, 2⟩] =
      .ok ([(0, [97, 98]), (0, [97, 98])], (vreadBatchNfs (shortServer 8 text) ⟨oneOpen, ()⟩
        [⟨3, .cur, 2⟩, ⟨3, .pos 0, 2⟩]).2.openFiles) := by
  have hkeeps : [(⟨3, .cur, 2⟩ : ReadOp), ⟨3, .pos 0, 2⟩].Pairwise (KeepsCursor text oneOpen) := by
    simp [KeepsCursor]
  exact (vreadBatchNfs_readvEach_iff (shortServer 8 text) text
    (shortServer_serves (by decide) text) oneOpen () _ _
    (vreadBatchNfs_twice (.inr rfl))).2.mpr hkeeps

end Vnfs.Nfs.DescriptorReads
