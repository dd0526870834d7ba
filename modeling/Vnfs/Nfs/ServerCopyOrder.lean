import Vnfs.Nfs.ClientCopy

/-!
Copying by the server against copying one pair after another. In a batch without
aliases no pair touches the objects of another one, so the rounds of partial COPYs
leave at each destination a front part of its extent; when no pair is pending, that is
the whole extent. Along the way: what was asked for, and what was acknowledged.
-/

namespace Vnfs.Nfs.Copy

open ByteFile
open List hiding max min

variable {P F : Type} [DecidableEq F] {server : CopyServer} {identity : P → F}

/-- What is true of a pair while its batch is copied from the contents in `base`. -/
structure CopyItem.Good (identity : P → F) (base : F → Bytes) (item : CopyItem P F) : Prop where
  source : item.source = identity item.pair.srcPath
  destination : item.destination = identity item.pair.dstPath
  srcOffset : item.srcOffset = item.pair.srcOffset + item.total
  dstOffset : item.dstOffset = item.pair.dstOffset + item.total
  length : ∀ l, item.length = some l → l = (item.pair.extent identity base).length
  unlimited : item.length = none → item.pair.length = none
  within : item.total ≤ (item.pair.extent identity base).length
  done : item.pending = false → item.total = (item.pair.extent identity base).length
  live : item.pending = true → ∀ l, item.length = some l → item.total < l

/-- The state of a batch whose pairs have no object in common. -/
structure Copying (identity : P → F) (base : F → Bytes) (items : List (CopyItem P F))
    (store : F → Bytes) : Prop where
  good : ∀ item ∈ items, item.Good identity base
  apart : (items.map CopyItem.destination).Nodup
  sources : ∀ item ∈ items, ∀ other ∈ items, item.source ≠ other.destination
  written : ∀ item ∈ items, store item.destination =
    pwrite (base item.destination) item.pair.dstOffset
      ((item.pair.extent identity base).take item.total)
  others : ∀ file, (∀ item ∈ items, file ≠ item.destination) → store file = base file

/-- `advance` where nothing overflows. -/
def CopyItem.step (item : CopyItem P F) (n : Nat) : CopyItem P F :=
  {item with
    total := item.total + n, srcOffset := item.srcOffset + n, dstOffset := item.dstOffset + n,
    pending := n ≠ 0 ∧ item.length.all (item.total + n < ·)}

omit [DecidableEq F] in
theorem CopyItem.advance_ok {item item' : CopyItem P F} {n : Nat} (h : item.advance n = .ok item') :
    item' = item.step n := by
  unfold CopyItem.advance at h
  split at h
  · rename_i ht hs hd
    obtain rfl := checkedAdd_eq_some ht
    obtain rfl := checkedAdd_eq_some hs
    obtain rfl := checkedAdd_eq_some hd
    exact (Except.ok.inj h).symm
  · cases h

variable {base store : F → Bytes} {items : List (CopyItem P F)} {item : CopyItem P F} {n : Nat}
  {front : List (CopyItem P F)} {w w' : CopyWorld F} {numbers : List Nat}
  {first second : List CopyRequest}

omit [DecidableEq F] in
theorem Copying.limit (h : Copying identity base items store) (hi : item ∈ items)
    (hp : item.pending = true) :
    (if item.count = 0 then (store item.source).length - item.srcOffset
      else min item.count ((store item.source).length - item.srcOffset)) =
      (item.pair.extent identity base).length - item.total := by
  have hg := h.good item hi
  have hs : store item.source = base (identity item.pair.srcPath) := by
    rw [h.others _ fun other ho => h.sources item hi other ho, hg.source]
  have he := item.pair.extent_eq identity base
  have hle := limited_length_le item.pair.length
    ((base (identity item.pair.srcPath)).drop item.pair.srcOffset)
  rw [← he, length_drop] at hle
  rw [hs, hg.srcOffset]
  cases hlen : item.length with
  | none =>
    have ha : (item.pair.extent identity base).length =
        (base (identity item.pair.srcPath)).length - item.pair.srcOffset := by
      rw [he, hg.unlimited hlen, limited, length_drop]
    have hc : item.count = 0 := by rw [CopyItem.count, hlen]
    rw [if_pos hc]
    omega
  | some l =>
    have hli := hg.live hp l hlen
    have hl := hg.length l hlen
    have hc : item.count = l - item.total := by rw [CopyItem.count, hlen]
    rw [hc, if_neg (by omega)]
    omega

omit [DecidableEq F] in
theorem CopyItem.Good.step {grant : Nat} (h : item.Good identity base)
    (hn : n = min ((item.pair.extent identity base).length - item.total) (max 1 grant)) :
    (item.step n).Good identity base := by
  have hin := h.within
  refine ⟨h.source, h.destination, ?_, ?_, h.length, h.unlimited, ?_, ?_, ?_⟩
  · change item.srcOffset + n = item.pair.srcOffset + (item.total + n)
    rw [h.srcOffset, Nat.add_assoc]
  · change item.dstOffset + n = item.pair.dstOffset + (item.total + n)
    rw [h.dstOffset, Nat.add_assoc]
  · change item.total + n ≤ (item.pair.extent identity base).length
    omega
  · intro hp
    change item.total + n = (item.pair.extent identity base).length
    have hno : ¬ (n ≠ 0 ∧ item.length.all (item.total + n < ·) = true) := by
      simpa [CopyItem.step] using hp
    by_cases hz : n = 0
    · omega
    cases hlen : item.length with
    | none => exact absurd ⟨hz, by rw [hlen]; rfl⟩ hno
    | some l =>
      have hl := h.length l hlen
      have hle : ¬ item.total + n < l := by
        intro hlt
        exact hno ⟨hz, by simp [hlen, hlt]⟩
      omega
  intro hp l hlen
  change item.total + n < l
  have ha : n ≠ 0 ∧ item.length.all (item.total + n < ·) = true := by
    simpa [CopyItem.step] using hp
  have hlen' : item.length = some l := hlen
  rw [hlen'] at ha
  simpa using ha.2

theorem Copying.copy {rest : List (CopyItem P F)}
    (h : Copying identity base (front ++ item :: rest) w.store) (hp : item.pending = true)
    (hco : w.copy server item = (w', .ok n)) :
    Copying identity base (front ++ item.step n :: rest) w'.store ∧
      w'.copies = w.copies ++ [⟨item.number, item.length.isSome, item.count, some n⟩] := by
  have hm : item ∈ front ++ item :: rest := by simp
  have hg := h.good item hm
  have hli := h.limit hm hp
  have hsr : w.store item.source = base (identity item.pair.srcPath) := by
    rw [h.others _ fun other ho => h.sources item hm other ho, hg.source]
  unfold CopyWorld.copy at hco
  dsimp only at hco
  split at hco
  · cases hco
  rw [hli] at hco
  obtain ⟨hw, hn⟩ := Prod.mk.inj hco
  have hn := Except.ok.inj hn
  rw [hn] at hw
  subst hw
  refine ⟨?_, rfl⟩
  have hs : (item.step n).Good identity base := hg.step hn.symm
  have hm' : ∀ other ∈ front ++ item.step n :: rest,
      other = item.step n ∨ (other ∈ front ++ item :: rest ∧
        other.destination ≠ item.destination) := by
    intro other ho
    have hnd := h.apart
    rw [map_append, map_cons, nodup_append] at hnd
    rcases mem_append.mp ho with hfr | hr
    · refine .inr ⟨by simp [hfr], ?_⟩
      exact hnd.2.2 _ (mem_map_of_mem hfr) _ mem_cons_self
    rcases mem_cons.mp hr with rfl | hr
    · exact .inl rfl
    · refine .inr ⟨by simp [hr], fun heq => ?_⟩
      exact (nodup_cons.mp hnd.2.1).1 (heq ▸ mem_map_of_mem hr)
  refine ⟨?_, ?_, ?_, ?_, ?_⟩
  · intro other ho
    obtain rfl | ⟨hold, -⟩ := hm' other ho
    · exact hs
    · exact h.good other hold
  · have hap := h.apart
    rw [map_append, map_cons] at hap ⊢
    exact hap
  · intro first hfs second hsn
    have holds : ∀ other ∈ front ++ item.step n :: rest, ∃ old ∈ front ++ item :: rest,
        old.source = other.source ∧ old.destination = other.destination := by
      intro other ho
      obtain rfl | ⟨hold, -⟩ := hm' other ho
      · exact ⟨item, hm, rfl, rfl⟩
      · exact ⟨other, hold, rfl, rfl⟩
    obtain ⟨old, hold, hsr', -⟩ := holds first hfs
    obtain ⟨old', hold', -, hd⟩ := holds second hsn
    rw [← hsr', ← hd]
    exact h.sources old hold old' hold'
  · intro other ho
    dsimp only
    obtain rfl | ⟨hold, hne⟩ := hm' other ho
    · have hle := limited_length_le item.pair.length
        ((base (identity item.pair.srcPath)).drop item.pair.srcOffset)
      have hin := hg.within
      rw [item.pair.extent_eq identity base] at hin hn
      have hc : ∀ l, item.pair.length = some l → item.total + n ≤ l := by
        intro l hl
        rw [hl, limited, length_take] at hn hin
        omega
      have hleft : n ≤ ((base (identity item.pair.srcPath)).drop item.pair.srcOffset).length -
          item.total := by
        omega
      obtain ⟨-, hpc⟩ := limited_piece hin hc hleft
      have hfr : ((limited item.pair.length ((base (identity item.pair.srcPath)).drop
          item.pair.srcOffset)).take item.total).length = item.total := by
        rw [length_take, Nat.min_eq_left hin]
      have hj := pwrite_append (base item.destination) item.pair.dstOffset
        ((limited item.pair.length ((base (identity item.pair.srcPath)).drop
          item.pair.srcOffset)).take item.total)
        ((((base (identity item.pair.srcPath)).drop item.pair.srcOffset).drop item.total).take n)
      change writeTo w.store item.destination _ _ item.destination =
        pwrite (base item.destination) item.pair.dstOffset
          ((item.pair.extent identity base).take (item.total + n))
      rw [writeTo_same, h.written item hm, item.pair.extent_eq identity base, ← hpc, hj,
        hfr, hsr, hg.srcOffset, hg.dstOffset, drop_drop]
    · rw [writeTo_of_ne _ hne]
      exact h.written other hold
  intro file hf
  have hne : file ≠ item.destination := hf (item.step n) (by simp)
  dsimp only
  rw [writeTo_of_ne _ hne]
  apply h.others
  intro other ho
  rcases mem_append.mp ho with hfr | hr
  · exact hf other (by simp [hfr])
  · rcases mem_cons.mp hr with rfl | hr
    · exact hne
    · exact hf other (by simp [hr])

/-- `advanceAll` where nothing overflows. -/
def stepAll : List (CopyItem P F) → List Nat → List (CopyItem P F)
  | [], _ => []
  | item :: rest, counts =>
    if item.pending then
      match counts with
      | [] => item :: rest
      | n :: counts => item.step n :: stepAll rest counts
    else item :: stepAll rest counts

omit [DecidableEq F] in
theorem stepAll_idle {item : CopyItem P F} (h : ¬ item.pending = true) (rest : List (CopyItem P F))
    (counts : List Nat) : stepAll (item :: rest) counts = item :: stepAll rest counts := by
  cases counts <;> simp [stepAll, h]

omit [DecidableEq F] in
theorem advanceAll_ok {items items' : List (CopyItem P F)} {counts : List Nat}
    (h : advanceAll items counts = .ok items') : items' = stepAll items counts := by
  induction items generalizing items' counts with
  | nil => exact (Except.ok.inj h).symm
  | cons item rest ih =>
    unfold advanceAll at h
    split at h
    · rename_i hp
      cases counts with
      | nil =>
        rw [stepAll, if_pos hp]
        exact (Except.ok.inj h).symm
      | cons n counts =>
        rw [stepAll, if_pos hp]
        cases ho : item.advance n with
        | error error => simp [ho, bind, Except.bind] at h
        | ok item' =>
          cases hr : advanceAll rest counts with
          | error error => simp [ho, hr, bind, Except.bind] at h
          | ok rest' =>
            simp only [ho, hr, bind, Except.bind, Except.ok.injEq] at h
            rw [← h, item.advance_ok ho, ih hr]
    rename_i hp
    rw [stepAll_idle hp]
    cases hr : advanceAll rest counts with
    | error error => simp [hr, bind, Except.bind] at h
    | ok rest' =>
      simp only [hr, bind, Except.bind, Except.ok.injEq] at h
      rw [← h, ih hr]

omit [DecidableEq F] in
/-- Only an overflow ends it, and that allows no fallback. -/
theorem advanceAll_error {counts : List Nat} {error : VfError}
    (h : advanceAll items counts = .error error) : rawCode error = VfError.eoverflow := by
  induction items generalizing counts with
  | nil => cases h
  | cons item rest ih =>
    unfold advanceAll at h
    split at h
    · cases counts with
      | nil => cases h
      | cons n counts =>
        cases ho : item.advance n with
        | error e =>
          simp only [ho, bind, Except.bind, Except.error.injEq] at h
          subst h
          unfold CopyItem.advance at ho
          split at ho
          · cases ho
          · rw [← Except.error.inj ho]
            rfl
        | ok item' =>
          cases hr : advanceAll rest counts with
          | error e =>
            simp only [ho, hr, bind, Except.bind, Except.error.injEq] at h
            subst h
            exact ih hr
          | ok rest' => simp [ho, hr, bind, Except.bind] at h
    cases hr : advanceAll rest counts with
    | error e =>
      simp only [hr, bind, Except.bind, Except.error.injEq] at h
      subst h
      exact ih hr
    | ok rest' => simp [hr, bind, Except.bind] at h

/-- Requests for certain pairs, none with count zero for an explicit length. -/
def Asked (numbers : List Nat) (requests : List CopyRequest) : Prop :=
  ∀ request ∈ requests, (request.explicit = true → request.count ≠ 0) ∧ request.number ∈ numbers

/-- No byte was acknowledged. -/
def Quiet (requests : List CopyRequest) : Prop :=
  ∀ request ∈ requests, request.acked = none ∨ request.acked = some 0

theorem Asked.append (h : Asked numbers first) (h' : Asked numbers second) :
    Asked numbers (first ++ second) :=
  fun request hr => (mem_append.mp hr).elim (h request) (h' request)

theorem Asked.mono {numbers' : List Nat} {requests : List CopyRequest} (h : Asked numbers requests)
    (hs : ∀ number ∈ numbers, number ∈ numbers') : Asked numbers' requests :=
  fun request hr => ⟨(h request hr).1, hs _ (h request hr).2⟩

theorem Quiet.append (h : Quiet first) (h' : Quiet second) : Quiet (first ++ second) :=
  fun request hr => (mem_append.mp hr).elim (h request) (h' request)

omit [DecidableEq F] in
theorem count_ne_zero {base : F → Bytes} {item : CopyItem P F} (h : item.Good identity base)
    (hp : item.pending = true) (he : item.length.isSome = true) : item.count ≠ 0 := by
  obtain ⟨l, hl⟩ := Option.isSome_iff_exists.mp he
  have hli := h.live hp l hl
  rw [CopyItem.count, hl]
  dsimp only
  omega

/-- What a vector of COPYs gives for the pairs behind those already moved on. -/
def ManyDone (identity : P → F) (base : F → Bytes) (front items : List (CopyItem P F))
    (position : Nat) (requests : List CopyRequest) (before store : F → Bytes) :
    Except (Nat × Nat) (List Nat) → Prop
  | .ok counts => Copying identity base (front ++ stepAll items counts) store ∧
      ((∀ item ∈ stepAll items counts, item.total = 0) → Quiet requests)
  | .error (refused, _) => position ≤ refused ∧
      (refused = position → Quiet requests ∧ store = before)

theorem copyMany_spec {position : Nat} {result : Except (Nat × Nat) (List Nat)}
    (h : Copying identity base (front ++ items) w.store)
    (hma : copyMany server position items w = (w', result)) :
    ∃ requests, w'.copies = w.copies ++ requests ∧ Asked (items.map CopyItem.number) requests ∧
      ManyDone identity base front items position requests w.store w'.store result := by
  induction items generalizing front position w w' result with
  | nil =>
    obtain ⟨rfl, rfl⟩ := Prod.mk.inj hma
    refine ⟨[], by simp, by simp [Asked], ?_⟩
    exact ⟨h, fun _ => by simp [Quiet]⟩
  | cons item rest ih =>
    rw [copyMany] at hma
    have hg := h.good item (by simp)
    split at hma
    · rename_i hp
      have ha : ∀ acked, Asked ((item :: rest).map CopyItem.number)
          [⟨item.number, item.length.isSome, item.count, acked⟩] := by
        intro acked request hre
        rw [mem_singleton.mp hre]
        exact ⟨count_ne_zero hg hp, by simp⟩
      cases hc : w.copy server item with
      | mk next answer =>
      rw [hc] at hma
      cases answer with
      | error status =>
        obtain ⟨rfl, rfl⟩ := Prod.mk.inj hma
        have hne : next.copies = w.copies ++
            [⟨item.number, item.length.isSome, item.count, none⟩] ∧ next.store = w.store := by
          unfold CopyWorld.copy at hc
          split at hc
          · rw [← (Prod.mk.inj hc).1]
            exact ⟨rfl, rfl⟩
          · cases hc
        exact ⟨_, hne.1, ha none, Nat.le_refl _, fun _ => ⟨by simp [Quiet], hne.2⟩⟩
      | ok n =>
        dsimp only at hma
        obtain ⟨hst, hne⟩ := h.copy hp hc
        rw [show front ++ item.step n :: rest = (front ++ [item.step n]) ++ rest by simp] at hst
        cases hm : copyMany server (position + 1) rest next with
        | mk final more =>
        obtain ⟨requests, hcp, hr, hd⟩ := ih hst hm
        rw [hm] at hma
        have hal : w.copies ++ ([⟨item.number, item.length.isSome, item.count, some n⟩] ++
            requests) = final.copies := by
          rw [hcp, hne, append_assoc]
        have hb := (ha (some n)).append (hr.mono fun number hnu => mem_cons_of_mem _ hnu)
        cases more with
        | error failure =>
          obtain ⟨rfl, rfl⟩ := Prod.mk.inj hma
          refine ⟨_, hal.symm, hb, Nat.le_of_succ_le hd.1, ?_⟩
          rintro rfl
          exact absurd hd.1 (Nat.not_succ_le_self _)
        | ok counts =>
          obtain ⟨rfl, rfl⟩ := Prod.mk.inj hma
          have hs : stepAll (item :: rest) (n :: counts) = item.step n :: stepAll rest counts := by
            rw [stepAll, if_pos hp]
          refine ⟨_, hal.symm, hb, ?_, ?_⟩
          · rw [hs]
            have hcpy := hd.1
            rwa [append_assoc] at hcpy
          intro hz
          rw [hs] at hz
          have hn : item.total + n = 0 := hz (item.step n) mem_cons_self
          obtain rfl : n = 0 := by omega
          apply Quiet.append
          · simp [Quiet]
          · exact hd.2 fun other ho => hz other (mem_cons_of_mem _ ho)
    rename_i hp
    rw [show front ++ item :: rest = (front ++ [item]) ++ rest by simp] at h
    obtain ⟨requests, hcp, ha, hd⟩ := ih h hma
    refine ⟨requests, hcp, ha.mono fun number hnu => mem_cons_of_mem _ hnu, ?_⟩
    cases result with
    | error failure => exact hd
    | ok counts =>
      have hs := stepAll_idle hp rest counts
      refine ⟨?_, ?_⟩
      · rw [hs]
        have hcpy := hd.1
        rwa [append_assoc] at hcpy
      · intro hz
        rw [hs] at hz
        exact hd.2 fun other ho => hz other (mem_cons_of_mem _ ho)

omit [DecidableEq F] in
theorem stepAll_map {α : Type} {f : CopyItem P F → α} (hf : ∀ item n, f (item.step n) = f item)
    (items : List (CopyItem P F)) (counts : List Nat) :
    (stepAll items counts).map f = items.map f := by
  induction items generalizing counts with
  | nil => rfl
  | cons item rest ih =>
    by_cases hp : item.pending = true
    · cases counts with
      | nil => rw [stepAll, if_pos hp]
      | cons n counts =>
        rw [stepAll, if_pos hp, map_cons, map_cons, ih, hf]
    · rw [stepAll_idle hp, map_cons, map_cons, ih]

omit [DecidableEq F] in
theorem total_of_stepAll {items : List (CopyItem P F)} {counts : List Nat}
    (h : ∀ item ∈ stepAll items counts, item.total = 0) : ∀ item ∈ items, item.total = 0 := by
  induction items generalizing counts with
  | nil => simp
  | cons item rest ih =>
    by_cases hp : item.pending = true
    · cases counts with
      | nil =>
        rw [stepAll, if_pos hp] at h
        exact h
      | cons n counts =>
        rw [stepAll, if_pos hp] at h
        obtain ⟨hi, hr⟩ := forall_mem_cons.mp h
        have hs : item.total + n = 0 := hi
        exact forall_mem_cons.mpr ⟨by omega, ih hr⟩
    · rw [stepAll_idle hp] at h
      obtain ⟨hi, hr⟩ := forall_mem_cons.mp h
      exact forall_mem_cons.mpr ⟨hi, ih hr⟩

omit [DecidableEq F] in
theorem Copying.untouched (h : Copying identity base items store)
    (hz : ∀ item ∈ items, item.total = 0) : store = base := by
  funext file
  by_cases hf : ∃ item ∈ items, file = item.destination
  · obtain ⟨item, hi, rfl⟩ := hf
    rw [h.written item hi, hz item hi, take_zero, pwrite_nil]
  · exact h.others file fun item hi heq => hf ⟨item, hi, heq⟩

def RoundsDone (identity : P → F) (base : F → Bytes) (items : List (CopyItem P F))
    (requests : List CopyRequest) (store : F → Bytes) :
    Option (Except CopyBatchFailure (List (CopyItem P F))) → Prop
  | none => True
  | some (.ok final) => Copying identity base final store ∧
      (∀ item ∈ final, item.pending = false) ∧
      final.map CopyItem.pair = items.map CopyItem.pair
  | some (.error failure) => failure.fallbackSafe = true →
      (∀ item ∈ items, item.total = 0) ∧ Quiet requests ∧ store = base

theorem copyRounds_spec {fuel : Nat}
    {result : Option (Except CopyBatchFailure (List (CopyItem P F)))}
    (h : Copying identity base items w.store) (hr : copyRounds server fuel items w = (w', result)) :
    ∃ requests, w'.copies = w.copies ++ requests ∧ Asked (items.map CopyItem.number) requests ∧
      RoundsDone identity base items requests w'.store result := by
  induction fuel generalizing items w with
  | zero =>
    obtain ⟨rfl, rfl⟩ := Prod.mk.inj hr
    exact ⟨[], by simp, by simp [Asked], trivial⟩
  | succ fuel ih =>
    rw [copyRounds] at hr
    split at hr
    · rename_i hi
      obtain ⟨rfl, rfl⟩ := Prod.mk.inj hr
      refine ⟨[], by simp, by simp [Asked], h, ?_, rfl⟩
      intro item hit
      simpa using all_eq_true.mp hi item hit
    cases hm : copyMany server 0 items w with
    | mk next answer =>
    have hf : Copying identity base ([] ++ items) w.store := h
    obtain ⟨requests, hc, has, hd⟩ := copyMany_spec hf hm
    rw [hm] at hr
    cases answer with
    | error refused =>
      obtain ⟨rfl, rfl⟩ := Prod.mk.inj hr
      refine ⟨requests, hc, has, ?_⟩
      intro hs
      simp only [copyFailure, serverCopyFailureAllowsFallback, Bool.and_eq_true,
        beq_iff_eq, all_eq_true] at hs
      obtain ⟨hq, hst⟩ := hd.2 hs.1.2
      exact ⟨hs.2, hq, hst.trans (h.untouched hs.2)⟩
    | ok counts =>
      dsimp only at hr
      cases ha : advanceAll items counts with
      | error error =>
        rw [ha] at hr
        obtain ⟨rfl, rfl⟩ := Prod.mk.inj hr
        refine ⟨requests, hc, has, ?_⟩
        intro hs
        rw [CopyBatchFailure.ofError, advanceAll_error ha] at hs
        cases hs
      | ok items' =>
        rw [ha] at hr
        obtain rfl := advanceAll_ok ha
        have hstepped : Copying identity base (stepAll items counts) next.store := hd.1
        obtain ⟨more, hmo, has', hd'⟩ := ih hstepped hr
        rw [stepAll_map fun _ _ => rfl] at has'
        refine ⟨requests ++ more, by rw [hmo, hc, append_assoc], has.append has', ?_⟩
        cases result with
        | none => trivial
        | some result =>
        cases result with
        | ok final =>
          obtain ⟨hcp, hi, hp⟩ := hd'
          exact ⟨hcp, hi, hp.trans (stepAll_map (fun _ _ => rfl) items counts)⟩
        | error failure =>
          intro hs
          obtain ⟨hz, hq, hst⟩ := hd' hs
          exact ⟨total_of_stepAll hz, (hd.2 hz).append hq, hst⟩

end Vnfs.Nfs.Copy
