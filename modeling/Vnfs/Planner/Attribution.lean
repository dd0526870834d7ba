import Vnfs.Planner.ExecutionMap

/-!
What `analyze` reports about a reply that passed `validate_response_ops`. The
check leaves one possible failure, the last returned operation, so the loop
splits the ranges into those before it, the range that owns it, and those behind
the end of the reply.
-/

namespace Vnfs

open Option Status
open List hiding min

namespace CompoundRes

variable (reply : CompoundRes)

/-- `op` is the first returned operation whose status is not OK. -/
def FirstFailure (op : Nat) : Prop :=
  op < reply.nops ∧ reply.opStatus op ≠ Status.ok ∧ ∀ i < op, reply.opStatus i = Status.ok

/-- Every operation of the range was returned with status OK. -/
def Succeeded (r : OpRange) : Prop :=
  ∀ op, r.Owns op → op < reply.nops ∧ reply.opStatus op = Status.ok

/-- No operation of the range was returned. -/
def Unreached (r : OpRange) : Prop :=
  ∀ op, r.Owns op → reply.nops ≤ op

end CompoundRes

namespace ReplyShape

variable {request : List ArgOp} {reply : CompoundRes}

/-- Only the last operation of an accepted reply can have failed. -/
theorem firstFailure_iff (h : ReplyShape request reply) (op : Nat) :
    reply.FirstFailure op ↔ op + 1 = reply.nops ∧ reply.status ≠ ok := by
  constructor
  · rintro ⟨hop, hb, -⟩
    have hl : op + 1 = reply.nops := by
      by_contra hne
      exact hb (h.ok_before_last op (by omega))
    exact ⟨hl, h.last_status op hl ▸ hb⟩
  · rintro ⟨hl, hs⟩
    refine ⟨by omega, ?_, fun i hi => h.ok_before_last i (by omega)⟩
    rwa [h.last_status op hl]

theorem opStatus_eq_ok (h : ReplyShape request reply) {op : Nat} (hop : op < reply.nops)
    (hn : ¬ reply.FirstFailure op) : reply.opStatus op = ok := by
  rcases Nat.lt_or_eq_of_le (Nat.succ_le_of_lt hop) with hlt | heq
  · exact h.ok_before_last op hlt
  have hs : reply.status = ok := by
    by_contra hne
    exact hn ((h.firstFailure_iff op).mpr ⟨heq, hne⟩)
  rw [h.last_status op heq, hs]

end ReplyShape

namespace ExecutionMap

section Scan

variable {R : Type} [ReplyView R] {reply : R} {caller start stop : Nat}

theorem failedOp_eq_none (h : failedOp reply caller start stop = none) {op : Nat}
    (hst : start ≤ op) (hs : op < stop) : ReplyView.opStatus reply op = ok := by
  simp only [failedOp, map_eq_none_iff, find?_eq_none, mem_range'_1] at h
  simpa using h op (by omega)

theorem failedOp_eq_some {failure : ItemFailure}
    (h : failedOp reply caller start stop = some failure) :
    failure.caller = caller ∧ start ≤ failure.opIndex ∧ failure.opIndex < stop ∧
      failure.status = ReplyView.opStatus reply failure.opIndex ∧
      failure.status ≠ ok := by
  obtain ⟨op, hf, rfl⟩ := map_eq_some_iff.mp h
  have hm := mem_range'_1.mp (mem_of_find?_eq_some hf)
  have hb := find?_some hf
  exact ⟨rfl, hm.1, by simp only; omega, rfl, by simpa using hb⟩

end Scan

/-- A split of ranges along a reply: those that ran, the one holding the failed
operation, and those that start behind the end of the reply. -/
structure Split (reply : CompoundRes) (ranges done : List OpRange)
    (failure : Option ItemFailure) (rest : List OpRange) : Prop where
  done_started : ∀ r ∈ done, r.start < reply.nops
  done_succeeded : ∀ r ∈ done, reply.Succeeded r
  rest_unreached : ∀ r ∈ rest, reply.nops ≤ r.start
  ranges_eq : match failure with
    | none => ranges = done ++ rest
    | some f => ∃ r, ranges = done ++ r :: rest ∧ f.caller = r.caller ∧ r.Owns f.opIndex ∧
        reply.FirstFailure f.opIndex ∧ f.status = reply.opStatus f.opIndex

variable {request : List ArgOp} {reply : CompoundRes} {ranges done rest : List OpRange}
  {failure : Option ItemFailure} {r : OpRange}

theorem analyzeRanges_split (hsh : ReplyShape request reply) (ranges : List OpRange)
    (completed : List Nat) (hor : ranges.Pairwise fun earlier later => earlier.stop ≤ later.start)
    (hbn : ∀ r ∈ ranges, r.start ≤ r.stop ∧ r.stop ≤ request.length) :
    ∃ done failure rest, Split reply ranges done failure rest ∧
      analyzeRanges reply ranges completed =
        .ok (completed ++ done.map OpRange.caller, failure, rest.map OpRange.caller) := by
  induction ranges generalizing completed with
  | nil => exact ⟨[], none, [], ⟨by simp, by simp, by simp, rfl⟩, by simp [analyzeRanges]⟩
  | cons r ranges ih =>
    obtain ⟨hla, hor⟩ := pairwise_cons.mp hor
    have hr := hbn r (by simp)
    by_cases hst : reply.nops ≤ r.start
    · refine ⟨[], none, r :: ranges, ⟨by simp, by simp, ?_, rfl⟩, ?_⟩
      · intro later hm
        rcases mem_cons.mp hm with rfl | hm
        · exact hst
        · have := hla later hm
          omega
      · simp [analyzeRanges, hst]
    cases hf : failedOp reply r.caller r.start (min r.stop reply.nops) with
    | some failure =>
      obtain ⟨hc, hlo, hh, hs, hb⟩ := failedOp_eq_some hf
      simp only [replyView_opStatus] at hs
      have hfs : reply.FirstFailure failure.opIndex := by
        by_contra hn
        exact hb (hs ▸ hsh.opStatus_eq_ok (by omega) hn)
      obtain ⟨hl, -⟩ := (hsh.firstFailure_iff _).mp hfs
      have hco : reply.status = failure.status := by
        rw [hs, hsh.last_status _ hl]
      refine ⟨[], some failure, ranges, ⟨by simp, by simp, ?_, r, rfl, hc,
        ⟨hlo, by omega⟩, hfs, hs⟩, ?_⟩
      · intro later hm
        have := hla later hm
        omega
      · simp [analyzeRanges, hst, hf, hl, hco]
    | none =>
      have hops (op : Nat) (ho : r.Owns op) (hop : op < reply.nops) : reply.opStatus op = ok :=
        failedOp_eq_none hf ho.1 (Nat.lt_min.mpr ⟨ho.2, hop⟩)
      -- A range cut off by the end of the reply owns the last operation, which is OK
      -- only in a complete reply.
      have hstop : r.stop ≤ reply.nops := by
        by_contra hcu
        have hl := hops (reply.nops - 1) ⟨by omega, by omega⟩ (by omega)
        rw [hsh.last_status _ (by omega)] at hl
        have := hsh.nops_of_ok hl
        omega
      obtain ⟨done, failure, rest, hsp, hru⟩ := ih (completed ++ [r.caller]) hor
        fun later hm => hbn later (mem_cons_of_mem _ hm)
      refine ⟨r :: done, failure, rest, ⟨?_, ?_, hsp.rest_unreached, ?_⟩, ?_⟩
      · intro x hx
        rcases mem_cons.mp hx with rfl | hx
        · omega
        · exact hsp.done_started x hx
      · intro x hx
        rcases mem_cons.mp hx with rfl | hx
        · intro op ho
          have hop : op < reply.nops := Nat.lt_of_lt_of_le ho.2 hstop
          exact ⟨hop, hops op ho hop⟩
        · exact hsp.done_succeeded x hx
      · have heq := hsp.ranges_eq
        cases failure with
        | none => simpa using heq
        | some f =>
          obtain ⟨owner, hrg, hown⟩ := heq
          exact ⟨owner, by simp [hrg], hown⟩
      · have hn : ¬ r.stop > reply.nops := by omega
        simp [analyzeRanges, hst, hf, hn, hru]

/-- The report of an accepted reply in terms of the split of its ranges. The
early exits of `analyze` (an empty reply, a failed SEQUENCE) are splits with no
range done, because every range starts behind SEQUENCE. -/
theorem analyze_split (map : ExecutionMap) (hsh : ReplyShape request reply)
    (hcn : map.next = request.length) :
    ∃ done failure rest, Split reply map.ranges done failure rest ∧ map.analyze reply = .ok {
        completed := done.map OpRange.caller
        failure := failure
        unexecuted := rest.map OpRange.caller
        compoundFailure :=
          if failure.isNone ∧ reply.status ≠ ok then some reply.status else none
        compoundFailureOp :=
          if failure.isNone ∧ reply.status ≠ ok ∧ 0 < reply.nops then
            some (reply.nops - 1) else none } := by
  have ho := map.one_le_next
  by_cases he : reply.nops = 0
  · have hs : reply.status ≠ ok := fun hok => by
      have := hsh.nops_of_ok hok
      omega
    refine ⟨[], none, map.ranges, ⟨by simp, by simp, fun r _ => by omega, rfl⟩, ?_⟩
    simp [analyze, he, hs]
  by_cases hse : reply.opStatus 0 = ok
  · obtain ⟨done, failure, rest, hsp, hru⟩ := analyzeRanges_split hsh map.ranges []
      map.ordered fun r hr => by
        have := map.bounded r hr
        omega
    refine ⟨done, failure, rest, hsp, ?_⟩
    have hl := hsh.last_status (reply.nops - 1) (by omega)
    have hp : 0 < reply.nops := by omega
    by_cases hc : failure.isNone ∧ reply.status ≠ ok
    · simp [analyze, he, hse, hru, hc, hl, hp, bind, Except.bind]
    have hop : ¬ (failure.isNone ∧ reply.status ≠ ok ∧ 0 < reply.nops) := fun h => hc ⟨h.1, h.2.1⟩
    simp only [analyze, replyView_nops, replyView_opStatus, replyView_status, he,
      hse, hru, bind, Except.bind, if_neg hc, if_neg hop]
    simp
  have ho : reply.nops = 1 := by
    by_contra hne
    exact hse (hsh.ok_before_last 0 (by omega))
  have hl := hsh.last_status 0 (by omega)
  have hs : reply.status ≠ ok := hl ▸ hse
  refine ⟨[], none, map.ranges, ⟨by simp, by simp, fun r hr => ?_, rfl⟩, ?_⟩
  · have := map.bounded r hr
    omega
  · simp [analyze, ho, hl, hs]

/-- A report that attributes a reply correctly. Items are named by their
position in build order, so a caller index may occur twice: position `i` is
completed below `completed.length` and unexecuted from the end of the completed
and failed items on. -/
structure Attributes (map : ExecutionMap) (reply : CompoundRes) (report : ExecutionReport) :
    Prop where
  partition : report.completed ++ report.failure.toList.map ItemFailure.caller ++
    report.unexecuted = map.ranges.map OpRange.caller
  completed_iff : ∀ (i : Nat) (r : OpRange), map.ranges[i]? = some r → r.start < r.stop →
    (i < report.completed.length ↔ reply.Succeeded r)
  unexecuted_iff : ∀ (i : Nat) (r : OpRange), map.ranges[i]? = some r → r.start < r.stop →
    (report.completed.length + report.failure.toList.length ≤ i ↔ reply.Unreached r)
  empty_completed_iff : ∀ (i : Nat) (r : OpRange), map.ranges[i]? = some r → r.start = r.stop →
    (i < report.completed.length ↔ r.start < reply.nops)
  empty_unexecuted_iff : ∀ (i : Nat) (r : OpRange), map.ranges[i]? = some r →
    r.start = r.stop →
    (report.completed.length + report.failure.toList.length ≤ i ↔ reply.nops ≤ r.start)
  failure_iff : ∀ f, report.failure = some f ↔ ∃ r ∈ map.ranges, f.caller = r.caller ∧
    r.Owns f.opIndex ∧ reply.FirstFailure f.opIndex ∧ f.status = reply.opStatus f.opIndex
  compoundFailure_iff : report.compoundFailure ≠ none ↔
    reply.nops = 0 ∨ ∃ op, reply.FirstFailure op ∧ ∀ r ∈ map.ranges, ¬ r.Owns op
  compoundFailure_status : ∀ status, report.compoundFailure = some status →
    status = reply.status ∧ status ≠ Status.ok
  compoundFailureOp_iff : ∀ op, report.compoundFailureOp = some op ↔
    report.compoundFailure ≠ none ∧ reply.FirstFailure op

theorem Split.position (h : Split reply ranges done failure rest) {i : Nat}
    (hr : ranges[i]? = some r) :
    (i < done.length ∧ r ∈ done) ∨ (∃ f, failure = some f ∧ i = done.length ∧ r.Owns f.opIndex ∧
        reply.FirstFailure f.opIndex) ∨
      (done.length + failure.toList.length ≤ i ∧ r ∈ rest) := by
  have heq := h.ranges_eq
  by_cases hd : i < done.length
  · left
    have hg : (done ++ ranges.drop done.length)[i]? = some r := by
      cases failure with
      | none => simpa [heq] using hr
      | some f =>
        obtain ⟨owner, hrg, -⟩ := heq
        simpa [hrg] using hr
    rw [getElem?_append_left hd] at hg
    exact ⟨hd, mem_of_getElem? hg⟩
  right
  cases failure with
  | none =>
    right
    rw [heq, getElem?_append_right (by omega)] at hr
    exact ⟨by simpa using hd, mem_of_getElem? hr⟩
  | some f =>
    obtain ⟨owner, hrg, -, ho, hf, -⟩ := heq
    rw [hrg, getElem?_append_right (by omega)] at hr
    rcases Nat.eq_or_lt_of_le (Nat.le_of_not_lt hd) with hi | hi
    · left
      rw [hi, Nat.sub_self] at hr
      obtain rfl : owner = r := by simpa using hr
      exact ⟨f, rfl, hi.symm, ho, hf⟩
    right
    obtain ⟨k, hk⟩ := Nat.exists_eq_add_of_lt hi
    rw [show i - done.length = k + 1 by omega, getElem?_cons_succ] at hr
    exact ⟨by simp only [toList_some, length_singleton]; omega, mem_of_getElem? hr⟩

/-- Whichever range owns the first failed operation, the split reports it. -/
theorem Split.failure_unique (h : Split reply ranges done failure rest) (hr : r ∈ ranges)
    {op : Nat} (howns : r.Owns op) (hf : reply.FirstFailure op) :
    ∃ f, failure = some f ∧ f.opIndex = op ∧ f.caller = r.caller ∧
      f.status = reply.opStatus op := by
  have heq := h.ranges_eq
  have hd : r ∉ done := fun hm => hf.2.1 (h.done_succeeded r hm op howns).2
  have hre : r ∉ rest := fun hm => by
    have := h.rest_unreached r hm
    have := howns.1
    have := hf.1
    omega
  cases failure with
  | none => simp_all
  | some f =>
    obtain ⟨owner, hrg, hc, -, hf', hs⟩ := heq
    have ho : r = owner := by simp_all
    have hop : f.opIndex = op := by
      rcases Nat.lt_trichotomy f.opIndex op with hlt | heq | hgt
      · exact absurd (hf.2.2 _ hlt) hf'.2.1
      · exact heq
      · exact absurd (hf'.2.2 _ hgt) hf.2.1
    exact ⟨f, rfl, hop, ho ▸ hc, hop ▸ hs⟩

theorem Split.attributes {map : ExecutionMap} (hsh : ReplyShape request reply)
    (hcn : map.next = request.length) (h : Split reply map.ranges done failure rest) :
    map.Attributes reply {
      completed := done.map OpRange.caller
      failure := failure
      unexecuted := rest.map OpRange.caller
      compoundFailure :=
        if failure.isNone ∧ reply.status ≠ ok then some reply.status else none
      compoundFailureOp :=
        if failure.isNone ∧ reply.status ≠ ok ∧ 0 < reply.nops then
          some (reply.nops - 1) else none } := by
  have hfa (hp : 0 < reply.nops) (hs : reply.status ≠ ok) : reply.FirstFailure (reply.nops - 1) :=
    (hsh.firstFailure_iff _).mpr ⟨by omega, hs⟩
  constructor
  case partition =>
    have heq := h.ranges_eq
    cases failure with
    | none => simp [heq]
    | some f =>
      obtain ⟨owner, hrg, hc, -⟩ := heq
      simp [hrg, hc]
  case completed_iff =>
    intro i r hr hne
    have hfs : r.Owns r.start := ⟨Nat.le_refl _, hne⟩
    rw [length_map]
    rcases h.position hr with ⟨hi, hm⟩ | ⟨f, -, hi, ho, hb⟩ | ⟨hi, hm⟩
    · exact iff_of_true hi (h.done_succeeded r hm)
    · exact iff_of_false (by omega) fun hok => hb.2.1 (hok _ ho).2
    apply iff_of_false (by omega)
    intro hok
    have := (hok _ hfs).1
    have := h.rest_unreached r hm
    omega
  case unexecuted_iff =>
    intro i r hr hne
    have hfs : r.Owns r.start := ⟨Nat.le_refl _, hne⟩
    rw [length_map]
    rcases h.position hr with ⟨hi, hm⟩ | ⟨f, hf, hi, ho, hb⟩ | ⟨hi, hm⟩
    · apply iff_of_false (by omega)
      intro hn
      have := hn _ hfs
      have := h.done_started r hm
      omega
    · apply iff_of_false
      · simp only [hf, toList_some, length_singleton]
        omega
      intro hn
      have := hn _ ho
      have := hb.1
      omega
    apply iff_of_true hi
    intro op ho
    have := h.rest_unreached r hm
    have := ho.1
    omega
  case empty_completed_iff =>
    intro i r hr he
    rw [length_map]
    rcases h.position hr with ⟨hi, hm⟩ | ⟨f, -, -, ho, -⟩ | ⟨hi, hm⟩
    · exact iff_of_true hi (h.done_started r hm)
    · exact absurd he (by have := ho.1; have := ho.2; omega)
    · have := h.rest_unreached r hm
      exact iff_of_false (by omega) (by omega)
  case empty_unexecuted_iff =>
    intro i r hr he
    rw [length_map]
    rcases h.position hr with ⟨hi, hm⟩ | ⟨f, -, -, ho, -⟩ | ⟨hi, hm⟩
    · have := h.done_started r hm
      exact iff_of_false (by omega) (by omega)
    · exact absurd he (by have := ho.1; have := ho.2; omega)
    · exact iff_of_true hi (h.rest_unreached r hm)
  case failure_iff =>
    intro f
    constructor
    · intro hf
      have heq := h.ranges_eq
      simp only at hf
      rw [hf] at heq
      obtain ⟨owner, hrg, hc, ho, hfs, hs⟩ := heq
      exact ⟨owner, by simp [hrg], hc, ho, hfs, hs⟩
    rintro ⟨r, hr, hc, ho, hfs, hs⟩
    obtain ⟨g, hg, hop, hgc, hgs⟩ := h.failure_unique hr ho hfs
    have hfg : g = f := by
      cases g
      cases f
      simp_all
    rw [← hfg]
    exact hg
  case compoundFailure_iff =>
    simp only [ne_eq, ite_eq_right_iff, reduceCtorEq, imp_false, not_not]
    constructor
    · rintro ⟨hn, hs⟩
      by_cases hp : 0 < reply.nops
      · right
        refine ⟨_, hfa hp hs, fun r hr ho => ?_⟩
        obtain ⟨f, hf, -⟩ := h.failure_unique hr ho (hfa hp hs)
        simp [hf] at hn
      · left
        omega
    rintro (he | ⟨op, hfs, hu⟩)
    · have hs : reply.status ≠ ok := fun hok => by
        have := hsh.nops_of_ok hok
        have := map.one_le_next
        omega
      refine ⟨?_, hs⟩
      cases failure with
      | none => rfl
      | some f =>
        obtain ⟨-, -, -, -, hb, -⟩ := h.ranges_eq
        have := hb.1
        omega
    obtain ⟨hl, hs⟩ := (hsh.firstFailure_iff op).mp hfs
    refine ⟨?_, hs⟩
    cases failure with
    | none => rfl
    | some f =>
      obtain ⟨owner, hrg, -, ho, hb, -⟩ := h.ranges_eq
      have hop : f.opIndex = op := by
        have := ((hsh.firstFailure_iff f.opIndex).mp hb).1
        omega
      exact absurd (hop ▸ ho) (hu owner (by simp [hrg]))
  case compoundFailure_status =>
    intro status hso
    simp only [ite_none_right_eq_some, some.injEq] at hso
    exact ⟨hso.2.symm, hso.2 ▸ hso.1.2⟩
  case compoundFailureOp_iff =>
    intro op
    simp only [ite_none_right_eq_some, some.injEq, ne_eq, ite_eq_right_iff,
      reduceCtorEq, imp_false, not_not, hsh.firstFailure_iff]
    constructor
    · rintro ⟨⟨hn, hs, hp⟩, rfl⟩
      exact ⟨⟨hn, hs⟩, by omega, hs⟩
    · rintro ⟨⟨hn, hs⟩, hl, -⟩
      exact ⟨⟨hn, hs, by omega⟩, by omega⟩

/-- Every accepted reply to a compound whose operations the map counted is
analysed without error, and its report partitions the items in build order. -/
theorem analyze_attributes (map : ExecutionMap) (hsh : ReplyShape request reply)
    (hc : map.next = request.length) :
    ∃ report, map.analyze reply = .ok report ∧ map.Attributes reply report := by
  obtain ⟨done, failure, rest, hs, hr⟩ := map.analyze_split hsh hc
  exact ⟨_, hr, hs.attributes hsh hc⟩

/-- Over any sequence of builder calls, whatever reply the server sends and
`validate_response_ops` lets through. -/
theorem analyze_build_attributes (calls : List MapCall) (request : List ArgOp)
    (reply : CompoundRes) (hcount : (build calls).next = request.length)
    (haccept : validateResponseOps request reply = .ok ()) :
    ∃ report, (build calls).analyze reply = .ok report ∧
      (build calls).Attributes reply report :=
  analyze_attributes _ (validateResponseOps_shape haccept) hcount

/-- One item ran, the next failed at its only operation, and the item of a path
that could not be split is left behind it. -/
theorem analyze_build_attributes_failed_getfh :
    let map := build [.begin 4, .noteOps 1, .endItem, .begin 9, .noteOps 1, .endItem, .begin 5]
    let reply : CompoundRes := ⟨Status.nofilehandle, [⟨.sequence, Status.ok, .none, false⟩,
      ⟨.putrootfh, Status.ok, .none, false⟩, ⟨.getfh, Status.nofilehandle, .none, false⟩], false⟩
    validateResponseOps [.sequence [] 1 0, .putrootfh, .getfh] reply = .ok () ∧
      ∃ report, map.analyze reply = .ok report ∧ map.Attributes reply report :=
  ⟨rfl, analyze_build_attributes
    [.begin 4, .noteOps 1, .endItem, .begin 9, .noteOps 1, .endItem, .begin 5]
    [.sequence [] 1 0, .putrootfh, .getfh] _ rfl rfl⟩

/-- An item without operations is reported unexecuted although all its
operations succeeded vacuously; and an empty reply uses the compound failure
although no operation of it failed. -/
theorem analyze_emptyRange_and_emptyReply :
    let map := build [.begin 7, .endItem]
    let request : List ArgOp := [.sequence [] 1 0]
    let reply : CompoundRes := ⟨Status.ok, [⟨.sequence, Status.ok, .none, false⟩], false⟩
    let rejected : CompoundRes := ⟨Status.resource, [], false⟩
    map.next = request.length ∧
      (validateResponseOps request reply = .ok () ∧
        (∀ r ∈ map.ranges, r.caller = 7 ∧ reply.Succeeded r) ∧
        map.analyze reply = .ok ⟨[], none, [7], none, none⟩) ∧
      validateResponseOps request rejected = .ok () ∧
        (∀ op, ¬ rejected.FirstFailure op) ∧
        map.analyze rejected = .ok ⟨[], none, [7], some Status.resource, none⟩ := by
  refine ⟨rfl, ⟨rfl, ?_, rfl⟩, rfl, ?_, rfl⟩
  · intro r hr
    obtain rfl : r = ⟨7, 1, 1⟩ := mem_singleton.mp hr
    exact ⟨rfl, fun op howns => absurd howns.2 (Nat.not_lt.mpr howns.1)⟩
  · intro op hfirst
    exact absurd hfirst.1 (Nat.not_lt_zero op)

end ExecutionMap

end Vnfs
