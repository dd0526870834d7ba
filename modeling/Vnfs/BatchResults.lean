import Vnfs.Batch
import Vnfs.Planner.Attribution

/-!
What `batch_ops_fallible_with_failure` returns. The loop collects a result for
every item whose operations the server answered with success, in input order and
from the compound they succeeded in, and what it has collected is all that came
before the position it works at. So a success is the results of the whole vector,
and a failure is reported at the first item that was not collected.
-/

namespace Vnfs

open List Option BatchShape BatchState CompoundBudget Session Client

section Lists

variable {α β ε : Type} {f : α → Except ε β}

theorem forall₂_of_mapM {xs : List α} {ys : List β} (h : xs.mapM f = .ok ys) :
    Forall₂ (fun x y => f x = .ok y) xs ys := by
  induction xs generalizing ys with
  | nil =>
    obtain rfl := Except.ok.inj h
    exact .nil
  | cons x xs ih =>
    rw [mapM_cons] at h
    cases hx : f x with
    | error error =>
      rw [hx] at h
      cases h
    | ok y =>
      cases hxs : xs.mapM f with
      | error error =>
        rw [hx, hxs] at h
        cases h
      | ok rest =>
        rw [hx, hxs] at h
        obtain rfl := Except.ok.inj h
        exact .cons hx (ih hxs)

theorem exists_of_mapM_error {xs : List α} {error : ε} (h : xs.mapM f = .error error) :
    ∃ x ∈ xs, f x = .error error := by
  induction xs with
  | nil => cases h
  | cons x xs ih =>
    rw [mapM_cons] at h
    cases hx : f x with
    | error error' =>
      rw [hx] at h
      obtain rfl := Except.error.inj h
      exact ⟨x, mem_cons_self, hx⟩
    | ok y =>
      cases hxs : xs.mapM f with
      | error error' =>
        rw [hx, hxs] at h
        obtain rfl := Except.error.inj h
        obtain ⟨x', hx', he⟩ := ih hxs
        exact ⟨x', mem_cons_of_mem _ hx', he⟩
      | ok rest =>
        rw [hx, hxs] at h
        cases h

end Lists

section Replies

variable {T R : Type} {extract : CompoundRes → Nat → RpcResult R} {res : CompoundRes}
  {count i : Nat}

theorem extractAll_ok {items : List R} (h : extractAll extract res count = .ok items) :
    items.length = count ∧ ∀ i r, items[i]? = some r → extract res i = .ok r := by
  have ha := forall₂_of_mapM h
  have hl := ha.length_eq
  rw [length_range] at hl
  refine ⟨hl.symm, fun i r hr => ?_⟩
  obtain ⟨hi, rfl⟩ := List.getElem?_eq_some_iff.mp hr
  have hg := (forall₂_iff_get.mp ha).2 i (by rw [length_range]; omega) hi
  simpa using hg

theorem extractAll_error {error : RpcError} (h : extractAll extract res count = .error error) :
    ∃ i < count, extract res i = .error error := by
  obtain ⟨i, hi, he⟩ := exists_of_mapM_error h
  exact ⟨i, mem_range.mp hi, he⟩

theorem badOp_some (h : badOp res = some i) : res.FirstFailure i := by
  have hb := find?_some h
  obtain ⟨hlt, -⟩ : i < res.nops ∧ True := ⟨mem_range.mp (mem_of_find?_eq_some h), trivial⟩
  refine ⟨hlt, by simpa using hb, fun j hj => ?_⟩
  by_contra hne
  have hf := find?_range_eq_some.mp h
  exact absurd (hf.2.2 j hj) (by simpa using hne)

theorem badOp_none (h : badOp res = none) (hi : i < res.nops) : res.opStatus i = Status.ok := by
  have := find?_eq_none.mp h i (mem_range.mpr hi)
  simpa using this

end Replies

theorem Client.completeCompound_frame (client : Client) (tag : Tag) (compound : List ArgOp)
    (called : RpcResult CompoundRes) :
    (client.completeCompound tag compound called).1.maxOps = client.maxOps ∧
      (client.completeCompound tag compound called).1.requestFits = client.requestFits := by
  unfold completeCompound
  dsimp only
  split <;> exact ⟨rfl, rfl⟩

theorem Client.prepareCompound_error {client : Client} {compound : List ArgOp} {error : RpcError}
    (h : client.prepareCompound compound = .error error) :
    error = .op 0 Status.tooManyOps ∧ client.maxOps < compound.length + 1 ∨
      client.requestFits compound = .error error ∨
      error = .op 0 Status.reqTooBig ∧ client.requestFits compound = .ok false ∨
      error = .transport poisonedMessage ∧ client.session.poisoned = true := by
  unfold prepareCompound at h
  cases he : ensure ⟨client.maxOps⟩ compound with
  | error e =>
    simp only [he, bind, Except.bind, Except.error.injEq] at h
    subst h
    unfold ensure at he
    split at he
    · rename_i ho
      cases he
      have hle : saturatingAdd compound.length 1 ≤ compound.length + 1 := Nat.min_le_left _ _
      exact .inl ⟨rfl, by dsimp only at ho; omega⟩
    · cases he
  | ok _ =>
    cases hf : client.requestFits compound with
    | error e =>
      simp only [he, hf, bind, Except.bind, Except.error.injEq] at h
      exact .inr (.inl (by rw [h]))
    | ok fits =>
      simp only [he, hf, bind, Except.bind] at h
      split at h
      · rename_i ho
        cases h
        exact .inr (.inr (.inl ⟨rfl, by simpa using ho⟩))
      unfold sequenced at h
      split at h
      · rename_i hp
        cases h
        exact .inr (.inr (.inr ⟨rfl, hp⟩))
      · cases h

namespace BatchState

variable {T R : Type} {shape : BatchShape T} {net : Network} {st st₁ : BatchState R}
  {tagged : List (Nat × ArgOp)}

theorem call_ok {res : CompoundRes} (h : st.call shape net tagged = (st₁, .ok res)) :
    st₁.out = st.out ∧ st₁.global = st.global ∧ st₁.client.maxOps = st.client.maxOps ∧
      st₁.client.requestFits = st.client.requestFits ∧
      (∃ reached, st₁.log = st.log ++ [⟨tagged, reached, .ok res⟩]) ∧
      ∃ request, ReplyShape request res ∧ request.length = tagged.length + 1 := by
  unfold call at h
  dsimp only at h
  split at h
  · cases h
  rename_i request hp
  have hr := prepareCompound_ok hp
  have hl : request.length = tagged.length + 1 := by
    unfold sequenced at hr
    split at hr
    · cases hr
    · cases hr
      simp
  have hc : callResult request (net st.log.length request).received = .ok res := by
    simpa using congrArg Prod.snd h
  have hf := st.client.completeCompound_frame shape.tag (tagged.map Prod.snd)
    (callResult request (net st.log.length request).received)
  obtain rfl := congrArg Prod.fst h
  refine ⟨rfl, rfl, hf.1, hf.2, ⟨(net st.log.length request).reached, ?_⟩, request,
    validateResponseOps_shape (callResult_ok hc).2, hl⟩
  rw [← hc]

/-- Only a session that is not poisoned gets an answer, and an answer does not poison it. -/
theorem call_ok_usable {res : CompoundRes} (h : st.call shape net tagged = (st₁, .ok res)) :
    st₁.client.session.poisoned = false := by
  unfold call at h
  dsimp only at h
  split at h
  · cases h
  rename_i request hp
  have hsequenced := prepareCompound_ok hp
  have husable : st.client.session.poisoned = false := by
    unfold sequenced at hsequenced
    split at hsequenced
    · cases hsequenced
    · rename_i hpoisoned
      exact Bool.eq_false_iff.mpr hpoisoned
  have hcalled : callResult request (net st.log.length request).received = .ok res := by
    simpa using congrArg Prod.snd h
  obtain rfl := congrArg Prod.fst h
  simp only [hcalled, completeCompound, Session.complete]
  by_cases hfirst : res.nops > 0 ∧ res.opStatus 0 = Status.ok
  · simpa only [if_pos hfirst] using husable
  · simpa only [if_neg hfirst] using husable

/-- A chunk of one item is the operations of that item. -/
theorem chunk_single (st : BatchState R) (shape : BatchShape T) {ops : List T} {chunkSize : Nat}
    (h : (st.chunk ops chunkSize).length = 1) : ∃ item, ops[st.global]? = some item ∧
      (shape.tagOps st.global (st.chunk ops chunkSize)).map Prod.snd =
        shape.add item st.global := by
  obtain ⟨item, hitem⟩ := length_eq_one_iff.mp h
  refine ⟨item, ?_, ?_⟩
  · have hfirst : (st.chunk ops chunkSize)[0]? = some item := by rw [hitem]; rfl
    unfold chunk at hfirst
    rw [getElem?_take] at hfirst
    split at hfirst
    · simpa using hfirst
    · cases hfirst
  · rw [hitem]
    simp [BatchShape.tagOps, Function.comp_def]

theorem call_error {error : RpcError} (h : st.call shape net tagged = (st₁, .error error)) :
    st₁ = st ∧ st.client.prepareCompound (tagged.map Prod.snd) = .error error ∨
      ∃ reached, st₁.log = st.log ++ [⟨tagged, reached, .error error⟩] := by
  unfold call at h
  dsimp only at h
  split at h
  · rename_i e hp
    cases h
    exact .inl ⟨rfl, hp⟩
  rename_i request hp
  have hc : callResult request (net st.log.length request).received = .error error := by
    simpa using congrArg Prod.snd h
  obtain rfl := congrArg Prod.fst h
  refine .inr ⟨(net st.log.length request).reached, ?_⟩
  rw [← hc]

theorem capacity_ok {chunkSize : Nat} (h : st.capacity shape = .ok chunkSize) :
    0 < chunkSize ∧ shape.perOp * chunkSize + 1 ≤ st.client.maxOps := by
  unfold capacity batchCapacity at h
  dsimp only at h
  split at h
  · cases h
  rename_i hne
  cases h
  have hp := Nat.pos_of_ne_zero hne
  have hb : (st.client.opBudgetFor shape.tag (1 + shape.perOp)).maxOps ≤ st.client.maxOps := by
    unfold opBudgetFor
    dsimp only
    omega
  have hm := Nat.mul_div_le
    ((st.client.opBudgetFor shape.tag (1 + shape.perOp)).maxOps - 1) shape.perOp
  have hf : 1 ≤ (st.client.opBudgetFor shape.tag (1 + shape.perOp)).maxOps - 1 := by
    by_contra hz
    rw [Nat.lt_one_iff.mp (Nat.lt_of_not_le hz), Nat.zero_div] at hp
    exact Nat.lt_irrefl 0 hp
  exact ⟨hp, by omega⟩

/-- There is no capacity exactly where one item does not fit the session. -/
theorem capacity_error {error : RpcError} (h : st.capacity shape = .error error) :
    error = .op 0 Status.tooManyOps ∧ st.client.maxOps < 1 + shape.perOp := by
  unfold capacity batchCapacity at h
  dsimp only at h
  split at h
  · rename_i hz
    cases h
    refine ⟨rfl, ?_⟩
    by_contra hr
    have hb : 1 + shape.perOp ≤ (st.client.opBudgetFor shape.tag (1 + shape.perOp)).maxOps := by
      unfold opBudgetFor
      dsimp only
      omega
    have ho : 1 ≤ ((st.client.opBudgetFor shape.tag (1 + shape.perOp)).maxOps - 1) /
        shape.perOp := (Nat.one_le_div_iff shape.perOp_pos).mpr (by omega)
    omega
  · cases h

end BatchState

theorem BatchShape.length_tagOps {T : Type} (shape : BatchShape T) (first : Nat) (chunk : List T) :
    (shape.tagOps first chunk).length = shape.perOp * chunk.length := by
  induction chunk generalizing first with
  | nil => simp [tagOps]
  | cons op rest ih =>
    simp [tagOps, ih, shape.add_length, Nat.mul_add, Nat.add_comm]

section

variable {T R : Type} (shape : BatchShape T) (extract : CompoundRes → Nat → RpcResult R)
  (ops : List T)

/-- Where the `i`-th item of a chunk has its operations; SEQUENCE is at zero. -/
def BatchShape.slots (chunkStart i : Nat) : OpRange :=
  ⟨chunkStart + i, 1 + shape.perOp * i, 1 + shape.perOp * (i + 1)⟩

/-- A compound that carried `chunk`, the items from `chunkStart` on, and the reply
to it. -/
structure AnsweredChunk (sent : SentCompound) (chunkStart : Nat) (chunk : List T)
    (res : CompoundRes) : Prop where
  ops_eq : sent.ops = shape.tagOps chunkStart chunk
  items : ∃ count, chunk = (ops.drop chunkStart).take count
  answered : sent.called = .ok res

/-- Item `k` completed in this compound, and its reply slot decodes to `r`. -/
def CompletedIn (sent : SentCompound) (k : Nat) (r : RpcResult R) : Prop :=
  ∃ chunkStart chunk res i, AnsweredChunk shape ops sent chunkStart chunk res ∧
    i < chunk.length ∧ k = chunkStart + i ∧ res.Succeeded (shape.slots chunkStart i) ∧
    extract res i = r

/-- What is wrong with item `k`: the first operation of the last reply that
failed is its own, the last compound failed before any item and `k` is the first
of its items, or `k` fits no compound of this session on its own. -/
inductive ItemFailed (client : Client) (log : List SentCompound) (k : Nat) (error : RpcError) :
    Prop where
  | operation (sent : SentCompound) (chunkStart : Nat) (chunk : List T) (res : CompoundRes)
      (i op : Nat) (hlast : log.getLast? = some sent)
      (hanswered : AnsweredChunk shape ops sent chunkStart chunk res) (hi : i < chunk.length)
      (hk : k = chunkStart + i) (howns : (shape.slots chunkStart i).Owns op)
      (hfirst : res.FirstFailure op) (hstatus : error.status = res.opStatus op)
  | compound (sent : SentCompound) (chunk : List T) (res : CompoundRes)
      (hlast : log.getLast? = some sent) (hanswered : AnsweredChunk shape ops sent k chunk res)
      (hchunk : chunk ≠ []) (hnops : res.nops ≤ 1) (hfailed : res.status ≠ Status.ok)
      (hstatus : error.status = res.status)
  | tooManyOps (hroom : client.maxOps < 1 + shape.perOp)
      (hstatus : error.status = Status.tooManyOps)
  | tooBig (item : T) (hitem : ops[k]? = some item)
      (hfits : client.requestFits (shape.add item k) = .ok false)
      (hstatus : error.status = Status.reqTooBig)

/-- The batch stopped at an item: the error carries the item's position in the
input, and every item in front of it completed. -/
structure StoppedAt (client : Client) (log : List SentCompound) (k : Nat) (error : RpcError) :
    Prop where
  lt_length : k < ops.length
  index_eq : error.opIndex = k
  before : ∀ k' < k, ∃ sent ∈ log, ∃ r, CompletedIn shape extract ops sent k' (.ok r)
  failed : ItemFailed shape ops client log k error

/-- How a batch can fail. Apart from the status of an item there is a reply the
caller's decoder refuses, an exchange without an accepted reply, a session that was
poisoned before the call, behind which nothing is sent, and an encoder that fails on
the next chunk. -/
inductive BatchFailed (client : Client) (log : List SentCompound) (error : RpcError) : Prop where
  | stopped (k : Nat) (hstopped : StoppedAt shape extract ops client log k error)
  | undecodable (sent : SentCompound) (k : Nat) (hsent : sent ∈ log) (hlt : k < ops.length)
      (hdecoded : CompletedIn shape extract ops sent k (.error error))
  | unanswered (sent : SentCompound) (e : RpcError) (hlast : log.getLast? = some sent)
      (hcalled : sent.called = .error e) (hstatus : error.status = e.status)
  | poisoned (hpoisoned : client.session.poisoned = true) (hunsent : log = [])
      (herror : error = .transport Session.poisonedMessage)
  | unencodable (chunkStart count : Nat) (hlt : chunkStart < ops.length) (hcount : 0 < count)
      (hbefore : ∀ k < chunkStart, ∃ sent ∈ log, ∃ r, CompletedIn shape extract ops sent k (.ok r))
      (hfits : client.requestFits ((shape.tagOps chunkStart
        ((ops.drop chunkStart).take count)).map Prod.snd) = .error error)

structure BatchResults (client : Client) (done : BatchDone R) : Prop where
  collected : ∀ out, done.result = .ok out → out.length = ops.length ∧
    ∀ k r, out[k]? = some r → ∃ sent ∈ done.log, CompletedIn shape extract ops sent k (.ok r)
  failed : ∀ error, done.result = .error error →
    BatchFailed shape extract ops client done.log error

/-- The invariant of the loop: `out` holds the results of everything in front of
`global`. Once there is one, an item fits the session. -/
structure BatchGathered (client : Client) (st : BatchState R) : Prop where
  length_eq : st.out.length = st.global
  global_le : st.global ≤ ops.length
  completed : ∀ k r, st.out[k]? = some r →
    ∃ sent ∈ st.log, CompletedIn shape extract ops sent k (.ok r)
  maxOps_eq : st.client.maxOps = client.maxOps
  fits_eq : st.client.requestFits = client.requestFits
  poisoned : st.client.session.poisoned = true →
    client.session.poisoned = true ∧ st.log = []
  room : 0 < st.global → 1 + shape.perOp ≤ client.maxOps

structure BatchReplied (client : Client) (st : BatchState R) (chunk : List T)
    (res : CompoundRes) : Prop where
  gathered : BatchGathered shape extract ops client st
  sent : ∃ sent, st.log.getLast? = some sent ∧ AnsweredChunk shape ops sent st.global chunk res
  request : ∃ request, ReplyShape request res ∧
    request.length = shape.perOp * chunk.length + 1
  chunk_pos : 0 < chunk.length
  chunk_le : st.global + chunk.length ≤ ops.length
  room : 1 + shape.perOp ≤ client.maxOps

end

section Slots

variable {T : Type} {shape : BatchShape T} {ops : List T} {sent : SentCompound} {start : Nat}

theorem head_tagOps (shape : BatchShape T) (start : Nat) (chunk : List T) (hc : 0 < chunk.length) :
    ((shape.tagOps start chunk).head?).map Prod.fst = some start := by
  cases chunk with
  | nil => cases hc
  | cons op rest =>
    have hl := shape.add_length op start
    have hp := shape.perOp_pos
    cases ha : shape.add op start with
    | nil =>
      rw [ha, length_nil] at hl
      omega
    | cons first later => simp [BatchShape.tagOps, ha]

theorem AnsweredChunk.unique {start start' : Nat} {chunk chunk' : List T} {res res' : CompoundRes}
    (h : AnsweredChunk shape ops sent start chunk res)
    (h' : AnsweredChunk shape ops sent start' chunk' res') (hc : 0 < chunk.length) :
    start' = start ∧ chunk'.length = chunk.length ∧ res' = res := by
  have ho : shape.tagOps start' chunk' = shape.tagOps start chunk := h'.ops_eq.symm.trans h.ops_eq
  have hl : chunk'.length = chunk.length := by
    have := congrArg List.length ho
    rw [shape.length_tagOps, shape.length_tagOps] at this
    exact Nat.eq_of_mul_eq_mul_left shape.perOp_pos this
  have hst : start' = start := by
    have hh := head_tagOps shape start' chunk' (by omega)
    rw [ho, head_tagOps shape start chunk hc] at hh
    exact (some.inj hh).symm
  exact ⟨hst, hl, Except.ok.inj (h'.answered.symm.trans h.answered)⟩

theorem owns_slot (shape : BatchShape T) (start count op : Nat) (hop : 1 ≤ op)
    (hlt : op < shape.perOp * count + 1) :
    (op - 1) / shape.perOp < count ∧ (shape.slots start ((op - 1) / shape.perOp)).Owns op := by
  have hle := Nat.mul_div_le (op - 1) shape.perOp
  have hlt' := Nat.lt_mul_div_succ (op - 1) shape.perOp_pos
  refine ⟨Nat.div_lt_of_lt_mul (by omega), ?_, ?_⟩
  · dsimp only [slots]
    omega
  · dsimp only [slots]
    omega

theorem slots_nonempty (shape : BatchShape T) (start i : Nat) :
    (shape.slots start i).start < (shape.slots start i).stop := by
  have := shape.perOp_pos
  dsimp only [slots]
  rw [Nat.mul_add]
  omega

theorem owns_unique {i j op : Nat} (hi : (shape.slots start i).Owns op)
    (hj : (shape.slots start j).Owns op) : i = j := by
  have hle {a b : Nat} (ha : (shape.slots start a).Owns op) (hb : (shape.slots start b).Owns op) :
      ¬ a < b := by
    intro hlt
    have hm : shape.perOp * (a + 1) ≤ shape.perOp * b := Nat.mul_le_mul_left _ hlt
    have hs := ha.2
    have hst := hb.1
    dsimp only [slots] at hs hst
    omega
  have := hle hi hj
  have := hle hj hi
  omega

end Slots

section

variable {T R : Type} {shape : BatchShape T} {extract : CompoundRes → Nat → RpcResult R}
  {onFailure : Client → List R → Client} {net : Network} {ops : List T} {client : Client}
  {st st' : BatchState R} {chunk : List T} {res : CompoundRes}

namespace BatchGathered

theorem exists_completed (h : BatchGathered shape extract ops client st) :
    ∀ k < st.global, ∃ sent ∈ st.log, ∃ r, CompletedIn shape extract ops sent k (.ok r) := by
  intro k hk
  have hlt : k < st.out.length := by rw [h.length_eq]; exact hk
  obtain ⟨sent, hs, hf⟩ := h.completed k _ (getElem?_eq_getElem hlt)
  exact ⟨sent, hs, _, hf⟩

theorem finished (h : BatchGathered shape extract ops client st) (hg : ops.length ≤ st.global) :
    BatchResults shape extract ops client ⟨st.client, st.log, .ok st.out⟩ where
  collected := by
    rintro out ho
    obtain rfl := Except.ok.inj ho
    exact ⟨h.length_eq.trans (Nat.le_antisymm h.global_le hg), h.completed⟩
  failed := by
    rintro error he
    cases he

end BatchGathered

theorem BatchResults.of_error {after : Client} {log : List SentCompound} {error : RpcError}
    (h : BatchFailed shape extract ops client log error) :
    BatchResults shape extract ops client ⟨after, log, .error error⟩ where
  collected := by
    rintro out ho
    cases ho
  failed := by
    rintro error' he
    obtain rfl := Except.error.inj he
    exact h

namespace BatchReplied

variable (h : BatchReplied shape extract ops client st chunk res)
include h

theorem completedIn {i : Nat} {r : RpcResult R} (hi : i < chunk.length)
    (hs : res.Succeeded (shape.slots st.global i)) (he : extract res i = r) :
    ∃ sent ∈ st.log, CompletedIn shape extract ops sent (st.global + i) r := by
  obtain ⟨sent, hl, ha⟩ := h.sent
  exact ⟨sent, mem_of_getLast? hl, st.global, chunk, res, i, ha, hi, rfl, hs, he⟩

variable {count : Nat} {items : List R}

theorem advance (hc : count ≤ chunk.length)
    (hs : ∀ i < count, res.Succeeded (shape.slots st.global i))
    (hit : extractAll extract res count = .ok items) :
    BatchGathered shape extract ops client
      {st with out := st.out ++ items, global := st.global + count} := by
  obtain ⟨hl, hd⟩ := extractAll_ok hit
  have hle := h.chunk_le
  refine ⟨?_, by dsimp only; omega, ?_, h.gathered.maxOps_eq, h.gathered.fits_eq,
    h.gathered.poisoned, fun _ => h.room⟩
  · simp only [length_append, h.gathered.length_eq, hl]
  intro k r hr
  by_cases hold : k < st.out.length
  · rw [getElem?_append_left hold] at hr
    exact h.gathered.completed k r hr
  rw [getElem?_append_right (Nat.le_of_not_lt hold), h.gathered.length_eq] at hr
  rw [h.gathered.length_eq] at hold
  have hi : k - st.global < count := by
    have := (List.getElem?_eq_some_iff.mp hr).1
    omega
  have hn := h.completedIn (by omega) (hs _ hi) (hd _ r hr)
  rwa [Nat.add_sub_cancel' (Nat.le_of_not_lt hold)] at hn

theorem undecodable {error : RpcError} (hc : count ≤ chunk.length)
    (hsl : ∀ i < count, res.Succeeded (shape.slots st.global i))
    (her : extractAll extract res count = .error error) :
    BatchFailed shape extract ops client st.log error := by
  obtain ⟨i, hi, he⟩ := extractAll_error her
  obtain ⟨sent, hs, hf⟩ := h.completedIn (by omega) (hsl i hi) he
  have hle := h.chunk_le
  exact .undecodable sent (st.global + i) hs (by omega) hf

/-- The items in front of the first failure succeeded, and there is one behind them. -/
theorem before_failure : ((badOp res).getD 0 - 1) / shape.perOp < chunk.length ∧
      ∀ i < ((badOp res).getD 0 - 1) / shape.perOp, res.Succeeded (shape.slots st.global i) := by
  cases hb : badOp res with
  | none =>
    simp only [getD_none, Nat.zero_sub, Nat.zero_div]
    exact ⟨h.chunk_pos, fun i hi => absurd hi (Nat.not_lt_zero i)⟩
  | some op =>
    have hf := badOp_some hb
    obtain ⟨request, hsh, hl⟩ := h.request
    have hlt : op < shape.perOp * chunk.length + 1 := hl ▸ Nat.lt_of_lt_of_le hf.1 hsh.nops_le
    simp only [getD_some]
    refine ⟨?_, fun i hi position ho => ?_⟩
    · rcases Nat.eq_zero_or_pos op with rfl | hp
      · simpa using h.chunk_pos
      · exact Nat.div_lt_of_lt_mul (by omega)
    have he : shape.perOp * (i + 1) ≤ op - 1 :=
      (Nat.mul_le_mul_left _ hi).trans (Nat.mul_div_le _ _)
    obtain ⟨hst, hs⟩ := ho
    dsimp only [slots] at hst hs
    exact ⟨by have := hf.1; omega, hf.2.2 position (by omega)⟩

/-- The failing operation lies in the first item that was not collected. -/
theorem stoppedAt_operation {op : Nat} (hb : badOp res = some op)
    (hi : extractAll extract res ((op - 1) / shape.perOp) = .ok items) :
    StoppedAt shape extract ops client st.log (st.global + (op - 1) / shape.perOp)
      (.op (st.global + (op - 1) / shape.perOp) (res.opStatus op)) := by
  obtain ⟨hlt, hsl⟩ := h.before_failure
  rw [hb, getD_some] at hlt hsl
  have hle := h.chunk_le
  have hf := badOp_some hb
  refine ⟨by omega, rfl, (h.advance (Nat.le_of_lt hlt) hsl hi).exists_completed, ?_⟩
  obtain ⟨sent, hl, ha⟩ := h.sent
  rcases Nat.eq_zero_or_pos op with rfl | hp
  · -- SEQUENCE itself failed
    obtain ⟨request, hsh, -⟩ := h.request
    have he := ((hsh.firstFailure_iff 0).mp hf)
    have hs := hsh.last_status 0 he.1
    simp only [Nat.zero_sub, Nat.zero_div, Nat.add_zero]
    exact .compound sent chunk res hl ha (ne_nil_of_length_pos h.chunk_pos)
      (Nat.le_of_eq he.1.symm) he.2 hs
  refine .operation sent st.global chunk res _ op hl ha hlt rfl ⟨?_, ?_⟩ hf rfl
  · have := Nat.mul_div_le (op - 1) shape.perOp
    dsimp only [slots]
    omega
  · have := Nat.lt_mul_div_succ (op - 1) shape.perOp_pos
    dsimp only [slots]
    omega

/-- A compound that failed without a single result is charged to its first item. -/
theorem stoppedAt_compound (hb : badOp res = none) (hs : res.status ≠ Status.ok) :
    res.nops = 0 ∧ StoppedAt shape extract ops client st.log st.global
      (.op st.global res.status) := by
  obtain ⟨request, hsh, -⟩ := h.request
  have hn : res.nops = 0 := by
    by_contra hne
    have hl := hsh.last_status (res.nops - 1) (by omega)
    exact hs (hl ▸ badOp_none hb (by omega))
  have hle := h.chunk_le
  have hp := h.chunk_pos
  obtain ⟨sent, hl, ha⟩ := h.sent
  exact ⟨hn, by omega, rfl, h.gathered.exists_completed,
    .compound sent chunk res hl ha (ne_nil_of_length_pos hp) (by omega) hs
      rfl⟩

theorem capacity_ne_error (error : RpcError) : st.capacity shape ≠ .error error := by
  intro hc
  have hr := h.room
  have hf := (capacity_error hc).2
  rw [h.gathered.maxOps_eq] at hf
  omega

end BatchReplied

variable (shape extract ops client) in
def BatchGathers : BatchState R ⊕ BatchDone R → Prop
  | .inl st => BatchGathered shape extract ops client st
  | .inr done => BatchResults shape extract ops client done

variable {next : BatchState R ⊕ BatchDone R}

theorem BatchReplied.mutationRetry (h : BatchReplied shape extract ops client st chunk res)
    (hn : mutationRetry shape st chunk.length res = some next) :
    BatchGathers shape extract ops client next := by
  unfold Vnfs.mutationRetry at hn
  split at hn
  · split at hn
    · rename_i error hc
      exact absurd hc (h.capacity_ne_error error)
    split at hn
    · cases hn
      exact h.gathered
    · cases hn
  · cases hn

theorem BatchReplied.resourceRetry (h : BatchReplied shape extract ops client st chunk res)
    (hn : resourceRetry shape extract st chunk.length res = some next) :
    BatchGathers shape extract ops client next := by
  obtain ⟨hlt, hs⟩ := h.before_failure
  unfold Vnfs.resourceRetry at hn
  dsimp only at hn
  split at hn
  · cases hn
  rename_i completed hp
  obtain rfl : ((badOp res).getD 0 - 1) / shape.perOp = completed := by
    unfold batchResourceProgress at hp
    split at hp
    · exact some.inj hp
    · cases hp
  split at hn
  · split at hn
    · rename_i error hc
      exact absurd hc (h.capacity_ne_error error)
    split at hn
    · split at hn
      · rename_i error he
        cases hn
        exact .of_error (h.undecodable (Nat.le_of_lt hlt) hs he)
      · rename_i items hi
        cases hn
        exact h.advance (Nat.le_of_lt hlt) hs hi
    · cases hn
  · cases hn

/-- An accepted reply of status OK answers every operation of the chunk. -/
theorem BatchReplied.all_succeeded (h : BatchReplied shape extract ops client st chunk res)
    (hb : badOp res = none) (hst : res.status = Status.ok) {i : Nat} (hi : i < chunk.length) :
    res.Succeeded (shape.slots st.global i) := by
  obtain ⟨request, hsh, hl⟩ := h.request
  rintro position ⟨-, hs⟩
  have he : shape.perOp * (i + 1) ≤ shape.perOp * chunk.length := Nat.mul_le_mul_left _ hi
  have hn := hsh.nops_of_ok hst
  dsimp only [slots] at hs
  have hlt : position < res.nops := by omega
  exact ⟨hlt, badOp_none hb hlt⟩

theorem BatchReplied.finishChunk (h : BatchReplied shape extract ops client st chunk res) :
    BatchGathers shape extract ops client
      (finishChunk shape extract onFailure st chunk.length res) := by
  obtain ⟨hlt, hsl⟩ := h.before_failure
  unfold Vnfs.finishChunk
  dsimp only
  split
  · rename_i op hb
    rw [hb, getD_some] at hlt hsl
    have hid : callerIndex op shape.perOp st.global chunk.length =
        st.global + (op - 1) / shape.perOp := by
      unfold callerIndex
      omega
    rw [Nat.min_eq_left (Nat.le_of_lt hlt), hid]
    split
    · rename_i error he
      exact .of_error (h.undecodable (Nat.le_of_lt hlt) hsl he)
    · rename_i items hit
      exact .of_error (.stopped _ (h.stoppedAt_operation hb hit))
  rename_i hb
  split
  · rename_i hs
    obtain ⟨hn, hst⟩ := h.stoppedAt_compound hb hs
    simp only [hn, Nat.zero_sub, Nat.zero_div, Nat.zero_min, Nat.add_zero]
    split
    · rename_i error he
      exact .of_error (h.undecodable (Nat.zero_le _) (by omega) he)
    · exact .of_error (.stopped _ hst)
  rename_i hs
  have ha (i : Nat) (hi : i < chunk.length) := h.all_succeeded hb (not_not.mp hs) hi
  split
  · rename_i error he
    exact .of_error (h.undecodable (Nat.le_refl _) ha he)
  · rename_i items hit
    exact h.advance (Nat.le_refl _) ha hit

theorem BatchReplied.batchReply (h : BatchReplied shape extract ops client st chunk res) :
    BatchGathers shape extract ops client
      (batchReply shape extract onFailure st chunk.length res) := by
  unfold Vnfs.batchReply
  split
  · rename_i next hn
    exact h.mutationRetry hn
  split
  · rename_i next hn
    exact h.resourceRetry hn
  · exact h.finishChunk

namespace BatchGathered

variable (h : BatchGathered shape extract ops client st)
include h

variable {error : RpcError} {chunkSize : Nat} {fits : Bool} {st₁ : BatchState R}

theorem no_capacity (hg : st.global < ops.length) (hc : st.capacity shape = .error error) :
    BatchFailed shape extract ops client st.log error := by
  obtain ⟨rfl, hf⟩ := capacity_error hc
  rw [h.maxOps_eq] at hf
  exact .stopped 0
    ⟨by omega, rfl, fun k hk => absurd hk (Nat.not_lt_zero k), .tooManyOps hf rfl⟩

omit h in
theorem gathered_chunk_pos (hg : st.global < ops.length) {chunkSize : Nat}
    (hc : st.capacity shape = .ok chunkSize) :
    0 < (st.chunk ops chunkSize).length ∧ st.global + (st.chunk ops chunkSize).length ≤ ops.length ∧
      (st.chunk ops chunkSize).length ≤ chunkSize := by
  have hs := (capacity_ok hc).1
  have hi := st.maxItems_pos
  simp only [chunk, length_take, length_drop]
  omega

/-- The only chunk the client itself refuses is a single item that is too long. -/
theorem refused (hgl : st.global < ops.length) (hc : st.capacity shape = .ok chunkSize)
    (hf : st.client.requestFits
      ((shape.tagOps st.global (st.chunk ops chunkSize)).map Prod.snd) = .ok fits)
    (hwh : ¬ (fits = false ∧ (st.chunk ops chunkSize).length > 1)) (hpr : st.client.prepareCompound
      ((shape.tagOps st.global (st.chunk ops chunkSize)).map Prod.snd) = .error error) :
    (client.session.poisoned = true ∧ st.log = [] ∧ error = .transport poisonedMessage) ∨
      error.isTransport = false ∧ error.opIndex = 0 ∧
        ItemFailed shape ops client st.log st.global error := by
  obtain ⟨hpo, -, hle⟩ := gathered_chunk_pos hgl hc
  rcases prepareCompound_error hpr with ⟨-, hm⟩ | he | ⟨rfl, hb⟩ | hp
  · have hma := (capacity_ok hc).2
    have hmu : shape.perOp * (st.chunk ops chunkSize).length ≤ shape.perOp * chunkSize :=
      Nat.mul_le_mul_left _ hle
    rw [length_map, length_tagOps] at hm
    omega
  · rw [hf] at he
    cases he
  · right
    have hs : (st.chunk ops chunkSize).length = 1 := by
      rw [hf] at hb
      have ho : ¬ (st.chunk ops chunkSize).length > 1 := fun hl =>
        hwh ⟨Except.ok.inj hb, hl⟩
      omega
    obtain ⟨item, hitem, hadd⟩ := st.chunk_single shape hs
    rw [hadd, h.fits_eq] at hb
    exact ⟨rfl, rfl, .tooBig item hitem hb rfl⟩
  · obtain ⟨hpoisoned, hunsent⟩ := h.poisoned hp.2
    exact .inl ⟨hpoisoned, hunsent, hp.1⟩

theorem call_failed (hg : st.global < ops.length) (hcap : st.capacity shape = .ok chunkSize)
    (hfits : st.client.requestFits
      ((shape.tagOps st.global (st.chunk ops chunkSize)).map Prod.snd) = .ok fits)
    (hwh : ¬ (fits = false ∧ (st.chunk ops chunkSize).length > 1))
    (hca : call shape net {st with maxItems := usizeMax, maxItems_pos := usizeMax_pos}
      (shape.tagOps st.global (st.chunk ops chunkSize)) = (st₁, .error error)) :
    BatchFailed shape extract ops client st₁.log
      (if error.isTransport then error else error.withOpIndex
        (callerIndex error.opIndex shape.perOp st₁.global (st.chunk ops chunkSize).length)) := by
  rcases call_error hca with ⟨rfl, hp⟩ | ⟨reached, hlo⟩
  · rcases h.refused hg hcap hfits hwh hp with
      ⟨hpoisoned, hunsent, rfl⟩ | ⟨ht, hid, hf⟩
    · exact .poisoned hpoisoned hunsent rfl
    rw [ht, hid]
    refine .stopped st.global ⟨hg, ?_, h.exists_completed, ?_⟩
    · simp [callerIndex, RpcError.withOpIndex]
    cases hf with
    | operation sent chunkStart chunk res i op hl ha hi hk ho hfi hs =>
      exact .operation sent chunkStart chunk res i op hl ha hi hk ho hfi hs
    | compound sent chunk res hl ha hc hn hb hs =>
      exact .compound sent chunk res hl ha hc hn hb hs
    | tooManyOps hr hs => exact .tooManyOps hr hs
    | tooBig item hit hbi hs => exact .tooBig item hit hbi hs
  · refine .unanswered _ error (by rw [hlo, getLast?_concat]) rfl ?_
    split <;> rfl

theorem call_replied (hg : st.global < ops.length) (hc : st.capacity shape = .ok chunkSize)
    {res : CompoundRes}
    (hca : call shape net {st with maxItems := usizeMax, maxItems_pos := usizeMax_pos}
      (shape.tagOps st.global (st.chunk ops chunkSize)) = (st₁, .ok res)) :
    BatchReplied shape extract ops client st₁ (st.chunk ops chunkSize) res := by
  obtain ⟨ho, hs, hm, hf, ⟨reached, hl⟩, request, hsh, hlen⟩ := call_ok hca
  obtain ⟨hp, hle, -⟩ := gathered_chunk_pos hg hc
  obtain ⟨hsi, hro⟩ := capacity_ok hc
  have hon : 1 + shape.perOp ≤ client.maxOps := by
    have := Nat.le_mul_of_pos_right shape.perOp hsi
    rw [h.maxOps_eq] at hro
    omega
  refine ⟨⟨?_, ?_, ?_, hm.trans h.maxOps_eq, hf.trans h.fits_eq, ?_, fun _ => hon⟩, ?_,
    ⟨request, hsh, ?_⟩, hp, hs ▸ hle, hon⟩
  · rw [ho, hs]
    exact h.length_eq
  · rw [hs]
    exact h.global_le
  · intro k r hr
    rw [ho] at hr
    obtain ⟨sent, hse, hfu⟩ := h.completed k r hr
    exact ⟨sent, hl ▸ mem_append_left _ hse, hfu⟩
  · rw [call_ok_usable hca]
    intro hfalse
    cases hfalse
  · exact ⟨_, by rw [hl, getLast?_concat], by rw [hs], ⟨_, by rw [hs]; rfl⟩, rfl⟩
  · rw [hlen, length_tagOps]

variable (onFailure net) in
theorem batchStep : BatchGathers shape extract ops client
    (batchStep shape extract onFailure net ops st) := by
  unfold Vnfs.batchStep
  split
  · rename_i hg
    split
    · rename_i error hc
      exact .of_error (h.no_capacity hg hc)
    rename_i chunkSize hc
    dsimp only
    split
    · rename_i error hfi
      rw [h.fits_eq] at hfi
      have hpositive : 0 < min chunkSize st.maxItems :=
        Nat.lt_min.mpr ⟨(capacity_ok hc).1, st.maxItems_pos⟩
      exact .of_error (.unencodable st.global _ hg hpositive h.exists_completed hfi)
    rename_i fits hfi
    split
    · exact ⟨h.length_eq, h.global_le, h.completed, h.maxOps_eq, h.fits_eq, h.poisoned, h.room⟩
    rename_i hwh
    split
    · rename_i st₁ error hca
      have hf := h.call_failed hg hc hfi hwh hca
      split
      · rename_i ht
        rw [if_pos ht] at hf
        exact .of_error hf
      · rename_i ht
        rw [if_neg ht] at hf
        exact .of_error hf
    · rename_i st₁ res hca
      exact (h.call_replied hg hc hca).batchReply
  · rename_i hg
    exact h.finished (Nat.le_of_not_lt hg)

end BatchGathered

end

section

variable {T R : Type} (shape : BatchShape T) (extract : CompoundRes → Nat → RpcResult R)
  (onFailure : Client → List R → Client) (net : Network) (ops : List T) (client : Client)

/-- Whatever the network answers and whatever the adaptive limits have learned, a
batch that succeeds returns one result per item in input order, each decoded from
the item's own slots in the compound in which it completed. A batch that fails on
an item's status names the item's position in the input, and every item in front
of it completed. -/
theorem batchOpsFallibleWithFailure_results :
    BatchResults shape extract ops client
      (batchOpsFallibleWithFailure shape extract onFailure net ops client) := by
  unfold batchOpsFallibleWithFailure
  split
  · rename_i hempty
    obtain rfl := List.isEmpty_iff.mp hempty
    refine ⟨?_, by rintro error herror; cases herror⟩
    rintro out hout
    obtain rfl := Except.ok.inj hout
    exact ⟨rfl, fun k r hr => by cases hr⟩
  refine Loop.run_invariant _ (P := BatchGathered shape extract ops client) ?_ ?_
    ⟨rfl, Nat.zero_le _, fun k r hr => (by cases hr), rfl, rfl, fun hpoisoned => ⟨hpoisoned, rfl⟩,
      fun hpos => (by cases hpos)⟩
  · intro st st' hst hstep
    have hnext := hst.batchStep onFailure net
    rwa [show Vnfs.batchStep shape extract onFailure net ops st = .inl st' from hstep] at hnext
  · intro st done hst hstep
    have hnext := hst.batchStep onFailure net
    rwa [show Vnfs.batchStep shape extract onFailure net ops st = .inr done from hstep] at hnext

end

end Vnfs
