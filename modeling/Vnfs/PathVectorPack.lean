import Vnfs.PathVector

/-!
What a packed compound looks like: the operations of some consecutive items, each
range ending with the operation its item is there for, and then perhaps the walks
of an item whose path was rejected. Positions count SEQUENCE, which the client
puts in front.
-/

namespace Vnfs

open List

section

variable {T : Type} (vector : PathVector T) (items : List T) (start : Nat)

/-- The ranges `done` are those of the complete items from `start` on. -/
structure PathChunk.Packed (chunk : PathChunk) (done : List OpRange) : Prop where
  callers : done.map OpRange.caller = range' start done.length
  wellFormed : ∀ r ∈ done, ∃ item, items[r.caller]? = some item ∧ vector.malformed item = false
  next : chunk.map.next = 1 + chunk.ops.length
  final : ∀ r ∈ done, 2 ≤ r.stop ∧ r.start < r.stop ∧ ∃ op,
    chunk.ops[r.stop - 2]? = some (r.caller, op) ∧ op.changesNames = true
  changes : ∀ j i op, chunk.ops[j]? = some (i, op) → op.changesNames = true →
    ∃ r ∈ done, r.caller = i ∧ r.stop = j + 2
  spans : ∀ j r, done[j]? = some r →
    r.start = 1 + (CfhCursor.emit {} (((items.drop start).take j).flatMap vector.steps)).1.length ∧
    r.stop =
      1 + (CfhCursor.emit {} (((items.drop start).take (j + 1)).flatMap vector.steps)).1.length

/-- Another item may follow. -/
structure PathChunk.Open (failed : Option (Nat × Status)) (chunk : PathChunk)
    (done : List OpRange) : Prop where
  packed : chunk.Packed vector items start done
  ranges : chunk.map.ranges = done
  global : chunk.global = start + done.length
  failed : chunk.failed = failed
  emits : CfhCursor.emit {} (((items.drop start).take done.length).flatMap vector.steps) =
    (chunk.compound, some chunk.cursor)

/-- The next item was rejected. -/
structure PathChunk.Cut (chunk : PathChunk) (done : List OpRange) : Prop where
  packed : chunk.Packed vector items start done
  ranges : ∃ p, chunk.map.ranges = done ++ [⟨start + done.length, p, p⟩]
  rejected : ∃ item, items[start + done.length]? = some item ∧ vector.malformed item = true
  global : chunk.global = items.length
  failed : chunk.failed = some (start + done.length, .inval)
  emits : CfhCursor.emit {} (((items.drop start).take (done.length + 1)).flatMap vector.steps) =
    (chunk.compound, none)

variable {vector items start}

variable (vector items) in
theorem PathChunk.open_start (failed : Option (Nat × Status)) :
    PathChunk.Open vector items start failed {global := start, failed := failed} [] where
  packed := {
    callers := rfl
    wellFormed := by simp
    next := rfl
    final := by simp
    changes := by simp
    spans := by simp }
  ranges := rfl
  global := rfl
  failed := rfl
  emits := rfl

theorem saturatingAdd_eq {a b : Nat} (h : a + b ≤ usizeMax) : saturatingAdd a b = a + b :=
  Nat.min_eq_left h

variable {walked : List ArgOp} {done : List OpRange} {item : T} {failed : Option (Nat × Status)}
  {chunk : PathChunk} {map : ExecutionMap} {maxArgBytes budget maxItems : Nat} {rest : List T}

/-- An operation that changes names is not one of the walks. -/
theorem getElem?_of_changes {ops : List (Nat × ArgOp)}
    (hwk : ∀ op ∈ walked, op.changesNames = false) {caller j i : Nat} {op : ArgOp}
    (hop : (ops ++ walked.map (Prod.mk caller))[j]? = some (i, op))
    (hc : op.changesNames = true) : ops[j]? = some (i, op) := by
  rcases Nat.lt_or_ge j ops.length with hlt | hge
  · rwa [getElem?_append_left hlt] at hop
  rw [getElem?_append_right hge, getElem?_map, Option.map_eq_some_iff] at hop
  obtain ⟨walk, hw, heq⟩ := hop
  obtain ⟨-, rfl⟩ := Prod.mk.inj heq
  exact absurd ((hwk walk (mem_of_getElem? hw)).symm.trans hc) (by simp)

theorem take_succ_flatMap (hi : items[start + done.length]? = some item) :
    ((items.drop start).take (done.length + 1)).flatMap vector.steps =
      ((items.drop start).take done.length).flatMap vector.steps ++ vector.steps item := by
  rw [take_add_one, getElem?_drop, hi, flatMap_append]
  simp

theorem Open.added (h : chunk.Open vector items start failed done)
    (hi : items[chunk.global]? = some item) {cursor : CfhCursor}
    (hwf : vector.malformed item = false) (hwk : ∀ op ∈ walked, op.changesNames = false)
    (he : chunk.cursor.emit (vector.steps item) = (walked ++ [vector.op item], some cursor))
    (hrg : map.ranges = chunk.map.ranges ++ [⟨chunk.global, chunk.map.next, map.next⟩])
    (hne : map.next = saturatingAdd chunk.map.next (walked.length + 1))
    (hsm : chunk.ops.length + walked.length + 1 < usizeMax) (payload : Nat) :
    PathChunk.Open vector items start failed {chunk with
      ops := chunk.ops ++ walked.map (Prod.mk chunk.global) ++ [(chunk.global, vector.op item)]
      cursor := cursor
      map := map
      payload := payload
      global := chunk.global + 1} (done ++ [⟨chunk.global, chunk.map.next, map.next⟩]) := by
  have hp := h.packed
  rw [hp.next, saturatingAdd_eq (by omega)] at hne
  have hg := h.global
  have hco : CfhCursor.emit {} (((items.drop start).take (done.length + 1)).flatMap vector.steps) =
      (chunk.compound ++ (walked ++ [vector.op item]), some cursor) := by
    rw [take_succ_flatMap (hg ▸ hi), CfhCursor.emit_append, h.emits]
    dsimp only
    rw [he]
  refine ⟨⟨?_, ?_, ?_, ?_, ?_, ?_⟩, ?_, ?_, h.failed, ?_⟩
  · rw [map_append, hp.callers, length_append, length_singleton, range'_concat, hg]
    simp
  · intro r hr
    rcases mem_append.mp hr with hold | hn
    · exact hp.wellFormed r hold
    · rw [mem_singleton.mp hn]
      exact ⟨item, hi, hwf⟩
  · simp only [length_append, length_map, length_singleton]
    omega
  · intro r hr
    rcases mem_append.mp hr with hold | hn
    · obtain ⟨hs, hst, op, hop, hc⟩ := hp.final r hold
      refine ⟨hs, hst, op, ?_, hc⟩
      have hlt := (List.getElem?_eq_some_iff.mp hop).1
      rw [append_assoc, getElem?_append_left hlt, hop]
    rw [mem_singleton.mp hn, hp.next]
    dsimp only
    refine ⟨by omega, by omega, vector.op item, ?_, vector.op_changesNames item⟩
    have hl : map.next - 2 = (chunk.ops ++ walked.map (Prod.mk chunk.global)).length := by
      simp only [length_append, length_map]
      omega
    rw [hl, getElem?_concat_length]
  · intro j i op hop hc
    rcases Nat.lt_or_ge j (chunk.ops.length + walked.length) with hlt | hge
    · rw [getElem?_append_left (by simpa using hlt)] at hop
      obtain ⟨r, hr, hca, hs⟩ := hp.changes j i op (getElem?_of_changes hwk hop hc) hc
      exact ⟨r, mem_append_left _ hr, hca, hs⟩
    have hj := (List.getElem?_eq_some_iff.mp hop).1
    simp only [length_append, length_map, length_singleton] at hj
    have hje : j = (chunk.ops ++ walked.map (Prod.mk chunk.global)).length := by
      simp only [length_append, length_map]
      omega
    rw [hje, getElem?_concat_length] at hop
    obtain ⟨rfl, -⟩ := Prod.mk.inj (Option.some.inj hop)
    refine ⟨_, mem_append_right _ (mem_singleton_self _), rfl, ?_⟩
    simp only [hje, length_append, length_map]
    omega
  · intro j r hr
    rcases Nat.lt_or_ge j done.length with hlt | hge
    · rw [getElem?_append_left hlt] at hr
      exact hp.spans j r hr
    have hj := (List.getElem?_eq_some_iff.mp hr).1
    rw [length_append, length_singleton] at hj
    obtain rfl : j = done.length := by omega
    rw [getElem?_concat_length] at hr
    obtain rfl := Option.some.inj hr
    rw [hco, h.emits]
    simp only [PathChunk.compound, length_append, length_map, length_singleton]
    exact ⟨hp.next, by omega⟩
  · dsimp only
    rw [hrg, h.ranges]
  · dsimp only
    rw [hg, length_append, length_singleton]
    omega
  · rw [length_append, length_singleton, hco]
    simp [PathChunk.compound]

theorem Open.cut (h : chunk.Open vector items start failed done)
    (hi : items[chunk.global]? = some item) (hb : vector.malformed item = true)
    (hwk : ∀ op ∈ walked, op.changesNames = false)
    (he : chunk.cursor.emit (vector.steps item) = (walked, none))
    (hrg : map.ranges = chunk.map.ranges ++ [⟨chunk.global, chunk.map.next, chunk.map.next⟩])
    (hn : map.next = saturatingAdd chunk.map.next walked.length)
    (hsm : chunk.ops.length + walked.length < usizeMax) (cursor : CfhCursor) :
    PathChunk.Cut vector items start {chunk with
      ops := chunk.ops ++ walked.map (Prod.mk chunk.global)
      cursor := cursor
      map := map
      failed := some (chunk.global, .inval)
      global := items.length} done := by
  have hp := h.packed
  rw [hp.next, saturatingAdd_eq (by omega)] at hn
  have hg := h.global
  refine ⟨⟨hp.callers, hp.wellFormed, ?_, ?_, ?_, hp.spans⟩, ⟨chunk.map.next, ?_⟩,
    ⟨item, hg ▸ hi, hb⟩, rfl, by rw [← hg], ?_⟩
  · simp only [length_append, length_map]
    omega
  · intro r hr
    obtain ⟨hs, hst, op, hop, hc⟩ := hp.final r hr
    have hlt := (List.getElem?_eq_some_iff.mp hop).1
    exact ⟨hs, hst, op, by rw [getElem?_append_left hlt, hop], hc⟩
  · intro j i op hop hc
    exact hp.changes j i op (getElem?_of_changes hwk hop hc) hc
  · rw [hrg, h.ranges, hg]
  rw [take_succ_flatMap (hg ▸ hi), CfhCursor.emit_append, h.emits]
  dsimp only
  rw [he]
  simp [PathChunk.compound]

theorem pack_ops_le {count : Nat} (chunk : PathChunk) : chunk.ops.length ≤
      (vector.pack count maxArgBytes budget maxItems rest chunk).ops.length := by
  induction rest generalizing chunk with
  | nil => exact Nat.le_refl _
  | cons item rest ih =>
    have ha := vector.add_spec count chunk item
    unfold PathVector.pack
    split
    · split
      · exact Nat.le_refl _
      generalize vector.add count chunk item = next at ha
      cases ha with
      | rejected walked cursor map malformed walks emits ranges next => simp
      | added walked cursor map wellFormed walks emits ranges next =>
        dsimp only
        split
        · simp
        · refine Nat.le_trans ?_ (ih _)
          simp
    · exact Nat.le_refl _

/-- What packing leads to, as long as positions do not run out. -/
theorem pack_spec (h : chunk.Open vector items start failed done)
    (hre : rest = items.drop chunk.global)
    (hsm : (vector.pack items.length maxArgBytes budget maxItems rest chunk).ops.length <
      usizeMax) :
    ∃ done', (vector.pack items.length maxArgBytes budget maxItems rest chunk).Open vector items
        start failed done' ∨
      (vector.pack items.length maxArgBytes budget maxItems rest chunk).Cut vector items start
        done' := by
  induction rest generalizing chunk done with
  | nil => exact ⟨done, .inl h⟩
  | cons item rest ih =>
    have hi : items[chunk.global]? = some item := by
      have hh := congrArg head? hre
      simpa using hh.symm
    have ht : rest = items.drop (chunk.global + 1) := by
      have ht := congrArg List.tail hre
      simpa using ht
    have ha := vector.add_spec items.length chunk item
    unfold PathVector.pack at hsm ⊢
    split at hsm
    · rename_i hr
      rw [if_pos hr]
      split at hsm
      · rename_i hp
        rw [if_pos hp]
        exact ⟨done, .inl h⟩
      rename_i hp
      rw [if_neg hp]
      generalize vector.add items.length chunk item = next at ha hsm ⊢
      cases ha with
      | rejected walked cursor map malformed walks emits ranges next =>
        simp only [length_append, length_map] at hsm
        exact ⟨done, .inr (Open.cut h hi malformed walks emits ranges next hsm cursor)⟩
      | added walked cursor map wellFormed walks emits ranges next =>
        dsimp only at hsm ⊢
        have hl : chunk.ops.length + walked.length + 1 < usizeMax := by
          split at hsm
          · simp only [length_append, length_map, length_singleton] at hsm
            omega
          · refine Nat.lt_of_le_of_lt ?_ (Nat.lt_of_le_of_lt (pack_ops_le _) hsm)
            simp only [length_append, length_map, length_singleton]
            omega
        have ho := Open.added h hi wellFormed walks emits ranges next hl
          (chunk.payload + vector.est)
        split
        · exact ⟨_, .inl ho⟩
        · rename_i hm
          rw [if_neg hm] at hsm
          exact ih ho ht hsm
    · rename_i hr
      rw [if_neg hr]
      exact ⟨done, .inl h⟩

end

end Vnfs
