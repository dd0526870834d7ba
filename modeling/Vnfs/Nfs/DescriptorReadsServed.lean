import Vnfs.Nfs.DescriptorReads

/-!
Descriptor reads of files that do not change. Every read of a vector gets the bytes of
its range up to the end of the file, whatever short READs the server replies with.
An owned read puts these bytes together; a read into a buffer only ever writes bytes
that belong where they are written, so that a position once right stays right.
-/

namespace Vnfs.Nfs.DescriptorReads

open Option ReadSession WireRead
open List hiding min

/-- The answer to one READ of an unchanging file: some of the bytes asked for, at
least one unless there is none, and the end flag where the file ends. -/
structure Answers (contents : NfsFh → Bytes) (op : WireRead) (item : Bytes × Bool) : Prop where
  data_eq : item.1 = ((contents op.fh).drop op.offset).take item.1.length
  length_le : item.1.length ≤ op.count
  progress : 0 < op.count → op.offset < (contents op.fh).length → item.1 ≠ []
  eof_iff : item.2 = true ↔ (contents op.fh).length ≤ op.offset + item.1.length

/-- A server of files that do not change, whatever schedule of short READs it
follows. -/
structure Serves {σ : Type} (session : ReadSession σ) (contents : NfsFh → Bytes) : Prop where
  size : ∀ s fh, (session.fileSize s fh).1 = .ok (contents fh).length
  answers : ∀ s ops, ∃ items, (session.readBatch s ops).1 = (items, none) ∧
    Forall₂ (Answers contents) ops items

section Pack

variable {limit : Nat} {cost : WireRead → Nat}

theorem flatten_packFrom (current : List WireRead) (bytes : Nat) (ops : List WireRead) :
    (packFrom limit cost current bytes ops).flatten = current ++ ops := by
  induction ops generalizing current bytes with
  | nil => simp [packFrom]
  | cons op rest ih =>
    unfold packFrom
    split
    · rw [flatten_cons, ih, singleton_append]
    · rw [ih, append_assoc, singleton_append]

theorem flatten_packReads (ops : List WireRead) : (packReads limit cost ops).flatten = ops := by
  cases ops with
  | nil => rfl
  | cons op rest => exact flatten_packFrom [op] (cost op) rest

theorem packFrom_fits (hco : ∀ op, cost op ≤ usizeMax) {current : List WireRead} {bytes : Nat}
    {ops : List WireRead} (hc : ∀ op ∈ current.tail, cost op ≤ limit) (hne : current ≠ []) :
    ∀ group ∈ packFrom limit cost current bytes ops, ∀ op ∈ group.tail, cost op ≤ limit := by
  induction ops generalizing current bytes with
  | nil =>
    intro group hg
    rw [packFrom, mem_singleton] at hg
    exact hg ▸ hc
  | cons op rest ih =>
    unfold packFrom
    split
    · intro group hg
      rcases mem_cons.mp hg with rfl | hg
      · exact hc
      · exact ih (by simp) (by simp) group hg
    rename_i hf
    refine ih ?_ (by simp)
    intro other ho
    rw [tail_append_of_ne_nil hne] at ho
    rcases mem_append.mp ho with hold | hn
    · exact hc other hold
    rw [mem_singleton.mp hn]
    have hle := hco op
    unfold saturatingAdd at hf
    omega

theorem packReads_fits (hc : ∀ op, cost op ≤ usizeMax) (ops : List WireRead) :
    ∀ group ∈ packReads limit cost ops, ∀ op ∈ group.tail, cost op ≤ limit := by
  cases ops with
  | nil => simp [packReads]
  | cons op rest => exact packFrom_fits hc (by simp) (by simp)

end Pack

/-- `Rel` says what storing an answer keeps, `Post` what it achieves for good. -/
structure Storage {β : Type} (Rel : β → β → Prop) (Post : β → Nat → Bytes × Bool → Prop) :
    Prop where
  trans : ∀ a b c, Rel a b → Rel b c → Rel a c
  keeps : ∀ b b' wire item, Rel b b' → Post b wire item → Post b' wire item

/-- A destination that takes every answer of the server to `ops`. -/
structure Decoder {β R : Type} (contents : NfsFh → Bytes) (ops : List WireRead)
    (decode : β → Nat → Bytes → Bool → RpcResult (R × β)) (f : Bytes × Bool → R)
    (Rel : β → β → Prop) (Post : β → Nat → Bytes × Bool → Prop) : Prop
    extends Storage Rel Post where
  accepts : ∀ b wire op item, Rel b b → ops[wire]? = some op → Answers contents op item →
    ∃ b', decode b wire item.1 item.2 = .ok (f item, b') ∧ Rel b b' ∧ Rel b' b' ∧
      Post b' wire item

section Decoder

variable {β R : Type} {contents : NfsFh → Bytes} {ops : List WireRead}
  {decode : β → Nat → Bytes → Bool → RpcResult (R × β)} {f : Bytes × Bool → R}
  {Rel : β → β → Prop} {Post : β → Nat → Bytes × Bool → Prop}

def Stored (f : Bytes × Bool → R) (Rel : β → β → Prop) (Post : β → Nat → Bytes × Bool → Prop)
    (b : β) (start : Nat) (items : List (Bytes × Bool)) (rs : List R) (b' : β) : Prop :=
  rs = items.map f ∧ Rel b b' ∧ Rel b' b' ∧
    ∀ k item, items[k]? = some item → Post b' (start + k) item

variable {b : β} {start : Nat} {items : List (Bytes × Bool)} {budget : Nat}
  {groups : List (List WireRead)}

theorem stored_nil (hb : Rel b b) (start : Nat) : Stored f Rel Post b start [] [] b :=
  ⟨rfl, hb, hb, fun k item hi => by cases hi⟩

theorem Storage.stored_append (h : Storage Rel Post) {b₁ b₂ : β} {items' : List (Bytes × Bool)}
    {rs rs' : List R} (hfr : Stored f Rel Post b start items rs b₁)
    (hb : Stored f Rel Post b₁ (start + items.length) items' rs' b₂) :
    Stored f Rel Post b start (items ++ items') (rs ++ rs') b₂ := by
  obtain ⟨rfl, hr, -, hp⟩ := hfr
  obtain ⟨rfl, hr', hs, hp'⟩ := hb
  refine ⟨by rw [map_append], h.trans _ _ _ hr hr', hs, fun k item hi => ?_⟩
  rcases Nat.lt_or_ge k items.length with hlt | hge
  · rw [getElem?_append_left hlt] at hi
    exact h.keeps _ _ _ _ hr' (hp k item hi)
  · rw [getElem?_append_right hge] at hi
    have := hp' _ item hi
    rwa [Nat.add_assoc, Nat.add_sub_cancel' hge] at this

theorem Decoder.decodeItems (h : Decoder contents ops decode f Rel Post) {wire : Nat}
    {group rest : List WireRead} (hb : Rel b b) (hops : ops.drop wire = group ++ rest)
    (hit : Forall₂ (Answers contents) group items) :
    ∃ rs b', decodeItems decode b wire group items = .ok (rs, b') ∧
      Stored f Rel Post b wire items rs b' := by
  induction hit generalizing b wire with
  | nil => exact ⟨[], b, rfl, stored_nil hb wire⟩
  | @cons op item group items hi hre ih =>
    have hg : ops[wire]? = some op := by
      rw [← head?_drop, hops]
      rfl
    have hn : ops.drop (wire + 1) = group ++ rest := by
      rw [← tail_drop, hops]
      rfl
    obtain ⟨b₁, hde, hr, hs, hp⟩ := h.accepts b wire op item hb hg hi
    obtain ⟨rs, b₂, hd, hst⟩ := ih hs hn
    refine ⟨f item :: rs, b₂, ?_, ?_⟩
    · obtain ⟨data, eof⟩ := item
      have hle := hi.length_le
      simp only [DescriptorReads.decodeItems, Nat.not_lt.mpr hle, if_false, hde, hd]
    have ho : Stored f Rel Post b wire [item] [f item] b₁ := by
      refine ⟨rfl, hr, hs, fun k item' hk => ?_⟩
      obtain ⟨rfl, rfl⟩ : k = 0 ∧ item' = item := by
        cases k with
        | zero => exact ⟨rfl, (some.inj hk).symm⟩
        | succ k => cases hk
      exact hp
    exact h.stored_append ho hst

/-- The first READ of the compounds that fits none. -/
def firstOversized (budget : Nat) : Nat → List (List WireRead) → Option Nat
  | _, [] => none
  | start, group :: groups =>
    if group.head?.any (charge · > budget) then some start
    else firstOversized budget (start + group.length) groups

theorem charge_le_of_firstOversized (ht : ∀ group ∈ groups, ∀ op ∈ group.tail, charge op ≤ budget)
    (h : firstOversized budget start groups = none) :
    ∀ op ∈ groups.flatten, charge op ≤ budget := by
  induction groups generalizing start with
  | nil => simp
  | cons group groups ih =>
    unfold firstOversized at h
    split at h
    · cases h
    rename_i hh
    intro op hop
    rcases mem_append.mp (flatten_cons ▸ hop) with hop | hop
    · cases group with
      | nil => cases hop
      | cons first rest =>
        rcases mem_cons.mp hop with rfl | hop
        · simpa using hh
        · exact ht _ mem_cons_self op hop
    · exact ih (fun g hg => ht g (mem_cons_of_mem _ hg)) h op hop

variable {σ : Type} {session : ReadSession σ}

theorem Decoder.readvGroups (h : Decoder contents ops decode f Rel Post)
    (hsr : Serves session contents) {s : σ} (hb : Rel b b) (ho : ops.drop start = groups.flatten) :
    match firstOversized session.byteBudget start groups with
    | some k => (session.readvGroups decode s b start groups).1 = .error (.op k Status.repTooBig)
    | none => ∃ items rs b', Forall₂ (Answers contents) groups.flatten items ∧
        (session.readvGroups decode s b start groups).1 = .ok (rs, b') ∧
        Stored f Rel Post b start items rs b' := by
  induction groups generalizing s b start with
  | nil => exact ⟨[], [], b, .nil, rfl, stored_nil hb start⟩
  | cons group groups ih =>
    unfold firstOversized readvGroups
    split_ifs with hh
    · rfl
    obtain ⟨items, hba, hi⟩ := hsr.answers s group
    obtain ⟨rs, b₁, hd, hs⟩ := h.decodeItems hb (ho.trans flatten_cons) hi
    have hl := hi.length_eq
    have hn : ops.drop (start + group.length) = groups.flatten := by
      rw [← drop_drop, ho, flatten_cons, drop_left]
    have hr := ih (s := (session.readBatch s group).2) hs.2.2.1 hn
    generalize hse : session.readBatch s group = sent at hba hr
    obtain ⟨⟨items', failure⟩, s₁⟩ := sent
    obtain ⟨rfl, rfl⟩ := Prod.mk.inj hba
    simp only [hd]
    generalize session.readvGroups decode s₁ b₁ (start + group.length) groups = done at hr
    obtain ⟨result, s₂⟩ := done
    cases hf : firstOversized session.byteBudget (start + group.length) groups with
    | some k =>
      rw [hf] at hr
      subst hr
      rfl
    | none =>
      rw [hf] at hr
      obtain ⟨items₂, rs₂, b₂, hi₂, rfl, hs₂⟩ := hr
      rw [hl] at hs₂
      exact ⟨items' ++ items₂, rs ++ rs₂, b₂, flatten_cons ▸ rel_append hi hi₂,
        rfl, h.stored_append hs hs₂⟩

/-- The first READ of a call of `readv_decode` that fits no compound. -/
def refused (budget : Nat) (ops : List WireRead) : Option Nat :=
  firstOversized budget 0 (packReads budget charge ops)

theorem charge_le_of_refused (h : refused budget ops = none) : ∀ op ∈ ops, charge op ≤ budget := by
  have hc (op : WireRead) : charge op ≤ usizeMax := Nat.min_le_right _ _
  have := charge_le_of_firstOversized (packReads_fits hc ops) h
  rwa [flatten_packReads] at this

theorem Decoder.readvDecode (h : Decoder contents ops decode f Rel Post)
    (hs : Serves session contents) {s : σ} (hb : Rel b b) :
    match refused session.byteBudget ops with
    | some k => (session.readvDecode decode s b ops).1 = .error (.op k Status.repTooBig)
    | none => ∃ items rs b', Forall₂ (Answers contents) ops items ∧
        (session.readvDecode decode s b ops).1 = .ok (rs, b') ∧
        Stored f Rel Post b 0 items rs b' := by
  have hf : (packReads session.byteBudget charge ops).flatten = ops := flatten_packReads ops
  have hwh : ops.drop 0 = (packReads session.byteBudget charge ops).flatten := hf.symm
  have hg := h.readvGroups hs (s := s) hb hwh
  rw [hf] at hg
  exact hg

/-- The first compound of the engines that is refused, and its READ that is. -/
def firstRefused (budget : Nat) : Nat → List (List WireRead) → Option (Nat × Nat)
  | _, [] => none
  | start, group :: groups =>
    match refused budget group with
    | some k => some (start, k)
    | none => firstRefused budget (start + group.length) groups

theorem charge_le_of_firstRefused (h : firstRefused budget start groups = none) :
    ∀ op ∈ groups.flatten, charge op ≤ budget := by
  induction groups generalizing start with
  | nil => simp
  | cons group groups ih =>
    unfold firstRefused at h
    split at h
    · cases h
    rename_i hg
    intro op hop
    rcases mem_append.mp (flatten_cons ▸ hop) with hop | hop
    · exact charge_le_of_refused hg op hop
    · exact ih h op hop

theorem readCompounds_serves (decodeAt : Nat → β → Nat → Bytes → Bool → RpcResult (R × β))
    (hd : ∀ start group rest, ops.drop start = group ++ rest →
      Decoder contents group (decodeAt start) f Rel fun b wire => Post b (start + wire))
    (hstorage : Storage Rel Post) (hsr : Serves session contents) (owners : List Nat) {s : σ}
    (hb : Rel b b) (ho : ops.drop start = groups.flatten) :
    match firstRefused session.byteBudget start groups with
    | some (at_, k) => (readCompounds (fun s b cursor ops =>
      session.readvDecode (decodeAt cursor) s b ops) owners s b start groups).1 =
        .error (remapDescriptorChunkError (errorFromRpcIndexed (.op k Status.repTooBig)) at_ owners)
    | none => ∃ items rs b', Forall₂ (Answers contents) groups.flatten items ∧
        (readCompounds (fun s b cursor ops =>
          session.readvDecode (decodeAt cursor) s b ops) owners s b start groups).1 = .ok (rs, b') ∧
        Stored f Rel Post b start items rs b' := by
  induction groups generalizing s b start with
  | nil => exact ⟨[], [], b, .nil, rfl, stored_nil hb start⟩
  | cons group groups ih =>
    have hg := (hd start group _ (ho.trans flatten_cons)).readvDecode hsr (s := s) hb
    unfold firstRefused readCompounds
    generalize session.readvDecode (decodeAt start) s b group = sent at hg
    obtain ⟨result, s₁⟩ := sent
    cases hre : refused session.byteBudget group with
    | some k =>
      rw [hre] at hg
      subst hg
      rfl
    | none =>
      rw [hre] at hg
      obtain ⟨items, rs, b₁, hi, hres, hrs, hrel, hs, hp⟩ := hg
      subst hres
      have hst : Stored f Rel Post b start items rs b₁ :=
        ⟨hrs, hrel, hs, fun k item hk => by simpa using hp k item hk⟩
      have hl := hi.length_eq
      have hn : ops.drop (start + group.length) = groups.flatten := by
        rw [← drop_drop, ho, flatten_cons, drop_left]
      have hr := ih (s := s₁) hs hn
      dsimp only
      generalize readCompounds (fun s b cursor ops =>
        session.readvDecode (decodeAt cursor) s b ops) owners s₁ b₁ (start + group.length)
          groups = done at hr
      obtain ⟨result, s₂⟩ := done
      cases hf : firstRefused session.byteBudget (start + group.length) groups with
      | some refusal =>
        rw [hf] at hr
        subst hr
        rfl
      | none =>
        rw [hf] at hr
        obtain ⟨items₂, rs₂, b₂, hi₂, hres₂, hst₂⟩ := hr
        subst hres₂
        rw [hl] at hst₂
        exact ⟨items ++ items₂, rs ++ rs₂, b₂, flatten_cons ▸ rel_append hi hi₂, rfl,
          hstorage.stored_append hst hst₂⟩

end Decoder

theorem owned_decoder (contents : NfsFh → Bytes) (ops : List WireRead) :
    Decoder contents ops owned id (fun _ _ => True) fun _ _ _ => True where
  trans _ _ _ _ _ := trivial
  keeps _ _ _ _ _ _ := trivial
  accepts b _ _ _ _ _ _ := ⟨b, rfl, trivial, trivial, trivial⟩

section Repairs

variable {σ α : Type} {session : ReadSession σ} {contents : NfsFh → Bytes}
  {op : WireRead} {index : Nat} {onData : α → Bytes → α}

/-- The bytes a READ asks for, up to the end of the file. -/
def WireRead.slice (contents : NfsFh → Bytes) (op : WireRead) : Bytes :=
  ((contents op.fh).drop op.offset).take op.count

theorem readv_single (hs : Serves session contents) (hf : charge op ≤ session.byteBudget) (s : σ) :
    ∃ item s', session.readv s [op] = (.ok ([item], ()), s') ∧ Answers contents op item := by
  have hn : refused session.byteBudget [op] = none := by
    simp [refused, packReads, packFrom, firstOversized, Nat.not_lt.mpr hf]
  have hr := (owned_decoder contents [op]).readvDecode hs (s := s) (b := ()) trivial
  rw [hn] at hr
  obtain ⟨items, rs, b, hit, hre, hrs, -⟩ := hr
  cases hit with
  | @cons _ item _ _ hi hrest =>
    cases hrest
    refine ⟨item, (session.readvDecode owned s () [op]).2, Prod.ext ?_ rfl, hi⟩
    rw [hrs] at hre
    exact hre

/-- Where a repair stands: `pieces` came behind the first `chunk`. -/
private structure Repairing (contents : NfsFh → Bytes) (op : WireRead) (onData : α → Bytes → α)
    (chunk : Bytes) (acc : α) (st : Repair σ α) : Prop where
  pieces : ∃ pieces : List Bytes, st.acc = pieces.foldl onData acc ∧
    chunk ++ pieces.flatten = ((contents op.fh).drop op.offset).take st.received
  received_le : st.received ≤ op.count
  within : st.received ≤ (contents op.fh).length - op.offset
  eof_iff : st.eof = true ↔ (contents op.fh).length ≤ op.offset + st.received

variable (index) in
theorem repairStep_serves (hs : Serves session contents) (hfi : charge op ≤ session.byteBudget)
    (hra : op.offset + op.count ≤ u64Max) {chunk : Bytes} {acc : α} {st : Repair σ α}
    (h : Repairing contents op onData chunk acc st) (ho : st.received < op.count)
    (heo : st.eof = false) :
    ∃ st', repairStep session op index onData st = .inl st' ∧
      Repairing contents op onData chunk acc st' := by
  have hi : op.offset + st.received < (contents op.fh).length := by
    by_contra he
    rw [h.eof_iff.mpr (Nat.le_of_not_lt he)] at heo
    cases heo
  have hrt : charge {op with offset := op.offset + st.received, count := op.count - st.received} ≤
        session.byteBudget := by
    unfold charge saturatingAdd at hfi ⊢
    dsimp only
    omega
  obtain ⟨⟨data, fin⟩, s', hr, ha⟩ := readv_single hs hrt st.session
  have hd := ha.data_eq
  have hle := ha.length_le
  have hm := ha.progress
  have hf := ha.eof_iff
  dsimp only at hd hle hm hf
  have hne : data ≠ [] := hm (by omega) hi
  have hlen : data.length ≤ (contents op.fh).length - (op.offset + st.received) := by
    have := congrArg List.length hd
    rw [length_take, length_drop] at this
    omega
  refine ⟨⟨s', onData st.acc data, st.received + data.length, fin⟩, ?_, ?_, ?_, ?_, ?_⟩
  · unfold repairStep
    rw [if_pos ⟨ho, heo⟩]
    have had : checkedAdd op.offset st.received = some (op.offset + st.received) :=
      if_pos (by omega)
    simp only [had, hr]
    rw [if_neg]
    rintro (hl | ⟨hem, -⟩)
    · omega
    · exact hne (List.isEmpty_iff.mp hem)
  · obtain ⟨pieces, hac, hp⟩ := h.pieces
    refine ⟨pieces ++ [data], by rw [foldl_append, ← hac]; rfl, ?_⟩
    rw [flatten_append, flatten_singleton, ← append_assoc, hp, take_add, drop_drop, ← hd]
  · dsimp only
    omega
  · dsimp only
    omega
  · dsimp only
    rw [hf, Nat.add_assoc]

variable (index onData) in
theorem completeReadChunk_serves (hsr : Serves session contents)
    (hfits : charge op ≤ session.byteBudget) (hra : op.offset + op.count ≤ u64Max) {chunk : Bytes}
    {fin : Bool} (han : Answers contents op (chunk, fin)) (s : σ) (acc : α) :
    ∃ (pieces : List Bytes) (s' : σ),
      completeReadChunk session op index onData s chunk.length fin acc =
        (.ok (pieces.foldl onData acc, (op.slice contents).length,
          decide ((contents op.fh).length ≤ op.offset + (op.slice contents).length)), s') ∧
      chunk ++ pieces.flatten = op.slice contents := by
  have hd := han.data_eq
  have hle := han.length_le
  have hf := han.eof_iff
  dsimp only at hd hle hf
  have hstart : Repairing contents op onData chunk acc ⟨s, acc, chunk.length, fin⟩ := by
    refine ⟨⟨[], rfl, by simpa using hd⟩, hle, ?_, hf⟩
    have := congrArg List.length hd
    rw [length_take, length_drop] at this
    dsimp only
    omega
  unfold completeReadChunk
  rw [if_neg]
  · refine Loop.run_invariant (repairBody session op index onData)
      (P := Repairing contents op onData chunk acc)
      (Q := fun done => ∃ (pieces : List Bytes) (s' : σ), done =
        (.ok (pieces.foldl onData acc, (op.slice contents).length,
          decide ((contents op.fh).length ≤ op.offset + (op.slice contents).length)), s') ∧
        chunk ++ pieces.flatten = op.slice contents) ?_ ?_ hstart
    · intro st st' hst hs
      change repairStep session op index onData st = .inl st' at hs
      by_cases ho : st.received < op.count ∧ st.eof = false
      · obtain ⟨st'', hs', hn⟩ := repairStep_serves index hsr hfits hra hst ho.1 ho.2
        rw [hs] at hs'
        exact Sum.inl.inj hs' ▸ hn
      · unfold repairStep at hs
        rw [if_neg ho] at hs
        cases hs
    intro st done hst hs
    change repairStep session op index onData st = .inr done at hs
    by_cases ho : st.received < op.count ∧ st.eof = false
    · obtain ⟨st'', hs', -⟩ := repairStep_serves index hsr hfits hra hst ho.1 ho.2
      rw [hs] at hs'
      cases hs'
    unfold repairStep at hs
    rw [if_neg ho] at hs
    cases hs
    obtain ⟨pieces, ha, hp⟩ := hst.pieces
    have hr := hst.received_le
    have hin := hst.within
    have hen : st.received = op.count ∨ (contents op.fh).length ≤ op.offset + st.received := by
      cases he : st.eof with
      | true => exact .inr (hst.eof_iff.mp he)
      | false =>
        have hfu : ¬ st.received < op.count := fun hlt => ho ⟨hlt, he⟩
        exact .inl (by omega)
    have hsl : ((contents op.fh).drop op.offset).take st.received = op.slice contents := by
      rcases hen with hfu | hfi
      · rw [hfu]
        rfl
      · unfold slice
        rw [take_of_length_le (by rw [length_drop]; omega),
          take_of_length_le (by rw [length_drop]; omega)]
    have hl : (op.slice contents).length = st.received := by
      rw [← hsl, length_take, length_drop]
      omega
    refine ⟨pieces, st.session, ?_, hp.trans hsl⟩
    have he : st.eof = decide ((contents op.fh).length ≤ op.offset + st.received) :=
      Bool.eq_iff_iff.mpr (hst.eof_iff.trans decide_eq_true_iff.symm)
    rw [hl, ← ha, ← he]
  rintro (hlo | ⟨hc, hem, ho⟩)
  · omega
  have hno : chunk = [] := length_eq_zero_iff.mp hem
  have hi : op.offset < (contents op.fh).length := by
    by_contra hen
    rw [hf.mpr (by omega)] at ho
    cases ho
  exact han.progress (Nat.pos_of_ne_zero hc) hi hno

end Repairs

/-- READs that cover `remaining` bytes of the request at `off`, from `start` on. -/
def Tiles (fh : NfsFh) (off : Nat) : Nat → Nat → List WireRead → Prop
  | _, remaining, [] => remaining = 0
  | start, remaining, op :: ops => op.fh = fh ∧ op.offset = off + start ∧ op.count ≤ remaining ∧
      Tiles fh off (start + op.count) (remaining - op.count) ops

theorem chunkReads_tiles (opened : NfsOpenState) (off : Nat) {per fuel remaining : Nat}
    (hp : 0 < per) (hf : remaining ≤ fuel) (chunkOff : Nat) :
    Tiles opened.fh off chunkOff remaining (chunkReads opened off per fuel remaining chunkOff) ∧
      chunkReads opened off per fuel remaining chunkOff ≠ [] := by
  induction fuel generalizing remaining chunkOff with
  | zero =>
    obtain rfl := Nat.le_zero.mp hf
    unfold chunkReads
    exact ⟨⟨rfl, rfl, by simp, by simp [Tiles]⟩, by simp⟩
  | succ fuel ih =>
    unfold chunkReads
    refine ⟨⟨rfl, rfl, Nat.min_le_left _ _, ?_⟩, by simp⟩
    dsimp only
    split_ifs with hl
    · exact hl
    · exact (ih (by omega) _).1

/-- What a read of `length` bytes at `off` returns: the bytes of the range up to the
end of the file, and whether that was reached. -/
def readSlice (content : Bytes) (off length : Nat) : Bytes × Bool :=
  ((content.drop off).take length,
    decide (content.length ≤ off + ((content.drop off).take length).length))

section Tiles

variable {content : Bytes} {off start count remaining : Nat}

theorem readSlice_of_end (hc : count ≤ remaining) (he : content.length ≤ off + start + count) :
    readSlice content off (start + count) = readSlice content off (start + remaining) := by
  unfold readSlice
  rw [take_of_length_le (i := start + count) (by rw [length_drop]; omega),
    take_of_length_le (i := start + remaining) (by rw [length_drop]; omega)]

theorem length_slice (op : WireRead) (contents : NfsFh → Bytes) :
    (op.slice contents).length = min op.count ((contents op.fh).length - op.offset) := by
  rw [slice, length_take, length_drop]

variable {contents : NfsFh → Bytes} {op : WireRead}

theorem slice_append (ho : op.offset = off + start) :
    ((contents op.fh).drop off).take start ++ op.slice contents =
      ((contents op.fh).drop off).take (start + op.count) := by
  rw [slice, ho, take_add, drop_drop]

/-- A chunk at the end of which the file goes on was read in full. -/
theorem slice_open (ho : ¬ (contents op.fh).length ≤ op.offset + (op.slice contents).length) :
    (op.slice contents).length = op.count ∧ op.offset + op.count < (contents op.fh).length := by
  rw [length_slice] at ho ⊢
  omega

end Tiles

section Owned

variable {σ : Type} {session : ReadSession σ} {contents : NfsFh → Bytes}

theorem foldl_append_flatten (pieces : List Bytes) (data : Bytes) :
    pieces.foldl (· ++ ·) data = data ++ pieces.flatten := by
  induction pieces generalizing data with
  | nil => simp
  | cons piece pieces ih => rw [foldl_cons, ih, flatten_cons, append_assoc]

theorem collectOwned_eof (index : Nat) (s : σ) (data : Bytes)
    (wires : List ((Nat × WireRead) × Bytes × Bool)) :
    collectOwned session index s data true wires = (.ok (data, true), s) := by
  induction wires with
  | nil => rfl
  | cons wire wires ih =>
    exact ih

theorem collectOwned_tiles (hs : Serves session contents) (index : Nat) {off : Nat} {fh : NfsFh}
    {wires : List ((Nat × WireRead) × Bytes × Bool)} {start remaining : Nat}
    (ht : Tiles fh off start remaining (wires.map (·.1.2)))
    (ha : ∀ wire ∈ wires, Answers contents wire.1.2 wire.2)
    (hfi : ∀ wire ∈ wires, charge wire.1.2 ≤ session.byteBudget)
    (hra : off + start + remaining ≤ u64Max) (hst : start ≤ (contents fh).length - off)
    (hopen : wires ≠ [] ∨ off + start < (contents fh).length) (s : σ) :
    ∃ s', collectOwned session index s (((contents fh).drop off).take start) false wires =
      (.ok (readSlice (contents fh) off (start + remaining)), s') := by
  induction wires generalizing start remaining s with
  | nil =>
    obtain rfl : remaining = 0 := ht
    have hi := hopen.resolve_left (by simp)
    refine ⟨s, ?_⟩
    unfold collectOwned readSlice
    rw [Nat.add_zero, length_take, length_drop, decide_eq_false (by omega)]
  | cons wire wires ih =>
    obtain ⟨⟨owner, op⟩, chunk, fin⟩ := wire
    obtain ⟨hfh, ho, hc, hre⟩ := ht
    dsimp only at hfh ho hc hre
    subst hfh
    have hr : op.offset + op.count ≤ u64Max := by omega
    obtain ⟨pieces, s₁, hf, hp⟩ := completeReadChunk_serves index (· ++ ·) hs
      (hfi _ mem_cons_self) hr (ha _ mem_cons_self) s
      (((contents op.fh).drop off).take start ++ chunk)
    have hd : pieces.foldl (· ++ ·) (((contents op.fh).drop off).take start ++ chunk) =
        ((contents op.fh).drop off).take (start + op.count) := by
      rw [foldl_append_flatten, append_assoc, hp, slice_append ho]
    unfold collectOwned
    simp only [Bool.false_eq_true, if_false, hf, hd]
    by_cases he : (contents op.fh).length ≤ op.offset + (op.slice contents).length
    · rw [decide_eq_true he, collectOwned_eof]
      rw [length_slice] at he
      refine ⟨s₁, ?_⟩
      rw [← readSlice_of_end hc (by omega)]
      unfold readSlice
      rw [decide_eq_true]
      rw [length_take, length_drop]
      omega
    rw [decide_eq_false he]
    have hi := (slice_open he).2
    obtain ⟨s₂, hco⟩ := ih hre (fun wire hw => ha wire (mem_cons_of_mem _ hw))
      (fun wire hw => hfi wire (mem_cons_of_mem _ hw)) (by omega) (by omega)
      (.inr (by omega)) s₁
    refine ⟨s₂, ?_⟩
    rw [hco, show start + op.count + (remaining - op.count) = start + remaining by omega]

end Owned

section Buffers

open ByteFile

/-- Position `p` of buffer `i` holds the byte its request asks for there. -/
def RightAt (contents : NfsFh → Bytes) (places : List (NfsFh × Nat)) (buffers : List Bytes)
    (i p : Nat) : Prop :=
  ∃ fh off buffer, places[i]? = some (fh, off) ∧ buffers[i]? = some buffer ∧
    byte buffer p = byte (contents fh) (off + p)

/-- The buffers keep their lengths, and what is right in them stays right. -/
def StaysRight (contents : NfsFh → Bytes) (places : List (NfsFh × Nat)) (lengths : List Nat)
    (buffers buffers' : List Bytes) : Prop :=
  buffers.map List.length = lengths ∧ buffers'.map List.length = lengths ∧
    ∀ i p, RightAt contents places buffers i p → RightAt contents places buffers' i p

variable {contents : NfsFh → Bytes} {places : List (NfsFh × Nat)} {lengths : List Nat}

theorem StaysRight.trans {a b c : List Bytes} (h : StaysRight contents places lengths a b)
    (h' : StaysRight contents places lengths b c) : StaysRight contents places lengths a c :=
  ⟨h.1, h'.2.1, fun i p hrt => h'.2.2 i p (h.2.2 i p hrt)⟩

theorem byte_take_drop (content : Bytes) (off length k : Nat) (hk : k < length) :
    byte ((content.drop off).take length) k = byte content (off + k) := by
  simp [byte, getD_eq_getElem?_getD, getElem?_drop, hk]

variable {buffers : List Bytes} {fh : NfsFh} {off start length : Nat}

theorem staysRight_modify {i : Nat} {data : Bytes} (hbufs : buffers.map List.length = lengths)
    (hpl : places[i]? = some (fh, off)) (hl : lengths[i]? = some length)
    (hd : data = ((contents fh).drop (off + start)).take data.length)
    (hf : start + data.length ≤ length) :
    StaysRight contents places lengths buffers (buffers.modify i (pwrite · start data)) ∧
      ∀ p, start ≤ p → p < start + data.length →
        RightAt contents places (buffers.modify i (pwrite · start data)) i p := by
  obtain ⟨buffer, hb, hbu⟩ : ∃ buffer, buffers[i]? = some buffer ∧ buffer.length = length := by
    rw [← hbufs, getElem?_map] at hl
    exact map_eq_some_iff.mp hl
  have hwr : (buffers.modify i (pwrite · start data))[i]? = some (pwrite buffer start data) := by
    simp [hb]
  have hk : (pwrite buffer start data).length = buffer.length := by
    by_cases he : data = []
    · rw [he, pwrite_nil]
    · rw [length_pwrite _ _ he]
      omega
  have hbyt (p : Nat) (hp : start ≤ p) (hp' : p < start + data.length) :
      byte (pwrite buffer start data) p = byte (contents fh) (off + p) := by
    rw [byte_pwrite, if_pos ⟨hp, hp'⟩, hd, byte_take_drop _ _ _ _ (by omega)]
    congr 1
    omega
  refine ⟨⟨hbufs, ?_, ?_⟩, fun p hp hp' => ⟨fh, off, _, hpl, hwr, hbyt p hp hp'⟩⟩
  · rw [← hbufs]
    refine ext_getElem? fun j => ?_
    by_cases hj : i = j
    · subst hj
      simp [hb, hk]
    · simp [hj]
  rintro j p ⟨fh', off', buffer', hpl', hb', hby⟩
  by_cases hj : i = j
  · subst hj
    rw [hb] at hb'
    obtain rfl := some.inj hb'
    refine ⟨fh', off', _, hpl', hwr, ?_⟩
    by_cases hin : start ≤ p ∧ p < start + data.length
    · rw [hpl] at hpl'
      obtain ⟨rfl, rfl⟩ := Prod.mk.inj (some.inj hpl')
      exact hbyt p hin.1 hin.2
    · rw [byte_pwrite, if_neg hin]
      exact hby
  · refine ⟨fh', off', buffer', hpl', ?_, hby⟩
    simpa [hj] using hb'

theorem foldl_fillBuffer (index : Nat) (pieces : List Bytes) (buffers : List Bytes) (start : Nat) :
    pieces.foldl (fillBuffer index) (buffers, start) =
      (buffers.modify index (pwrite · start pieces.flatten), start + pieces.flatten.length) := by
  induction pieces generalizing buffers start with
  | nil =>
    have hid : (fun buffer : Bytes => pwrite buffer start []) = id := by
      funext buffer
      exact pwrite_nil buffer start
    rw [foldl_nil, flatten_nil, hid, modify_id, length_nil, Nat.add_zero]
  | cons piece pieces ih =>
    rw [foldl_cons, fillBuffer, ih, modify_modify_eq]
    refine Prod.ext ?_ ?_
    · dsimp only
      congr 1
      funext buffer
      exact (pwrite_append buffer start piece pieces.flatten).symm
    · simp [Nat.add_assoc]

variable {σ : Type} {session : ReadSession σ}

theorem collectInto_eof (index offset : Nat) (s : σ) (buffers : List Bytes) (length : Nat)
    (wires : List ((Nat × WireRead) × Nat × Bool)) :
    collectInto session index offset s buffers length true wires =
      (.ok (buffers, length, true), s) := by
  induction wires with
  | nil => rfl
  | cons wire wires ih =>
    exact ih

/-- What `vread_batch_into_nfs` records of a READ. -/
def received (wire : (Nat × WireRead) × Bytes × Bool) : (Nat × WireRead) × Nat × Bool :=
  (wire.1, wire.2.1.length, wire.2.2)

/-- The part of the buffer a READ has already filled. -/
def Filled (contents : NfsFh → Bytes) (places : List (NfsFh × Nat)) (buffers : List Bytes)
    (index off : Nat) (wire : (Nat × WireRead) × Bytes × Bool) : Prop :=
  ∀ p, wire.1.2.offset - off ≤ p → p < wire.1.2.offset - off + wire.2.1.length →
    RightAt contents places buffers index p

theorem collectInto_tiles (hsr : Serves session contents) {index : Nat}
    (hpl : places[index]? = some (fh, off)) (hle : lengths[index]? = some length)
    {wires : List ((Nat × WireRead) × Bytes × Bool)} {remaining : Nat}
    (ht : Tiles fh off start remaining (wires.map (·.1.2)))
    (han : ∀ wire ∈ wires, Answers contents wire.1.2 wire.2)
    (hfi : ∀ wire ∈ wires, charge wire.1.2 ≤ session.byteBudget)
    (hrange : off + start + remaining ≤ u64Max) (hst : start ≤ (contents fh).length - off)
    (hopen : wires ≠ [] ∨ off + start < (contents fh).length) (hto : start + remaining = length)
    (hb : buffers.map List.length = lengths)
    (hfill : ∀ wire ∈ wires, Filled contents places buffers index off wire)
    (hrt : ∀ p < start, RightAt contents places buffers index p) (s : σ) :
    ∃ buffers' s', collectInto session index off s buffers start false (wires.map received) =
        (.ok (buffers', (readSlice (contents fh) off length).1.length,
          (readSlice (contents fh) off length).2), s') ∧
      StaysRight contents places lengths buffers buffers' ∧
      ∀ p < (readSlice (contents fh) off length).1.length,
        RightAt contents places buffers' index p := by
  induction wires generalizing start remaining buffers s with
  | nil =>
    obtain rfl : remaining = 0 := ht
    have hi := hopen.resolve_left (by simp)
    have ha : (readSlice (contents fh) off length).1.length = start := by
      rw [readSlice, length_take, length_drop]
      omega
    refine ⟨buffers, s, ?_, ⟨hb, hb, fun _ _ h => h⟩, ha ▸ hrt⟩
    rw [ha, map_nil, collectInto]
    unfold readSlice at ha ⊢
    rw [ha, decide_eq_false (by omega)]
  | cons wire wires ih =>
    obtain ⟨⟨owner, op⟩, chunk, fin⟩ := wire
    obtain ⟨hfh, ho, hcn, hre⟩ := ht
    dsimp only at hfh ho hcn hre
    subst hfh
    have hra : op.offset + op.count ≤ u64Max := by omega
    have hch := hfill _ mem_cons_self
    obtain ⟨pieces, s₁, hc, hpc⟩ := completeReadChunk_serves index (fillBuffer index)
      hsr (hfi _ mem_cons_self) hra (han _ mem_cons_self) s
      (buffers, op.offset - off + chunk.length)
    dsimp only at hc hpc
    have hsu : chunk.length + pieces.flatten.length = (op.slice contents).length := by
      rw [← hpc, length_append]
    have hsl := length_slice op contents
    -- the repairs bring the rest of the slice
    have hr : pieces.flatten = ((contents op.fh).drop (off + (op.offset - off + chunk.length))).take
          pieces.flatten.length := by
      have hd := congrArg (drop chunk.length) hpc
      rw [drop_left, slice, drop_take, drop_drop] at hd
      rw [show off + (op.offset - off + chunk.length) = op.offset + chunk.length by omega]
      conv_lhs => rw [hd]
      rw [take_eq_take_iff, length_drop]
      omega
    obtain ⟨hs, hne⟩ := staysRight_modify hb hpl hle hr (by omega)
    have hn : ∀ p < start + (op.slice contents).length, RightAt contents places
        (buffers.modify index (pwrite · (op.offset - off + chunk.length) pieces.flatten))
        index p := by
      intro p hp
      rcases Nat.lt_or_ge p start with hold | hge
      · exact hs.2.2 _ _ (hrt p hold)
      · rcases Nat.lt_or_ge p (start + chunk.length) with hfs | hl
        · exact hs.2.2 _ _ (hch p (by dsimp only; omega) (by dsimp only; omega))
        · exact hne p (by omega) (by omega)
    rw [map_cons, received, collectInto]
    simp only [Bool.false_eq_true, if_false, hc, foldl_fillBuffer]
    by_cases he : (contents op.fh).length ≤ op.offset + (op.slice contents).length
    · rw [decide_eq_true he, collectInto_eof]
      have ha : (readSlice (contents op.fh) off length).1.length =
          start + (op.slice contents).length := by
        rw [readSlice, length_take, length_drop]
        omega
      refine ⟨_, s₁, ?_, hs, ha ▸ hn⟩
      unfold readSlice at ha ⊢
      rw [ha, decide_eq_true (by omega)]
    rw [decide_eq_false he]
    obtain ⟨hf, hi⟩ := slice_open he
    rw [hf]
    rw [hf] at hn
    obtain ⟨buffers', s₂, hco, hs', hrt'⟩ := ih hre (fun wire hw => han wire (mem_cons_of_mem _ hw))
      (fun wire hw => hfi wire (mem_cons_of_mem _ hw)) (by omega) (by omega)
      (.inr (by omega)) (by omega) hs.2.1
      (fun wire hw p hp hp' => hs.2.2 _ _ (hfill wire (mem_cons_of_mem _ hw) p hp hp')) hn s₁
    exact ⟨buffers', s₂, hco, hs.trans hs', hrt'⟩

end Buffers

/-- A plan for `reads`, the first of which has the index `i`: the file and the offset
of every request are in `places`. -/
inductive Planned : Nat → List ReadOp → DescriptorReadPlan → List (NfsFh × Nat) → Prop where
  | nil (i : Nat) : Planned i [] ⟨[], [], []⟩ []
  | cons {i : Nat} {read : ReadOp} {reads : List ReadOp} {fh : NfsFh} {off : Nat}
      {chunks : List WireRead} {plan : DescriptorReadPlan} {places : List (NfsFh × Nat)}
      (hrange : off + read.length ≤ u64Max) (htiles : Tiles fh off 0 read.length chunks)
      (hne : chunks ≠ []) (hrest : Planned (i + 1) reads plan places) :
      Planned i (read :: reads) ⟨chunks ++ plan.ops,
        replicate chunks.length i ++ plan.owners, off :: plan.offsets⟩ ((fh, off) :: places)

section Plans

variable {σ τ : Type} {session : ReadSession σ} {contents : NfsFh → Bytes}

theorem ReadSession.readPerOpBytes_pos (session : ReadSession σ) : 0 < session.readPerOpBytes := by
  have := session.perOpBytes_pos
  unfold readPerOpBytes
  omega

variable (session) in
theorem descriptorReadPlan_openFiles (buffers : Option (List Bytes)) (i : Nat) (fs : NfsFs σ)
    (reads : List ReadOp) :
    (descriptorReadPlan session buffers i fs reads).2.openFiles = fs.openFiles := by
  induction reads generalizing i fs with
  | nil => rfl
  | cons op reads ih =>
    have hr := session.resolveOffset_openFiles fs op.fd op.offset
    unfold descriptorReadPlan
    split
    · rfl
    split
    · rename_i e fs₁ heq
      rw [heq] at hr
      exact hr
    rename_i off fs₁ heq
    rw [heq] at hr
    have hre := (ih (i + 1) fs₁).trans hr
    split
    · exact hr
    split
    · exact hr
    split
    · rename_i hp
      rw [hp] at hre
      exact hre
    · rename_i hp
      rw [hp] at hre
      exact hre

/-- The file and the offset of a read, with the cursors of `openFiles`. -/
def placeOf (contents : NfsFh → Bytes) (openFiles : Int → Option NfsOpenState) (op : ReadOp) :
    Option (NfsFh × Nat) :=
  (openFiles op.fd).map fun opened =>
    (opened.fh, match op.offset with
      | .pos offset => offset
      | .cur => opened.curOffset
      | .eof => (contents opened.fh).length)

variable {fs : NfsFs σ} {i : Nat} {reads : List ReadOp} {fs' : NfsFs τ}

theorem resolveOffset_place (hs : Serves session contents) {fs₁ : NfsFs σ} {op : ReadOp} {off : Nat}
    {opened : NfsOpenState} (hr : session.resolveOffset fs op.fd op.offset = (.ok off, fs₁))
    (hopen : fs.openFiles op.fd = some opened) :
    placeOf contents fs.openFiles op = some (opened.fh, off) := by
  unfold placeOf
  rw [hopen, map_some]
  unfold WriteSession.resolveOffset at hr
  cases ho : op.offset with
  | pos offset =>
    rw [ho] at hr
    cases hr
    rfl
  | cur =>
    rw [ho, hopen] at hr
    cases hr
    rfl
  | eof =>
    rw [ho, hopen] at hr
    have hof : (session.fileSize fs.nfs opened.fh).1 = .ok off := congrArg Prod.fst hr
    rw [Except.ok.inj (hof.symm.trans (hs.size fs.nfs opened.fh))]

theorem descriptorReadPlan_planned {buffers : Option (List Bytes)} {fs' : NfsFs σ}
    {plan : DescriptorReadPlan}
    (h : descriptorReadPlan session buffers i fs reads = (.ok plan, fs')) :
    ∃ places, Planned i reads plan places ∧ ∀ contents, Serves session contents →
      Forall₂ (fun op place => placeOf contents fs.openFiles op = some place) reads places := by
  induction reads generalizing i fs fs' plan with
  | nil =>
    cases h
    exact ⟨[], .nil i, fun _ _ => .nil⟩
  | cons op reads ih =>
    unfold descriptorReadPlan at h
    split at h
    · cases h
    split at h
    · cases h
    rename_i off fs₁ hr
    have hta := session.resolveOffset_openFiles fs op.fd op.offset
    rw [hr] at hta
    split at h
    · cases h
    rename_i total ht
    split at h
    · cases h
    rename_i opened ho
    split at h
    · cases h
    rename_i rest fs₂ hre
    cases h
    obtain ⟨places, hpl, hp⟩ := ih hre
    rw [hta] at ho hp
    obtain ⟨hti, hne⟩ := chunkReads_tiles opened off session.readPerOpBytes_pos
      (Nat.le_refl op.length) 0
    refine ⟨_, .cons ?_ hti hne hpl, fun contents hs =>
      .cons (resolveOffset_place hs hr ho) (hp contents hs)⟩
    unfold checkedAdd at ht
    split at ht
    · assumption
    · cases ht

variable {other : ReadSession τ}

theorem resolveOffset_agree (hs : Serves session contents) (ho : Serves other contents)
    (ht : fs.openFiles = fs'.openFiles) (fd : Int) (offset : VfOffset) :
    (session.resolveOffset fs fd offset).1 = (other.resolveOffset fs' fd offset).1 := by
  unfold WriteSession.resolveOffset
  cases offset with
  | pos o => rfl
  | cur => simp only [ht]
  | eof =>
    dsimp only
    rw [ht]
    split
    · rfl
    · exact (hs.size _ _).trans (ho.size _ _).symm

theorem descriptorReadPlan_agree (hs : Serves session contents) (ho : Serves other contents)
    (hp : session.readPerOpBytes = other.readPerOpBytes) (hta : fs.openFiles = fs'.openFiles)
    {buffers : List Bytes} (hbu : (buffers.drop i).map List.length = reads.map ReadOp.length) :
    (descriptorReadPlan session none i fs reads).1 =
      (descriptorReadPlan other (some buffers) i fs' reads).1 := by
  induction reads generalizing i fs fs' with
  | nil => rfl
  | cons op reads ih =>
    obtain ⟨buffer, hb, hl, hn⟩ : ∃ buffer, buffers[i]? = some buffer ∧ buffer.length = op.length ∧
        (buffers.drop (i + 1)).map List.length = reads.map ReadOp.length := by
      cases hd : buffers.drop i with
      | nil =>
        rw [hd] at hbu
        cases hbu
      | cons buffer rest =>
        rw [hd, map_cons, map_cons, List.cons.injEq] at hbu
        refine ⟨buffer, ?_, hbu.1, ?_⟩
        · rw [← head?_drop, hd]
          rfl
        · rw [← tail_drop, hd]
          exact hbu.2
    have hr := resolveOffset_agree hs ho hta op.fd op.offset
    have ht := (session.resolveOffset_openFiles fs op.fd op.offset).trans
      (hta.trans (other.resolveOffset_openFiles fs' op.fd op.offset).symm)
    unfold descriptorReadPlan
    generalize session.resolveOffset fs op.fd op.offset = resolved at hr ht
    generalize other.resolveOffset fs' op.fd op.offset = resolved' at hr ht
    obtain ⟨off, fs₁⟩ := resolved
    obtain ⟨off', fs₁'⟩ := resolved'
    subst hr
    have hre : (descriptorReadPlan session none (i + 1) fs₁ reads).1 =
        (descriptorReadPlan other (some buffers) (i + 1) fs₁' reads).1 := ih ht hn
    simp only [any_none, any_some, hb, all_some, hl, bne_self_eq_false,
      Bool.false_eq_true, if_false]
    cases off with
    | error e => rfl
    | ok off =>
      dsimp only
      cases checkedAdd off op.length with
      | none => rfl
      | some total =>
        rw [ht, hp]
        cases fs₁'.openFiles op.fd with
        | none => rfl
        | some opened =>
          generalize descriptorReadPlan session none (i + 1) fs₁ reads = planned at hre
          generalize descriptorReadPlan other (some buffers) (i + 1) fs₁' reads = planned' at hre
          obtain ⟨plan, fs₂⟩ := planned
          obtain ⟨plan', fs₂'⟩ := planned'
          subst hre
          cases plan with
          | error e => rfl
          | ok plan => rfl

end Plans

section Gather

variable {contents : NfsFh → Bytes}

theorem forall₂_append_left {α β : Type} {R : α → β → Prop} {front back : List α}
    {items : List β} (h : Forall₂ R (front ++ back) items) :
    ∃ items₁ items₂, items = items₁ ++ items₂ ∧ Forall₂ R front items₁ ∧ Forall₂ R back items₂ := by
  induction front generalizing items with
  | nil => exact ⟨[], items, rfl, .nil, h⟩
  | cons x front ih =>
    cases h with
    | cons hx hr =>
      obtain ⟨items₁, items₂, rfl, hfr, hb⟩ := ih hr
      exact ⟨_ :: items₁, items₂, rfl, .cons hx hfr, hb⟩

variable {chunks : List WireRead} {items : List (Bytes × Bool)} {i : Nat} {reads : List ReadOp}
  {plan : DescriptorReadPlan} {places : List (NfsFh × Nat)}

theorem own_wires (i : Nat) (h : Forall₂ (Answers contents) chunks items) :
    (((replicate chunks.length i).zip chunks).zip items).map (·.1.2) = chunks ∧
      ∀ wire ∈ ((replicate chunks.length i).zip chunks).zip items,
        wire.1.1 = i ∧ wire.1.2 ∈ chunks ∧ Answers contents wire.1.2 wire.2 := by
  induction h with
  | nil => simp
  | @cons op item chunks items hi hr ih =>
    rw [length_cons, replicate_succ, zip_cons_cons, zip_cons_cons]
    refine ⟨by rw [map_cons, ih.1], fun wire hw => ?_⟩
    rcases mem_cons.mp hw with rfl | hw
    · exact ⟨rfl, mem_cons_self, hi⟩
    · obtain ⟨ho, hm, ha⟩ := ih.2 wire hw
      exact ⟨ho, mem_cons_of_mem _ hm, ha⟩

theorem Planned.owners_ge (h : Planned i reads plan places) : ∀ owner ∈ plan.owners, i ≤ owner := by
  induction h with
  | nil => simp
  | cons hr ht hne hre ih =>
    intro owner ho
    rcases mem_append.mp ho with ho | ho
    · exact Nat.le_of_eq (eq_of_mem_replicate ho).symm
    · exact Nat.le_of_succ_le (ih owner ho)

theorem split_wires {γ : Type} {mine later : List ((Nat × WireRead) × γ)}
    (hm : ∀ wire ∈ mine, wire.1.1 = i) (hl : ∀ wire ∈ later, i < wire.1.1) :
    (mine ++ later).takeWhile (·.1.1 == i) = mine ∧
      (mine ++ later).dropWhile (·.1.1 == i) = later := by
  have ha : ∀ wire ∈ mine, (wire.1.1 == i) = true := fun wire hw => by
    simp [hm wire hw]
  have hs : later.takeWhile (·.1.1 == i) = [] ∧ later.dropWhile (·.1.1 == i) = later := by
    cases later with
    | nil => exact ⟨rfl, rfl⟩
    | cons wire rest =>
      have hne : (wire.1.1 == i) = false := by
        have := hl wire mem_cons_self
        simp only [beq_eq_false_iff_ne]
        omega
      simp [hne]
  rw [takeWhile_append_of_pos ha, dropWhile_append_of_pos ha, hs.1, hs.2]
  exact ⟨append_nil mine, rfl⟩

/-- How the READs of a plan fall into those of its first request and the rest. -/
theorem wires_cons {offsets : List Nat} {items₁ items₂ : List (Bytes × Bool)}
    (hl : items₁.length = chunks.length) :
    (DescriptorReadPlan.wires ⟨chunks ++ plan.ops, replicate chunks.length i ++ plan.owners,
        offsets⟩).zip (items₁ ++ items₂) =
      ((replicate chunks.length i).zip chunks).zip items₁ ++ plan.wires.zip items₂ := by
  unfold DescriptorReadPlan.wires
  rw [zip_append (by simp), zip_append (by simp [hl])]

theorem Planned.later_wires (h : Planned (i + 1) reads plan places) (items : List (Bytes × Bool)) :
    ∀ wire ∈ plan.wires.zip items, i < wire.1.1 := by
  intro wire hw
  have ho := (of_mem_zip (of_mem_zip hw).1).1
  exact h.owners_ge _ ho

def readResults (contents : NfsFh → Bytes) : List ReadOp → List (NfsFh × Nat) → List ReadResult
  | op :: reads, (fh, off) :: places =>
    ⟨op.fd, off, (readSlice (contents fh) off op.length).1,
      (readSlice (contents fh) off op.length).2⟩ :: readResults contents reads places
  | _, _ => []

theorem checkedAdd_slice {content : Bytes} {off length : Nat} (hr : off + length ≤ u64Max) :
    checkedAdd off (readSlice content off length).1.length =
      some (off + (readSlice content off length).1.length) := by
  refine if_pos ?_
  rw [readSlice, length_take, length_drop]
  omega

variable {σ : Type} {session : ReadSession σ}

theorem gatherOwned_planned (hs : Serves session contents) (h : Planned i reads plan places)
    (hi : Forall₂ (Answers contents) plan.ops items)
    (hf : ∀ op ∈ plan.ops, charge op ≤ session.byteBudget) (s : σ) :
    (gatherOwned session s i (reads.zip plan.offsets) (plan.wires.zip items)).1 =
      .ok (readResults contents reads places) := by
  induction h generalizing items s with
  | nil => rfl
  | @cons i read reads fh off chunks plan places hr ht hne hre ih =>
    obtain ⟨items₁, items₂, rfl, hfr, hb⟩ := forall₂_append_left hi
    obtain ⟨hc, ho⟩ := own_wires i hfr
    rw [wires_cons hfr.length_eq.symm, zip_cons_cons, gatherOwned]
    obtain ⟨hm, hl⟩ := split_wires (fun wire hw => (ho wire hw).1) (hre.later_wires items₂)
    rw [hm, hl]
    obtain ⟨s₁, hco⟩ := collectOwned_tiles hs i (hc ▸ ht) (fun wire hw => (ho wire hw).2.2)
      (fun wire hw => hf _ (mem_append_left _ (ho wire hw).2.1))
      (by omega) (Nat.zero_le _)
      (.inl fun hn => hne (by rw [← hc, hn]; rfl)) s
    have hg := ih hb (fun op hop => hf op (mem_append_right _ hop)) s₁
    rw [take_zero, Nat.zero_add] at hco
    simp only [hco, checkedAdd_slice hr]
    generalize gatherOwned session s₁ (i + 1) (reads.zip plan.offsets)
      (plan.wires.zip items₂) = done at hg
    obtain ⟨result, s₂⟩ := done
    subst hg
    rfl

/-- The same result, for a read into a buffer. -/
def ReadResult.into (result : ReadResult) : ReadIntoResult :=
  ⟨result.fd, result.offset, result.data.length, result.eof⟩

theorem gatherInto_planned (hsr : Serves session contents) (h : Planned i reads plan places)
    (hi : Forall₂ (Answers contents) plan.ops items)
    (hfi : ∀ op ∈ plan.ops, charge op ≤ session.byteBudget) {all : List (NfsFh × Nat)}
    {lengths : List Nat} (ha : all.drop i = places) (hle : lengths.drop i = reads.map ReadOp.length)
    {buffers : List Bytes} (hbu : buffers.map List.length = lengths)
    (hf : ∀ wire ∈ plan.wires.zip items, ∀ fh off, all[wire.1.1]? = some (fh, off) →
      Filled contents all buffers wire.1.1 off wire) (s : σ) :
    ∃ buffers', (gatherInto session s i buffers (reads.zip plan.offsets)
        ((plan.wires.zip items).map received)).1 =
          .ok ((readResults contents reads places).map ReadResult.into, buffers') ∧
      StaysRight contents all lengths buffers buffers' ∧
      ∀ k result, (readResults contents reads places)[k]? = some result →
        ∀ p < result.data.length, RightAt contents all buffers' (i + k) p := by
  induction h generalizing items buffers s with
  | nil =>
    exact ⟨buffers, rfl, ⟨hbu, hbu, fun _ _ hrt => hrt⟩, fun k result hk => by cases hk⟩
  | @cons i read reads fh off chunks plan places hr ht hne hre ih =>
    obtain ⟨items₁, items₂, rfl, hfr, hb⟩ := forall₂_append_left hi
    obtain ⟨hc, ho⟩ := own_wires i hfr
    have hplc : all[i]? = some (fh, off) := by
      rw [← head?_drop, ha]
      rfl
    have hl : lengths[i]? = some read.length := by
      rw [← head?_drop, hle]
      rfl
    rw [wires_cons hfr.length_eq.symm] at hf ⊢
    rw [zip_cons_cons, gatherInto]
    obtain ⟨hmi, hla⟩ := split_wires (fun wire hw => (ho wire hw).1) (hre.later_wires items₂)
    -- the owner of a READ is not changed by what is recorded of its answer
    have howner : ((·.1.1 == i) ∘ received :
        (Nat × WireRead) × Bytes × Bool → Bool) = (·.1.1 == i) := rfl
    rw [takeWhile_map, dropWhile_map, howner, hmi, hla]
    have hm : Tiles fh off 0 read.length
        ((((replicate chunks.length i).zip chunks).zip items₁).map (·.1.2)) := by
      rw [hc]
      exact ht
    obtain ⟨buffers₁, s₁, hco, hs, hrt⟩ := collectInto_tiles hsr hplc hl
      hm (fun wire hw => (ho wire hw).2.2)
      (fun wire hw => hfi _ (mem_append_left _ (ho wire hw).2.1))
      (by omega) (Nat.zero_le _)
      (.inl fun hni => hne (by rw [← hc, hni]; rfl)) (Nat.zero_add _) hbu
      (fun wire hw => by
        have howned := (ho wire hw).1
        have := hf wire (mem_append_left _ hw) fh off (howned ▸ hplc)
        rwa [howned] at this)
      (fun p hp => by cases hp) s
    have hnextAll : all.drop (i + 1) = places := by
      rw [← tail_drop, ha]
      rfl
    have hn : lengths.drop (i + 1) = reads.map ReadOp.length := by
      rw [← tail_drop, hle]
      rfl
    obtain ⟨buffers₂, hg, hs₂, hrt₂⟩ := ih hb
      (fun op hop => hfi op (mem_append_right _ hop)) hnextAll hn hs.2.1
      (fun wire hw fh off hpl p hp hp' => hs.2.2 _ _
        (hf wire (mem_append_right _ hw) fh off hpl p hp hp')) s₁
    simp only [hco, checkedAdd_slice hr]
    generalize gatherInto session s₁ (i + 1) buffers₁ (reads.zip plan.offsets)
      ((plan.wires.zip items₂).map received) = done at hg
    obtain ⟨result, s₂⟩ := done
    subst hg
    refine ⟨buffers₂, rfl, hs.trans hs₂, fun k result hk p hp => ?_⟩
    cases k with
    | zero =>
      obtain rfl := some.inj hk
      exact hs₂.2.2 _ _ (hrt p hp)
    | succ k =>
      have := hrt₂ k result hk p hp
      rwa [Nat.add_assoc, Nat.add_comm 1] at this

end Gather

section Destination

variable {contents : NfsFh → Bytes}
  {start : Nat} {op : WireRead} {reads : List ReadOp} {plan : DescriptorReadPlan}
  {places : List (NfsFh × Nat)}

theorem Tiles.mem {fh : NfsFh} {off remaining : Nat} {ops : List WireRead}
    (h : Tiles fh off start remaining ops) (hop : op ∈ ops) :
    op.fh = fh ∧ off + start ≤ op.offset ∧ op.offset + op.count ≤ off + start + remaining := by
  induction ops generalizing start remaining with
  | nil => cases hop
  | cons first ops ih =>
    obtain ⟨hfh, ho, hc, hr⟩ := h
    rcases mem_cons.mp hop with rfl | hop
    · exact ⟨hfh, by omega, by omega⟩
    · obtain ⟨hfh', hl, hh⟩ := ih hr hop
      exact ⟨hfh', by omega, by omega⟩

theorem Planned.wire {i : Nat} (h : Planned i reads plan places) {wire : Nat}
    (hop : plan.ops[wire]? = some op) :
    ∃ k read off, plan.owners[wire]? = some (i + k) ∧ reads[k]? = some read ∧
      places[k]? = some (op.fh, off) ∧ plan.offsets[k]? = some off ∧ off ≤ op.offset ∧
      op.offset + op.count ≤ off + read.length := by
  induction h generalizing wire with
  | nil => cases hop
  | @cons i read reads fh off chunks plan places hra ht hne hre ih =>
    rcases Nat.lt_or_ge wire chunks.length with hlt | hge
    · rw [getElem?_append_left hlt] at hop
      obtain ⟨rfl, hl, hh⟩ := ht.mem (mem_of_getElem? hop)
      refine ⟨0, read, off, ?_, rfl, rfl, rfl, by omega, by omega⟩
      rw [getElem?_append_left (by simpa using hlt), getElem?_replicate, if_pos hlt]
      rfl
    rw [getElem?_append_right hge] at hop
    obtain ⟨k, read', off', ho, hr, hp, hof, hl, hh⟩ := ih hop
    refine ⟨k + 1, read', off', ?_, hr, hp, hof, hl, hh⟩
    rw [getElem?_append_right (by simpa using hge), length_replicate, ho]
    congr 1
    omega

/-- READ number `wire` of the plan has filled its part of the buffers. -/
def WireFilled (contents : NfsFh → Bytes) (plan : DescriptorReadPlan)
    (places : List (NfsFh × Nat)) (buffers : List Bytes) (wire : Nat) (item : Bytes × Bool) :
    Prop :=
  ∀ owner op fh off, plan.owners[wire]? = some owner → plan.ops[wire]? = some op →
    places[owner]? = some (fh, off) → Filled contents places buffers owner off ((owner, op), item)

theorem wireFilled_storage (plan : DescriptorReadPlan) (places : List (NfsFh × Nat))
    (lengths : List Nat) :
    Storage (StaysRight contents places lengths) (WireFilled contents plan places) where
  trans _ _ _ h h' := h.trans h'
  keeps _ _ _ _ hs hf owner op fh off ho hop hpl p hp hp' :=
    hs.2.2 _ _ (hf owner op fh off ho hop hpl p hp hp')

theorem intoBuffer_decoder (h : Planned 0 reads plan places) {group rest : List WireRead}
    (hops : plan.ops.drop start = group ++ rest) :
    Decoder contents group (intoBuffer plan start) (fun item => (item.1.length, item.2))
      (StaysRight contents places (reads.map ReadOp.length))
      fun buffers wire => WireFilled contents plan places buffers (start + wire) where
  trans := (wireFilled_storage plan places _).trans
  keeps b b' wire item := (wireFilled_storage plan places _).keeps b b' (start + wire) item
  accepts buffers wire op item hb hop ha := by
    obtain ⟨data, eof⟩ := item
    have hw : plan.ops[start + wire]? = some op := by
      have hlt := (List.getElem?_eq_some_iff.mp hop).1
      rw [← getElem?_drop, hops, getElem?_append_left hlt]
      exact hop
    obtain ⟨k, read, off, ho, hr, hpl, hof, hlo, hh⟩ := h.wire hw
    rw [Nat.zero_add] at ho
    have hl : (reads.map ReadOp.length)[k]? = some read.length := by
      rw [getElem?_map, hr]
      rfl
    have hle := ha.length_le
    have hd := ha.data_eq
    dsimp only at hle hd
    have hsl : data = ((contents op.fh).drop (off + (op.offset - off))).take data.length := by
      rw [Nat.add_sub_cancel' hlo]
      exact hd
    obtain ⟨hs, hn⟩ := staysRight_modify hb.1 hpl hl hsl (by omega)
    refine ⟨buffers.modify k (ByteFile.pwrite · (op.offset - off) data), ?_, hs,
      ⟨hs.2.1, hs.2.1, fun _ _ hrt => hrt⟩, ?_⟩
    · obtain ⟨buffer, hbuf, hbu⟩ : ∃ buffer, buffers[k]? = some buffer ∧
          buffer.length = read.length := by
        rw [← hb.1, getElem?_map] at hl
        exact map_eq_some_iff.mp hl
      unfold intoBuffer
      simp only [ho, hw, hof, hbuf, getD_some, elim_some, any_some]
      rw [if_pos]
      simp only [decide_eq_true_eq]
      omega
    intro owner op' fh off' ho' hop' hpl' p hp hp'
    rw [ho] at ho'
    obtain rfl := some.inj ho'
    rw [hw] at hop'
    obtain rfl := some.inj hop'
    rw [hpl] at hpl'
    obtain ⟨rfl, rfl⟩ := Prod.mk.inj (some.inj hpl')
    exact hn p hp hp'

end Destination

end Vnfs.Nfs.DescriptorReads
