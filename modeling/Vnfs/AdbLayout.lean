import Vnfs.Core
import Vnfs.Lib.Xdr

/-!
The layout of an application data block pattern. Every overflow is checked on the last
block only; the blocks themselves are then computed in wrapping arithmetic. The SMB client
lays out a pattern before it opens the file of it.
-/

namespace Vnfs.AdbLayout

structure Adb where
  path : Bytes
  adbOffset : UInt64
  adbBlockSize : UInt64
  adbBlockCount : UInt64
  adbReloffBlocknum : Option UInt64
  adbBlockNum : UInt64
  adbReloffPattern : Option UInt64
  adbPatternData : Bytes
  /-- A length is a `usize`, here of 64 bits. -/
  length_le : adbPatternData.length ≤ u64Max

abbrev Block := UInt64 × Option UInt64 × Option UInt64

def checkedMul (a b : Nat) : Option Nat := if a * b ≤ u64Max then some (a * b) else none

/-- Whether a field of `length` bytes fits behind `base`. -/
def field (base : Nat) (relative : Option UInt64) (length : Nat) : Option Unit :=
  match relative with
  | none => some ()
  | some relative => do
    let offset ← checkedAdd base relative.toNat
    let _ ← checkedAdd offset length

def checkLast (pattern : Adb) (last : Nat) : Option Unit := do
  let offset ← checkedMul last pattern.adbBlockSize.toNat
  let base ← checkedAdd pattern.adbOffset.toNat offset
  let _ ← checkedAdd pattern.adbBlockNum.toNat last
  field base pattern.adbReloffBlocknum 8
  field base pattern.adbReloffPattern pattern.adbPatternData.length

def block (pattern : Adb) (block : UInt64) : Block :=
  let base := pattern.adbOffset + block * pattern.adbBlockSize
  (pattern.adbBlockNum + block, pattern.adbReloffBlocknum.map (base + ·),
    pattern.adbReloffPattern.map (base + ·))

def adbLayout (pattern : Adb) (index : Nat) : VfResult (List Block) :=
  let blocks := (List.range pattern.adbBlockCount.toNat).map fun i => block pattern (.ofNat i)
  match pattern.adbBlockCount.toNat with
  | 0 => .ok blocks
  | last + 1 =>
    match checkLast pattern last with
    | none => .error (.errno (some index) VfError.eoverflow)
    | some () => .ok blocks

/-- The handle operations of a backend in state `σ`. -/
structure HandleBackend (σ : Type) where
  openRawImpl : Bytes → Nat → Nat → σ → VfResult FileOperand × σ
  writeRawImpl : FileOperand → UInt64 → Bytes → σ → VfResult Nat × σ
  closeImpl : FileOperand → σ → VfResult Unit × σ

section Write

variable {σ : Type} (backend : HandleBackend σ)

/-- The write of a field, if the block has it. The count of bytes is not looked at. -/
def writeField (file : FileOperand) (offset : Option UInt64) (data : Bytes) (s : σ) :
    VfResult Unit × σ :=
  match offset with
  | none => (.ok (), s)
  | some offset => (backend.writeRawImpl file offset data s).map (·.map fun _ => ()) id

def writeBlocks (file : FileOperand) (data : Bytes) : List Block → σ → VfResult Unit × σ
  | [], s => (.ok (), s)
  | (blockNumber, numberOffset, patternOffset) :: layout, s =>
    match writeField backend file numberOffset (Xdr.be 8 blockNumber.toNat) s with
    | (.error e, s) => (.error e, s)
    | (.ok (), s) =>
      match writeField backend file (patternOffset.filter fun _ => !data.isEmpty) data s with
      | (.error e, s) => (.error e, s)
      | (.ok (), s) => writeBlocks file data layout s

/-- One pass of the loop: the count of the pattern at `index`. -/
def writePattern (pattern : Adb) (index : Nat) (s : σ) : VfResult Nat × σ :=
  match adbLayout pattern index with
  | .error e => (.error e, s)
  | .ok layout =>
    -- `O_WRONLY | O_CREAT`
    match backend.openRawImpl pattern.path 65 0o666 s with
    | (.error e, s) => (.error (e.withIndex index), s)
    | (.ok file, s) =>
      let (result, s) := writeBlocks backend file pattern.adbPatternData layout s
      let (close, s) := backend.closeImpl file s
      ((result.bind fun _ => close.map fun _ => pattern.adbBlockCount.toNat).mapError
        (·.withIndex index), s)

def vwriteAdbFrom (index : Nat) (counts : List Nat) : List Adb → σ → VfResult (List Nat) × σ
  | [], s => (.ok counts, s)
  | pattern :: patterns, s =>
    match writePattern backend pattern index s with
    | (.error e, s) => (.error e, s)
    | (.ok count, s) => vwriteAdbFrom (index + 1) (counts ++ [count]) patterns s

def vwriteAdbImpl (patterns : List Adb) : σ → VfResult (List Nat) × σ :=
  vwriteAdbFrom backend 0 [] patterns

/-- A pattern without a layout leaves everything as the patterns before it did. -/
theorem vwriteAdbFrom_error {front back : List Adb} {pattern : Adb} {index : Nat} {e : VfError}
    (h : adbLayout pattern (index + front.length) = .error e) (counts : List Nat) (s : σ) :
    (vwriteAdbFrom backend index counts (front ++ pattern :: back) s).2 =
      (vwriteAdbFrom backend index counts front s).2 := by
  induction front generalizing index counts s with
  | nil =>
    rw [List.length_nil, Nat.add_zero] at h
    have hw : writePattern backend pattern index s = (.error e, s) := by
      unfold writePattern
      rw [h]
    rw [List.nil_append, vwriteAdbFrom, vwriteAdbFrom, hw]
  | cons first front ih =>
    rw [List.length_cons, Nat.add_comm front.length, ← Nat.add_assoc] at h
    rw [List.cons_append, vwriteAdbFrom, vwriteAdbFrom]
    match writePattern backend first index s with
    | (.error _, _) => rfl
    | (.ok count, s) => exact ih h _ s

end Write

section Unbounded

variable (pattern : Adb) (i : Nat)

def baseAt : Nat := pattern.adbOffset.toNat + i * pattern.adbBlockSize.toNat

/-- A block in unbounded numbers. -/
def blockAt : Nat × Option Nat × Option Nat :=
  (pattern.adbBlockNum.toNat + i, pattern.adbReloffBlocknum.map (baseAt pattern i + ·.toNat),
    pattern.adbReloffPattern.map (baseAt pattern i + ·.toNat))

/-- Everything of a block, with the ends of its fields, fits 64 bits. -/
structure Fits : Prop where
  base : baseAt pattern i ≤ u64Max
  number : pattern.adbBlockNum.toNat + i ≤ u64Max
  blocknum : ∀ relative ∈ pattern.adbReloffBlocknum,
    baseAt pattern i + relative.toNat + 8 ≤ u64Max
  data : ∀ relative ∈ pattern.adbReloffPattern,
    baseAt pattern i + relative.toNat + pattern.adbPatternData.length ≤ u64Max

end Unbounded

variable {pattern : Adb} {i : Nat}

theorem baseAt_mono {j : Nat} (h : i ≤ j) : baseAt pattern i ≤ baseAt pattern j :=
  Nat.add_le_add_left (Nat.mul_le_mul_right _ h) _

theorem Fits.mono {j : Nat} (hij : i ≤ j) (h : Fits pattern j) : Fits pattern i := by
  have hb : baseAt pattern i ≤ baseAt pattern j := baseAt_mono hij
  refine ⟨hb.trans h.base, ?_, fun relative hr => ?_, fun relative hr => ?_⟩
  · have := h.number
    omega
  · have := h.blocknum relative hr
    omega
  · have := h.data relative hr
    omega

open Option

theorem field_iff {base length : Nat} {relative : Option UInt64} :
    field base relative length = some () ↔ ∀ r ∈ relative, base + r.toNat + length ≤ u64Max := by
  cases relative with
  | none => simp [field]
  | some r =>
    by_cases ha : base + r.toNat ≤ u64Max
    · by_cases he : base + r.toNat + length ≤ u64Max
      · simp [field, checkedAdd, ha, he]
      · simp [field, checkedAdd, ha, he]
    · simp only [field, checkedAdd, ha, mem_some_iff, forall_eq']
      exact iff_of_false (by simp) (by omega)

theorem checkLast_iff {last : Nat} : checkLast pattern last = some () ↔ Fits pattern last := by
  unfold checkLast checkedMul
  by_cases hb : baseAt pattern last ≤ u64Max
  · have hm : last * pattern.adbBlockSize.toNat ≤ u64Max := by
      unfold baseAt at hb
      omega
    have ha : pattern.adbOffset.toNat + last * pattern.adbBlockSize.toNat ≤ u64Max := hb
    by_cases hn : pattern.adbBlockNum.toNat + last ≤ u64Max
    · simp only [hm, checkedAdd, ha, hn, if_true, bind_eq_bind, bind_some]
      rw [bind_eq_some_iff]
      constructor
      · rintro ⟨⟨⟩, hbl, hd⟩
        exact ⟨hb, hn, field_iff.mp hbl, field_iff.mp hd⟩
      · intro h
        exact ⟨(), field_iff.mpr h.blocknum, field_iff.mpr h.data⟩
    · exact iff_of_false (by simp [hm, checkedAdd, hn]) fun h => hn h.number
  · refine iff_of_false ?_ fun h => hb h.base
    have ha : ¬pattern.adbOffset.toNat + last * pattern.adbBlockSize.toNat ≤ u64Max := hb
    by_cases hm : last * pattern.adbBlockSize.toNat ≤ u64Max <;> simp [hm, checkedAdd, ha]

def toUnbounded (block : Block) : Nat × Option Nat × Option Nat :=
  (block.1.toNat, block.2.1.map UInt64.toNat, block.2.2.map UInt64.toNat)

theorem toNat_add_of_le {a b : UInt64} (h : a.toNat + b.toNat ≤ u64Max) :
    (a + b).toNat = a.toNat + b.toNat := by
  rw [UInt64.toNat_add]
  exact Nat.mod_eq_of_lt (Nat.lt_of_le_of_lt h (by decide))

/-- Wrapping arithmetic is exact for a block that fits. -/
theorem toUnbounded_block (h : Fits pattern i) :
    toUnbounded (block pattern (.ofNat i)) = blockAt pattern i := by
  have hn := h.number
  have hi : (UInt64.ofNat i).toNat = i := by
    rw [UInt64.toNat_ofNat']
    exact Nat.mod_eq_of_lt (Nat.lt_of_le_of_lt (Nat.le_of_add_left_le hn) (by decide))
  have hm : (UInt64.ofNat i * pattern.adbBlockSize).toNat = i * pattern.adbBlockSize.toNat := by
    rw [UInt64.toNat_mul, hi]
    exact Nat.mod_eq_of_lt (Nat.lt_of_le_of_lt (Nat.le_of_add_left_le h.base) (by decide))
  have hb : (pattern.adbOffset + UInt64.ofNat i * pattern.adbBlockSize).toNat =
      baseAt pattern i := by
    rw [toNat_add_of_le (by rw [hm]; exact h.base), hm]
    rfl
  refine Prod.ext ?_ (Prod.ext ?_ ?_)
  · show (pattern.adbBlockNum + UInt64.ofNat i).toNat = _
    rw [toNat_add_of_le (by rw [hi]; exact hn), hi]
    rfl
  · simp only [toUnbounded, block, blockAt, map_map]
    refine map_congr fun relative hr => ?_
    have := h.blocknum relative hr
    rw [Function.comp_apply, toNat_add_of_le (by omega), hb]
  · simp only [toUnbounded, block, blockAt, map_map]
    refine map_congr fun relative hr => ?_
    have := h.data relative hr
    rw [Function.comp_apply, toNat_add_of_le (by omega), hb]

/-- The layout is refused exactly if some block does not fit, and is otherwise the blocks in
unbounded numbers. For a refused pattern nothing is written. -/
theorem adbLayout_exact (pattern : Adb) (index : Nat) :
    ((∃ blocks, adbLayout pattern index = .ok blocks) ↔
      ∀ i < pattern.adbBlockCount.toNat, Fits pattern i) ∧
    (∀ blocks, adbLayout pattern index = .ok blocks →
      blocks.map toUnbounded = (List.range pattern.adbBlockCount.toNat).map (blockAt pattern)) ∧
    ∀ e front back, adbLayout pattern front.length = .error e →
      ∀ (σ : Type) (backend : HandleBackend σ) (s : σ),
        (vwriteAdbImpl backend (front ++ pattern :: back) s).2 =
          (vwriteAdbImpl backend front s).2 := by
  have hfits : (∃ blocks, adbLayout pattern index = .ok blocks) ↔
      ∀ i < pattern.adbBlockCount.toNat, Fits pattern i := by
    unfold adbLayout
    split
    · rename_i hcount
      exact iff_of_true ⟨_, rfl⟩ fun i hi => by omega
    · rename_i last hcount
      split
      · rename_i hcheck
        refine iff_of_false (fun ⟨_, h⟩ => nomatch h) fun h => ?_
        rw [checkLast_iff.mpr (h last (by omega))] at hcheck
        cases hcheck
      · rename_i hcheck
        exact iff_of_true ⟨_, rfl⟩ fun i hi => (checkLast_iff.mp hcheck).mono (by omega)
  refine ⟨hfits, fun blocks h => ?_, fun e front back h σ backend =>
    vwriteAdbFrom_error backend (by rwa [Nat.zero_add]) []⟩
  have hall := hfits.mp ⟨blocks, h⟩
  have hblocks : blocks = (List.range pattern.adbBlockCount.toNat).map
      fun i => block pattern (.ofNat i) := by
    unfold adbLayout at h
    split at h
    · exact (Except.ok.inj h).symm
    · split at h
      · cases h
      · exact (Except.ok.inj h).symm
  rw [hblocks, List.map_map]
  exact List.map_congr_left fun i hi => toUnbounded_block (hall i (List.mem_range.mp hi))

end Vnfs.AdbLayout
